import JsonPipe.Proofs.Run.Presets
import JsonPipe.Proofs.Source.Composition
import JsonPipe.Proofs.Source.RoundTrip

/-! Definitions in parentheses.

    A pipeline in parentheses becomes part of the pipeline around it, and a definition holds for all
    that comes after it there. So the parentheses end, and the definitions made directly inside of
    them go on: what follows runs in the scope that the last instruction inside leaves behind
    (`Run.arrivals`). Only definitions further inside, in the operands of instructions, are hidden. -/

namespace JsonPipe

/-- The names that the instructions of a pipeline define, those in their operands apart. -/
def Pipeline.definitions (p : Pipeline) : List String :=
  p.filterMap fun
    | .define name _ => some name
    | _ => none

/-- Names bound one after the other. -/
def Scope.bindEach (bound : List (String × Value)) (scope : Scope) : Scope :=
  bound.foldl (fun outer b => outer.bind b.1 b.2) scope

namespace Outcome

variable {α β γ : Type}

theorem mem_outputs_append {o : Outcome α} {more : Unit → Outcome α} {a : α}
    (h : a ∈ (o.append more).outputs) : a ∈ o.outputs ∨ a ∈ (more ()).outputs := by
  induction o with
  | done => exact .inr h
  | fail e => exact .inl h
  | next x rest ih =>
    rcases List.mem_cons.1 h with rfl | h
    · exact .inl List.mem_cons_self
    · exact (ih () h).imp_left (List.mem_cons_of_mem x)

theorem mem_outputs_bind {o : Outcome α} {f : α → Outcome β} {b : β}
    (h : b ∈ (o.bind f).outputs) : ∃ a ∈ o.outputs, b ∈ (f a).outputs := by
  induction o with
  | done => cases h
  | fail e => cases h
  | next x rest ih =>
    rw [next_bind] at h
    rcases mem_outputs_append h with h | h
    · exact ⟨x, List.mem_cons_self, h⟩
    · obtain ⟨a, ha, hb⟩ := ih () h
      exact ⟨a, List.mem_cons_of_mem x ha, hb⟩

theorem outputs_map (f : α → β) (o : Outcome α) : (o.map f).outputs = o.outputs.map f := by
  induction o with
  | done => rfl
  | fail e => rfl
  | next x rest ih => rw [map, outputs, outputs, List.map_cons, ih]

theorem each_bind (o : Outcome α) (f : α → Outcome β) (g : β → Except Failure (List γ)) :
    (o.bind f).each g = o.each fun a => (f a).each g := by
  rw [each, bind_assoc, collect_bind]
  rfl

theorem each_map (o : Outcome α) (f : α → β) (g : β → Except Failure (List γ)) :
    (o.map f).each g = o.each fun a => g (f a) := by
  rw [map_eq_bind, each_bind]
  simp only [each, one_bind, collect_ofExcept]

theorem bind_congr {o : Outcome α} {f g : α → Outcome β} (h : ∀ a ∈ o.outputs, f a = g a) :
    o.bind f = o.bind g := by
  induction o with
  | done => rfl
  | fail e => rfl
  | next x rest ih =>
    obtain ⟨hx, hrest⟩ := List.forall_mem_cons.1 h
    rw [next_bind, next_bind, hx, ih () hrest]

theorem each_congr {o : Outcome α} {f g : α → Except Failure (List β)}
    (h : ∀ a ∈ o.outputs, f a = g a) : o.each f = o.each g := by
  rw [each, each, bind_congr fun a ha => by rw [h a ha]]

/-- The failure of the first output that is handed on ends everything. -/
theorem each_eq_error {o : Outcome α} {a : α} {rest : List α} (h : o.outputs = a :: rest)
    {f : α → Except Failure (List β)} {e : Failure} (hf : f a = .error e) : o.each f = .error e := by
  rw [each_eq, h, fanOut, List.mapM_cons, hf]
  rfl

end Outcome

namespace Run

/-- The outputs of a pipeline, each with the scope for what would come next in the pipeline. -/
def arrivals (call : Call) : Pipeline → Scope → Value → Outcome (Scope × Value)
  | [], scope, input => .one (scope, input)
  | .define name body :: rest, scope, input =>
    (pipeline call body scope input).bind fun v => arrivals call rest (scope.bind name v) input
  | i :: rest, scope, input =>
    (instruction call i scope input).bind fun v => arrivals call rest scope v

/-- The second of two pipelines runs where the first one arrives. -/
theorem pipeline_append (call : Call) (p q : Pipeline) (scope : Scope) (input : Value) :
    pipeline call (p ++ q) scope input =
      (arrivals call p scope input).bind fun a => pipeline call q a.1 a.2 := by
  induction p generalizing scope input with
  | nil => rw [arrivals, Outcome.one_bind, List.nil_append]
  | cons i p ih =>
    rw [List.cons_append, pipeline_cons]
    cases i with
    | define name body => simp only [arrivals, ih, Outcome.bind_assoc]
    | _ => simp only [arrivals, ih, Outcome.bind_assoc]

/-- What a pipeline arrives with are its outputs. -/
theorem arrivals_outputs (call : Call) (p : Pipeline) (scope : Scope) (input : Value) :
    (arrivals call p scope input).map (·.2) = pipeline call p scope input := by
  have happend := pipeline_append call p [] scope input
  rw [List.append_nil] at happend
  rw [happend, Outcome.map_eq_bind]
  simp only [pipeline]

/-- The scope has changed by the definitions of the pipeline. -/
theorem scope_of_mem_arrivals {call : Call} {p : Pipeline} {scope : Scope} {input : Value}
    {a : Scope × Value} (ha : a ∈ (arrivals call p scope input).outputs) :
    ∃ bound, bound.map (·.1) = p.definitions ∧ a.1 = scope.bindEach bound := by
  induction p generalizing scope input with
  | nil =>
    cases List.mem_singleton.1 ha
    exact ⟨[], rfl, rfl⟩
  | cons i p ih =>
    cases i with
    | define name body =>
      obtain ⟨v, -, hv⟩ := Outcome.mem_outputs_bind ha
      obtain ⟨bound, hnames, hscope⟩ := ih hv
      refine ⟨(name, v) :: bound, ?_, hscope⟩
      rw [List.map_cons, hnames]
      rfl
    | _ =>
      obtain ⟨v, -, hv⟩ := Outcome.mem_outputs_bind ha
      exact ih hv

end Run

namespace Scope

/-- A name has the value it was bound to last, any other name the value from before. -/
theorem lookup_bindEach (bound : List (String × Value)) (scope : Scope) (name : String) :
    (scope.bindEach bound).lookup name = (bound.reverse.lookup name).or (scope.lookup name) := by
  induction bound generalizing scope with
  | nil => rfl
  | cons b bound ih =>
    obtain ⟨bname, v⟩ := b
    have hlast : (scope.bind bname v).lookup name =
        (List.lookup name [(bname, v)]).or (scope.lookup name) := by
      rw [lookup_bind]
      by_cases h : name = bname
      · simp [h]
      · simp [List.lookup_cons, h, beq_false_of_ne h]
    rw [bindEach, List.foldl_cons, ← bindEach, ih, hlast, List.reverse_cons, List.lookup_append,
      Option.or_assoc]

theorem length_bindEach (bound : List (String × Value)) (scope : Scope) :
    (scope.bindEach bound).length = bound.length + scope.length := by
  induction bound generalizing scope with
  | nil => rw [List.length_nil, Nat.zero_add]; rfl
  | cons b bound ih =>
    rw [bindEach, List.foldl_cons, ← bindEach, ih, bind, List.length_cons, List.length_cons]
    omega

end Scope

namespace Feed

/-- A pipeline delivers where it arrives. -/
theorem deliver_append (call : Call) (p q : Pipeline) (scope : Scope) (input : Value)
    (next : Value → Except Failure (List Value)) :
    deliver call (p ++ q) scope input next =
      (Run.arrivals call p scope input).each fun a => deliver call q a.1 a.2 next := by
  simp only [deliver_eq, Run.pipeline_append, Outcome.each_bind]

/-- Parentheses around a program hide what is defined in it: behind them any program runs in the
    scope from before. -/
def Hides (call : Call) (s : String) (p : Pipeline) (scope : Scope) (input : Value) : Prop :=
  ∀ (t : String) (q : Pipeline), Pipeline.parse t = .ok q →
    ∃ r, Pipeline.parse ("(" ++ s ++ "\n) |" ++ t) = .ok r ∧
      ∀ next, deliver call r scope input next =
        deliver call p scope input fun v => deliver call q scope v next

/-- A function takes its scope along, so one defined behind the parentheses tells the scope. -/
theorem deliver_function (call : Call) (scope : Scope) (input : Value)
    (next : Value → Except Failure (List Value)) :
    deliver call [.function [] []] scope input next =
      next (.function (.closure [] [] scope)) := by
  rw [deliver, pipeline, instruction, Outcome.collect_ofExcept]
  simp

/-- Parentheses hide definitions where there are none, or no output behind them. -/
theorem hides_iff {s : String} {p : Pipeline} (hs : Pipeline.parse s = .ok p) (call : Call)
    (scope : Scope) (input : Value) : Hides call s p scope input ↔
      p.definitions = [] ∨ (Run.pipeline call p scope input).outputs = [] := by
  rw [← Run.arrivals_outputs, Outcome.outputs_map]
  constructor
  · intro h
    have hfunction : Pipeline.parse (Pipeline.print [.function [] []]) = .ok [.function [] []] :=
      Pipeline.parse_print (Source.readable_one
        (.function (List.forall_mem_nil _) (List.forall_mem_nil _)))
    obtain ⟨r, hr, hall⟩ := h _ _ hfunction
    rw [Source.parse_group_bar hs hfunction] at hr
    cases hr
    cases houtputs : (Run.arrivals call p scope input).outputs with
    | nil => exact .inr rfl
    | cons a more =>
      left
      have hthrown := hall fun f => .error (.thrown f)
      rw [deliver_append, deliver_eq, ← Run.arrivals_outputs, Outcome.each_map,
        Outcome.each_eq_error houtputs (deliver_function ..),
        Outcome.each_eq_error houtputs (deliver_function ..)] at hthrown
      obtain ⟨-, hscope⟩ : _ ∧ a.1 = scope := by simpa [Failure.thrown] using hthrown
      obtain ⟨bound, hnames, heq⟩ := Run.scope_of_mem_arrivals
        (houtputs ▸ List.mem_cons_self : a ∈ (Run.arrivals call p scope input).outputs)
      have hlength := Scope.length_bindEach bound scope
      rw [← heq, hscope] at hlength
      obtain rfl : bound = [] := List.eq_nil_of_length_eq_zero (by omega)
      exact hnames.symm
  · intro h t q ht
    refine ⟨p ++ q, Source.parse_group_bar hs ht, fun next => ?_⟩
    rw [deliver_append, deliver_eq, ← Run.arrivals_outputs, Outcome.each_map]
    refine Outcome.each_congr fun a ha => ?_
    rcases h with h | h
    · obtain ⟨bound, hnames, heq⟩ := Run.scope_of_mem_arrivals ha
      rw [h] at hnames
      rw [heq, List.map_eq_nil_iff.1 hnames]
      rfl
    · rw [List.map_eq_nil_iff.1 h] at ha
      cases ha

/-- A program in parentheses hands its outputs to what is behind them, each in the scope that its
    own definitions have made of the one from before: a name that it defines has the value it was
    bound to last, any other name is left as it was. So the definitions stay in the parentheses just
    where there are none of them, or no output to go on with. -/
theorem deliver_group {s : String} {p : Pipeline} (hs : Pipeline.parse s = .ok p) (call : Call)
    (scope : Scope) (input : Value) :
    (∀ t q, Pipeline.parse t = .ok q →
      ∃ r, Pipeline.parse ("(" ++ s ++ "\n) |" ++ t) = .ok r ∧
        ∀ next, deliver call r scope input next =
          (Run.arrivals call p scope input).each fun a => deliver call q a.1 a.2 next) ∧
      (Run.arrivals call p scope input).map (·.2) = Run.pipeline call p scope input ∧
      (∀ a ∈ (Run.arrivals call p scope input).outputs,
        ∃ bound, bound.map (·.1) = p.definitions ∧ a.1 = scope.bindEach bound ∧
          ∀ name, a.1.lookup name = (bound.reverse.lookup name).or (scope.lookup name)) ∧
      (Hides call s p scope input ↔
        p.definitions = [] ∨ (Run.pipeline call p scope input).outputs = []) := by
  refine ⟨?_, Run.arrivals_outputs call p scope input, ?_, hides_iff hs call scope input⟩
  · intro t q ht
    exact ⟨p ++ q, Source.parse_group_bar hs ht, deliver_append call p q scope input⟩
  · intro a ha
    obtain ⟨bound, hnames, hscope⟩ := Run.scope_of_mem_arrivals ha
    refine ⟨bound, hnames, hscope, fun name => ?_⟩
    rw [hscope, Scope.lookup_bindEach]

theorem parse_definition :
    Pipeline.parse "x = (true)" = .ok [.define "x" [.bool true]] := by
  have hname : Source.IsVariableName "x" := ⟨by decide, List.all_eq_true.1 (by decide), by decide⟩
  exact Pipeline.parse_print (p := [.define "x" [.bool true]])
    (Source.readable_one (.define hname (Source.readable_one (.bool true))))

/-- A definition in parentheses shadows the one from before behind them. -/
theorem deliver_group_shadowed :
    ¬ Hides (Run.call 0) "x = (true)" [.define "x" [.bool true]]
      (Scope.empty.bind "x" (.bool false)) .null := by
  obtain ⟨-, -, -, hiff⟩ := deliver_group parse_definition (Run.call 0)
    (Scope.empty.bind "x" (.bool false)) .null
  rw [hiff]
  rintro (h | h) <;> cases h

/-- Behind the parentheses the name has the value that it was given inside of them; in the scope
    from before it has none. -/
theorem definition_escapes :
    ∃ p q r, Pipeline.parse "x = (true)" = .ok p ∧ Pipeline.parse "x" = .ok q ∧
      Pipeline.parse ("(" ++ "x = (true)" ++ "\n) |" ++ "x") = .ok r ∧
      (Pipeline.deliver defaultCallDepth r .empty .null fun v => .ok [v]) = .ok [.bool true] ∧
      (Pipeline.deliver defaultCallDepth p .empty .null fun v =>
        Pipeline.deliver defaultCallDepth q .empty v fun u => .ok [u]) =
          .error (.of (.undefinedVariable "x")) := by
  have hname : Source.IsVariableName "x" := ⟨by decide, List.all_eq_true.1 (by decide), by decide⟩
  have hvariable : Pipeline.parse "x" = .ok [.variable "x"] :=
    Pipeline.parse_print (p := [.variable "x"]) (Source.readable_one (.variable hname))
  exact ⟨_, _, _, parse_definition, hvariable,
    Source.parse_group_bar parse_definition hvariable, rfl, rfl⟩

end Feed

end JsonPipe
