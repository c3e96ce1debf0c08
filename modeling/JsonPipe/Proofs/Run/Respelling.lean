import JsonPipe.Proofs.Run.Presets
import JsonPipe.Proofs.Source.Edits
import JsonPipe.Proofs.Source.RoundTrip
import JsonPipe.Proofs.Value.TotalOrder

/-! Programs do what their texts say.

    The text of a program can be read as another program: a number without a literal becomes an
    expression for it, the instruction without outputs the elements of an empty array. These do the
    same where they stand, so the two programs go the same way, instruction by instruction. What
    still differs are the closures that they make, with bodies that may stand for one another in
    turn (`Function.Respelled`), and nobody can look into a closure. So a program that was parsed
    and then edited does what its text says (`Pipeline.parse_print_edited`). -/

namespace JsonPipe

/-! ### Numbers and voids as expressions -/

namespace Run

variable (call : Call) (rest : Pipeline) (scope : Scope) (input : Value)

/-- The expression for a number gives the number. -/
theorem pipeline_tree (n : Number) :
    pipeline call (n.tree ++ rest) scope input =
      pipeline call (.number n :: rest) scope input := by
  have hnegated : ∀ m : Number,
      pipeline call (.number m :: .negate :: rest) scope input =
        pipeline call (.number m.neg :: rest) scope input := by
    intro m
    simp only [pipeline_cons, instruction, Outcome.one_bind, Value.negate]
  cases n with
  | nan =>
    have hdifference : ArithmeticOp.subtraction.apply (.number (.infinite false))
        (.number (.infinite false)) = .ok (.number .nan) := rfl
    simp only [Number.tree, List.cons_append, List.nil_append, pipeline_cons, instruction,
      pipeline, calculate, Outcome.one_bind, hdifference]
  | infinite negative =>
    cases negative with
    | false => rfl
    | true => exact hnegated (.infinite false)
  | finite negative m =>
    cases negative with
    | false => rfl
    | true => exact hnegated (.finite false m)

/-- An empty array has no elements. -/
theorem pipeline_elements_void :
    pipeline call (.access [.array [.void]] [.iterate false] :: rest) scope input =
      pipeline call (.void :: rest) scope input := by
  simp only [pipeline_cons, instruction, pipeline]
  rfl

end Run

/-! ### Programs in place of one another -/

/-- The second pipeline is the first one or what its text is read as, also where the text is that of
    the value of an assignment to a variable. -/
inductive Pipeline.Respelled : Pipeline → Pipeline → Prop
  | refl (p : Pipeline) : Respelled p p
  | readAs {p q : Pipeline} : p.ReadAs q → Respelled p q
  | reassigned {value value' : Pipeline} (base : Pipeline) (op : AssignmentOp) :
    value.ReadAs value' → Respelled [.assign base [] op value] [.assign base [] op value']

/-- Instruction by instruction, a pipeline does what its text says. -/
theorem Pipeline.Respelled.tracks {p q : Pipeline} (h : p.Respelled q) :
    p.Tracks Respelled q := by
  cases h with
  | refl => exact p.tracks_self .refl
  | reassigned base op hvalue =>
    exact .cons (.assign op (.refl base) .nil (.readAs hvalue)) (.refl []) fun _ _ _ => rfl
  | readAs h =>
    cases h with
    | nil => exact .nil
    | cons hi hp =>
      have hrest := Respelled.readAs hp
      cases hi with
      | regular _ halike =>
        exact .cons (halike.imp fun _ _ _ => .readAs) hrest fun _ _ _ => rfl
      | number n => exact .cons (.number n) hrest fun call _ _ => Run.pipeline_tree call _ _ _ n
      | void => exact .cons .void hrest fun call => Run.pipeline_elements_void call _
      | emptyArray => exact .cons (.array (.refl _)) hrest fun _ _ _ => rfl
      | suppress hbody =>
        exact .cons (.attempt (.readAs hbody) (.refl _)) hrest fun _ _ _ => rfl
      | redefine _ _ hvalue =>
        exact .cons (.define _ (.reassigned _ _ hvalue)) hrest fun _ _ _ => rfl

/-- The functions are the same, or closures of code in place of one another whose scopes have values
    that are alike under every name. -/
inductive Function.Respelled : Function → Function → Prop
  | refl (f : Function) : Respelled f f
  | closure {params : List String} {body body' : Pipeline} {s s' : Scope} :
    body.Respelled body' →
    (∀ name, Option.Rel (Value.Alike Respelled) (s.lookup name) (s'.lookup name)) →
      Respelled (.closure params body s) (.closure params body' s')

/-- The scopes have values that are alike under every name. -/
def Scope.Respelled (s s' : Scope) : Prop :=
  ∀ name, Option.Rel (Value.Alike Function.Respelled) (s.lookup name) (s'.lookup name)

theorem Value.respelled_refl (v : Value) : v.Alike Function.Respelled v :=
  v.alike_self fun f _ => .refl f

theorem Scope.Respelled.refl (s : Scope) : s.Respelled s := by
  intro name
  cases s.lookup name with
  | none => exact .none
  | some v => exact .some v.respelled_refl

/-- Two runs of programs in place of one another. -/
def Correspondence.respelled : Correspondence where
  programs := Pipeline.Respelled
  functions := Function.Respelled
  scopes _ := Scope.Respelled
  allowed _ := True
  cut _ := False
  recoverable _ := trivial
  overflow := trivial
  cut_isFatal := Cause.isFatal_of_false _
  same := .refl
  tracks := Pipeline.Respelled.tracks
  tail := id
  part h _ _ := h
  bind h hv := fun name => Scope.lookup_bind_alike (h name) hv
  lookup h _ := h _
  closure h _ hbody := .closure hbody h
  path _ _ _ := trivial
  enter := by
    rintro params body s f (⟨_⟩ | ⟨hbody, hs⟩)
    · refine ⟨body, s, rfl, .refl body, fun hargs name => ?_⟩
      exact Scope.lookup_bindAll_alike (Scope.Respelled.refl s name)
        (Run.bindings_alike hargs params)
    · refine ⟨_, _, rfl, hbody, fun hargs name => ?_⟩
      exact Scope.lookup_bindAll_alike (hs name) (Run.bindings_alike hargs params)
  builtin h := by
    cases h
    rfl

/-! ### Results -/

/-- The same results: outputs that are equal one by one, or failures of the same kind that say the
    same. -/
inductive SameResults : Except Failure (List Value) → Except Failure (List Value) → Prop
  | outputs {vs ws : List Value} : List.Forall₂ (fun v w => v.same w = true) vs ws →
    SameResults (.ok vs) (.ok ws)
  | failure {e e' : Failure} : e.cause = e'.cause → e.message = e'.message →
    SameResults (.error e) (.error e')

/-- Values are equal if they differ in their functions only. -/
theorem Value.same_of_respelled {v w : Value} (h : v.Alike Function.Respelled w) :
    v.same w = true := by
  rw [h.same w.respelled_refl]
  exact same_equivalence.refl w

theorem Correspondence.Results.sameResults {r r' : Except Failure (List Value)}
    (h : Correspondence.respelled.Results r r') : SameResults r r' := by
  cases h with
  | outputs hvs => exact .outputs (hvs.imp fun _ _ => Value.same_of_respelled)
  | failure hee => exact .failure hee.cause (congrArg Cause.message hee.cause)

/-- A program has the same results as what its text is read as. -/
theorem Pipeline.ReadAs.evaluate_sameResults {p q : Pipeline} (h : p.ReadAs q) (limit : Nat)
    (scope : Scope) (input : Value) :
    SameResults (p.evaluate limit scope input) (q.evaluate limit scope input) :=
  (Correspondence.respelled.evaluate_results (fun _ => id) (fun _ => trivial) (.readAs h)
    (Scope.Respelled.refl scope) limit input.respelled_refl).sameResults

/-- Numbers and voids in a program keep their meaning in its text. Whatever numbers take the place
    of those in a program that was parsed, and wherever instructions without outputs are put into
    it, other than beside an assignment to all of a variable, its text is parsed, and what it is
    parsed as gives equal outputs or the same failure, on every input and in every scope. -/
theorem Pipeline.parse_print_edited {source : String} {p q : Pipeline}
    (hparse : Pipeline.parse source = .ok p) (hedited : p.Edited q) :
    ∃ r, Pipeline.parse q.print = .ok r ∧ ∀ (limit : Nat) (scope : Scope) (input : Value),
      SameResults (q.evaluate limit scope input) (r.evaluate limit scope input) := by
  obtain ⟨r, hread⟩ := hedited.readAs (Pipeline.readable_of_parse hparse)
  exact ⟨r, hread.parse_print, hread.evaluate_sameResults⟩

/-- A closure that is bound, an update of a variable and an array. -/
def plainForm : Pipeline :=
  [.define "f" [.function [] [.number .zero]],
    .define "x" [.assign [.variable "x"] [] (.arithmetic .addition) [.number .zero]],
    .array [.number .zero]]

/-- `plainForm` with a NaN in the closure, a negative zero in the update, and a negative infinity
    behind a void in the array. -/
def editedForm : Pipeline :=
  [.define "f" [.function [] [.number .nan]],
    .define "x" [.assign [.variable "x"] [] (.arithmetic .addition) [.number (.finite true .zero)]],
    .array [.void, .number (.infinite true)]]

theorem plainForm_readable : plainForm.Readable := by
  have hf : Source.IsVariableName "f" := ⟨by decide, List.all_eq_true.1 (by decide), by decide⟩
  have hx : Source.IsVariableName "x" := ⟨by decide, List.all_eq_true.1 (by decide), by decide⟩
  have hzero : Pipeline.Readable [.number .zero] := Source.readable_one (.number (.finite .zero))
  have hbound : Pipeline.Readable [.function [] [.number .zero]] :=
    Source.readable_one (.function (List.forall_mem_nil _) hzero)
  exact List.forall_mem_cons.2 ⟨.define hf hbound, List.forall_mem_cons.2
    ⟨.redefine hx (by decide) hzero, Source.readable_one (.array hzero)⟩⟩

theorem plainForm_edited : plainForm.Edited editedForm := by
  have hnumber : ∀ n : Number, Pipeline.Edited [.number .zero] [.number n] := fun n =>
    .intro (.cons (.number _ n) .nil) (.keep _ .nil) fun _ => rfl
  have hclosure : Pipeline.Edited [.function [] [.number .zero]] [.function [] [.number .nan]] :=
    .intro (.cons (.other rfl (.function [] (hnumber .nan))) .nil) (.keep _ .nil) fun _ => rfl
  have hupdate : Pipeline.Edited
      [.assign [.variable "x"] [] (.arithmetic .addition) [.number .zero]]
      [.assign [.variable "x"] [] (.arithmetic .addition) [.number (.finite true .zero)]] :=
    .intro (.cons (.wholeAssignment _ _ (hnumber _)) .nil) (.keep _ .nil) fun _ => rfl
  have hitems : Pipeline.Edited [.number .zero] [.void, .number (.infinite true)] :=
    .intro (.cons (.number _ (.infinite true)) .nil) (.void (.keep _ .nil)) fun h => by cases h
  exact .intro (.cons (.other rfl (.define "f" hclosure)) (.cons (.other rfl (.define "x" hupdate))
    (.cons (.other rfl (.array hitems)) .nil))) (.keep _ (.keep _ (.keep _ .nil))) fun _ => rfl

theorem Pipeline.parse_print_edited_forms :
    Pipeline.parse "func f(): (0) | x += (0) | [0]" = .ok plainForm ∧
      plainForm.Edited editedForm ∧
      editedForm.print =
        "func f(): ((1e999 - 1e999)) | x += (-(0)) | [[][] | -(1e999)]" ∧
      ∃ r, Pipeline.parse editedForm.print = .ok r ∧
        ∀ (limit : Nat) (scope : Scope) (input : Value),
          SameResults (editedForm.evaluate limit scope input) (r.evaluate limit scope input) := by
  have hprint : plainForm.print = "func f(): (0) | x += (0) | [0]" := by decide +kernel
  have hparse := Pipeline.parse_print plainForm_readable
  rw [hprint] at hparse
  exact ⟨hparse, plainForm_edited, by decide +kernel,
    Pipeline.parse_print_edited hparse plainForm_edited⟩

end JsonPipe
