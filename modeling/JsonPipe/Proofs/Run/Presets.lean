import JsonPipe.Json
import JsonPipe.Proofs.Source.Safety

/-! What a program does not name cannot affect it.

    Two runs of one program in scopes that agree on the names it mentions go the same way. The
    closures that they make keep different scopes, and these closures are passed around, stored in
    documents and called in other places. But a closure only ever looks up names that its body
    mentions, so two closures with the same body agree if their scopes do on these names, with
    values that are the same but for functions that agree in turn (`Function.Agrees`). This is a
    correspondence of runs, and functions cannot be told apart at the border: presets that a program
    does not name change neither its outputs nor its failure (`Program.run_sameAnswer`). -/

namespace JsonPipe

/-! ### Scopes that agree -/

/-- The name occurs as a variable in the pipeline, at any depth. -/
def Pipeline.Mentions (p : Pipeline) (name : String) : Prop :=
  ∃ r : Pipeline, r.Within p ∧ Instruction.variable name ∈ r

/-- The functions are the same, or closures of the same code whose scopes have values that are alike
    under every name that the code mentions. -/
inductive Function.Agrees : Function → Function → Prop
  | refl (f : Function) : Agrees f f
  | closure {params : List String} {body : Pipeline} {s s' : Scope} :
    (∀ name, body.Mentions name →
      Option.Rel (Value.Alike Agrees) (s.lookup name) (s'.lookup name)) →
      Agrees (.closure params body s) (.closure params body s')

/-- The scopes have values that are alike under every name that the pipeline mentions. -/
def Scope.Agrees (p : Pipeline) (s s' : Scope) : Prop :=
  ∀ name, p.Mentions name →
    Option.Rel (Value.Alike Function.Agrees) (s.lookup name) (s'.lookup name)

theorem Value.alike_refl (v : Value) : v.Alike Function.Agrees v :=
  v.alike_self fun f _ => .refl f

namespace Pipeline.Mentions

variable {p q : Pipeline} {name : String}

theorem of_mem (h : Instruction.variable name ∈ p) : p.Mentions name := ⟨p, .refl, h⟩

theorem part {i : Instruction} (hi : i ∈ p) (hq : q ∈ i.parts) (h : q.Mentions name) :
    p.Mentions name := by
  obtain ⟨r, hr, hmem⟩ := h
  exact ⟨r, .under hi hq hr, hmem⟩

theorem tail {i : Instruction} (h : p.Mentions name) : Pipeline.Mentions (i :: p) name := by
  obtain ⟨r, hr, hmem⟩ := h
  cases hr with
  | refl => exact of_mem (List.mem_cons_of_mem _ hmem)
  | under hi hq hr => exact ⟨r, .under (List.mem_cons_of_mem _ hi) hq hr, hmem⟩

end Pipeline.Mentions

theorem Pipeline.not_mentions_nil (name : String) : ¬ Pipeline.Mentions [] name := by
  rintro ⟨r, _ | ⟨hi, _, _⟩, hmem⟩
  · cases hmem
  · cases hi

/-- A name is mentioned by the first instruction, in one of its operands, or by the rest. -/
theorem Pipeline.mentions_cons {i : Instruction} {p : Pipeline} {name : String} :
    Pipeline.Mentions (i :: p) name ↔
      i = .variable name ∨ (∃ q ∈ i.parts, q.Mentions name) ∨ p.Mentions name := by
  constructor
  · rintro ⟨r, _ | ⟨hi, hq, hr⟩, hmem⟩
    · rcases List.mem_cons.1 hmem with h | h
      · exact .inl h.symm
      · exact .inr (.inr (.of_mem h))
    · rcases List.mem_cons.1 hi with rfl | hi
      · exact .inr (.inl ⟨_, hq, r, hr, hmem⟩)
      · exact .inr (.inr ⟨r, .under hi hq hr, hmem⟩)
  · rintro (rfl | ⟨q, hq, h⟩ | h)
    · exact .of_mem List.mem_cons_self
    · exact .part List.mem_cons_self hq h
    · exact .tail h

namespace Scope

theorem lookup_bind (name : String) (v : Value) (s : Scope) (other : String) :
    (s.bind name v).lookup other = if other = name then some v else s.lookup other := by
  by_cases h : other = name <;> simp [bind, lookup, Entries.get?, h]

theorem lookup_bindAll (pairs : List (String × Value)) (s : Scope) (name : String) :
    (s.bindAll pairs).lookup name = ((Entries.ofList pairs).get? name).or (s.lookup name) := by
  rw [bindAll]
  split
  · next h => rw [h]; rfl
  · rw [lookup]
    cases Entries.get? name (Entries.ofList pairs) <;> rfl

variable {F : Function → Function → Prop} {s s' : Scope} {name : String}

/-- What is under a name stays alike when values that are alike are bound. -/
theorem lookup_bind_alike {bound : String} {v v' : Value}
    (h : Option.Rel (Value.Alike F) (s.lookup name) (s'.lookup name)) (hv : v.Alike F v') :
    Option.Rel (Value.Alike F) ((s.bind bound v).lookup name) ((s'.bind bound v').lookup name) := by
  rw [lookup_bind, lookup_bind]
  split
  · exact .some hv
  · exact h

theorem lookup_bindAll_alike {pairs pairs' : List (String × Value)}
    (h : Option.Rel (Value.Alike F) (s.lookup name) (s'.lookup name))
    (hpairs : Entries.Alike F pairs pairs') :
    Option.Rel (Value.Alike F) ((s.bindAll pairs).lookup name)
      ((s'.bindAll pairs').lookup name) := by
  have hget := Entries.get?_related (Entries.ofList_related hpairs) name
  rw [lookup_bindAll, lookup_bindAll]
  revert hget
  generalize Entries.get? name (Entries.ofList pairs) = found,
    Entries.get? name (Entries.ofList pairs') = found'
  rintro (hv | _)
  · exact .some hv
  · exact h

end Scope

/-- Parameters are bound to arguments that are alike, or to null on both sides. -/
theorem Run.bindings_alike {F : Function → Function → Prop} {args args' : List Value}
    (h : Items.Alike F args args') (params : List String) :
    Entries.Alike F (bindings params args) (bindings params args') := by
  induction params generalizing args args' with
  | nil => exact .nil
  | cons p ps ih =>
    cases h with
    | nil => exact .cons (.under p .null) (ih .nil)
    | cons hv hvs => exact .cons (.under p hv) (ih hvs)

namespace Scope.Agrees

variable {p : Pipeline} {s s' : Scope}

theorem refl (p : Pipeline) (s : Scope) : Scope.Agrees p s s := by
  intro name _
  cases s.lookup name with
  | none => exact .none
  | some v => exact .some v.alike_refl

theorem mono {q : Pipeline} (h : Scope.Agrees p s s')
    (hpq : ∀ name, q.Mentions name → p.Mentions name) : Scope.Agrees q s s' :=
  fun name hname => h name (hpq name hname)

theorem bind (h : Scope.Agrees p s s') (name : String) {v v' : Value}
    (hv : v.Alike Function.Agrees v') : Scope.Agrees p (s.bind name v) (s'.bind name v') :=
  fun other hother => lookup_bind_alike (h other hother) hv

theorem bindAll (h : Scope.Agrees p s s') {pairs pairs' : List (String × Value)}
    (hpairs : Entries.Alike Function.Agrees pairs pairs') :
    Scope.Agrees p (s.bindAll pairs) (s'.bindAll pairs') :=
  fun name hname => lookup_bindAll_alike (h name hname) hpairs

end Scope.Agrees

/-! ### Runs in scopes that agree -/

/-- Two runs of one program in scopes that agree on what it mentions. -/
def Correspondence.agreeing : Correspondence where
  programs := Eq
  functions := Function.Agrees
  scopes := Scope.Agrees
  allowed _ := True
  cut _ := False
  recoverable _ := trivial
  overflow := trivial
  cut_isFatal := Cause.isFatal_of_false _
  same _ := rfl
  tracks := Pipeline.tracks_eq
  tail h := h.mono fun _ => .tail
  part h hi hq := h.mono fun _ => .part hi hq
  bind h hv := (h.mono fun _ => .tail).bind _ hv
  lookup h hmem := h _ (.of_mem hmem)
  closure := by
    rintro p body _ params s s' h hmem rfl
    exact .closure fun name hname => h name (.part hmem (List.mem_singleton.2 rfl) hname)
  path _ _ _ := trivial
  enter := by
    rintro params body s f (⟨_⟩ | ⟨hs⟩)
    · refine ⟨body, s, rfl, rfl, fun hargs => ?_⟩
      exact (Scope.Agrees.refl body s).bindAll (Run.bindings_alike hargs params)
    · refine ⟨body, _, rfl, rfl, fun hargs => ?_⟩
      exact Scope.Agrees.bindAll hs (Run.bindings_alike hargs params)
  builtin h := by
    cases h
    rfl

/-- Results of two runs that correspond: outputs that are alike, or failures for the same cause. -/
inductive Correspondence.Results (C : Correspondence) :
    Except Failure (List Value) → Except Failure (List Value) → Prop
  | outputs {vs vs' : List Value} : C.lists vs vs' → Results C (.ok vs) (.ok vs')
  | failure {e e' : Failure} : C.Failures e e' → Results C (.error e) (.error e')

/-- Where nothing is cut off, corresponding runs have corresponding results. -/
theorem Watched.Shows.results {C : Correspondence} (hC : ∀ cause, ¬ C.cut cause)
    {w : Watched Value} {o : Outcome Value} (h : Shows C C.values w o) :
    C.Results w.result o.collect := by
  induction h with
  | done => exact .outputs .nil
  | next hab _ ih =>
    rw [result, plain, Outcome.collect_next, Outcome.collect_next, ← result]
    revert ih
    generalize Watched.result _ = r, Outcome.collect _ = r'
    rintro (hvs | hee)
    · exact .outputs (.cons hab hvs)
    · exact .failure hee
  | raised _ _ ih => exact ih
  | fail _ hee | fatal _ _ hee => exact .failure hee
  | cut _ hm _ => exact absurd hm (hC _)

/-- Where every cause is allowed and none cuts off a run, corresponding programs have corresponding
    results. -/
theorem Correspondence.evaluate_results {C : Correspondence} (hcut : ∀ cause, ¬ C.cut cause)
    (hallowed : ∀ cause, C.allowed cause) {p q : Pipeline} {s s' : Scope}
    (hprograms : C.programs p q) (hscope : C.scopes p s s') (limit : Nat) {input input' : Value}
    (hin : C.values input input') :
    C.Results (p.evaluate limit s input) (q.evaluate limit s' input') := by
  have hshows : Watched.Shows C C.values (Host.builtins.watch limit p s input)
      (q.run limit s' input') := by
    rw [Pipeline.run, ← Host.builtins_call]
    exact Watch.counterpart_shows (Host.builtins_admitted fun _ => hallowed _)
      (.inr ⟨rfl, hallowed _⟩) hprograms hscope hin
  have hplain := (Host.builtins.watch_shows limit p s input).plain_eq fun _ _ => id
  have hresults := hshows.results hcut
  rwa [Watched.result, hplain, Host.builtins_call, Pipeline.run, ← Feed.evaluate_eq,
    ← Feed.evaluate_eq] at hresults

/-- A pipeline goes the same way in scopes that agree. -/
theorem evaluate_results {p : Pipeline} {s s' : Scope} (h : Scope.Agrees p s s') (limit : Nat)
    (input : Value) :
    Correspondence.agreeing.Results (p.evaluate limit s input) (p.evaluate limit s' input) :=
  Correspondence.agreeing.evaluate_results (fun _ => id) (fun _ => trivial) rfl h limit
    input.alike_refl

/-! ### At the border -/

mutual

/-- Host data has no functions to differ in. -/
theorem Value.toJson_alike {F : Function → Function → Prop} {v v' : Value} (h : v.Alike F v') :
    v.toJson = v'.toJson := by
  match v, v', h with
  | _, _, .null | _, _, .bool _ | _, _, .number _ | _, _, .string _ => rfl
  | .array _, .array _, .array h => rw [Value.toJson, Value.toJson, itemsToJson_alike h]
  | .object _, .object _, .object h => rw [Value.toJson, Value.toJson, entriesToJson_alike h]
  | .function _, .function _, .function _ => rfl
termination_by structural v

theorem itemsToJson_alike {F : Function → Function → Prop} {xs ys : List Value}
    (h : Items.Alike F xs ys) : itemsToJson xs = itemsToJson ys := by
  match xs, ys, h with
  | [], [], .nil => rfl
  | x :: xs, y :: ys, .cons h hs =>
    rw [itemsToJson, itemsToJson, Value.toJson_alike h, itemsToJson_alike hs]
termination_by structural xs

theorem entriesToJson_alike {F : Function → Function → Prop} {es fs : List (String × Value)}
    (h : Entries.Alike F es fs) : entriesToJson es = entriesToJson fs := by
  match es, fs, h with
  | [], [], .nil => rfl
  | (k, v) :: es, (_, w) :: fs, .cons (.under _ h) hs =>
    rw [entriesToJson, entriesToJson, Value.toJson_alike h, entriesToJson_alike hs]
termination_by structural es

end

theorem mapM_toJson_alike {F : Function → Function → Prop} {vs vs' : List Value}
    (h : Items.Alike F vs vs') : vs.mapM Value.toJson = vs'.mapM Value.toJson := by
  induction h with
  | nil => rfl
  | cons hv _ ih => rw [List.mapM_cons, List.mapM_cons, Value.toJson_alike hv, ih]

/-- The same answer to the host: the same outputs, or failures of the same kind that say the
    same. -/
inductive SameAnswer : Except Failure (List Json) → Except Failure (List Json) → Prop
  | outputs (js : List Json) : SameAnswer (.ok js) (.ok js)
  | failure {e e' : Failure} : e.cause = e'.cause → e.message = e'.message →
    SameAnswer (.error e) (.error e')

theorem Correspondence.Results.sameAnswer {C : Correspondence}
    {r r' : Except Failure (List Value)} (h : C.Results r r') :
    SameAnswer (r >>= List.mapM Value.toJson) (r' >>= List.mapM Value.toJson) := by
  cases h with
  | failure hee => exact .failure hee.cause (congrArg Cause.message hee.cause)
  | @outputs vs vs' hvs =>
    change SameAnswer (vs.mapM Value.toJson) (vs'.mapM Value.toJson)
    rw [mapM_toJson_alike hvs]
    cases vs'.mapM Value.toJson with
    | ok js => exact .outputs js
    | error e => exact .failure rfl rfl

/-- The presets of a program are in sight at its start, each under its name. -/
theorem Program.lookup_scope (program : Program) (name : String) :
    program.scope.lookup name = (Entries.ofList program.presets).get? name := by
  rw [scope, Scope.lookup_bindAll]
  cases Entries.get? name (Entries.ofList program.presets) <;> rfl

/-- Presets that a program does not name cannot affect it. If two tables of presets have the same
    under every name that occurs as a variable in the program, at any depth, then the program gives
    the host the same answer with either of them: on every value, and on all host data. What the
    tables have under other names may be any data, closures and builtins. -/
theorem Program.run_sameAnswer (p : Pipeline) (presets presets' : Entries Value) (callDepth : Nat)
    (hagree : ∀ name, p.Mentions name →
      (Entries.ofList presets).get? name = (Entries.ofList presets').get? name) :
    (∀ input : Value,
      SameAnswer ((⟨p, presets, callDepth⟩ : Program).run input >>= List.mapM Value.toJson)
        ((⟨p, presets', callDepth⟩ : Program).run input >>= List.mapM Value.toJson)) ∧
    ∀ input : Json,
      SameAnswer ((⟨p, presets, callDepth⟩ : Program).runJson input)
        ((⟨p, presets', callDepth⟩ : Program).runJson input) := by
  have hscope : Scope.Agrees p (Program.mk p presets callDepth).scope
      (Program.mk p presets' callDepth).scope := by
    intro name hname
    rw [lookup_scope, lookup_scope, hagree name hname]
    cases Entries.get? name (Entries.ofList presets') with
    | none => exact .none
    | some v => exact .some v.alike_refl
  have hrun := fun input => (evaluate_results hscope callDepth input).sameAnswer
  exact ⟨hrun, fun input => hrun input.toValue⟩

/-- `map(func(): . + x)` -/
def mapPlus : Pipeline :=
  [.access [.variable "map"] [.call [[.function []
    [.calculate [] [(.addition, [.variable "x"])]]]] false false]]

/-- The builtin `map`, a number `x` to add, and something that `mapPlus` does not name. -/
def withSecret (secret : Value) : Entries Value :=
  [("map", .function (.builtin .map)), ("secret", secret), ("x", .number (.ofNat 1))]

/-- The closure that is passed to `map` keeps the secret, and still nothing of it is seen: whether
    it is a number or a function, the answer is the same. -/
theorem Program.run_sameAnswer_hidden :
    (∀ name, mapPlus.Mentions name → name = "map" ∨ name = "x") ∧
      ((⟨mapPlus, withSecret .null, 1⟩ : Program).runJson
        (.array [.integer 1, .integer 2])).toOption.map (·.map Json.text) = some ["[2,3]"] ∧
      SameAnswer
        ((⟨mapPlus, withSecret (.number .zero), 1⟩ : Program).runJson
          (.array [.integer 1, .integer 2]))
        ((⟨mapPlus, withSecret (.function (.closure [] mapPlus [])), 1⟩ : Program).runJson
          (.array [.integer 1, .integer 2])) := by
  have hnames : ∀ name, mapPlus.Mentions name → name = "map" ∨ name = "x" := by
    intro name h
    simpa [mapPlus, Pipeline.mentions_cons, Pipeline.not_mentions_nil, Instruction.parts,
      Selector.parts, eq_comm] using h
  refine ⟨hnames, by decide +kernel, ?_⟩
  refine (Program.run_sameAnswer mapPlus _ _ 1 fun name hname => ?_).2 _
  rcases hnames name hname with rfl | rfl <;> rfl

end JsonPipe
