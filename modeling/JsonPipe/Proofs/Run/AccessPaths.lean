import JsonPipe.Proofs.Run.AssignmentPaths
import JsonPipe.Proofs.Run.Failures
import JsonPipe.Proofs.Run.Parentheses

/-! Reading along a path.

    A path can be followed in two steps (`Feed.access_append`): what is found on the first part of it
    is handed to an access along the second part. That access has another input than the first, and
    does not know what its value was selected from, which makes no difference as long as operands
    take no account of their input and nothing is called.

    Optional marks turn failures of selectors into branches that are dropped, and drop the branches
    that come to an absent field as well. So an access whose selectors are all optional cannot fail
    if its operands do not, and if the same access without the marks does not fail either, the marks
    have dropped nothing but absent fields (`Feed.evaluate_optional`). -/

namespace JsonPipe

/-! ### Operands that do not vary -/

namespace Feed

variable {call : Call} {scope : Scope} {p : Pipeline}

/-- The pipeline hands the same on, whatever its input and whatever comes after it. -/
def Unvarying (call : Call) (scope : Scope) (p : Pipeline) : Prop :=
  ∀ v w next, pipeline call p scope v next = pipeline call p scope w next

theorem unvarying_iff :
    Unvarying call scope p ↔ ∀ v w, Run.pipeline call p scope v = Run.pipeline call p scope w := by
  constructor
  · intro h v w
    rw [← (agrees call p).alone, ← (agrees call p).alone, h v w]
  · intro h v w next
    rw [agrees, agrees, h v w]

/-- Operands with the same outputs on every input do not vary, as literals. -/
theorem unvarying_of_evaluate {ks : List Value}
    (h : ∀ input, evaluate call p scope input = .ok ks) : Unvarying call scope p := by
  refine unvarying_iff.2 fun v w => ?_
  rw [run_of_evaluate (h v), run_of_evaluate (h w)]

end Feed

/-! ### Paths in two steps -/

namespace Run

variable {call : Call} {scope : Scope}

/-- Only calls ask what a value was selected from. -/
theorem select_parent {q : List (Selector Pipeline)} (hcall : ∀ s ∈ q, s.isCall = false)
    (input v : Value) (parent : Option Value) :
    select call q scope input v parent = select call q scope input v none := by
  cases q with
  | nil => rw [select, select]
  | cons s q =>
    cases s with
    | call args bound optional => cases hcall _ List.mem_cons_self
    | _ => rw [select, select]

theorem select_input {q : List (Selector Pipeline)} (hcall : ∀ s ∈ q, s.isCall = false)
    (hoperands : ∀ x ∈ q.flatMap Selector.parts, Feed.Unvarying call scope x)
    (input input' v : Value) (parent : Option Value) :
    select call q scope input v parent = select call q scope input' v parent := by
  induction q generalizing v parent with
  | nil => rw [select, select]
  | cons s q ih =>
    rw [List.flatMap_cons] at hoperands
    obtain ⟨hs, hq⟩ := List.forall_mem_append.1 hoperands
    have hrest := ih (fun s hs => hcall s (List.mem_cons_of_mem _ hs)) hq
    have hsame : ∀ x ∈ s.parts, pipeline call x scope input = pipeline call x scope input' :=
      fun x hx => Feed.unvarying_iff.1 (hs x hx) input input'
    cases s with
    | field key optional =>
      rw [select, select, hsame key (by simp [Selector.parts])]
      simp only [hrest]
    | iterate optional =>
      rw [select, select]
      simp only [hrest]
    | slice start stop optional =>
      rw [select, select, hsame start (by simp [Selector.parts]),
        hsame stop (by simp [Selector.parts])]
      simp only [hrest]
    | call args bound optional => cases hcall _ List.mem_cons_self

/-- Whatever is found along the first path is where the second one starts. -/
theorem select_append (p : List (Selector Pipeline)) {q : List (Selector Pipeline)}
    (hcall : ∀ s ∈ q, s.isCall = false) (input v : Value) (parent : Option Value) :
    select call (p ++ q) scope input v parent =
      (select call p scope input v parent).bind fun w => select call q scope input w none := by
  induction p generalizing v parent with
  | nil => rw [List.nil_append, select, Outcome.one_bind, select_parent hcall]
  | cons s p ih =>
    rw [List.cons_append]
    cases s with
    | field key optional =>
      rw [select, select, Outcome.bind_assoc]
      simp only [Feed.guarded_bind]
      congr 1
      funext k
      congr 1
      funext found
      cases found with
      | some found => exact ih found _
      | none =>
        simp only
        split
        · rfl
        · exact ih .null _
    | iterate optional =>
      rw [select, select, Feed.guarded_bind]
      simp only [Outcome.bind_assoc, ih]
    | slice start stop optional =>
      rw [select, select]
      simp only [Outcome.bind_assoc, Feed.guarded_bind, ih]
    | call args bound optional =>
      cases v with
      | function f =>
        rw [select, select]
        cases operands call args scope input with
        | ok lists => simp only [Outcome.bind_assoc, ih]
        | error e => rfl
      | _ =>
        simp only [select]
        split <;> rfl

end Run

/-- An access along two paths hands on what an access along the first one and then an access along
    the second one hand on, output by output and up to the same failure, whatever comes after them.
    In the second path nothing is called and the operands do not depend on their input; in the first
    one there may be anything. -/
theorem Feed.access_append {call : Call} {scope : Scope} {q : List (Selector Pipeline)}
    (hcall : ∀ s ∈ q, s.isCall = false)
    (hoperands : ∀ x ∈ q.flatMap Selector.parts, Unvarying call scope x) (base : Pipeline)
    (p : List (Selector Pipeline)) (input : Value) (next : Next) :
    pipeline call [.access base (p ++ q)] scope input next =
      pipeline call [.access base p, .access [] q] scope input next := by
  have hsecond : ∀ w, Run.pipeline call [.access [] q] scope w =
      Run.select call q scope input w none := fun w => by
    rw [Run.pipeline_access, Run.pipeline, Outcome.one_bind,
      Run.select_input hcall hoperands w input]
  have hrun : Run.pipeline call [.access base (p ++ q)] scope input =
      Run.pipeline call [.access base p, .access [] q] scope input := by
    rw [Run.pipeline_access, Run.pipeline_cons call (.access base p)]
    simp only [Run.instruction, hsecond, Outcome.bind_assoc, Run.select_append p hcall]
  rw [agrees, agrees, hrun]

/-- `["a", "b"]` -/
def bothRows : List (Selector Pipeline) := [.field [.concat [[.string "a"], [.string "b"]]] false]

/-- `[(0, x):]?[]?[0]` -/
def headsOfTails : List (Selector Pipeline) :=
  [.slice [.concat [[.number (.ofNat 0)], [.variable "x"]]] [.null] true, .iterate true,
    .field [.number (.ofNat 0)] false]

/-- `{"a": [["p"], ["q"]], "b": ["r"]}` -/
def nestedRows : Value :=
  .object [("a", .array [.array [.string "p"], .array [.string "q"]]), ("b", .array [.string "r"])]

/-- Two slices of the first row are taken apart before the second row makes the access fail. -/
theorem Feed.access_append_headsOfTails :
    let scope := Scope.empty.bind "x" (.number (.ofNat 1))
    let run := fun p => pipeline (Run.call 0) p scope nestedRows .one
    (run [.access [] (bothRows ++ headsOfTails)]).outputs.map Value.json =
        ["\"p\"", "\"q\"", "\"q\""] ∧
      (run [.access [] (bothRows ++ headsOfTails)]).failure.map Failure.cause =
        some (.typeMismatch .string .number) ∧
      run [.access [] (bothRows ++ headsOfTails)] =
        run [.access [] bothRows, .access [] headsOfTails] := by
  intro scope run
  have hoperands : ∀ x ∈ headsOfTails.flatMap Selector.parts, Unvarying (Run.call 0) scope x := by
    simp only [headsOfTails, List.flatMap_cons, Selector.parts, List.forall_mem_append,
      List.forall_mem_cons]
    exact ⟨⟨unvarying_of_evaluate fun _ => rfl, unvarying_of_evaluate fun _ => rfl,
        List.forall_mem_nil _⟩,
      List.forall_mem_nil _, ⟨unvarying_of_evaluate fun _ => rfl, List.forall_mem_nil _⟩,
      List.forall_mem_nil _⟩
  exact ⟨by decide +kernel, by decide +kernel,
    access_append (by decide) hoperands [] bothRows nestedRows .one⟩

/-! ### Optional marks -/

/-- The selector with a mark or without it. -/
def Selector.marked {π : Type} (optional : Bool) : Selector π → Selector π
  | .field key _ => .field key optional
  | .iterate _ => .iterate optional
  | .slice start stop _ => .slice start stop optional
  | .call args bound _ => .call args bound optional

namespace Outcome

variable {α β : Type}

theorem failure_append (o : Outcome α) (more : Unit → Outcome α) :
    (o.append more).failure = o.failure.or (more ()).failure := by
  induction o with
  | done => rfl
  | fail e => rfl
  | next a rest ih => exact ih ()

theorem outputs_append {o : Outcome α} (h : o.failure = none) (more : Unit → Outcome α) :
    (o.append more).outputs = o.outputs ++ (more ()).outputs := by
  induction o with
  | done => rfl
  | fail e => cases h
  | next a rest ih => rw [next_append, outputs, ih () h, outputs, List.cons_append]

/-- The first outcome does not fail. If the second one does not fail either, the first is what is
    left of it after some outputs have been dropped, and they are all there under a condition. -/
structure Drops (all : Prop) (o p : Outcome α) : Prop where
  succeeds : o.failure = none
  sublist : p.failure = none → o.outputs.Sublist p.outputs
  outputs_eq_iff : p.failure = none → (o.outputs = p.outputs ↔ all)

/-- The outcome has an output unless it fails. -/
def Bears (o : Outcome α) : Prop := o.failure = none → o.outputs ≠ []

theorem Bears.ofList_bind {a : α} {as : List α} {f : α → Outcome β} (h : Bears (f a)) :
    Bears ((ofList (a :: as)).bind f) := by
  intro hsucceeds
  rw [ofList, next_bind] at hsucceeds ⊢
  have hfirst : (f a).failure = none := by
    rw [failure_append, Option.or_eq_none_iff] at hsucceeds
    exact hsucceeds.1
  rw [outputs_append hfirst]
  exact List.append_ne_nil_of_left_ne_nil (h hfirst) _

namespace Drops

variable {all all' : Prop} {o p : Outcome α}

theorem refl (h : o.failure = none) (hall : all) : Drops all o o :=
  ⟨h, fun _ => .refl _, fun _ => ⟨fun _ => hall, fun _ => rfl⟩⟩

theorem of_iff (h : Drops all o p) (hall : all ↔ all') : Drops all' o p :=
  ⟨h.succeeds, h.sublist, fun hp => (h.outputs_eq_iff hp).trans hall⟩

/-- A branch that is dropped as a whole. -/
theorem done (h : Bears p) (hall : ¬all) : Drops all .done p :=
  ⟨rfl, fun _ => List.nil_sublist _, fun hp => ⟨fun hnil => absurd hnil.symm (h hp), fun ha =>
    absurd ha hall⟩⟩

theorem append {more more' : Unit → Outcome α} (h : Drops all o p)
    (hmore : Drops all' (more ()) (more' ())) :
    Drops (all ∧ all') (o.append more) (p.append more') := by
  have hparts : (p.append more').failure = none →
      p.failure = none ∧ (more' ()).failure = none := by
    rw [failure_append, Option.or_eq_none_iff]
    exact id
  refine ⟨?_, fun hp => ?_, fun hp => ?_⟩
  · rw [failure_append, h.succeeds, hmore.succeeds]
    rfl
  · obtain ⟨hfirst, hlast⟩ := hparts hp
    rw [outputs_append h.succeeds, outputs_append hfirst]
    exact (h.sublist hfirst).append (hmore.sublist hlast)
  · obtain ⟨hfirst, hlast⟩ := hparts hp
    rw [outputs_append h.succeeds, outputs_append hfirst, ← h.outputs_eq_iff hfirst,
      ← hmore.outputs_eq_iff hlast]
    -- nothing has been added to either part, so equal lengths are the lengths of the parts
    have hle := (h.sublist hfirst).length_le
    have hle' := (hmore.sublist hlast).length_le
    refine ⟨fun heq => List.append_inj heq ?_, fun heq => by rw [heq.1, heq.2]⟩
    have hlength := congrArg List.length heq
    rw [List.length_append, List.length_append] at hlength
    omega

/-- Every output of a run that does not fail is a branch of its own. -/
theorem ofList_bind {all : α → Prop} {as : List α} {f g : α → Outcome β}
    (h : ∀ a ∈ as, Drops (all a) (f a) (g a)) :
    Drops (∀ a ∈ as, all a) ((ofList as).bind f) ((ofList as).bind g) := by
  induction as with
  | nil => exact refl rfl (List.forall_mem_nil _)
  | cons a as ih =>
    obtain ⟨ha, has⟩ := List.forall_mem_cons.1 h
    rw [ofList, next_bind, next_bind]
    exact (ha.append (ih has)).of_iff List.forall_mem_cons.symm

/-- A selector that fails drops its branch if it is marked, and fails if it is not. -/
theorem guarded {r : Except Failure β} {f g : β → Outcome Value}
    (hr : ∀ e, r = .error e → e.isCatchable = true) (h : ∀ b, r = .ok b → Drops all (f b) (g b)) :
    Drops all (Run.guarded true r f) (Run.guarded false r g) := by
  cases r with
  | ok b => exact h b rfl
  | error e =>
    have hmarked : Run.guarded true (.error e) f = .done := by
      rw [Run.guarded, hr e rfl]
      rfl
    rw [hmarked]
    have hfails : (Run.guarded false (.error e) g).failure ≠ none := fun hnone => by cases hnone
    exact ⟨rfl, fun hp => absurd hp hfails, fun hp => absurd hp hfails⟩

end Drops

end Outcome

namespace Run

variable {call : Call} {scope : Scope} {input : Value}

/-- The access comes to a field that is absent: an object lacks the key, or it is a field of null.
    -/
def MeetsAbsent (call : Call) (scope : Scope) (input : Value) :
    List (Selector Pipeline) → Value → Prop
  | [], _ => False
  | .field key _ :: rest, v => ∃ k ∈ (pipeline call key scope input).outputs,
    v.field k = .ok none ∨
      ∃ found, v.field k = .ok (some found) ∧ MeetsAbsent call scope input rest found
  | .iterate _ :: rest, v => ∃ items, v.iterate = .ok items ∧
    ∃ item ∈ items, MeetsAbsent call scope input rest item
  | .slice start stop _ :: rest, v => ∃ a ∈ (pipeline call start scope input).outputs,
    ∃ b ∈ (pipeline call stop scope input).outputs,
      ∃ part, v.slice a b = .ok part ∧ MeetsAbsent call scope input rest part
  | .call .. :: _, _ => False

theorem recoverables_catchable : Recoverables fun e => e.isCatchable = true := by
  intro cause h
  simp [Failure.isCatchable, Failure.isFatal, Failure.isEnclosed, Failure.of, h]

/-- Without marks null leads to null, or to a failure. -/
theorem select_null {path : List (Selector Pipeline)} (hcall : ∀ s ∈ path, s.isCall = false)
    (hoperands : ∀ p ∈ path.flatMap Selector.parts,
      ∃ k ks, pipeline call p scope input = .ofList (k :: ks))
    (parent : Option Value) :
    Outcome.Bears (select call (path.map (.marked false)) scope input .null parent) := by
  induction path generalizing parent with
  | nil =>
    rw [List.map_nil, select]
    exact fun _ => List.cons_ne_nil _ _
  | cons s path ih =>
    rw [List.flatMap_cons] at hoperands
    obtain ⟨hs, hpath⟩ := List.forall_mem_append.1 hoperands
    have hrest := ih (fun s hs => hcall s (List.mem_cons_of_mem _ hs)) hpath
    rw [List.map_cons]
    cases s with
    | field key optional =>
      obtain ⟨k, ks, hks⟩ := hs key (by simp [Selector.parts])
      rw [Selector.marked, select, hks]
      exact .ofList_bind (hrest _)
    | iterate optional =>
      rw [Selector.marked, select]
      exact fun hsucceeds => by cases hsucceeds
    | slice start stop optional =>
      obtain ⟨a, starts, hstarts⟩ := hs start (by simp [Selector.parts])
      obtain ⟨b, stops, hstops⟩ := hs stop (by simp [Selector.parts])
      rw [Selector.marked, select, hstarts, hstops]
      exact .ofList_bind (.ofList_bind (hrest _))
    | call args bound optional => cases hcall _ List.mem_cons_self

/-- With all marks the access along a path drops what cannot be selected, and else nothing but what
    is absent. -/
theorem select_marked {path : List (Selector Pipeline)} (hcall : ∀ s ∈ path, s.isCall = false)
    (hoperands : ∀ p ∈ path.flatMap Selector.parts,
      ∃ k ks, pipeline call p scope input = .ofList (k :: ks))
    (v : Value) (parent : Option Value) :
    Outcome.Drops (¬MeetsAbsent call scope input path v)
      (select call (path.map (.marked true)) scope input v parent)
      (select call (path.map (.marked false)) scope input v parent) := by
  induction path generalizing v parent with
  | nil =>
    rw [List.map_nil, select]
    exact .refl rfl id
  | cons s path ih =>
    rw [List.flatMap_cons] at hoperands
    obtain ⟨hs, hpath⟩ := List.forall_mem_append.1 hoperands
    have hcalls : ∀ s ∈ path, s.isCall = false := fun s hs => hcall s (List.mem_cons_of_mem _ hs)
    have hrest := ih hcalls hpath
    rw [List.map_cons, List.map_cons]
    cases s with
    | field key optional =>
      obtain ⟨k, ks, hks⟩ := hs key (by simp [Selector.parts])
      have hmeets : ¬MeetsAbsent call scope input (.field key optional :: path) v ↔
          ∀ k' ∈ k :: ks, ¬(v.field k' = .ok none ∨
            ∃ found, v.field k' = .ok (some found) ∧ MeetsAbsent call scope input path found) := by
        simp only [MeetsAbsent, hks, Outcome.outputs_ofList, not_exists, not_and]
      rw [hmeets, Selector.marked, Selector.marked, select, select, hks]
      refine .ofList_bind fun k' _ => .guarded (v.field_failsOnly recoverables_catchable k') ?_
      rintro (_ | found) hfound
      · exact .done (select_null hcalls hpath _) fun hall => hall (.inl hfound)
      · exact (hrest found _).of_iff (by simp [hfound])
    | iterate optional =>
      rw [Selector.marked, Selector.marked, select, select]
      refine .guarded (v.iterate_failsOnly recoverables_catchable) fun items hitems => ?_
      have hmeets : ¬MeetsAbsent call scope input (.iterate optional :: path) v ↔
          ∀ item ∈ items, ¬MeetsAbsent call scope input path item := by
        simp [MeetsAbsent, hitems]
      rw [hmeets]
      exact .ofList_bind fun item _ => hrest item _
    | slice start stop optional =>
      obtain ⟨a, starts, hstarts⟩ := hs start (by simp [Selector.parts])
      obtain ⟨b, stops, hstops⟩ := hs stop (by simp [Selector.parts])
      have hmeets : ¬MeetsAbsent call scope input (.slice start stop optional :: path) v ↔
          ∀ a' ∈ a :: starts, ∀ b' ∈ b :: stops, ∀ part, v.slice a' b' = .ok part →
            ¬MeetsAbsent call scope input path part := by
        simp only [MeetsAbsent, hstarts, hstops, Outcome.outputs_ofList, not_exists, not_and]
      rw [hmeets, Selector.marked, Selector.marked, select, select, hstarts, hstops]
      refine .ofList_bind fun a' _ => .ofList_bind fun b' _ =>
        .guarded (v.slice_failsOnly recoverables_catchable a' b') fun part hpart => ?_
      exact (hrest part _).of_iff (by simp [hpart])
    | call args bound optional => cases hcall _ List.mem_cons_self

end Run

namespace Feed

variable {call : Call} {scope : Scope} {input : Value} {path : List (Selector Pipeline)}

theorem evaluate_ok_iff {p : Pipeline} {vs : List Value} :
    evaluate call p scope input = .ok vs ↔
      (Run.pipeline call p scope input).failure = none ∧
        (Run.pipeline call p scope input).outputs = vs := by
  rw [evaluate_eq, Outcome.collect_eq]
  cases (Run.pipeline call p scope input).failure <;> simp

/-- An access whose selectors are all optional, without calls and with operands that do not fail and
    put something out, as literals do, succeeds on everything that its base puts out. If the same
    access without the marks succeeds as well, its outputs are those of that access with some left
    out, and they are all there exactly if it does not come to an absent field. -/
theorem evaluate_optional (hcall : ∀ s ∈ path, s.isCall = false)
    (hoperands : ∀ p ∈ path.flatMap Selector.parts,
      ∃ k ks, evaluate call p scope input = .ok (k :: ks))
    {base : Pipeline} {vs : List Value} (hbase : evaluate call base scope input = .ok vs) :
    ∃ outputs,
      evaluate call [.access base (path.map (.marked true))] scope input = .ok outputs ∧
      ∀ plain, evaluate call [.access base (path.map (.marked false))] scope input = .ok plain →
        outputs.Sublist plain ∧
          (outputs = plain ↔ ∀ v ∈ vs, ¬Run.MeetsAbsent call scope input path v) := by
  have hselect : ∀ v, Outcome.Drops (¬Run.MeetsAbsent call scope input path v)
      (Run.select call (path.map (.marked true)) scope input v none)
      (Run.select call (path.map (.marked false)) scope input v none) := by
    refine fun v => Run.select_marked hcall (fun p hp => ?_) v none
    obtain ⟨k, ks, hks⟩ := hoperands p hp
    exact ⟨k, ks, run_of_evaluate hks⟩
  have hdrops : Outcome.Drops (∀ v ∈ vs, ¬Run.MeetsAbsent call scope input path v)
      (Run.pipeline call [.access base (path.map (.marked true))] scope input)
      (Run.pipeline call [.access base (path.map (.marked false))] scope input) := by
    rw [Run.pipeline_access, Run.pipeline_access, run_of_evaluate hbase]
    exact .ofList_bind fun v _ => hselect v
  refine ⟨_, evaluate_ok_iff.2 ⟨hdrops.succeeds, rfl⟩, fun plain hplain => ?_⟩
  obtain ⟨hsucceeds, rfl⟩ := evaluate_ok_iff.1 hplain
  exact ⟨hdrops.sublist hsucceeds, hdrops.outputs_eq_iff hsucceeds⟩

/-- `[null, true, -1, [], {}, func(): ., "a"]` -/
def keysOfAllTypes : Pipeline :=
  [.concat [[.null], [.bool true], [.number (.ofNat 1), .negate], [.array [.void]], [.object []],
    [.function [] []], [.string "a"]]]

/-- `["a", "b"][:]` -/
def bothWhole : List (Selector Pipeline) :=
  [.field [.concat [[.string "a"], [.string "b"]]] false, .slice [.null] [.null] false]

/-- `{"a": ["p", "q"]}` -/
def oneRow : Value := .object [("a", .array [.string "p", .string "q"])]

/-- Of keys of all types one finds something. Of two keys the second is absent, and the marks drop
    the null that stands for it. -/
theorem evaluate_optional_oneRow :
    (∃ outputs, evaluate (Run.call 0) [.access [] [.field keysOfAllTypes true]] [] oneRow =
        .ok outputs ∧ outputs.map Value.json = ["[\"p\",\"q\"]"]) ∧
      ∃ outputs, evaluate (Run.call 0) [.access [] (bothWhole.map (.marked true))] [] oneRow =
        .ok outputs ∧ outputs.Sublist [.array [.string "p", .string "q"], .null] ∧
          outputs ≠ [.array [.string "p", .string "q"], .null] := by
  have hkeys : ∀ p ∈ [Selector.field keysOfAllTypes false].flatMap Selector.parts,
      ∃ k ks, evaluate (Run.call 0) p [] oneRow = .ok (k :: ks) := by
    simp only [List.flatMap_singleton, Selector.parts, List.forall_mem_singleton]
    exact ⟨_, _, rfl⟩
  have hboth : ∀ p ∈ bothWhole.flatMap Selector.parts,
      ∃ k ks, evaluate (Run.call 0) p [] oneRow = .ok (k :: ks) := by
    simp only [bothWhole, List.flatMap_cons, List.flatMap_nil, Selector.parts,
      List.forall_mem_append, List.forall_mem_cons]
    exact ⟨⟨⟨_, _, rfl⟩, List.forall_mem_nil _⟩,
      ⟨⟨_, _, rfl⟩, ⟨_, _, rfl⟩, List.forall_mem_nil _⟩, List.forall_mem_nil _⟩
  have hbase : evaluate (Run.call 0) [] [] oneRow = .ok [oneRow] := rfl
  obtain ⟨found, hfound, -⟩ := evaluate_optional (by decide) hkeys hbase
  obtain ⟨outputs, houtputs, hplain⟩ := evaluate_optional (by decide) hboth hbase
  refine ⟨⟨found, hfound, ?_⟩, outputs, houtputs, ?_⟩
  · cases hfound
    rfl
  · obtain ⟨hsublist, heq⟩ := hplain [.array [.string "p", .string "q"], .null] rfl
    refine ⟨hsublist, fun h => heq.1 h oneRow List.mem_cons_self ?_⟩
    exact ⟨.string "b", List.mem_cons_of_mem _ List.mem_cons_self, .inl rfl⟩

end Feed

end JsonPipe
