import Mathlib.Tactic.TFAE
import JsonPipe.Proofs.Run.Outcome
import JsonPipe.Proofs.Value.Merging
import JsonPipe.Run.Call

/-! When copy avoidance can be observed.

    An update that would put a value where an equal one stands keeps the one that is there. Equal
    values are equal for every program that only compares them, but a function can be called, and
    all functions are equal. So the test can be observed, and exactly then: for the values of a set
    `D` it goes unnoticed, in objects, arrays and rows of choices, in `.k = v | .k` and in `a + b`,
    if and only if equal values of `D` are the same up to signs of zeros (`copyAvoidance_exact`).
    For all values built from a set of functions that is the case if and only if the set has at
    most one member. -/

namespace JsonPipe

/-! ### What there is to observe -/

section Observations

variable (f : Value → Value) (D : Value → Prop)

/-- Equal values of `D` look the same. -/
def EqualsLookAlike : Prop := ∀ v w, D v → D w → v.same w = true → f v = f w

/-- Changed objects look as if every change had been made. -/
def ObjectsAgree : Prop :=
  ∀ (es : Entries Value) (changes : List (String × Change)),
    (∀ v ∈ es.values, D v) → Change.AllIn D changes →
      (es.changeAll changes).mapValues f = (es.storeAll changes).mapValues f

/-- Changed arrays look as if every element had been put in. -/
def ArraysAgree : Prop :=
  ∀ (filler : Value) (items : List Value) (changes : List (Int × Value)),
    D filler → (∀ v ∈ items, D v) → (∀ c ∈ changes, D c.2) →
      (Items.writeAll filler items changes).map f = (Items.storeAll filler items changes).map f

/-- Rows of choices over a source look as if every candidate had been put in. -/
def RowsAgree : Prop :=
  ∀ (source : List Value) (slots : List (List Value)),
    (∀ v ∈ source, D v) → (∀ slot ∈ slots, ∀ v ∈ slot, D v) →
      (Items.combinations source slots).map (List.map (List.map f)) =
        (Items.rows source slots).map (List.map (List.map f))

/-- `.name = value | .name` -/
def readAfterWrite (name : String) (value : Pipeline) : Pipeline :=
  [.assign [] [.field [.string name] false] .set value, .access [] [.field [.string name] false]]

/-- `.k = v | .k` gives what looks like `v`. -/
def AssignmentAgrees : Prop :=
  ∀ (limit : Nat) (scope : Scope) (es : Entries Value) (name : String) (value : Pipeline)
    (v : Value), (∀ u ∈ es.values, D u) → D v →
      Pipeline.evaluate limit value scope (.object es) = .ok [v] →
        ∃ u, Pipeline.evaluate limit (readAfterWrite name value) scope (.object es) = .ok [u] ∧
          f u = f v

/-- In `a + b` every entry looks like that of `b`, or like that of `a` where `b` has none. -/
def AdditionAgrees : Prop :=
  ∀ a b : Entries Value, b.Sorted → (∀ v ∈ a.values, D v) → (∀ v ∈ b.values, D v) →
    ∃ c : Entries Value, (Value.object a).add (.object b) = .ok (.object c) ∧
      ∀ name, (c.get? name).map f = ((b.get? name).or (a.get? name)).map f

/-- What the right side makes of an entry of the left: objects are multiplied, and anything else
    gives way. -/
def rightOver : Option Value → Option Value → Option Value
  | some (.object a), some (.object b) => some (.object (Value.merge a b))
  | _, some w => some w
  | left, none => left

/-- In `a * b` every entry looks like that of `b`, or like that of `a` where `b` has none, except
    that objects on both sides are multiplied. -/
def MultiplicationAgrees : Prop :=
  ∀ a b : Entries Value, b.Sorted → (∀ v ∈ a.values, D v) → (∀ v ∈ b.values, D v) →
    ∃ c : Entries Value, (Value.object a).multiply (.object b) = .ok (.object c) ∧
      ∀ name, (c.get? name).map f = (rightOver (a.get? name) (b.get? name)).map f

/-- A value written over another is seen afterwards: what stood there does not look different and
    yet is equal. -/
def SeenOver (old : Option Value) (new : Value) : Prop :=
  ∀ w, old = some w → w.same new = true → f w = f new

/-- Whatever the object and the value, `.k = v | .k` gives what looks like `v` if and only if `v` is
    seen over what stood there. -/
def AssignmentExact : Prop :=
  ∀ (limit : Nat) (scope : Scope) (es : Entries Value) (name : String) (value : Pipeline)
    (v : Value), Pipeline.evaluate limit value scope (.object es) = .ok [v] →
      ∃ u, Pipeline.evaluate limit (readAfterWrite name value) scope (.object es) = .ok [u] ∧
        (f u = f v ↔ SeenOver f (es.get? name) v)

/-- Whatever the objects, an entry of `a + b` looks as it should if and only if what `b` has for it
    is seen over what `a` has. -/
def AdditionExact : Prop :=
  ∀ a b : Entries Value, b.Sorted →
    ∃ c : Entries Value, (Value.object a).add (.object b) = .ok (.object c) ∧
      ∀ name, (c.get? name).map f = ((b.get? name).or (a.get? name)).map f ↔
        ∀ w, b.get? name = some w → SeenOver f (a.get? name) w

/-- Whatever the objects, an entry of `a * b` looks as it should if and only if what it should be is
    seen over what `a` has. -/
def MultiplicationExact : Prop :=
  ∀ a b : Entries Value, b.Sorted →
    ∃ c : Entries Value, (Value.object a).multiply (.object b) = .ok (.object c) ∧
      ∀ name, (c.get? name).map f = (rightOver (a.get? name) (b.get? name)).map f ↔
        ∀ w, rightOver (a.get? name) (b.get? name) = some w → SeenOver f (a.get? name) w

end Observations

/-! ### Updates -/

section Updates

variable {f : Value → Value} {D : Value → Prop}

theorem equalsLookAlike_iff : EqualsLookAlike f D ↔ KeepsView f D := keepsView_iff.symm

theorem objectsAgree_iff : ObjectsAgree f D ↔ EqualsLookAlike f D := by
  constructor
  · intro agree v w hv hw h
    have := agree [("", v)] [("", .set w)] (by simpa [Entries.values] using hv) (by
      intro name value hmem
      simp only [List.mem_singleton, Prod.mk.injEq, Change.set.injEq] at hmem
      rwa [hmem.2])
    simpa [Entries.changeAll, Entries.change, Entries.write, Entries.get?, Entries.insert,
      Entries.storeAll, Entries.store, Entries.mapValues, Value.overwrite, h] using this
  · intro tells es changes hes hchanges
    exact Entries.mapValues_changeAll (equalsLookAlike_iff.1 tells) changes hchanges hes rfl

theorem arraysAgree_iff : ArraysAgree f D ↔ EqualsLookAlike f D := by
  constructor
  · intro agree v w hv hw h
    have := agree v [v] [(0, w)] hv (by simpa using hv) (by simpa using hw)
    simpa [Items.writeAll, Items.write, Items.storeAll, Items.store, Items.resolve,
      Value.overwrite, h] using this
  · intro tells filler items changes hfiller hitems hchanges
    exact Items.map_writeAll (equalsLookAlike_iff.1 tells) hfiller changes hchanges hitems rfl

theorem rowsAgree_iff : RowsAgree f D ↔ EqualsLookAlike f D := by
  constructor
  · intro agree v w hv hw h
    have := agree [v] [[w]] (by simpa using hv) (by simpa using hw)
    simpa [Items.combinations, Items.rows, Items.counted, Items.fit, Items.choiceCount,
      Items.timesInWord, choice, List.range_succ, UInt64.size, Except.map, Value.overwrite, h]
      using this
  · intro tells source slots hsource hslots
    exact Items.map_combinations (equalsLookAlike_iff.1 tells) hsource hslots

/-! ### Assignment and addition -/

/-- A write under one name with one candidate. -/
theorem Assign.keys_one {fill : Fill} {es : Entries Value} {name : String} {v : Value}
    (h : fill ((es.get? name).getD .null) = .ok [v]) :
    keys fill false [.string name] (.object es) =
      .ok [.object (es.write name (((es.get? name).getD .null).overwrite v))] := by
  have hrows : slotRows fill [(es.get? name).getD .null] =
      .ok [[((es.get? name).getD .null).overwrite v]] :=
    slotRows_single (g := fun _ => v) fun c hc => by rwa [List.mem_singleton.1 hc]
  have hentries : keys fill false [.string name] (.object es) = entries fill [name] es := rfl
  rw [hentries, entries, List.map_singleton, hrows]
  rfl

/-- Reading what was written gives what stands there after the write. -/
theorem evaluate_readAfterWrite {limit : Nat} {scope : Scope} {es : Entries Value} {name : String}
    {value : Pipeline} {v : Value}
    (h : Pipeline.evaluate limit value scope (.object es) = .ok [v]) :
    Pipeline.evaluate limit (readAfterWrite name value) scope (.object es) =
      .ok [((es.get? name).getD .null).overwrite v] := by
  have hwrite := Assign.keys_one
    (show Run.assigned .set
        (fun _ => Feed.pipeline (Run.call limit) value scope (.object es) .one)
        (fun target => Feed.pipeline (Run.call limit) value scope target .one)
        ((es.get? name).getD .null) = .ok [v] from h)
  have hread := Entries.get?_write_self es name (((es.get? name).getD .null).overwrite v)
  rw [Value.overwrite_overwrite] at hread
  simp only [Pipeline.evaluate, Feed.evaluate, readAfterWrite, Feed.pipeline, Feed.instruction,
    Feed.assign, Feed.select, Outcome.collect_one]
  simp only [bind, Except.bind]
  rw [hwrite]
  simp only [Outcome.ofExcept, Outcome.ofList, Outcome.next_bind, Outcome.done_bind, Value.field,
    hread, Run.guarded, Outcome.collect_append, Outcome.collect_one]
  rfl

theorem assignmentAgrees_iff : AssignmentAgrees f D ↔ EqualsLookAlike f D := by
  constructor
  · intro agree v w hv hw h
    have hq : Pipeline.evaluate 0 [.variable ""] [[("", w)]] (.object [("", v)]) = .ok [w] := by
      simp [Pipeline.evaluate, Feed.evaluate, Feed.pipeline, Feed.instruction, Scope.lookup,
        Entries.get?]
    obtain ⟨u, hu, hfu⟩ := agree 0 [[("", w)]] [("", v)] "" [.variable ""] w
      (by simpa [Entries.values] using hv) hw hq
    rw [evaluate_readAfterWrite hq] at hu
    have huv : u = v := by
      simpa [Entries.get?, Value.overwrite, h] using hu.symm
    rwa [huv] at hfu
  · intro alike limit scope es name value v hes hv h
    refine ⟨_, evaluate_readAfterWrite h, ?_⟩
    cases hget : es.get? name with
    | none => rw [Option.getD_none, Value.overwrite_null]
    | some old =>
      rw [Option.getD_some]
      exact equalsLookAlike_iff.1 alike old v (hes old (Entries.mem_values_of_get? hget)) hv

theorem seenOver_iff (old : Option Value) (new : Value) :
    f ((old.getD .null).overwrite new) = f new ↔ SeenOver f old new := by
  cases old with
  | none => simp [SeenOver, Value.overwrite_null]
  | some w =>
    rw [Option.getD_some, Value.overwrite]
    split
    · next h => simp [SeenOver, h]
    · next h => simp [SeenOver, h]

theorem assignmentExact : AssignmentExact f := by
  intro limit scope es name value v h
  exact ⟨_, evaluate_readAfterWrite h, seenOver_iff _ v⟩

/-- Pairs of distinct names look as they should exactly where they are seen. -/
theorem map_get?_writeAll_iff (es : Entries Value) {pairs : Entries Value}
    (hnodup : pairs.keys.Nodup) (name : String) :
    ((es.writeAll pairs).get? name).map f = ((pairs.get? name).or (es.get? name)).map f ↔
      ∀ w, pairs.get? name = some w → SeenOver f (es.get? name) w := by
  rw [Entries.get?_writeAll name pairs hnodup]
  cases hnew : pairs.get? name with
  | none => simp
  | some w =>
    rw [Option.map_some, Option.some_or, Option.some_or, Option.map_some, Option.map_some,
      Option.some.injEq, seenOver_iff]
    constructor
    · rintro h x ⟨⟩
      exact h
    · intro h
      exact h w rfl

theorem additionExact : AdditionExact f := by
  intro a b hb
  exact ⟨a.writeAll b, rfl, map_get?_writeAll_iff a hb.nodup⟩

theorem additionAgrees_iff : AdditionAgrees f D ↔ EqualsLookAlike f D := by
  constructor
  · intro agree v w hv hw h
    obtain ⟨c, hc, hget⟩ := agree [("", v)] [("", w)] (by simp [Entries.Sorted, Entries.keys])
      (by simpa [Entries.values] using hv) (by simpa [Entries.values] using hw)
    have hcv : c = [("", v)] := by
      simpa [Value.add, Entries.writeAll, Entries.write, Entries.get?, Entries.insert,
        Value.overwrite, h] using hc.symm
    simpa [hcv, Entries.get?] using hget ""
  · intro alike a b hb ha hvb
    refine ⟨a.writeAll b, rfl, fun name => ?_⟩
    exact Entries.map_get?_writeAll (equalsLookAlike_iff.1 alike) ha hvb hb.nodup name

/-! ### Multiplication -/

theorem rightOver_eq (left right : Option Value) :
    (right.map fun v => v.mergeOver left).or left = rightOver left right := by
  cases right with
  | none =>
    cases left with
    | none => rfl
    | some v => cases v <;> rfl
  | some w =>
    cases left with
    | none => cases w <;> rfl
    | some v => cases v <;> cases w <;> rfl

theorem multiplicationExact : MultiplicationExact f := by
  intro a b hb
  have hnodup := Value.nodup_keys_mergedEntries hb a
  refine ⟨Value.merge a b, rfl, fun name => ?_⟩
  rw [← rightOver_eq, Value.merge, ← Value.get?_mergedEntries, map_get?_writeAll_iff a hnodup]
  cases Entries.get? name (Value.mergedEntries b a) with
  | some w => rfl
  | none =>
    -- an entry of `a` that `b` has nothing for is always seen: it stood there before
    refine iff_of_true (by simp) ?_
    intro w hw x hx _
    rw [Option.none_or, hx] at hw
    rw [Option.some.inj hw]

theorem multiplicationAgrees_of_closed (alike : EqualsLookAlike f D)
    (closed : ∀ right left : Entries Value, (∀ v ∈ right.values, D v) → (∀ v ∈ left.values, D v) →
      ∀ v ∈ Entries.values (Value.mergedEntries right left), D v) :
    MultiplicationAgrees f D := by
  intro a b hb ha hvb
  refine ⟨Value.merge a b, rfl, fun name => ?_⟩
  have hnodup := Value.nodup_keys_mergedEntries hb a
  rw [Value.merge, Entries.map_get?_writeAll (equalsLookAlike_iff.1 alike) ha
    (closed b a hvb ha) hnodup name, Value.get?_mergedEntries,
    rightOver_eq]

end Updates

/-! ### Values built from a set of functions -/

/-- Every function that stands in the value is in a set. -/
def Value.BuiltFrom (F : Function → Prop) (v : Value) : Prop := ∀ f ∈ v.functions, F f

section BuiltFrom

variable {F : Function → Prop}

theorem mem_functionsOfEntries {f : Function} (es : Entries Value) :
    f ∈ functionsOfEntries es ↔ ∃ v ∈ es.values, f ∈ v.functions := by
  induction es with
  | nil => simp [functionsOfEntries, Entries.values]
  | cons e es ih =>
    rw [functionsOfEntries, List.mem_append, ih]
    simp [Entries.values]

theorem builtFrom_object (es : Entries Value) :
    (Value.object es).BuiltFrom F ↔ ∀ v ∈ es.values, v.BuiltFrom F := by
  constructor
  · intro h v hv f hf
    exact h f ((mem_functionsOfEntries es).2 ⟨v, hv, hf⟩)
  · intro h f hf
    obtain ⟨v, hv, hf⟩ := (mem_functionsOfEntries es).1 hf
    exact h v hv f hf

mutual

/-- Multiplication makes no functions. -/
theorem mergeOver_builtFrom (v : Value) (old : Option Value) (hv : v.BuiltFrom F)
    (hold : ∀ u, old = some u → u.BuiltFrom F) : (v.mergeOver old).BuiltFrom F := by
  match v, old with
  | .object other, some (.object inner) =>
    have hinner := (builtFrom_object inner).1 (hold _ rfl)
    have hother := (builtFrom_object other).1 hv
    rw [Value.mergeOver, builtFrom_object]
    exact Entries.writeAll_mem (mergedEntries_builtFrom other inner hother hinner) hinner
  | .object _, none | .object _, some .null | .object _, some (.bool _)
  | .object _, some (.number _) | .object _, some (.string _) | .object _, some (.array _)
  | .object _, some (.function _) => exact hv
  | .null, _ | .bool _, _ | .number _, _ | .string _, _ | .array _, _ | .function _, _ => exact hv
termination_by structural v

theorem mergedEntries_builtFrom (right left : List (String × Value))
    (hright : ∀ v ∈ Entries.values right, v.BuiltFrom F)
    (hleft : ∀ v ∈ Entries.values left, v.BuiltFrom F) :
    ∀ v ∈ Entries.values (Value.mergedEntries right left), v.BuiltFrom F := by
  match right with
  | [] =>
    intro v hv
    cases hv
  | (k, w) :: right =>
    intro v hv
    rcases List.mem_cons.1 hv with rfl | hv
    · exact mergeOver_builtFrom w _ (hright w List.mem_cons_self) fun u hu =>
        hleft u (Entries.mem_values_of_get? hu)
    · exact mergedEntries_builtFrom right left
        (fun u hu => hright u (List.mem_cons_of_mem _ hu)) hleft v hv
termination_by structural right

end

/-- One function at most is needed to tell equal values apart by nothing but signs of zeros. -/
theorem equalsLookAlike_builtFrom (h : ∀ f g, F f → F g → f = g) :
    EqualsLookAlike Value.unsigned (Value.BuiltFrom F) := by
  intro v w hv hw hsame
  by_cases hF : ∃ f, F f
  · obtain ⟨f, hf⟩ := hF
    exact Value.unsigned_eq_of_same hsame (fun g hg => h g f (hv g hg) hf)
      (fun g hg => h g f (hw g hg) hf)
  · exact Value.unsigned_eq_of_same (f := .builtin .id) hsame
      (fun g hg => absurd ⟨g, hv g hg⟩ hF) (fun g hg => absurd ⟨g, hw g hg⟩ hF)

theorem eq_of_multiplicationAgrees
    (agree : MultiplicationAgrees Value.unsigned (Value.BuiltFrom F)) {f g : Function} (hf : F f)
    (hg : F g) : f = g := by
  have one : ∀ u, F u → ∀ v ∈ Entries.values [("", Value.function u)], v.BuiltFrom F := by
    intro u hu v hv k hk
    rw [List.mem_singleton.1 hv, Value.functions, List.mem_singleton] at hk
    rwa [hk]
  obtain ⟨c, hc, hget⟩ := agree [("", .function f)] [("", .function g)]
    (by simp [Entries.Sorted, Entries.keys]) (one f hf) (one g hg)
  have hsame : (Value.function f).same (.function g) = true := (Value.same_iff _ _).2 rfl
  have hcf : c = [("", .function f)] := by
    simpa [Value.multiply, Value.merge, Value.mergedEntries, Value.mergeOver, Entries.writeAll,
      Entries.write, Entries.get?, Entries.insert, Value.overwrite, hsame] using hc.symm
  simpa [hcf, Entries.get?, rightOver, Value.unsigned, Value.viewed] using hget ""

end BuiltFrom

/-! ### The exact condition -/

/-- Copy avoidance goes unnoticed by the values of a set exactly when equal values of the set are
    the same up to signs of zeros, for each of the updates by itself; for all values built from a
    set of functions exactly when these are at most one. Up to equality the updates always agree
    with those that put in every value. And whatever the input, `.k = v | .k`, `a + b` and `a * b`
    give what they should exactly if nothing that looks different was kept for being equal. -/
theorem copyAvoidance_exact (D : Value → Prop) (F : Function → Prop) :
    [EqualsLookAlike Value.unsigned D, ObjectsAgree Value.unsigned D, ArraysAgree Value.unsigned D,
      RowsAgree Value.unsigned D, AssignmentAgrees Value.unsigned D,
      AdditionAgrees Value.unsigned D].TFAE ∧
    [∀ f g, F f → F g → f = g, EqualsLookAlike Value.unsigned (Value.BuiltFrom F),
      MultiplicationAgrees Value.unsigned (Value.BuiltFrom F)].TFAE ∧
    ObjectsAgree Value.shape (fun _ => True) ∧ ArraysAgree Value.shape (fun _ => True) ∧
      RowsAgree Value.shape (fun _ => True) ∧ AssignmentAgrees Value.shape (fun _ => True) ∧
      AdditionAgrees Value.shape (fun _ => True) ∧
      MultiplicationAgrees Value.shape (fun _ => True) ∧
    AssignmentExact Value.unsigned ∧ AdditionExact Value.unsigned ∧
      MultiplicationExact Value.unsigned := by
  have hshape : EqualsLookAlike Value.shape fun _ => True :=
    equalsLookAlike_iff.2 (keepsView_shape _)
  refine ⟨?_, ?_, objectsAgree_iff.2 hshape, arraysAgree_iff.2 hshape,
    rowsAgree_iff.2 hshape, assignmentAgrees_iff.2 hshape, additionAgrees_iff.2 hshape,
    multiplicationAgrees_of_closed hshape fun _ _ _ _ _ _ => trivial, assignmentExact,
    additionExact, multiplicationExact⟩
  · tfae_have 2 ↔ 1 := objectsAgree_iff
    tfae_have 3 ↔ 1 := arraysAgree_iff
    tfae_have 4 ↔ 1 := rowsAgree_iff
    tfae_have 5 ↔ 1 := assignmentAgrees_iff
    tfae_have 6 ↔ 1 := additionAgrees_iff
    tfae_finish
  · tfae_have 1 → 2 := equalsLookAlike_builtFrom
    tfae_have 2 → 3 := fun alike =>
      multiplicationAgrees_of_closed alike fun right left => mergedEntries_builtFrom right left
    tfae_have 3 → 1 := fun agree f g hf hg => eq_of_multiplicationAgrees agree hf hg
    tfae_finish

/-- A builtin written over another one is not there afterwards. -/
theorem readAfterWrite_builtin :
    Pipeline.evaluate defaultCallDepth (readAfterWrite "k" [.variable "g"])
        [[("g", .function (.builtin .args))]] (.object [("k", .function (.builtin .id))]) =
      .ok [.function (.builtin .id)] ∧
    ¬ AssignmentAgrees Value.unsigned fun _ => True := by
  have hq : ∀ limit, Pipeline.evaluate limit [.variable "g"]
      [[("g", .function (.builtin .args))]] (.object [("k", .function (.builtin .id))]) =
        .ok [.function (.builtin .args)] := fun _ => rfl
  have hkeep : ∀ limit, Pipeline.evaluate limit (readAfterWrite "k" [.variable "g"])
      [[("g", .function (.builtin .args))]] (.object [("k", .function (.builtin .id))]) =
        .ok [.function (.builtin .id)] := by
    intro limit
    rw [evaluate_readAfterWrite (hq limit)]
    rfl
  refine ⟨hkeep _, fun agree => ?_⟩
  obtain ⟨u, hu, hview⟩ := agree 0 _ _ "k" _ _ (fun _ _ => trivial) trivial (hq 0)
  rw [hkeep 0, Except.ok.injEq, List.cons.injEq] at hu
  rw [← hu.1] at hview
  simp [Value.unsigned, Value.viewed] at hview

end JsonPipe
