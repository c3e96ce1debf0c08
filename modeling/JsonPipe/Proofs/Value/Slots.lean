import JsonPipe.Proofs.Value.Replacement

/-! Slots as variables.

    A key names a slot of a container that it fits, whether anything stands there or not. To put a
    value in (`Value.stored`), an array may have to grow, and then the index is counted in what it
    has become. It still leads to the same slot, since the growth ends there
    (`Items.exists_store`). So a slot has the laws of a variable: it holds what was put in last
    (`Value.field_stored`), and nothing else is left of what was put in before
    (`Value.stored_stored`). -/

namespace JsonPipe

/-! ### Entries and elements -/

namespace Entries

theorem insert_insert {α : Type} (name : String) (a b : α) (es : Entries α) :
    (es.insert name a).insert name b = es.insert name b := by
  induction es with
  | nil => simp [insert]
  | cons e es ih =>
    obtain ⟨k, c⟩ := e
    by_cases heq : name = k
    · simp [insert, heq]
    · by_cases hlt : name < k
      · simp [insert, heq, hlt]
      · simp [insert, heq, hlt, ih]

end Entries

namespace Items

theorem write_eq_store (filler : Value) (items : List Value) (index : Int) (value : Value) :
    write filler items index value =
      store filler items index (((get? items index).getD .null).overwrite value) := by
  rw [write, store, get?_eq, position?]
  cases resolve items.length index with
  | ofNat i =>
    by_cases hi : i < items.length
    · simp [hi]
    · simp [hi, Value.overwrite_null]
  | negSucc missing => simp [Value.overwrite_null]

/-- An index cuts an array in two parts, one before the slot and one behind it, that do not depend
    on what is put in. In the array that comes out it leads to the slot again. -/
theorem exists_store (filler : Value) (items : List Value) (index : Int) :
    ∃ before behind : List Value, ∀ value,
      store filler items index value = before ++ value :: behind ∧
        resolve (before ++ value :: behind).length index = before.length := by
  simp only [store]
  cases hr : resolve items.length index with
  | ofNat i =>
    rw [resolve, Int.ofNat_eq_natCast] at hr
    by_cases hi : i < items.length
    · refine ⟨items.take i, items.drop (i + 1), fun value => ⟨?_, ?_⟩⟩
      · simp only [if_pos hi, List.set_eq_take_append_cons_drop]
      · simp only [resolve, List.length_append, List.length_cons, List.length_take,
          List.length_drop]
        split at hr <;> split <;> omega
    · -- the array grows up to the slot, so the index is not counted from its end
      refine ⟨items ++ List.replicate (i - items.length) filler, [], fun value => ⟨?_, ?_⟩⟩
      · simp only [if_neg hi]
      · simp only [resolve, List.length_append, List.length_cons, List.length_replicate,
          List.length_nil]
        split at hr <;> split <;> omega
  | negSucc missing =>
    refine ⟨[], List.replicate missing filler ++ items, fun value => ⟨rfl, ?_⟩⟩
    rw [resolve, Int.negSucc_eq] at hr
    simp only [resolve, List.length_append, List.length_cons, List.length_replicate,
      List.length_nil]
    split at hr <;> split <;> omega

theorem get?_store (filler : Value) (items : List Value) (index : Int) (value : Value) :
    get? (store filler items index value) index = some value := by
  obtain ⟨before, behind, hstore⟩ := exists_store filler items index
  obtain ⟨heq, hresolve⟩ := hstore value
  rw [heq, get?_eq, position?, hresolve]
  simp

theorem store_store (filler : Value) (items : List Value) (index : Int) (value new : Value) :
    store filler (store filler items index value) index new = store filler items index new := by
  obtain ⟨before, behind, hstore⟩ := exists_store filler items index
  obtain ⟨heq, hresolve⟩ := hstore value
  rw [heq, (hstore new).1, store, hresolve]
  simp

/-- The array has grown as far as the index needs it. -/
theorem neededLength_le_store (filler : Value) (items : List Value) (index : Int) (value : Value) :
    Assign.neededLength index ≤ (store filler items index value).length := by
  obtain ⟨before, behind, hstore⟩ := exists_store filler items index
  obtain ⟨heq, hresolve⟩ := hstore value
  rw [heq, Assign.neededLength]
  rw [List.length_append, List.length_cons] at hresolve ⊢
  rw [resolve] at hresolve
  split at hresolve <;> split <;> omega

end Items

/-! ### Containers -/

namespace Value

/-- What stands under a key, or null. -/
def slot (c k : Value) : Value :=
  match c.field k with
  | .ok (some v) => v
  | _ => .null

/-- Puts a value under a key, whatever is there. -/
def stored (c k v : Value) : Value :=
  match c, k with
  | .object es, .string name => .object (Entries.insert name v es)
  | .array items, .number n => .array (Items.store .null items n.toIndex v)
  | c, _ => c

theorem slot_object (es : Entries Value) (name : String) :
    (Value.object es).slot (.string name) = (es.get? name).getD .null := by
  simp only [slot, field]
  cases es.get? name <;> rfl

theorem slot_array (items : List Value) (n : Number) :
    (Value.array items).slot (.number n) = (Items.get? items n.toIndex).getD .null := by
  simp only [slot, field]
  cases Items.get? items n.toIndex <;> rfl

variable {c k v w : Value}

/-- A key that fits a container is a name in an object or an index in an array. -/
theorem exists_of_fits (h : Assign.fits c k = true) :
    (∃ es name, c = .object es ∧ k = .string name) ∨
      ∃ items n, c = .array items ∧ k = .number n := by
  unfold Assign.fits at h
  split at h
  · exact .inl ⟨_, _, rfl, rfl⟩
  · exact .inr ⟨_, _, rfl, rfl⟩
  · cases h

theorem field_stored (v : Value) (h : Assign.fits c k = true) :
    (c.stored k v).field k = .ok (some v) := by
  obtain ⟨es, name, rfl, rfl⟩ | ⟨items, n, rfl, rfl⟩ := exists_of_fits h
  · simp only [stored, field, Entries.get?_insert_self]
  · simp only [stored, field, Items.get?_store]

@[simp] theorem slot_stored (v : Value) (h : Assign.fits c k = true) :
    (c.stored k v).slot k = v := by
  rw [slot, field_stored v h]

@[simp] theorem stored_stored (c k v w : Value) : (c.stored k v).stored k w = c.stored k w := by
  cases c with
  | object es =>
    cases k with
    | string name => simp only [stored, Entries.insert_insert]
    | _ => rfl
  | array items =>
    cases k with
    | number n => simp only [stored, Items.store_store]
    | _ => rfl
  | _ => rfl

/-- Equal values put into one slot make equal containers. -/
theorem stored_same (c k : Value) (h : v.same w = true) :
    (c.stored k v).same (c.stored k w) = true := by
  rw [same_iff] at h ⊢
  unfold stored
  split
  · simp only [shape, viewed_object, Entries.mapValues_insert] at h ⊢
    rw [h]
  · next items n =>
    obtain ⟨before, behind, hstore⟩ := Items.exists_store .null items n.toIndex
    simp only [shape, viewed_array, (hstore _).1, List.map_append, List.map_cons] at h ⊢
    rw [h]
  · rfl

/-- A key finds equal values in equal containers. -/
theorem field_of_same {a : Value} (h : v.same w = true) (ha : v.field k = .ok (some a)) :
    ∃ b, w.field k = .ok (some b) ∧ a.same b = true := by
  obtain ⟨p, hp, hchild⟩ := field_eq_iff.1 ha
  obtain ⟨b, hb, hab⟩ := exists_child_of_same h hchild
  exact ⟨b, field_eq_iff.2 ⟨p, outline_eq_of_same h ▸ hp, hb⟩, hab⟩

end Value

/-! ### Writes to one slot -/

namespace Assign

/-- There is one result if one is to come, and otherwise a failure. -/
def Settles {α : Type} (r : Except Failure (List α)) : Option α → Prop
  | some a => r = .ok [a]
  | none => ∃ e, r = .error e

theorem Settles.map {α β : Type} {r : Except Failure (List α)} {a : Option α} (h : Settles r a)
    (f : α → β) : Settles (do return (← r).map f) (a.map f) := by
  cases a with
  | some a =>
    rw [Settles] at h
    rw [h]
    rfl
  | none =>
    obtain ⟨e, he⟩ := h
    exact ⟨e, by rw [he]; rfl⟩

variable {fill : Fill} {new : Option Value}

theorem slotRows_settles {current : Value} (h : Settles (fill current) new) :
    Settles (slotRows fill [current]) (new.map fun v => [current.overwrite v]) := by
  cases new with
  | some v =>
    refine slotRows_single (g := fun _ => v) fun c hc => ?_
    rw [List.mem_singleton.1 hc]
    exact h
  | none =>
    obtain ⟨e, he⟩ := h
    exact ⟨e, by rw [slotRows, List.mapM_cons, he]; rfl⟩

theorem entries_settles {es : Entries Value} {name : String}
    (h : Settles (fill ((Value.object es).slot (.string name))) new) :
    Settles (entries fill [name] es) (new.map fun v => (Value.object es).stored (.string name)
      (((Value.object es).slot (.string name)).overwrite v)) := by
  rw [Value.slot_object] at h ⊢
  have hwritten : ∀ v, Value.object (es.writeAll
      ([name].zip [((es.get? name).getD .null).overwrite v])) =
        (Value.object es).stored (.string name) (((es.get? name).getD .null).overwrite v) := by
    intro v
    have hwrite := Entries.write_eq_insert name (((es.get? name).getD .null).overwrite v) es
    rw [Value.overwrite_overwrite] at hwrite
    exact congrArg Value.object hwrite
  have hrows := (slotRows_settles h).map fun row => Value.object (es.writeAll ([name].zip row))
  simp only [Option.map_map, Function.comp_def, hwritten] at hrows
  exact hrows

theorem elements_settles {items : List Value} {n : Number}
    (h : Settles (fill ((Value.array items).slot (.number n))) new) :
    Settles (elements fill [n.toIndex] items) (new.map fun v => (Value.array items).stored
      (.number n) (((Value.array items).slot (.number n)).overwrite v)) := by
  rw [Value.slot_array] at h ⊢
  have hwritten : ∀ v, Value.array (Items.writeAll .null items
      ([n.toIndex].zip [((Items.get? items n.toIndex).getD .null).overwrite v])) =
        (Value.array items).stored (.number n)
          (((Items.get? items n.toIndex).getD .null).overwrite v) := by
    intro v
    have hwrite := Items.write_eq_store .null items n.toIndex
      (((Items.get? items n.toIndex).getD .null).overwrite v)
    rw [Value.overwrite_overwrite] at hwrite
    exact congrArg Value.array hwrite
  have hrows := (slotRows_settles h).map fun row =>
    Value.array (Items.writeAll .null items ([n.toIndex].zip row))
  simp only [Option.map_map, Function.comp_def, hwritten] at hrows
  exact hrows

end Assign

end JsonPipe
