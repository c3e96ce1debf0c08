import JsonPipe.Proofs.Value.Order
import JsonPipe.Value.Update

/-! Updates, with and without looking at what is there.

    A write keeps the value that is there if the new one is equal to it. `Entries.storeAll`,
    `Items.storeAll` and `Items.rows` are the same updates without that test: they put in every
    value. The two can be told apart only as far as equal values can: if a view `f` of values shows
    no difference between a value of a set `D` and an equal one that is written over it
    (`KeepsView f D`), then it shows no difference between the results either. -/

namespace JsonPipe

variable {α β : Type}

/-! ### Entries -/

namespace Entries

theorem mem_values_of_get? {name : String} {a : α} {es : Entries α}
    (h : es.get? name = some a) : a ∈ es.values := by
  induction es with
  | nil => cases h
  | cons e es ih =>
    obtain ⟨k, b⟩ := e
    rw [get?] at h
    split at h
    · rw [Option.some.inj h]
      exact List.mem_cons_self
    · exact List.mem_cons_of_mem _ (ih h)

theorem mem_insert {name : String} {a : α} {e : String × α} {es : Entries α}
    (h : e ∈ es.insert name a) : e = (name, a) ∨ e ∈ es := by
  induction es with
  | nil => exact .inl (List.mem_singleton.1 h)
  | cons other es ih =>
    obtain ⟨k, b⟩ := other
    rw [insert] at h
    split at h
    · rcases List.mem_cons.1 h with rfl | h
      · exact .inl rfl
      · exact .inr (List.mem_cons_of_mem _ h)
    · split at h
      · exact List.mem_cons.1 h
      · rcases List.mem_cons.1 h with rfl | h
        · exact .inr List.mem_cons_self
        · exact (ih h).imp_right (List.mem_cons_of_mem _)

theorem mem_values_insert {name : String} {a b : α} {es : Entries α}
    (h : b ∈ (es.insert name a).values) : b = a ∨ b ∈ es.values := by
  obtain ⟨e, he, rfl⟩ := List.mem_map.1 h
  rcases mem_insert he with rfl | hmem
  · exact .inl rfl
  · exact .inr (List.mem_map_of_mem hmem)

theorem mem_values_erase {name : String} {b : α} {es : Entries α}
    (h : b ∈ (es.erase name).values) : b ∈ es.values := by
  induction es with
  | nil => cases h
  | cons e es ih =>
    obtain ⟨k, c⟩ := e
    rw [erase] at h
    split at h
    · exact List.mem_cons_of_mem _ h
    · rcases List.mem_cons.1 h with rfl | h
      · exact List.mem_cons_self
      · exact List.mem_cons_of_mem _ (ih h)

theorem get?_eq_none_of_not_mem {name : String} {es : Entries α} (h : name ∉ es.keys) :
    es.get? name = none := by
  induction es with
  | nil => rfl
  | cons e es ih =>
    rw [keys, List.map_cons, List.mem_cons, not_or] at h
    rw [get?, if_neg h.1, ih h.2]

/-- Names in ascending order are distinct. -/
theorem Sorted.nodup {es : Entries α} (h : es.Sorted) : es.keys.Nodup := by
  refine List.Pairwise.imp ?_ h
  rintro s t hlt rfl
  exact String.lt_irrefl s hlt

theorem mapValues_insert (f : α → β) (name : String) (a : α) (es : Entries α) :
    (es.insert name a).mapValues f = (es.mapValues f).insert name (f a) := by
  induction es with
  | nil => rfl
  | cons e es ih =>
    obtain ⟨k, b⟩ := e
    simp only [mapValues, insert, List.map_cons] at ih ⊢
    split
    · rfl
    · split
      · rfl
      · rw [List.map_cons, ih]

theorem mapValues_erase (f : α → β) (name : String) (es : Entries α) :
    (es.erase name).mapValues f = (es.mapValues f).erase name := by
  induction es with
  | nil => rfl
  | cons e es ih =>
    obtain ⟨k, b⟩ := e
    simp only [mapValues, erase, List.map_cons] at ih ⊢
    split
    · rfl
    · rw [List.map_cons, ih]

/-- Applies a change to one entry, whatever is there. -/
def store (es : Entries Value) : String × Change → Entries Value
  | (name, .set value) => es.insert name value
  | (name, .delete) => es.erase name

/-- Applies changes one after the other, whatever is there. -/
def storeAll (es : Entries Value) (changes : List (String × Change)) : Entries Value :=
  changes.foldl store es

end Entries

/-- All values that changes put in are in a set. -/
def Change.AllIn (D : Value → Prop) (changes : List (String × Change)) : Prop :=
  ∀ name value, (name, Change.set value) ∈ changes → D value

namespace Items

/-- Puts in one element, whatever is there. -/
def store (filler : Value) (items : List Value) (index : Int) (value : Value) : List Value :=
  match resolve items.length index with
  | .ofNat i =>
    if i < items.length then items.set i value
    else items ++ List.replicate (i - items.length) filler ++ [value]
  | .negSucc missing => value :: List.replicate missing filler ++ items

/-- Puts in elements one after the other, whatever is there. -/
def storeAll (filler : Value) (items : List Value) (changes : List (Int × Value)) : List Value :=
  changes.foldl (fun items c => store filler items c.1 c.2) items

/-- Every row with one candidate in each slot, put in whatever is there. -/
def rows (source : List Value) (slots : List (List Value)) :
    Except Failure (List (List Value)) :=
  counted slots fun n => (List.range n).map fun i =>
    List.zipWith (fun _ new => new) (fit slots.length source) (choice i slots).2

end Items

/-! ### Views that writes do not disturb -/

/-- The view `f` shows no difference between a value written over another and what stands there
    after the write, as long as both are in `D`. -/
def KeepsView (f : Value → Value) (D : Value → Prop) : Prop :=
  ∀ old new, D old → D new → f (old.overwrite new) = f new

theorem Value.overwrite_or (old new : Value) :
    old.overwrite new = old ∨ old.overwrite new = new := by
  rw [overwrite]
  split
  · exact .inl rfl
  · exact .inr rfl

/-- Nothing but null is equal to null. -/
theorem Value.overwrite_null (new : Value) : Value.null.overwrite new = new := by
  rw [overwrite]
  split
  · next h =>
    rw [same_iff] at h
    cases new <;> simp [shape, viewed] at h ⊢
  · rfl

theorem Value.overwrite_overwrite (old new : Value) :
    old.overwrite (old.overwrite new) = old.overwrite new := by
  rcases old.overwrite_or new with h | h
  · rw [h, overwrite]
    split <;> rfl
  · rw [h, h]

/-- Views are kept exactly where they show no difference between equal values. -/
theorem keepsView_iff {f : Value → Value} {D : Value → Prop} :
    KeepsView f D ↔ ∀ v w, D v → D w → v.same w = true → f v = f w := by
  constructor
  · intro keeps v w hv hw h
    have := keeps v w hv hw
    rwa [Value.overwrite, if_pos h] at this
  · intro tells old new hold hnew
    rw [Value.overwrite]
    split
    · next h => exact tells old new hold hnew h
    · rfl

theorem keepsView_shape (D : Value → Prop) : KeepsView Value.shape D :=
  keepsView_iff.2 fun v w _ _ h => (v.same_iff w).1 h
section Views

variable {f : Value → Value} {D : Value → Prop}

theorem Value.overwrite_mem {old new : Value} (hold : D old) (hnew : D new) :
    D (old.overwrite new) := by
  rcases old.overwrite_or new with h | h
  · rwa [h]
  · rwa [h]

/-! ### Objects -/

namespace Entries

theorem write_mem {name : String} {value : Value} {es : Entries Value}
    (hes : ∀ v ∈ es.values, D v) (hv : D value) : ∀ v ∈ (es.write name value).values, D v := by
  intro v hmem
  rw [write] at hmem
  split at hmem
  · next old hold =>
    rcases mem_values_insert hmem with rfl | h
    · exact Value.overwrite_mem (hes _ (mem_values_of_get? hold)) hv
    · exact hes v h
  · rcases mem_values_insert hmem with rfl | h
    · exact hv
    · exact hes v h

theorem writeAll_mem {pairs : List (String × Value)} (hpairs : ∀ v ∈ values pairs, D v)
    {es : Entries Value} (hes : ∀ v ∈ es.values, D v) : ∀ v ∈ (es.writeAll pairs).values, D v := by
  induction pairs generalizing es with
  | nil => exact hes
  | cons p pairs ih =>
    exact ih (fun v hv => hpairs v (List.mem_cons_of_mem _ hv))
      (write_mem hes (hpairs p.2 List.mem_cons_self))

theorem mapValues_write (keeps : KeepsView f D) {name : String} {value : Value}
    {es : Entries Value} (hes : ∀ v ∈ es.values, D v) (hv : D value) :
    (es.write name value).mapValues f = (es.mapValues f).insert name (f value) := by
  rw [write]
  split
  · next old hold =>
    rw [mapValues_insert, keeps old value (hes _ (mem_values_of_get? hold)) hv]
  · rw [mapValues_insert]

/-- One change leaves entries of `D`, and shows what storing shows. -/
theorem change_step (keeps : KeepsView f D) {es fs : Entries Value} {c : String × Change}
    (hes : ∀ v ∈ es.values, D v) (hc : ∀ value, c.2 = .set value → D value)
    (h : es.mapValues f = fs.mapValues f) :
    (∀ v ∈ (es.change c).values, D v) ∧ (es.change c).mapValues f = (fs.store c).mapValues f := by
  obtain ⟨name, change⟩ := c
  cases change with
  | set value =>
    have hv := hc value rfl
    refine ⟨write_mem hes hv, ?_⟩
    rw [change, store, mapValues_write keeps hes hv, mapValues_insert, h]
  | delete =>
    refine ⟨fun v hmem => hes v (mem_values_erase hmem), ?_⟩
    rw [change, store, mapValues_erase, mapValues_erase, h]

/-- Changes show what storing shows. -/
theorem mapValues_changeAll (keeps : KeepsView f D) (changes : List (String × Change))
    (hchanges : Change.AllIn D changes) {es fs : Entries Value} (hes : ∀ v ∈ es.values, D v)
    (h : es.mapValues f = fs.mapValues f) :
    (es.changeAll changes).mapValues f = (fs.storeAll changes).mapValues f := by
  induction changes generalizing es fs with
  | nil => exact h
  | cons c changes ih =>
    have hc : ∀ value, c.2 = .set value → D value := by
      intro value heq
      refine hchanges c.1 value ?_
      rw [← heq]
      exact List.mem_cons_self
    obtain ⟨hin, hview⟩ := change_step keeps hes hc h
    exact ih (fun name value hmem => hchanges name value (List.mem_cons_of_mem _ hmem)) hin hview

/-- What is not there counts as null, which is never kept. -/
theorem write_eq_insert (name : String) (value : Value) (es : Entries Value) :
    es.write name value = es.insert name (((es.get? name).getD .null).overwrite value) := by
  rw [write]
  cases es.get? name with
  | some old => rfl
  | none => rw [Option.getD_none, Value.overwrite_null]

theorem get?_write_self (es : Entries Value) (name : String) (value : Value) :
    (es.write name value).get? name = some (((es.get? name).getD .null).overwrite value) := by
  rw [write_eq_insert, get?_insert_self]

theorem get?_write_of_ne {name other : String} (h : other ≠ name) (value : Value)
    (es : Entries Value) : (es.write name value).get? other = es.get? other := by
  rw [write_eq_insert, get?_insert_of_ne h]

/-- Pairs of distinct names are written each over what stands under its name. -/
theorem get?_writeAll (name : String) (pairs : List (String × Value))
    (hnodup : (keys pairs).Nodup) (es : Entries Value) :
    (es.writeAll pairs).get? name =
      ((get? name pairs).map ((es.get? name).getD .null).overwrite).or (es.get? name) := by
  induction pairs generalizing es with
  | nil => rfl
  | cons p pairs ih =>
    obtain ⟨k, v⟩ := p
    obtain ⟨hk, hrest⟩ := List.nodup_cons.1 hnodup
    have hstep := ih hrest (es.write k v)
    rw [writeAll] at hstep
    rw [writeAll, List.foldl_cons, hstep, get?]
    split
    · next heq =>
      rw [heq, get?_eq_none_of_not_mem hk, get?_write_self]
      rfl
    · next hne => rw [get?_write_of_ne hne]

/-- What looks the same is found under every name after pairs of distinct names are written. -/
theorem map_get?_writeAll (keeps : KeepsView f D) {es : Entries Value}
    {pairs : List (String × Value)} (hes : ∀ v ∈ es.values, D v)
    (hpairs : ∀ v ∈ values pairs, D v) (hnodup : (keys pairs).Nodup) (name : String) :
    ((es.writeAll pairs).get? name).map f = ((get? name pairs).or (es.get? name)).map f := by
  rw [get?_writeAll name pairs hnodup]
  cases hnew : get? name pairs with
  | none => rfl
  | some new =>
    have hD := hpairs new (mem_values_of_get? hnew)
    cases hold : es.get? name with
    | none => rw [Option.getD_none, Option.map_some, Value.overwrite_null]
    | some old =>
      have hview := keeps old new (hes old (mem_values_of_get? hold)) hD
      simp only [Option.map_some, Option.getD_some, Option.some_or, hview]

end Entries

/-! ### Arrays -/

namespace Items

/-- One write leaves elements of `D`, and shows what storing shows. -/
theorem write_step (keeps : KeepsView f D) {filler value : Value} {items others : List Value}
    (index : Int) (hfiller : D filler) (hitems : ∀ v ∈ items, D v) (hv : D value)
    (h : items.map f = others.map f) :
    (∀ v ∈ write filler items index value, D v) ∧
      (write filler items index value).map f = (store filler others index value).map f := by
  have hlen : items.length = others.length := by simpa using congrArg List.length h
  rw [write, store, hlen]
  cases resolve others.length index with
  | ofNat i =>
    by_cases hi : i < items.length
    · have hget : items[i]? = some items[i] := List.getElem?_eq_getElem hi
      have hold : D items[i] := hitems _ (List.getElem_mem hi)
      simp only [hget]
      rw [if_pos (hlen ▸ hi)]
      refine ⟨fun v hmem => ?_, ?_⟩
      · rcases List.mem_or_eq_of_mem_set hmem with h | rfl
        · exact hitems v h
        · exact Value.overwrite_mem hold hv
      · rw [List.map_set, List.map_set, keeps _ _ hold hv, h]
    · have hget : items[i]? = none := List.getElem?_eq_none (by omega)
      simp only [hget]
      rw [if_neg (hlen ▸ hi)]
      refine ⟨fun v hmem => ?_, ?_⟩
      · rcases List.mem_append.1 hmem with hmem | hmem
        · rcases List.mem_append.1 hmem with hmem | hmem
          · exact hitems v hmem
          · rw [List.eq_of_mem_replicate hmem]
            exact hfiller
        · rw [List.mem_singleton.1 hmem]
          exact hv
      · rw [List.map_append, List.map_append, List.map_append, List.map_append, h]
  | negSucc missing =>
    refine ⟨fun v hmem => ?_, ?_⟩
    · rcases List.mem_append.1 hmem with hmem | hmem
      · rcases List.mem_cons.1 hmem with rfl | hmem
        · exact hv
        · rw [List.eq_of_mem_replicate hmem]
          exact hfiller
      · exact hitems v hmem
    · rw [List.map_append, List.map_append, h]

/-- Writes show what storing shows. -/
theorem map_writeAll (keeps : KeepsView f D) {filler : Value} (hfiller : D filler)
    (changes : List (Int × Value)) (hchanges : ∀ c ∈ changes, D c.2) {items others : List Value}
    (hitems : ∀ v ∈ items, D v) (h : items.map f = others.map f) :
    (writeAll filler items changes).map f = (storeAll filler others changes).map f := by
  induction changes generalizing items others with
  | nil => exact h
  | cons c changes ih =>
    obtain ⟨hin, hview⟩ :=
      write_step keeps c.1 hfiller hitems (hchanges c List.mem_cons_self) h
    exact ih (fun d hd => hchanges d (List.mem_cons_of_mem _ hd)) hin hview

/-! ### Rows -/

theorem map_zipWith_overwrite (keeps : KeepsView f D) {base row : List Value}
    (hbase : ∀ v ∈ base, D v ∨ v = .null) (hrow : ∀ v ∈ row, D v) :
    (List.zipWith Value.overwrite base row).map f =
      (List.zipWith (fun _ new => new) base row).map f := by
  induction base generalizing row with
  | nil => rfl
  | cons old base ih =>
    cases row with
    | nil => rfl
    | cons new row =>
      have hone : f (old.overwrite new) = f new := by
        rcases hbase old List.mem_cons_self with hold | rfl
        · exact keeps old new hold (hrow new List.mem_cons_self)
        · rw [Value.overwrite_null]
      have hrest := ih (fun v hv => hbase v (List.mem_cons_of_mem _ hv))
        (fun v hv => hrow v (List.mem_cons_of_mem _ hv))
      rw [List.zipWith_cons_cons, List.zipWith_cons_cons, List.map_cons, List.map_cons, hone,
        hrest]

theorem choice_mem (slots : List (List Value)) (hslots : ∀ slot ∈ slots, ∀ v ∈ slot, D v)
    (n : Nat) : ∀ v ∈ (choice n slots).2, D v := by
  induction slots with
  | nil =>
    intro v hv
    cases hv
  | cons slot slots ih =>
    have hrest := ih fun s hs => hslots s (List.mem_cons_of_mem _ hs)
    intro v hv
    rw [choice] at hv
    obtain ⟨q, row⟩ := choice n slots
    simp only at hv
    split at hv
    · next x hx =>
      rcases List.mem_cons.1 hv with rfl | hv
      · exact hslots slot List.mem_cons_self v (List.mem_of_getElem? hx)
      · exact hrest v hv
    · exact hrest v hv

/-- Rows written over a source show the rows themselves. -/
theorem map_combinations (keeps : KeepsView f D) {source : List Value}
    {slots : List (List Value)} (hsource : ∀ v ∈ source, D v)
    (hslots : ∀ slot ∈ slots, ∀ v ∈ slot, D v) :
    (combinations source slots).map (List.map (List.map f)) =
      (rows source slots).map (List.map (List.map f)) := by
  have hbase : ∀ v ∈ fit slots.length source, D v ∨ v = .null := by
    intro v hv
    rcases List.mem_append.1 hv with hv | hv
    · exact .inl (hsource v (List.mem_of_mem_take hv))
    · exact .inr (List.eq_of_mem_replicate hv)
  rw [combinations, rows, map_counted, map_counted]
  congr 1
  funext n
  rw [List.map_map, List.map_map]
  refine List.map_congr_left fun i _ => ?_
  exact map_zipWith_overwrite keeps hbase (choice_mem slots hslots i)

end Items

end Views

end JsonPipe
