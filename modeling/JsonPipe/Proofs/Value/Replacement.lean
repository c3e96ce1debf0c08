import JsonPipe.Proofs.Value.Places
import JsonPipe.Value.Assign

/-! Writes with one candidate for each slot.

    If every slot has one candidate, a step of a write gives one document: at the places that the
    step leads to, what stood there is overwritten, and everything else is as it was
    (`Assign.keys_replaced`, `Assign.each_replaced`). A place may be named more than once, by the
    same key or by an index from either end. Then it has the same candidate each time, and writing
    that again changes nothing. -/

namespace JsonPipe

/-- What stands at some places is changed by `f`, and nothing else is. -/
structure Replaced (f : Value → Value) (ps : List Place) (v v' : Value) : Prop where
  outline_eq : v'.outline = v.outline
  plain_eq : v.outline = .plain → v' = v
  child_eq : ∀ p, v'.child? p = if p ∈ ps then (v.child? p).map f else v.child? p

/-! ### Writing what is settled -/

theorem Value.overwrite_self (v : Value) : v.overwrite v = v := by
  rw [overwrite]
  split <;> rfl

namespace Entries

theorem keys_insert_of_mem {α : Type} {name : String} (a : α) {es : Entries α} (h : es.Sorted)
    (hmem : name ∈ es.keys) : (es.insert name a).keys = es.keys := by
  induction es with
  | nil => cases hmem
  | cons e es ih =>
    obtain ⟨k, b⟩ := e
    obtain ⟨hk, hes⟩ := List.pairwise_cons.1 h
    rw [insert]
    split
    · next heq =>
      subst heq
      rfl
    · next hne =>
      have hrest : name ∈ keys es := (List.mem_cons.1 hmem).resolve_left hne
      rw [if_neg (String.lt_asymm (hk name hrest))]
      exact congrArg (k :: ·) (ih hes hrest)

theorem keys_write_of_get? {name : String} {old : Value} (value : Value) {es : Entries Value}
    (h : es.Sorted) (hold : es.get? name = some old) : (es.write name value).keys = es.keys := by
  have hmem : name ∈ es.keys := by
    by_contra hnot
    rw [get?_eq_none_of_not_mem hnot] at hold
    cases hold
  rw [write, hold]
  exact keys_insert_of_mem _ h hmem

/-- Values that would be kept if they stood there already are found under their names. -/
theorem writeAll_settled {z : String → Value} {pairs : List (String × Value)} {es : Entries Value}
    (hsorted : es.Sorted)
    (h : ∀ c ∈ pairs, c.2 = z c.1 ∧ ∃ x, es.get? c.1 = some x ∧ x.overwrite (z c.1) = z c.1) :
    (es.writeAll pairs).keys = es.keys ∧ ∀ name, (es.writeAll pairs).get? name =
      if name ∈ keys pairs then some (z name) else es.get? name := by
  induction pairs generalizing es with
  | nil => exact ⟨rfl, fun name => rfl⟩
  | cons c pairs ih =>
    obtain ⟨k, value⟩ := c
    obtain ⟨⟨hvalue, x, hx, hz⟩, hrest⟩ := List.forall_mem_cons.1 h
    simp only at hvalue hx hz
    have hkeys : (es.write k value).keys = es.keys := keys_write_of_get? value hsorted hx
    have hself : (es.write k value).get? k = some (z k) := by
      rw [get?_write_self, hx, Option.getD_some, hvalue, hz]
    have hnext : ∀ c ∈ pairs, c.2 = z c.1 ∧
        ∃ x, (es.write k value).get? c.1 = some x ∧ x.overwrite (z c.1) = z c.1 := by
      intro c hc
      obtain ⟨hcz, y, hy, hyz⟩ := hrest c hc
      by_cases heq : c.1 = k
      · refine ⟨hcz, z k, ?_, ?_⟩
        · rw [heq, hself]
        · rw [heq, Value.overwrite_self]
      · exact ⟨hcz, y, by rw [get?_write_of_ne heq, hy], hyz⟩
    obtain ⟨ihkeys, ihget⟩ := ih (by rwa [Sorted, hkeys]) hnext
    refine ⟨ihkeys.trans hkeys, fun name => (ihget name).trans ?_⟩
    have hcons : keys ((k, value) :: pairs) = k :: keys pairs := rfl
    rw [hcons]
    by_cases heq : name = k
    · subst heq
      rw [hself, if_pos List.mem_cons_self, ite_self]
    · rw [get?_write_of_ne heq]
      simp only [List.mem_cons, heq, false_or]

end Entries

namespace Items

/-- A write to a position of the array is a write over what stands there. -/
theorem write_of_position {items : List Value} {index : Int} {i : Nat} {old : Value}
    (hi : position? items.length index = some i) (hold : items[i]? = some old)
    (filler value : Value) :
    write filler items index value = items.set i (old.overwrite value) := by
  rw [position?] at hi
  split at hi
  · next j hj =>
    split at hi
    · cases hi
      simp only [write, hj, hold]
    · cases hi
  · cases hi

/-- Values that would be kept if they stood there already are found at their positions. -/
theorem writeAll_settled {z : Nat → Value} (filler : Value) {changes : List (Int × Value)}
    {items : List Value}
    (h : ∀ c ∈ changes, ∃ i, position? items.length c.1 = some i ∧ c.2 = z i ∧
      ∃ x, items[i]? = some x ∧ x.overwrite (z i) = z i) :
    (writeAll filler items changes).length = items.length ∧
      ∀ i, (writeAll filler items changes)[i]? =
        if i ∈ changes.filterMap (fun c => position? items.length c.1) then some (z i)
        else items[i]? := by
  induction changes generalizing items with
  | nil => exact ⟨rfl, fun i => rfl⟩
  | cons c changes ih =>
    obtain ⟨index, value⟩ := c
    obtain ⟨⟨i, hi, hvalue, x, hx, hz⟩, hrest⟩ := List.forall_mem_cons.1 h
    simp only at hi hvalue
    have hlt : i < items.length := position?_lt hi
    have hwrite : write filler items index value = items.set i (z i) := by
      rw [write_of_position hi hx, hvalue, hz]
    have hnext : ∀ c ∈ changes, ∃ j, position? (items.set i (z i)).length c.1 = some j ∧
        c.2 = z j ∧ ∃ y, (items.set i (z i))[j]? = some y ∧ y.overwrite (z j) = z j := by
      intro c hc
      obtain ⟨j, hj, hcz, y, hy, hyz⟩ := hrest c hc
      rw [List.length_set]
      by_cases heq : i = j
      · subst heq
        exact ⟨i, hj, hcz, z i, by simp [hlt], Value.overwrite_self _⟩
      · exact ⟨j, hj, hcz, y, by rw [List.getElem?_set_ne heq, hy], hyz⟩
    obtain ⟨ihlength, ihget⟩ := ih hnext
    rw [writeAll, List.foldl_cons]
    simp only [hwrite]
    rw [List.length_set] at ihlength
    refine ⟨ihlength, fun j => (ihget j).trans ?_⟩
    rw [List.length_set, List.filterMap_cons]
    simp only [hi, List.mem_cons]
    by_cases heq : i = j
    · subst heq
      simp [hlt]
    · rw [List.getElem?_set_ne heq]
      simp only [Ne.symm heq, false_or]

/-! ### One row -/

theorem choiceCount_singletons (current : List Value) (g : Value → Value) :
    choiceCount (current.map fun c => [g c]) = some 1 := by
  rw [choiceCount]
  induction current with
  | nil => rfl
  | cons c current ih =>
    rw [List.map_cons, List.foldlM_cons]
    exact ih

theorem choice_singletons (current : List Value) (g : Value → Value) :
    choice 0 (current.map fun c => [g c]) = (0, current.map g) := by
  induction current with
  | nil => rfl
  | cons c current ih => simp [choice, ih]

/-- With one candidate for each slot there is one row, written over the source. -/
theorem combinations_singletons (current : List Value) (g : Value → Value) :
    combinations current (current.map fun c => [g c]) =
      .ok [current.map fun c => c.overwrite (g c)] := by
  have hfit : fit current.length current = current := by simp [fit]
  simp only [combinations, counted, choiceCount_singletons, List.length_map, hfit, List.range_one,
    List.map_singleton, choice_singletons, List.zipWith_map_right, List.zipWith_self]

end Items

namespace Assign

variable {fill : Fill} {g : Value → Value}

theorem slotRows_single {current : List Value} (h : ∀ c ∈ current, fill c = .ok [g c]) :
    slotRows fill current = .ok [current.map fun c => c.overwrite (g c)] := by
  have hmap : current.mapM fill = .ok (current.map fun c => [g c]) := mapM_eq_ok_map.2 h
  rw [slotRows, hmap, ← Items.combinations_singletons]
  rfl

/-- The same for slots that are named by keys. -/
theorem slotRows_map {α : Type} {now : α → Value} {keys : List α}
    (h : ∀ k ∈ keys, fill (now k) = .ok [g (now k)]) :
    slotRows fill (keys.map now) = .ok [keys.map fun k => (now k).overwrite (g (now k))] := by
  rw [slotRows_single (List.forall_mem_map.2 h), List.map_map]
  rfl

/-! ### One step -/

/-- Entries that are there are replaced. -/
theorem entries_replaced {names : List String} {es : Entries Value} (hsorted : es.Sorted)
    (hnames : ∀ name ∈ names, ∃ c, es.get? name = some c ∧ fill c = .ok [g c]) :
    ∃ v', entries fill names es = .ok [v'] ∧
      Replaced (fun c => c.overwrite (g c)) (names.map .entry) (.object es) v' := by
  let now (name : String) : Value := (es.get? name).getD .null
  let next (name : String) : Value := (now name).overwrite (g (now name))
  have hrows : slotRows fill (names.map now) = .ok [names.map next] := by
    refine slotRows_map fun name hname => ?_
    obtain ⟨c, hc, hfill⟩ := hnames name hname
    simpa [now, hc] using hfill
  have hpairs : names.zip (names.map next) = names.map fun name => (name, next name) :=
    List.map_prod_left_eq_zip.symm
  have hsettled : ∀ c ∈ names.zip (names.map next), c.2 = next c.1 ∧
      ∃ x, es.get? c.1 = some x ∧ x.overwrite (next c.1) = next c.1 := by
    rw [hpairs]
    intro c hc
    obtain ⟨name, hname, rfl⟩ := List.mem_map.1 hc
    obtain ⟨c, hc, -⟩ := hnames name hname
    exact ⟨rfl, c, hc, by simp [next, now, hc, Value.overwrite_overwrite]⟩
  obtain ⟨hkeys, hget⟩ := Entries.writeAll_settled hsorted hsettled
  refine ⟨.object (es.writeAll (names.zip (names.map next))), ?_, ?_, ?_, ?_⟩
  · rw [entries, hrows]
    rfl
  · rw [Value.outline, Value.outline, hkeys]
  · intro hplain
    cases hplain
  · intro p
    cases p with
    | entry name =>
      have hmem : name ∈ Entries.keys (names.zip (names.map next)) ↔
          Place.entry name ∈ names.map .entry := by
        simp [hpairs, Entries.keys]
      simp only [Value.child?, hget, hmem]
      split
      · next hname =>
        obtain ⟨c, hc, -⟩ := hnames name (by simpa using hname)
        simp [next, now, hc]
      · rfl
    | element i => simp [Value.child?]

/-- Elements at positions that are there are replaced. -/
theorem elements_replaced {indices : List Int} {items : List Value}
    (hindices : ∀ index ∈ indices, ∃ i c, Items.position? items.length index = some i ∧
      items[i]? = some c ∧ fill c = .ok [g c]) :
    ∃ v', elements fill indices items = .ok [v'] ∧
      Replaced (fun c => c.overwrite (g c))
        ((indices.filterMap (Items.position? items.length)).map .element) (.array items) v' := by
  -- Two indices may name one position: what is written depends on the position alone.
  let now (index : Int) : Value := (Items.get? items index).getD .null
  let next (i : Nat) : Value := (items[i]?.getD .null).overwrite (g (items[i]?.getD .null))
  let written (index : Int) : Value := (now index).overwrite (g (now index))
  have hnow : ∀ index ∈ indices, ∃ i c, Items.position? items.length index = some i ∧
      items[i]? = some c ∧ fill c = .ok [g c] ∧ now index = c := by
    intro index hindex
    obtain ⟨i, c, hi, hc, hfill⟩ := hindices index hindex
    exact ⟨i, c, hi, hc, hfill, by simp [now, Items.get?_eq, hi, hc]⟩
  have hrows : slotRows fill (indices.map now) = .ok [indices.map written] := by
    refine slotRows_map fun index hindex => ?_
    obtain ⟨i, c, -, -, hfill, hc⟩ := hnow index hindex
    rw [hc, hfill]
  have hpairs : indices.zip (indices.map written) =
      indices.map fun index => (index, written index) := List.map_prod_left_eq_zip.symm
  have hsettled : ∀ c ∈ indices.zip (indices.map written),
      ∃ i, Items.position? items.length c.1 = some i ∧ c.2 = next i ∧
        ∃ x, items[i]? = some x ∧ x.overwrite (next i) = next i := by
    rw [hpairs]
    intro c hc
    obtain ⟨index, hindex, rfl⟩ := List.mem_map.1 hc
    obtain ⟨i, c, hi, hc, -, hnowc⟩ := hnow index hindex
    refine ⟨i, hi, ?_, c, hc, ?_⟩
    · simp [written, next, hnowc, hc]
    · simp [next, hc, Value.overwrite_overwrite]
  obtain ⟨hlength, hget⟩ := Items.writeAll_settled .null hsettled
  refine ⟨.array (Items.writeAll .null items (indices.zip (indices.map written))), ?_, ?_, ?_, ?_⟩
  · rw [elements, hrows]
    rfl
  · rw [Value.outline, Value.outline, hlength]
  · intro hplain
    cases hplain
  · intro p
    cases p with
    | element i =>
      have hmem : i ∈ (indices.zip (indices.map written)).filterMap
            (fun c => Items.position? items.length c.1) ↔
          Place.element i ∈ (indices.filterMap (Items.position? items.length)).map .element := by
        simp [hpairs, List.filterMap_map]
      simp only [Value.child?, hget, hmem]
      split
      · next hi =>
        obtain ⟨index, hindex, hpos⟩ : ∃ index ∈ indices,
            Items.position? items.length index = some i := by simpa using hi
        obtain ⟨j, c, hj, hc, -⟩ := hindices index hindex
        rw [hpos] at hj
        cases hj
        simp [next, hc]
      · rfl
    | entry name => simp [Value.child?]

end Assign

namespace Outline

/-- Keys of an object are names that it has. -/
theorem exists_names {names : List String} {ks : List Value}
    (h : (Outline.entries names).Admits (.keys ks)) :
    ∃ ns : List String, ks = ns.map .string ∧ ∀ n ∈ ns, n ∈ names := by
  induction ks with
  | nil => exact ⟨[], rfl, by simp⟩
  | cons k ks ih =>
    obtain ⟨hk, hks⟩ := List.forall_mem_cons.1 h
    obtain ⟨ns, rfl, hns⟩ := ih hks
    cases k with
    | string n =>
      refine ⟨n :: ns, rfl, List.forall_mem_cons.2 ⟨?_, hns⟩⟩
      by_contra hnot
      simp [place?, hnot] at hk
    | _ => cases hk

/-- Keys of an array are indices of positions that it has. -/
theorem exists_indices {length : Nat} {ks : List Value}
    (h : (Outline.elements length).Admits (.keys ks)) :
    ∃ ns : List Number, ks = ns.map .number ∧
      ∀ n ∈ ns, ∃ i, Items.position? length n.toIndex = some i := by
  induction ks with
  | nil => exact ⟨[], rfl, by simp⟩
  | cons k ks ih =>
    obtain ⟨hk, hks⟩ := List.forall_mem_cons.1 h
    obtain ⟨ns, rfl, hns⟩ := ih hks
    cases k with
    | number n =>
      refine ⟨n :: ns, rfl, List.forall_mem_cons.2 ⟨?_, hns⟩⟩
      simpa [place?, Option.isSome_iff_exists] using hk
    | _ => cases hk

theorem eq_nil_of_plain {ks : List Value} (h : Outline.plain.Admits (.keys ks)) : ks = [] := by
  cases ks with
  | nil => rfl
  | cons k ks => cases h k List.mem_cons_self

end Outline

namespace Assign

variable {fill : Fill} {g : Value → Value} {v : Value}

theorem keys_object (optional : Bool) (names : List String) (es : Entries Value) :
    keys fill optional (names.map .string) (.object es) = entries fill names es := by
  cases names with
  | nil => rfl
  | cons name names =>
    have hfits : ((name :: names).map Value.string).find? (fun k => !fits (.object es) k) =
        none := by simp [fits]
    have hnames : ((name :: names).map Value.string).filterMap Value.string? = name :: names := by
      simp [List.filterMap_map, Function.comp_def, Value.string?]
    simp only [List.map_cons] at hfits hnames ⊢
    simp only [keys, promote, hfits, hnames]

/-- An index of a position that is there asks for no growth. -/
theorem neededLength_le {length i : Nat} {index : Int}
    (h : Items.position? length index = some i) : neededLength index ≤ length := by
  rw [Items.position?] at h
  split at h
  · next j hj =>
    split at h
    · simp only [Items.resolve, Int.ofNat_eq_natCast] at hj
      rw [neededLength]
      split at hj <;> split <;> omega
    · cases h
  · cases h

theorem keys_array (optional : Bool) {ns : List Number} {items : List Value}
    (h : ∀ n ∈ ns, neededLength n.toIndex ≤ max items.length maxCollectionLength) :
    keys fill optional (ns.map .number) (.array items) =
      elements fill (ns.map Number.toIndex) items := by
  have hroom : (ns.map Number.toIndex).find?
      (fun i => max items.length maxCollectionLength < neededLength i) = none := by
    rw [List.find?_eq_none]
    intro index hindex
    obtain ⟨n, hn, rfl⟩ := List.mem_map.1 hindex
    have := h n hn
    simp only [decide_eq_true_eq]
    omega
  cases ns with
  | nil => rfl
  | cons n ns =>
    have hfits : ((n :: ns).map Value.number).find? (fun k => !fits (.array items) k) =
        none := by simp [fits]
    have hnumbers : ((n :: ns).map Value.number).filterMap Value.number? = n :: ns := by
      simp [List.filterMap_map, Function.comp_def, Value.number?]
    simp only [List.map_cons] at hfits hnumbers hroom ⊢
    simp only [keys, promote, hfits, hnumbers, List.map_cons, hroom]

/-- A write under keys that are there. -/
theorem keys_replaced {ks : List Value} (hascending : v.outline.Ascending)
    (hadmits : v.outline.Admits (.keys ks))
    (hfill : ∀ part ∈ v.parts (.keys ks), fill part.2 = .ok [g part.2]) (optional : Bool) :
    ∃ v', keys fill optional ks v = .ok [v'] ∧
      Replaced (fun c => c.overwrite (g c)) (v.outline.places (.keys ks)) v v' := by
  cases v with
  | object es =>
    obtain ⟨names, rfl, hnames⟩ := Outline.exists_names hadmits
    have hplaces : (Value.object es).outline.places (.keys (names.map .string)) =
        names.map .entry := by
      have hplace : ∀ name ∈ names,
          (Value.object es).outline.place? (.string name) = some (.entry name) :=
        fun name hname => if_pos (hnames name hname)
      rw [Outline.places, List.filterMap_map, ← List.filterMap_eq_map]
      exact List.filterMap_congr hplace
    rw [keys_object, hplaces]
    refine entries_replaced hascending fun name hname => ?_
    obtain ⟨c, hc⟩ := Entries.exists_get? (hnames name hname)
    refine ⟨c, hc, hfill (.entry name, c) (Value.mem_parts.2 ⟨?_, hc⟩)⟩
    rw [hplaces]
    exact List.mem_map_of_mem hname
  | array items =>
    obtain ⟨ns, rfl, hns⟩ := Outline.exists_indices hadmits
    have hplaces : (Value.array items).outline.places (.keys (ns.map .number)) =
        ((ns.map Number.toIndex).filterMap (Items.position? items.length)).map .element := by
      rw [Outline.places, List.filterMap_map, List.filterMap_map, List.map_filterMap]
      rfl
    have hroom : ∀ n ∈ ns, neededLength n.toIndex ≤ max items.length maxCollectionLength := by
      intro n hn
      obtain ⟨i, hi⟩ := hns n hn
      exact Nat.le_trans (neededLength_le hi) (Nat.le_max_left _ _)
    rw [keys_array optional hroom, hplaces]
    refine elements_replaced fun index hindex => ?_
    obtain ⟨n, hn, rfl⟩ := List.mem_map.1 hindex
    obtain ⟨i, hi⟩ := hns n hn
    have hlt : i < items.length := Items.position?_lt hi
    have hc : items[i]? = some items[i] := List.getElem?_eq_getElem hlt
    refine ⟨i, items[i], hi, hc, hfill (.element i, items[i]) (Value.mem_parts.2 ⟨?_, hc⟩)⟩
    rw [hplaces]
    exact List.mem_map_of_mem (List.mem_filterMap.2 ⟨_, hindex, hi⟩)
  | _ =>
    rw [Outline.eq_nil_of_plain hadmits]
    exact ⟨_, rfl, rfl, fun _ => rfl, fun p => by simp [Outline.places]⟩

/-- A write to every part. -/
theorem each_replaced (hascending : v.outline.Ascending) (hadmits : v.outline.Admits .each)
    (hfill : ∀ part ∈ v.parts .each, fill part.2 = .ok [g part.2]) (optional : Bool) :
    ∃ v', each fill optional v = .ok [v'] ∧
      Replaced (fun c => c.overwrite (g c)) (v.outline.places .each) v v' := by
  cases v with
  | object es =>
    refine entries_replaced hascending fun name hname => ?_
    obtain ⟨c, hc⟩ := Entries.exists_get? hname
    exact ⟨c, hc, hfill (.entry name, c) (Value.mem_parts.2 ⟨List.mem_map_of_mem hname, hc⟩)⟩
  | array items =>
    have hitems : ∀ c ∈ items, fill c = .ok [g c] := by
      intro c hc
      obtain ⟨i, hi⟩ := List.mem_iff_getElem?.1 hc
      have hlt : i < items.length := (List.getElem?_eq_some_iff.1 hi).1
      refine hfill (.element i, c) (Value.mem_parts.2 ⟨?_, hi⟩)
      exact List.mem_map_of_mem (List.mem_range.2 hlt)
    refine ⟨.array (items.map fun c => c.overwrite (g c)), ?_, ?_, ?_, ?_⟩
    · rw [each, slotRows_single hitems]
      rfl
    · simp [Value.outline]
    · intro hplain
      cases hplain
    · intro p
      cases p with
      | element i =>
        have hmem : Place.element i ∈ (Value.array items).outline.places .each ↔
            i < items.length := by simp [Value.outline, Outline.places]
        by_cases hlt : i < items.length
        · rw [if_pos (hmem.2 hlt)]
          exact List.getElem?_map
        · rw [if_neg (fun hp => hlt (hmem.1 hp))]
          simp [Value.child?, hlt]
      | entry name => simp [Value.child?]
  | _ => exact absurd rfl hadmits

end Assign

end JsonPipe
