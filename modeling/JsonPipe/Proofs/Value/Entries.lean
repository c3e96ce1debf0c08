import JsonPipe.Proofs.Value.Places
import Mathlib.Data.List.Induction

/-! Entries in order.

    Storing keeps the names in order, and entries in order are known by what is found under each name
    (`Entries.ext_of_sorted`). So it does not matter in which way entries were put together as long as
    the same value was stored last under every name: pairs stored one after the other are entries
    under which the later pairs hide the earlier ones (`Entries.get?_ofList_append`). The keys of a
    value are in order at every depth if those of its parts are and its own (`Value.orderly_object`). -/

namespace JsonPipe

namespace Entries

variable {α : Type} {es fs : Entries α}

instance (es : Entries α) : Decidable es.Sorted :=
  inferInstanceAs (Decidable (es.keys.Pairwise (· < ·)))

/-! ### Storing keeps the order -/

theorem mem_keys_insert {name k : String} {a : α} (h : k ∈ (es.insert name a).keys) :
    k = name ∨ k ∈ es.keys := by
  obtain ⟨e, he, rfl⟩ := List.mem_map.1 h
  rcases mem_insert he with rfl | hmem
  · exact .inl rfl
  · exact .inr (List.mem_map_of_mem hmem)

theorem Sorted.insert (h : es.Sorted) (name : String) (a : α) : (es.insert name a).Sorted := by
  induction es with
  | nil => exact List.pairwise_singleton _ _
  | cons e es ih =>
    obtain ⟨k, b⟩ := e
    obtain ⟨hk, hes⟩ := List.pairwise_cons.1 h
    rw [Entries.insert]
    split
    · next heq =>
      subst heq
      exact h
    · next hne =>
      split
      · next hlt =>
        refine List.pairwise_cons.2 ⟨fun other hother => ?_, h⟩
        rcases List.mem_cons.1 hother with rfl | hother
        · exact hlt
        · exact String.lt_trans hlt (hk other hother)
      · next hnot =>
        have hafter : k < name := Std.lt_of_le_of_ne (String.not_lt.1 hnot) (Ne.symm hne)
        refine List.pairwise_cons.2 ⟨fun other hother => ?_, ih hes⟩
        rcases mem_keys_insert hother with rfl | hother
        · exact hafter
        · exact hk other hother

theorem Sorted.foldl_insert (h : es.Sorted) (pairs : List (String × α)) :
    Sorted (pairs.foldl (fun es p => es.insert p.1 p.2) es) := by
  induction pairs generalizing es with
  | nil => exact h
  | cons p pairs ih => exact ih (h.insert p.1 p.2)

theorem sorted_ofList (pairs : List (String × α)) : Sorted (ofList pairs) := by
  have hnil : Sorted ([] : Entries α) := List.Pairwise.nil
  exact hnil.foldl_insert pairs

theorem Sorted.writeAll {es : Entries Value} (h : es.Sorted) (pairs : List (String × Value)) :
    (es.writeAll pairs).Sorted := by
  induction pairs generalizing es with
  | nil => exact h
  | cons p pairs ih =>
    have hwrite : (es.write p.1 p.2).Sorted := by
      rw [write_eq_insert]
      exact h.insert _ _
    exact ih hwrite

theorem Sorted.mapValues {β : Type} (h : es.Sorted) (f : α → β) : (es.mapValues f).Sorted := by
  rwa [Sorted, keys_mapValues]

/-! ### Entries that are stored in order -/

theorem insert_last {name : String} (h : ∀ k ∈ es.keys, k < name) (a : α) :
    es.insert name a = es ++ [(name, a)] := by
  induction es with
  | nil => rfl
  | cons e es ih =>
    obtain ⟨k, b⟩ := e
    have hk : k < name := h k List.mem_cons_self
    have hne : name ≠ k := by
      rintro rfl
      exact String.lt_irrefl name hk
    have hnot : ¬ name < k := String.lt_asymm hk
    rw [Entries.insert, if_neg hne, if_neg hnot, ih fun x hx => h x (List.mem_cons_of_mem _ hx)]
    rfl

/-- Entries that are in order are stored one behind the other. -/
theorem foldl_insert (seen : Entries α) (h : Sorted (seen ++ es)) :
    es.foldl (fun seen e => seen.insert e.1 e.2) seen = seen ++ es := by
  induction es generalizing seen with
  | nil => rw [List.foldl_nil, List.append_nil]
  | cons e es ih =>
    have hlast : ∀ k ∈ keys seen, k < e.1 := by
      intro k hk
      rw [Sorted, keys, List.map_append, List.pairwise_append] at h
      exact h.2.2 k hk e.1 List.mem_cons_self
    rw [List.foldl_cons, insert_last hlast, ih _ (by rwa [List.append_assoc]), List.append_assoc]
    rfl

theorem ofList_of_sorted (h : es.Sorted) : ofList es = es :=
  foldl_insert [] h

/-! ### What is found -/

theorem mem_keys_iff {name : String} : name ∈ es.keys ↔ (es.get? name).isSome := by
  constructor
  · intro h
    obtain ⟨a, ha⟩ := exists_get? h
    rw [ha]
    rfl
  · intro h
    by_contra hnot
    rw [get?_eq_none_of_not_mem hnot] at h
    cases h

/-- Entries in order are known by what is found under every name. -/
theorem ext_of_sorted (hes : es.Sorted) (hfs : fs.Sorted)
    (hget : ∀ name, fs.get? name = es.get? name) : fs = es := by
  have hmem : ∀ name, name ∈ fs.keys ↔ name ∈ es.keys := by
    intro name
    rw [mem_keys_iff, mem_keys_iff, hget]
  have hkeys : fs.keys = es.keys := by
    have hperm : fs.keys.Perm es.keys := (List.perm_ext_iff_of_nodup hfs.nodup hes.nodup).2 hmem
    exact hperm.eq_of_pairwise (fun s t _ _ hst hts => absurd hts (String.lt_asymm hst)) hfs hes
  exact ext_get? hes hkeys hget

theorem get?_insert (name other : String) (a : α) (es : Entries α) :
    (es.insert name a).get? other = if other = name then some a else es.get? other := by
  split
  · next heq => rw [heq, get?_insert_self]
  · next hne => exact get?_insert_of_ne hne a es

/-- Of pairs that are stored one after the other the later ones hide the earlier ones. -/
theorem get?_ofList_append (earlier later : List (String × α)) (name : String) :
    (ofList (earlier ++ later)).get? name =
      ((ofList later).get? name).or ((ofList earlier).get? name) := by
  induction later using List.reverseRecOn with
  | nil => simp [ofList]
  | append_singleton later p ih =>
    have hlast : ∀ pairs : List (String × α), ofList (pairs ++ [p]) = (ofList pairs).insert p.1 p.2 :=
      fun pairs => List.foldl_append
    rw [← List.append_assoc, hlast, hlast, get?_insert, get?_insert, ih]
    split
    · rfl
    · rfl

theorem exists_get?_of_mem_values (h : es.Sorted) {a : α} (ha : a ∈ es.values) :
    ∃ name, es.get? name = some a := by
  rw [← filterMap_get?_keys h] at ha
  obtain ⟨name, -, hname⟩ := List.mem_filterMap.1 ha
  exact ⟨name, hname⟩

theorem values_mapValues {β : Type} (f : α → β) (es : Entries α) :
    (es.mapValues f).values = es.values.map f := by
  simp [values, mapValues]

theorem mapValues_mapValues {β γ : Type} (f : α → β) (g : β → γ) (es : Entries α) :
    (es.mapValues f).mapValues g = es.mapValues (g ∘ f) :=
  List.map_map

theorem mapValues_id (es : Entries α) : es.mapValues id = es := by simp [mapValues]

theorem mapValues_congr {β : Type} {f g : α → β} (h : ∀ a ∈ es.values, f a = g a) :
    es.mapValues f = es.mapValues g :=
  List.map_congr_left fun e he => congrArg (e.1, ·) (h e.2 (List.mem_map_of_mem he))

end Entries

/-! ### Keys in order at every depth -/

namespace Value

theorem orderly_of_plain {v : Value} (h : v.outline = .plain) : v.Orderly := by
  rintro (_ | ⟨p, l⟩) w hw
  · cases hw
    rw [h]
    trivial
  · obtain ⟨c, hc, -⟩ := Option.bind_eq_some_iff.1 hw
    cases v with
    | array | object => cases h
    | _ => cases hc

theorem orderly_array {items : List Value} :
    (Value.array items).Orderly ↔ ∀ v ∈ items, v.Orderly := by
  constructor
  · intro h v hv
    obtain ⟨i, hi⟩ := List.mem_iff_getElem?.1 hv
    exact h.child (show (Value.array items).child? (.element i) = some v from hi)
  · rintro h (_ | ⟨p, l⟩) w hw
    · cases hw
      trivial
    · obtain ⟨c, hc, hrest⟩ := Option.bind_eq_some_iff.1 hw
      cases p with
      | element i => exact h c (List.mem_of_getElem? hc) l w hrest
      | entry name => cases hc

theorem orderly_object {es : Entries Value} :
    (Value.object es).Orderly ↔ es.Sorted ∧ ∀ v ∈ es.values, v.Orderly := by
  constructor
  · intro h
    have hsorted : es.Sorted := h [] _ rfl
    refine ⟨hsorted, fun v hv => ?_⟩
    obtain ⟨name, hname⟩ := Entries.exists_get?_of_mem_values hsorted hv
    exact h.child (show (Value.object es).child? (.entry name) = some v from hname)
  · rintro ⟨hsorted, h⟩ (_ | ⟨p, l⟩) w hw
    · cases hw
      exact hsorted
    · obtain ⟨c, hc, hrest⟩ := Option.bind_eq_some_iff.1 hw
      cases p with
      | entry name => exact h c (Entries.mem_values_of_get? hc) l w hrest
      | element i => cases hc

end Value

end JsonPipe
