import JsonPipe.Proofs.Value.Entries
import JsonPipe.Proofs.Value.Replacement
import JsonPipe.Proofs.Value.TotalOrder
import JsonPipe.Value.Operators

/-! Objects laid over one another.

    Pairs of distinct names are written each over what stands under its own name, so they can be
    written in any order (`Entries.writeAll_perm`). Merging at every depth writes pairs too, with
    values that are merged first, and the order does not matter there either
    (`Value.mergesOver_iff`). Under one name a merged object holds the two values under that name,
    merged, or the one that there is (`Value.get?_merge`). The law for a path of names follows by
    induction on the path (`Value.along_merge`, `Value.along_merge_of_apart`). Everything holds up to
    equality of values only, for a write keeps an equal value that is there. -/

namespace JsonPipe

/-! ### Writes in any order -/

namespace Entries

variable {α : Type}

theorem get?_eq_some_iff_mem {name : String} {a : α} {es : Entries α} (h : es.keys.Nodup) :
    es.get? name = some a ↔ (name, a) ∈ es := by
  induction es with
  | nil => simp
  | cons e es ih =>
    obtain ⟨k, b⟩ := e
    obtain ⟨hk, hes⟩ := List.nodup_cons.1 h
    rw [get?, List.mem_cons, Prod.mk.injEq]
    by_cases heq : name = k
    · have hnot : (name, a) ∉ es := by
        intro hmem
        have hname : name ∈ keys es := List.mem_map_of_mem hmem
        exact hk (heq ▸ hname)
      simp only [heq, if_true, true_and, Option.some.injEq]
      rw [← heq, or_iff_left hnot, eq_comm]
    · rw [if_neg heq, ih hes]
      simp [heq]

theorem get?_perm {visits es : Entries α} (h : visits.Perm es) (hnodup : es.keys.Nodup)
    (name : String) : visits.get? name = es.get? name := by
  have hvisits : visits.keys.Nodup := (h.map _).nodup_iff.2 hnodup
  refine Option.ext fun a => ?_
  rw [get?_eq_some_iff_mem hvisits, get?_eq_some_iff_mem hnodup, h.mem_iff]

/-- Pairs of distinct names can be written in any order. -/
theorem writeAll_perm {es : Entries Value} {visits pairs : List (String × Value)} (hes : es.Sorted)
    (h : visits.Perm pairs) (hnodup : (keys pairs).Nodup) :
    es.writeAll visits = es.writeAll pairs := by
  have hvisits : (keys visits).Nodup := (h.map _).nodup_iff.2 hnodup
  refine ext_of_sorted (hes.writeAll pairs) (hes.writeAll visits) fun name => ?_
  rw [get?_writeAll name visits hvisits, get?_writeAll name pairs hnodup, get?_perm h hnodup]

/-- Entries that are written over what is equal to them change nothing. -/
theorem writeAll_self {es : Entries Value} (h : es.Sorted) : es.writeAll es = es := by
  refine ext_of_sorted h (h.writeAll es) fun name => ?_
  rw [get?_writeAll name es h.nodup]
  cases es.get? name with
  | none => rfl
  | some v => simp [Value.overwrite_self]

theorem writeAll_nil_left {es : Entries Value} (h : es.Sorted) : writeAll [] es = es := by
  have hnil : Sorted ([] : Entries Value) := List.Pairwise.nil
  refine ext_of_sorted h (hnil.writeAll es) fun name => ?_
  rw [get?_writeAll name es h.nodup]
  cases es.get? name with
  | none => rfl
  | some v => simp [Value.overwrite_null]

/-- The names after a write are those there were and those that are written. -/
theorem mem_keys_writeAll {name : String} {es : Entries Value} {pairs : List (String × Value)}
    (hnodup : (keys pairs).Nodup) :
    name ∈ (es.writeAll pairs).keys ↔ name ∈ es.keys ∨ name ∈ keys pairs := by
  rw [mem_keys_iff, mem_keys_iff, mem_keys_iff, get?_writeAll name pairs hnodup]
  cases get? name pairs with
  | none => simp
  | some v => simp

end Entries

/-! ### Merging at every depth -/

namespace Value

theorem mergedEntries_eq (right left : Entries Value) :
    mergedEntries right left = right.map fun e => (e.1, mergeOver e.2 (left.get? e.1)) :=
  eq_map_of_cons (F := (mergedEntries · left)) rfl (fun _ _ => rfl) right

theorem keys_mergedEntries (right left : Entries Value) :
    Entries.keys (mergedEntries right left) = right.keys := by
  rw [mergedEntries_eq, Entries.keys, List.map_map]
  rfl

theorem nodup_keys_mergedEntries {right : Entries Value} (h : right.Sorted)
    (left : Entries Value) : (Entries.keys (mergedEntries right left)).Nodup := by
  rw [keys_mergedEntries]
  exact h.nodup

theorem get?_mergedEntries (right left : Entries Value) (name : String) :
    Entries.get? name (mergedEntries right left) =
      (right.get? name).map (mergeOver · (left.get? name)) := by
  induction right with
  | nil => rfl
  | cons e right ih =>
    obtain ⟨k, v⟩ := e
    rw [mergedEntries, Entries.get?, Entries.get?]
    split
    · next heq => rw [heq, Option.map_some]
    · exact ih

/-- One of two values is not an object, or there is only one. -/
def Apart (v : Value) (old : Option Value) : Prop :=
  ∀ other inner, v = .object other → old ≠ some (.object inner)

theorem mergeOver_of_apart {v : Value} {old : Option Value} (h : v.Apart old) :
    mergeOver v old = v := by
  cases v with
  | object other =>
    cases old with
    | none => rfl
    | some w =>
      cases w with
      | object inner => exact absurd rfl (h other inner rfl)
      | _ => rfl
  | _ => rfl

/-- Merging `v` over `old` leaves the third value, if the entries of each object are visited in an
    order of its own. -/
inductive MergesOver : Value → Option Value → Value → Prop
  | replaced {v : Value} {old : Option Value} : v.Apart old → MergesOver v old v
  | merged {other inner visits : Entries Value} (leaves : String → Value) :
    visits.Perm other → (∀ e ∈ visits, MergesOver e.2 (inner.get? e.1) (leaves e.1)) →
      MergesOver (.object other) (some (.object inner))
        (.object (inner.writeAll (visits.map fun e => (e.1, leaves e.1))))

theorem mergesOver_mergeOver {v : Value} (hv : v.Orderly) (old : Option Value) :
    MergesOver v old (mergeOver v old) := by
  induction v using Value.induction generalizing old with
  | object other ih =>
    by_cases hold : ∃ inner : Entries Value, old = some (.object inner)
    · obtain ⟨inner, rfl⟩ := hold
      obtain ⟨hsorted, hvalues⟩ := orderly_object.1 hv
      let leaves (name : String) : Value :=
        mergeOver ((other.get? name).getD .null) (inner.get? name)
      have hleaves : ∀ e ∈ other, leaves e.1 = mergeOver e.2 (inner.get? e.1) := by
        intro e he
        have hget : other.get? e.1 = some e.2 := (Entries.get?_eq_some_iff_mem hsorted.nodup).2 he
        simp only [leaves, hget, Option.getD_some]
      have heach : ∀ e ∈ other, MergesOver e.2 (inner.get? e.1) (leaves e.1) := by
        intro e he
        have hmem : e.2 ∈ other.values := List.mem_map_of_mem he
        rw [hleaves e he]
        exact ih e.2 hmem (hvalues e.2 hmem) _
      have hmap : mergedEntries other inner = other.map fun e => (e.1, leaves e.1) := by
        rw [mergedEntries_eq]
        exact List.map_congr_left fun e he => by rw [hleaves e he]
      rw [mergeOver, hmap]
      exact .merged leaves (.refl other) heach
    · have hapart : (Value.object other).Apart old := fun _ inner _ h => hold ⟨inner, h⟩
      rw [mergeOver_of_apart hapart]
      exact .replaced hapart
  | _ => exact .replaced nofun

/-- In whatever order the entries are visited, merging leaves the same. -/
theorem mergesOver_iff {v w : Value} {old : Option Value} (hv : v.Orderly)
    (hold : ∀ u, old = some u → u.Orderly) : MergesOver v old w ↔ w = mergeOver v old := by
  constructor
  · intro h
    induction h with
    | replaced hapart => exact (mergeOver_of_apart hapart).symm
    | @merged other inner visits leaves hvisits _ ih =>
      obtain ⟨hsorted, hvalues⟩ := orderly_object.1 hv
      obtain ⟨hinner, hinners⟩ := orderly_object.1 (hold _ rfl)
      have hleaves : ∀ e ∈ visits, leaves e.1 = mergeOver e.2 (inner.get? e.1) := by
        intro e he
        have hmem : e.2 ∈ other.values := List.mem_map_of_mem (hvisits.mem_iff.1 he)
        exact ih e he (hvalues e.2 hmem) fun u hu =>
          hinners u (Entries.mem_values_of_get? hu)
      have hperm : (visits.map fun e => (e.1, leaves e.1)).Perm (mergedEntries other inner) := by
        rw [mergedEntries_eq, List.map_congr_left fun e he => by rw [hleaves e he]]
        exact hvisits.map _
      rw [mergeOver, Entries.writeAll_perm hinner hperm (nodup_keys_mergedEntries hsorted inner)]
  · rintro rfl
    exact mergesOver_mergeOver hv old

/-! ### What is found under one name -/

theorem get?_merge {fs : Entries Value} (hfs : fs.Sorted) (es : Entries Value) (name : String) :
    (merge es fs).get? name =
      ((fs.get? name).map fun v =>
        ((es.get? name).getD .null).overwrite (mergeOver v (es.get? name))).or (es.get? name) := by
  rw [merge, Entries.get?_writeAll name _ (nodup_keys_mergedEntries hfs es), get?_mergedEntries,
    Option.map_map]
  rfl

theorem mem_keys_merge {fs : Entries Value} (hfs : fs.Sorted) (es : Entries Value)
    (name : String) : name ∈ (merge es fs).keys ↔ name ∈ es.keys ∨ name ∈ fs.keys := by
  rw [merge, Entries.mem_keys_writeAll (nodup_keys_mergedEntries hfs es), keys_mergedEntries]

/-! ### Paths of names -/

theorem at?_append (v : Value) (l m : List Place) : v.at? (l ++ m) = (v.at? l).bind (·.at? m) := by
  induction l generalizing v with
  | nil => rfl
  | cons p l ih =>
    rw [List.cons_append, at?, at?, Option.bind_assoc]
    exact congrArg _ (funext fun c => ih c)

theorem at?_shape (v : Value) (l : List Place) : v.shape.at? l = (v.at? l).map shape := by
  induction l generalizing v with
  | nil => rfl
  | cons p l ih =>
    rw [at?, at?, child?_shape, Option.map_bind, Option.bind_map]
    exact congrArg _ (funext fun c => ih c)

/-- What stands at the end of a path of names, each an entry of an object. -/
def along (v : Value) (path : List String) : Option Value := v.at? (path.map .entry)

theorem along_append (v : Value) (path rest : List String) :
    v.along (path ++ rest) = (v.along path).bind (·.along rest) := by
  rw [along, List.map_append, at?_append]
  rfl

theorem along_cons_object (es : Entries Value) (name : String) (rest : List String) :
    (Value.object es).along (name :: rest) = (es.get? name).bind (·.along rest) := rfl

/-- Two computations that may find nothing find nothing, or equal values. -/
abbrev SameFound : Option Value → Option Value → Prop :=
  Option.Rel fun v w => v.same w = true

theorem sameFound_iff {x y : Option Value} : SameFound x y ↔ x.map shape = y.map shape := by
  constructor
  · rintro (h | _)
    · exact congrArg some ((same_iff _ _).1 h)
    · rfl
  · intro h
    cases x with
    | none =>
      cases y with
      | none => exact .none
      | some w => cases h
    | some v =>
      cases y with
      | none => cases h
      | some w => exact .some ((same_iff v w).2 (Option.some.inj h))

theorem SameFound.trans {x y z : Option Value} (h : SameFound x y) (h' : SameFound y z) :
    SameFound x z :=
  sameFound_iff.2 ((sameFound_iff.1 h).trans (sameFound_iff.1 h'))

theorem SameFound.refl (x : Option Value) : SameFound x x := sameFound_iff.2 rfl

/-- A path leads to equal values in equal values. -/
theorem SameFound.along {x y : Option Value} (h : SameFound x y) (path : List String) :
    SameFound (x.bind (·.along path)) (y.bind (·.along path)) := by
  cases h with
  | none => exact .none
  | some h =>
    refine sameFound_iff.2 ?_
    rw [Option.bind_some, Option.bind_some, Value.along, Value.along, ← at?_shape,
      (same_iff _ _).1 h, at?_shape]

/-- What is equal to an object is an object with the same names. -/
theorem SameFound.object {x : Option Value} {es : Entries Value}
    (h : SameFound x (some (.object es))) :
    ∃ gs : Entries Value, x = some (.object gs) ∧ gs.keys = es.keys := by
  rcases h with h | _
  rename_i v
  have houtline := outline_eq_of_same h
  cases v with
  | object gs => exact ⟨gs, rfl, Outline.entries.inj houtline⟩
  | _ => cases houtline

/-! ### The merge along a path -/

section Along

variable {es fs : Entries Value}

/-- Both values hold objects at the end of a path. -/
def BothObjects (v w : Value) (path : List String) : Prop :=
  ∃ es fs, v.along path = some (.object es) ∧ w.along path = some (.object fs)

/-- Under a name that one object does not have, or where one of them has no object, the right one
    stands if there is any. -/
theorem get?_merge_of_apart (hfs : fs.Sorted) {name : String}
    (h : ¬ BothObjects (.object es) (.object fs) [name]) :
    SameFound ((merge es fs).get? name) ((fs.get? name).or (es.get? name)) := by
  rw [get?_merge hfs]
  cases hv : fs.get? name with
  | none => exact .refl _
  | some v =>
    have hapart : v.Apart (es.get? name) := by
      rintro other inner rfl hold
      exact h ⟨inner, other, by rw [along_cons_object, hold]; rfl,
        by rw [along_cons_object, hv]; rfl⟩
    rw [Option.map_some, Option.some_or, Option.some_or, mergeOver_of_apart hapart]
    exact .some (overwrite_same _ _)

/-- Under a name where both have objects, these are merged. -/
theorem get?_merge_of_objects (hfs : fs.Sorted) {name : String} {es' fs' : Entries Value}
    (hes' : es.get? name = some (.object es')) (hfs' : fs.get? name = some (.object fs')) :
    SameFound ((merge es fs).get? name) (some (.object (merge es' fs'))) := by
  rw [get?_merge hfs, hfs', hes', Option.map_some, Option.some_or]
  exact .some (overwrite_same _ _)

/-- Objects on both sides all along a path are merged at its end. -/
theorem along_merge {path : List String} {es' fs' : Entries Value}
    (hfs : (Value.object fs).Orderly)
    (hboth : ∀ pre, pre <+: path → BothObjects (.object es) (.object fs) pre)
    (hes' : (Value.object es).along path = some (.object es'))
    (hfs' : (Value.object fs).along path = some (.object fs')) :
    SameFound ((Value.object (merge es fs)).along path) (some (.object (merge es' fs'))) := by
  induction path generalizing es fs with
  | nil =>
    cases hes'
    cases hfs'
    exact .refl _
  | cons name rest ih =>
    obtain ⟨es₁, fs₁, hes₁, hfs₁⟩ := hboth [name] ⟨rest, rfl⟩
    rw [along_cons_object] at hes' hfs' hes₁ hfs₁ ⊢
    obtain ⟨v, hv, h⟩ := Option.bind_eq_some_iff.1 hes₁
    cases h
    obtain ⟨w, hw, h⟩ := Option.bind_eq_some_iff.1 hfs₁
    cases h
    rw [hv] at hes'
    rw [hw] at hfs'
    obtain ⟨hsorted, hvalues⟩ := orderly_object.1 hfs
    have hrest : ∀ pre, pre <+: rest → BothObjects (.object es₁) (.object fs₁) pre := by
      intro pre hpre
      obtain ⟨es₂, fs₂, hes₂, hfs₂⟩ := hboth (name :: pre) (List.prefix_cons_inj name |>.2 hpre)
      rw [along_cons_object, hv] at hes₂
      rw [along_cons_object, hw] at hfs₂
      exact ⟨es₂, fs₂, hes₂, hfs₂⟩
    have hname := get?_merge_of_objects hsorted hv hw
    exact (hname.along rest).trans
      (ih (hvalues _ (Entries.mem_values_of_get? hw)) hrest hes' hfs')

/-- Where the objects on both sides end, the right value stands if there is any. -/
theorem along_merge_of_apart {pre : List String} {name : String} (rest : List String)
    (hfs : (Value.object fs).Orderly)
    (hboth : ∀ p, p <+: pre → BothObjects (.object es) (.object fs) p)
    (hapart : ¬ BothObjects (.object es) (.object fs) (pre ++ [name])) :
    SameFound ((Value.object (merge es fs)).along (pre ++ [name] ++ rest))
      ((((Value.object fs).along (pre ++ [name])).or
        ((Value.object es).along (pre ++ [name]))).bind (·.along rest)) := by
  obtain ⟨es', fs', hes', hfs'⟩ := hboth pre (List.prefix_refl pre)
  have hend := along_merge hfs hboth hes' hfs'
  have hpart : ∀ {v : Value} {gs : Entries Value}, v.along pre = some (.object gs) →
      v.along (pre ++ [name]) = gs.get? name := by
    intro v gs h
    rw [along_append, h, Option.bind_some, along_cons_object]
    cases gs.get? name with
    | none => rfl
    | some _ => rfl
  have hfs'' : Entries.Sorted fs' := hfs _ _ hfs'
  have hnot : ¬ BothObjects (.object es') (.object fs') [name] := by
    rintro ⟨es'', fs'', h, h'⟩
    exact hapart ⟨es'', fs'', by rw [along_append, hes']; exact h,
      by rw [along_append, hfs']; exact h'⟩
  rw [hpart hes', hpart hfs', along_append, along_append]
  refine SameFound.along ?_ rest
  have hone := hend.along [name]
  rw [Option.bind_some, along_cons_object] at hone
  refine hone.trans ?_
  have hget := get?_merge_of_apart hfs'' hnot
  cases h : (merge es' fs').get? name with
  | none => rwa [h] at hget
  | some v => rwa [h] at hget

end Along

/-! ### Merging that changes nothing, and merging that is addition -/

theorem mergedEntries_of_settled {right left : Entries Value}
    (h : ∀ e ∈ right, mergeOver e.2 (left.get? e.1) = e.2) : mergedEntries right left = right := by
  have hid : ∀ e ∈ right, (e.1, mergeOver e.2 (left.get? e.1)) = id e :=
    fun e he => congrArg (e.1, ·) (h e he)
  rw [mergedEntries_eq, List.map_congr_left hid, List.map_id]

theorem mergeOver_self {v : Value} (hv : v.Orderly) : mergeOver v (some v) = v := by
  induction v using Value.induction with
  | object es ih =>
    obtain ⟨hsorted, hvalues⟩ := orderly_object.1 hv
    have hsettled : ∀ e ∈ es, mergeOver e.2 (Entries.get? e.1 es) = e.2 := by
      intro e he
      have hmem : e.2 ∈ Entries.values es := List.mem_map_of_mem he
      rw [(Entries.get?_eq_some_iff_mem hsorted.nodup).2 he]
      exact ih e.2 hmem (hvalues e.2 hmem)
    rw [mergeOver, mergedEntries_of_settled hsettled, Entries.writeAll_self hsorted]
  | _ => rfl

theorem merge_self {es : Entries Value} (h : (Value.object es).Orderly) : merge es es = es :=
  Value.object.inj (mergeOver_self h)

theorem merge_nil_left {es : Entries Value} (h : es.Sorted) : merge [] es = es := by
  have hsettled : ∀ e ∈ es, mergeOver e.2 (Entries.get? e.1 []) = e.2 :=
    fun e _ => mergeOver_of_apart fun _ _ _ => nofun
  rw [merge, mergedEntries_of_settled hsettled, Entries.writeAll_nil_left h]

/-- Objects that have no name with objects on both sides are only laid over one another. -/
theorem merge_of_apart {es fs : Entries Value} (hfs : fs.Sorted)
    (h : ∀ name, ¬ BothObjects (.object es) (.object fs) [name]) :
    merge es fs = es.writeAll fs := by
  rw [merge, mergedEntries_of_settled fun e he => mergeOver_of_apart ?_]
  rintro other inner hv hold
  have hget := (Entries.get?_eq_some_iff_mem hfs.nodup).2 he
  refine h e.1 ⟨inner, other, ?_, ?_⟩
  · rw [along_cons_object, hold]
    rfl
  · rw [along_cons_object, hget, hv]
    rfl

/-! ### The law -/

/-- The product of two objects, along every path of names. As long as both hold objects there is an
    object with the names of both. From the first place where they do not both hold objects, the
    rest of the path is looked up in what the right one has there, or else in what the left one has.
    So an object times itself is that object, the empty object is neutral on both sides, and where
    no name has objects on both sides the product is the sum. -/
theorem multiply_objects {es fs : Entries Value} (hes : (Value.object es).Orderly)
    (hfs : (Value.object fs).Orderly) :
    (∃ product, (Value.object es).multiply (.object fs) = .ok product ∧
      (∀ path, (∀ pre, pre <+: path → BothObjects (.object es) (.object fs) pre) →
        ∃ es' fs' gs : Entries Value, (Value.object es).along path = some (.object es') ∧
          (Value.object fs).along path = some (.object fs') ∧
          product.along path = some (.object gs) ∧
          ∀ name, name ∈ gs.keys ↔ name ∈ es'.keys ∨ name ∈ fs'.keys) ∧
      ∀ pre rest, (∀ p, p <+: pre → p ≠ pre → BothObjects (.object es) (.object fs) p) →
        ¬ BothObjects (.object es) (.object fs) pre →
        SameFound (product.along (pre ++ rest))
          ((((Value.object fs).along pre).or ((Value.object es).along pre)).bind
            (·.along rest))) ∧
    (Value.object es).multiply (.object es) = .ok (.object es) ∧
    (Value.object es).multiply (.object []) = .ok (.object es) ∧
    (Value.object []).multiply (.object es) = .ok (.object es) ∧
    ((∀ name, ¬ BothObjects (.object es) (.object fs) [name]) →
      (Value.object es).multiply (.object fs) = (Value.object es).add (.object fs)) := by
  obtain ⟨hsorted, -⟩ := orderly_object.1 hes
  obtain ⟨hsorted', -⟩ := orderly_object.1 hfs
  refine ⟨⟨.object (merge es fs), rfl, ?_, ?_⟩, ?_, rfl, ?_, ?_⟩
  · intro path hboth
    obtain ⟨es', fs', hes', hfs'⟩ := hboth path (List.prefix_refl path)
    obtain ⟨gs, hgs, hkeys⟩ := (along_merge hfs hboth hes' hfs').object
    refine ⟨es', fs', gs, hes', hfs', hgs, fun name => ?_⟩
    have hfs'' : Entries.Sorted fs' := hfs _ _ hfs'
    rw [hkeys, mem_keys_merge hfs'']
  · intro pre rest hboth hapart
    rcases List.eq_nil_or_concat pre with rfl | ⟨init, name, rfl⟩
    · exact absurd ⟨es, fs, rfl, rfl⟩ hapart
    · rw [List.concat_eq_append] at hboth hapart ⊢
      refine along_merge_of_apart rest hfs (fun p hp => hboth p ?_ ?_) hapart
      · exact hp.trans (List.prefix_append init [name])
      · rintro rfl
        have hlength := hp.length_le
        rw [List.length_append, List.length_singleton] at hlength
        omega
  · exact congrArg _ (congrArg _ (merge_self hes))
  · exact congrArg _ (congrArg _ (merge_nil_left hsorted))
  · intro hapart
    exact congrArg _ (congrArg _ (merge_of_apart hsorted' hapart))

/-- `{"a": {"x": "p"}, "b": true}` -/
def nestedEntries : Entries Value := [("a", .object [("x", .string "p")]), ("b", .bool true)]

/-- `{"a": {"y": "q"}, "b": {}}` -/
def otherEntries : Entries Value := [("a", .object [("y", .string "q")]), ("b", .object [])]

theorem nestedEntries_orderly : (Value.object nestedEntries).Orderly := by
  refine orderly_object.2 ⟨by decide, ?_⟩
  simp only [nestedEntries, Entries.values, List.map_cons, List.map_nil, List.forall_mem_cons]
  refine ⟨orderly_object.2 ⟨by decide, ?_⟩, orderly_of_plain rfl, by simp⟩
  simp only [Entries.values, List.map_cons, List.map_nil, List.forall_mem_cons]
  exact ⟨orderly_of_plain rfl, by simp⟩

theorem otherEntries_orderly : (Value.object otherEntries).Orderly := by
  refine orderly_object.2 ⟨by decide, ?_⟩
  simp only [otherEntries, Entries.values, List.map_cons, List.map_nil, List.forall_mem_cons]
  refine ⟨orderly_object.2 ⟨by decide, ?_⟩, orderly_object.2 ⟨by decide, ?_⟩, by simp⟩
  · simp only [Entries.values, List.map_cons, List.map_nil, List.forall_mem_cons]
    exact ⟨orderly_of_plain rfl, by simp⟩
  · simp [Entries.values]

theorem bothObjects_nested :
    BothObjects (.object nestedEntries) (.object otherEntries) [] ∧
    BothObjects (.object nestedEntries) (.object otherEntries) ["a"] ∧
    ¬ BothObjects (.object nestedEntries) (.object otherEntries) ["b"] := by
  refine ⟨⟨_, _, rfl, rfl⟩, ⟨_, _, rfl, rfl⟩, ?_⟩
  rintro ⟨es, -, h, -⟩
  cases h

/-- Two objects under one name are merged, and an object replaces `true`. -/
theorem multiply_objects_nested :
    ∃ product, (Value.object nestedEntries).multiply (.object otherEntries) = .ok product ∧
      (∃ gs : Entries Value, product.along ["a"] = some (.object gs) ∧
        ∀ name, name ∈ gs.keys ↔ name = "x" ∨ name = "y") ∧
      SameFound (product.along ["b"]) (some (.object [])) ∧
      SameFound (product.along ["b", "z"]) none := by
  obtain ⟨hroot, hboth, hapart⟩ := bothObjects_nested
  obtain ⟨⟨product, hproduct, hobjects, hends⟩, -⟩ :=
    multiply_objects nestedEntries_orderly otherEntries_orderly
  have hpre : ∀ pre, pre <+: ["a"] →
      BothObjects (.object nestedEntries) (.object otherEntries) pre := by
    intro pre hpre
    rcases List.prefix_cons_iff.1 hpre with rfl | ⟨t, rfl, ht⟩
    · exact hroot
    · rw [List.prefix_nil.1 ht]
      exact hboth
  have hstart : ∀ p, p <+: ["b"] → p ≠ ["b"] →
      BothObjects (.object nestedEntries) (.object otherEntries) p := by
    intro p hp hne
    rcases List.prefix_cons_iff.1 hp with rfl | ⟨t, rfl, ht⟩
    · exact hroot
    · rw [List.prefix_nil.1 ht] at hne
      exact absurd rfl hne
  refine ⟨product, hproduct, ?_, hends ["b"] [] hstart hapart, hends ["b"] ["z"] hstart hapart⟩
  obtain ⟨es', fs', gs, hes', hfs', hgs, hkeys⟩ := hobjects ["a"] hpre
  cases hes'
  cases hfs'
  exact ⟨gs, hgs, fun name => (hkeys name).trans (by simp [Entries.keys])⟩

end Value

end JsonPipe
