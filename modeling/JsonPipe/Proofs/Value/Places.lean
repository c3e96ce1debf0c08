import Mathlib.Data.List.Forall2
import JsonPipe.Proofs.Value.Update
import JsonPipe.Value.Access

/-! Locations inside values.

    A part of a container stands at a place, and a location is a list of places, one for every
    container on the way down. A path of keys and iterations leads to locations (`Value.slots`) and
    to what stands there (`Value.targets`). Which places a step leads to depends on the outline of a
    container alone, that is on its type, its keys and its length. So values with one outline, among
    them equal values, have their parts side by side (`Value.parts_forall₂`). -/

namespace JsonPipe

/-- Where a part of a container stands. -/
inductive Place where
  | entry (name : String)
  | element (position : Nat)
  deriving DecidableEq, Repr

/-- All that is known of a container without its parts. -/
inductive Outline where
  | entries (names : List String)
  | elements (length : Nat)
  /-- There are no parts. -/
  | plain
  deriving DecidableEq, Repr

/-- A step of a path: to the parts under some keys, or to every part. -/
inductive Step where
  | keys (ks : List Value)
  | each

/-! ### Places -/

/-- The position that an index names in an array of a given length. -/
def Items.position? (length : Nat) (index : Int) : Option Nat :=
  match resolve length index with
  | .ofNat i => if i < length then some i else none
  | .negSucc _ => none

namespace Outline

/-- The place that a key names. -/
def place? : Outline → Value → Option Place
  | .entries names, .string name => if name ∈ names then some (.entry name) else none
  | .elements length, .number n => (Items.position? length n.toIndex).map .element
  | _, _ => none

/-- The places that a step leads to, in order. -/
def places (o : Outline) : Step → List Place
  | .keys ks => ks.filterMap o.place?
  | .each =>
    match o with
    | .entries names => names.map .entry
    | .elements length => (List.range length).map .element
    | .plain => []

/-- The step does not go wrong: every key names a place, and what is iterated has parts. -/
def Admits (o : Outline) : Step → Prop
  | .keys ks => ∀ k ∈ ks, (o.place? k).isSome
  | .each => o ≠ .plain

/-- Keys are in order. -/
def Ascending : Outline → Prop
  | .entries names => names.Pairwise (· < ·)
  | _ => True

end Outline

namespace Value

/-- The outline of a value. -/
def outline : Value → Outline
  | .object es => .entries (Entries.keys es)
  | .array items => .elements items.length
  | _ => .plain

/-- What stands at a place. -/
def child? : Value → Place → Option Value
  | .object es, .entry name => Entries.get? name es
  | .array items, .element i => items[i]?
  | _, _ => none

/-- What stands at a location. -/
def at? : Value → List Place → Option Value
  | v, [] => some v
  | v, p :: l => (v.child? p).bind fun c => c.at? l

/-- The parts that a step leads to, each with its place. -/
def parts (v : Value) (s : Step) : List (Place × Value) :=
  (v.outline.places s).filterMap fun p => (v.child? p).map (p, ·)

/-- What stands at the end of a path. -/
def targets : List Step → Value → List Value
  | [], v => [v]
  | s :: rest, v => (v.parts s).flatMap fun part => targets rest part.2

/-- The locations at the end of a path. -/
def slots : List Step → Value → List (List Place)
  | [], _ => [[]]
  | s :: rest, v => (v.parts s).flatMap fun part => (slots rest part.2).map (part.1 :: ·)

/-- The path leads through the value: no step goes wrong, and the keys of the objects on the way
    are in order. -/
def Walkable : List Step → Value → Prop
  | [], _ => True
  | s :: rest, v =>
    v.outline.Ascending ∧ v.outline.Admits s ∧ ∀ part ∈ v.parts s, Walkable rest part.2

/-- Everything on the path is there when it is read: each key finds something, and what is iterated
    is an array or an object. -/
def Present : List Step → Value → Prop
  | [], _ => True
  | .keys ks :: rest, v => ∀ k ∈ ks, ∃ c, v.field k = .ok (some c) ∧ Present rest c
  | .each :: rest, v => ∃ items, v.iterate = .ok items ∧ ∀ c ∈ items, Present rest c

/-- The keys of all objects in the value are in order. -/
def Orderly (v : Value) : Prop := ∀ l w, v.at? l = some w → w.outline.Ascending

end Value

/-! ### Parts -/

theorem Items.position?_lt {length i : Nat} {index : Int}
    (h : position? length index = some i) : i < length := by
  rw [position?] at h
  split at h
  · split at h
    · cases h
      assumption
    · cases h
  · cases h

theorem Items.get?_eq (items : List Value) (index : Int) :
    get? items index = (position? items.length index).bind (items[·]?) := by
  cases index with
  | ofNat i =>
    have hresolve : resolve items.length (.ofNat i) = .ofNat i := by
      simp only [resolve, Int.ofNat_eq_natCast]
      omega
    rw [get?, position?, hresolve]
    simp only
    split
    · rfl
    · rw [List.getElem?_eq_none (by omega)]
      rfl
  | negSucc i =>
    rw [get?, position?]
    by_cases hi : i < items.length
    · have hresolve : resolve items.length (.negSucc i) = .ofNat (items.length - (i + 1)) := by
        simp only [resolve, Int.negSucc_lt_zero, if_true, Int.ofNat_eq_natCast]
        omega
      rw [hresolve, if_pos hi]
      simp only
      rw [if_pos (by omega)]
      rfl
    · have hresolve : resolve items.length (.negSucc i) = .negSucc (i - items.length) := by
        simp only [resolve, Int.negSucc_lt_zero, if_true]
        omega
      rw [hresolve, if_neg hi]
      rfl

theorem Entries.exists_get? {α : Type} {name : String} {es : Entries α} (h : name ∈ es.keys) :
    ∃ a, es.get? name = some a := by
  induction es with
  | nil => cases h
  | cons e es ih =>
    obtain ⟨k, b⟩ := e
    rw [get?]
    split
    · exact ⟨b, rfl⟩
    · next hne => exact ih ((List.mem_cons.1 h).resolve_left hne)

namespace Value

variable {v w : Value}

/-- There is something at every place that a key names. -/
theorem exists_child_of_place? {k : Value} {p : Place} (h : v.outline.place? k = some p) :
    ∃ c, v.child? p = some c := by
  cases v with
  | object es =>
    cases k with
    | string name =>
      simp only [outline, Outline.place?] at h
      split at h
      · next hname =>
        cases h
        exact Entries.exists_get? hname
      · cases h
    | _ => cases h
  | array items =>
    cases k with
    | number n =>
      obtain ⟨i, hi, rfl⟩ := Option.map_eq_some_iff.1 h
      have hlt : i < items.length := Items.position?_lt hi
      exact ⟨items[i], List.getElem?_eq_getElem hlt⟩
    | _ => cases h
  | _ => cases h

/-- There is something at every place that a step leads to. -/
theorem exists_child {s : Step} {p : Place} (hp : p ∈ v.outline.places s) :
    ∃ c, v.child? p = some c := by
  cases s with
  | keys ks =>
    obtain ⟨k, -, hk⟩ := List.mem_filterMap.1 hp
    exact exists_child_of_place? hk
  | each =>
    cases v with
    | object es =>
      obtain ⟨name, hname, rfl⟩ := List.mem_map.1 hp
      exact Entries.exists_get? hname
    | array items =>
      obtain ⟨i, hi, rfl⟩ := List.mem_map.1 hp
      have hlt : i < items.length := List.mem_range.1 hi
      exact ⟨items[i], List.getElem?_eq_getElem hlt⟩
    | _ => cases hp

theorem mem_parts {s : Step} {part : Place × Value} :
    part ∈ v.parts s ↔ part.1 ∈ v.outline.places s ∧ v.child? part.1 = some part.2 := by
  obtain ⟨p, c⟩ := part
  simp only [parts, List.mem_filterMap, Option.map_eq_some_iff, Prod.mk.injEq]
  constructor
  · rintro ⟨q, hq, d, hd, rfl, rfl⟩
    exact ⟨hq, hd⟩
  · rintro ⟨hp, hc⟩
    exact ⟨p, hp, c, hc, rfl, rfl⟩

/-- Under values of the same outline, the parts stand side by side. -/
theorem parts_forall₂ {R : Value → Value → Prop} {s : Step} (houtline : w.outline = v.outline)
    (h : ∀ p ∈ v.outline.places s, ∀ c, v.child? p = some c → ∃ d, w.child? p = some d ∧ R c d) :
    List.Forall₂ (fun x y => R x.2 y.2) (v.parts s) (w.parts s) := by
  have hchild : ∀ p ∈ v.outline.places s, ∃ c, v.child? p = some c := fun p => exists_child
  rw [parts, parts, houtline]
  generalize v.outline.places s = ps at h hchild
  induction ps with
  | nil => exact .nil
  | cons p ps ih =>
    obtain ⟨hp, hps⟩ := List.forall_mem_cons.1 h
    obtain ⟨⟨c, hc⟩, hcs⟩ := List.forall_mem_cons.1 hchild
    obtain ⟨d, hd, hcd⟩ := hp c hc
    simp only [List.filterMap_cons, hc, hd, Option.map_some]
    exact .cons hcd (ih hps hcs)

/-- The slots are where the targets stand. -/
theorem map_at?_slots (steps : List Step) (v : Value) :
    (v.slots steps).map v.at? = (v.targets steps).map some := by
  induction steps generalizing v with
  | nil => rfl
  | cons s rest ih =>
    rw [slots, targets, List.map_flatMap, List.map_flatMap]
    refine List.flatMap_congr fun part hpart => ?_
    have hchild := (mem_parts.1 hpart).2
    rw [← ih, List.map_map]
    refine List.map_congr_left fun l _ => ?_
    rw [Function.comp_apply, at?, hchild, Option.bind_some]

/-! ### Reading along steps -/

/-- A key finds what stands at the place that it names. -/
theorem field_eq_iff {k c : Value} :
    v.field k = .ok (some c) ↔ ∃ p, v.outline.place? k = some p ∧ v.child? p = some c := by
  cases v with
  | object es =>
    cases k with
    | string name =>
      simp only [field, outline, Outline.place?, Except.ok.injEq]
      constructor
      · intro h
        have hname : name ∈ Entries.keys es := by
          by_contra hnot
          rw [Entries.get?_eq_none_of_not_mem hnot] at h
          cases h
        exact ⟨.entry name, if_pos hname, h⟩
      · rintro ⟨p, hp, hc⟩
        split at hp
        · cases hp
          exact hc
        · cases hp
    | _ => simp [field, outline, Outline.place?]
  | array items =>
    cases k with
    | number n =>
      simp only [field, outline, Outline.place?, Items.get?_eq]
      cases hi : Items.position? items.length n.toIndex with
      | none => simp
      | some i =>
        have hlt : i < items.length := Items.position?_lt hi
        simp [child?, hlt]
    | _ => simp [field, outline, Outline.place?]
  | _ => cases k <;> simp [field, outline, Outline.place?]

end Value

theorem Entries.filterMap_get?_keys {α : Type} {es : Entries α} (h : es.Sorted) :
    (es.keys.filterMap fun name => es.get? name) = es.values := by
  induction es with
  | nil => rfl
  | cons e es ih =>
    obtain ⟨k, b⟩ := e
    obtain ⟨hk, hes⟩ := List.pairwise_cons.1 h
    have hrest : (keys es).filterMap (fun name => get? name ((k, b) :: es)) = values es := by
      rw [← ih hes]
      refine List.filterMap_congr fun name hname => ?_
      have hne : name ≠ k := by
        rintro rfl
        exact String.lt_irrefl name (hk name hname)
      rw [get?, if_neg hne]
    have hself : get? k ((k, b) :: es) = some b := by rw [get?, if_pos rfl]
    change (k :: keys es).filterMap (fun name => get? name ((k, b) :: es)) = b :: values es
    rw [List.filterMap_cons, hself, hrest]

theorem Entries.ext_get? {α : Type} {es fs : Entries α} (h : es.Sorted)
    (hkeys : fs.keys = es.keys) (hget : ∀ name, fs.get? name = es.get? name) : fs = es := by
  have hvalues : fs.values = es.values := by
    rw [← filterMap_get?_keys h, ← filterMap_get?_keys (by rwa [Sorted, hkeys]), hkeys]
    simp only [hget]
  have hzip : ∀ gs : Entries α, gs.keys.zip gs.values = gs := by
    intro gs
    rw [keys, values, List.zip_map']
    exact List.map_id gs
  rw [← hzip fs, hkeys, hvalues, hzip es]

theorem Items.filterMap_getElem?_range (items : List Value) :
    (List.range items.length).filterMap (items[·]?) = items := by
  induction items with
  | nil => rfl
  | cons v items ih =>
    simp [List.range_succ_eq_map, List.filterMap_map, ih]

namespace Value

variable {v w : Value}

theorem map_snd_parts (s : Step) :
    (v.parts s).map Prod.snd = (v.outline.places s).filterMap v.child? := by
  simp [parts, List.map_filterMap, Option.map_map, Function.comp_def]

/-- Iterating gives the parts in the order of their places. -/
theorem iterate_eq (hplain : v.outline ≠ .plain) (hascending : v.outline.Ascending) :
    v.iterate = .ok ((v.parts .each).map Prod.snd) := by
  rw [map_snd_parts]
  cases v with
  | object es =>
    simp only [iterate, outline, Outline.places, List.filterMap_map, Function.comp_def, child?]
    rw [Entries.filterMap_get?_keys hascending]
  | array items =>
    simp only [iterate, outline, Outline.places, List.filterMap_map, Function.comp_def, child?]
    rw [Items.filterMap_getElem?_range]
  | _ => exact absurd rfl hplain

theorem Orderly.child {p : Place} {c : Value} (h : v.Orderly) (hc : v.child? p = some c) :
    c.Orderly := by
  intro l w hw
  refine h (p :: l) w ?_
  rw [at?, hc]
  exact hw

/-- A value is known by its outline and its parts, unless it has none. -/
theorem ext_child (hascending : v.outline.Ascending) (houtline : w.outline = v.outline)
    (hplain : v.outline = .plain → w = v) (h : ∀ p, w.child? p = v.child? p) : w = v := by
  cases v with
  | object es =>
    cases w with
    | object fs =>
      have hkeys : Entries.keys fs = Entries.keys es := Outline.entries.inj houtline
      rw [Entries.ext_get? hascending hkeys fun name => h (.entry name)]
    | _ => cases houtline
  | array items =>
    cases w with
    | array others =>
      have hitems : others = items := List.ext_getElem? fun i => h (.element i)
      rw [hitems]
    | _ => cases houtline
  | _ => exact hplain rfl

/-- A path that finds everything leads through a value with its keys in order. -/
theorem Present.walkable {steps : List Step} (h : v.Present steps) (hv : v.Orderly) :
    v.Walkable steps := by
  induction steps generalizing v with
  | nil => trivial
  | cons s rest ih =>
    have hascending : v.outline.Ascending := hv [] v rfl
    cases s with
    | keys ks =>
      refine ⟨hascending, fun k hk => ?_, fun part hpart => ?_⟩
      · obtain ⟨c, hc, -⟩ := h k hk
        obtain ⟨p, hp, -⟩ := field_eq_iff.1 hc
        rw [hp]
        rfl
      · obtain ⟨hplace, hchild⟩ := mem_parts.1 hpart
        obtain ⟨k, hk, hkp⟩ := List.mem_filterMap.1 hplace
        obtain ⟨c, hc, hrest⟩ := h k hk
        have hfound : v.field k = .ok (some part.2) := field_eq_iff.2 ⟨part.1, hkp, hchild⟩
        rw [hfound] at hc
        cases hc
        exact ih hrest (hv.child hchild)
    | each =>
      obtain ⟨items, hitems, hrest⟩ := h
      have hplain : v.outline ≠ .plain := by
        intro hplain
        cases v <;> cases hplain <;> cases hitems
      refine ⟨hascending, hplain, fun part hpart => ?_⟩
      rw [iterate_eq hplain hascending] at hitems
      cases hitems
      exact ih (hrest part.2 (List.mem_map_of_mem hpart)) (hv.child (mem_parts.1 hpart).2)

end Value

/-! ### Equal values -/

theorem Entries.get?_mapValues {α β : Type} (f : α → β) (name : String) (es : Entries α) :
    (es.mapValues f).get? name = (es.get? name).map f := by
  induction es with
  | nil => rfl
  | cons e es ih =>
    obtain ⟨k, b⟩ := e
    simp only [mapValues, List.map_cons, get?] at ih ⊢
    split
    · rfl
    · exact ih

namespace Value

variable {v w : Value}

theorem outline_shape (v : Value) : v.shape.outline = v.outline := by
  cases v with
  | array items => simp [shape, outline]
  | object es => simp [shape, outline]
  | _ => rfl

theorem child?_shape (v : Value) (p : Place) : v.shape.child? p = (v.child? p).map shape := by
  cases v with
  | array items => cases p <;> simp [shape, child?]
  | object es =>
    rw [shape, viewed_object]
    cases p with
    | entry name => exact Entries.get?_mapValues shape name es
    | element i => rfl
  | _ => cases p <;> rfl

theorem outline_eq_of_same (h : v.same w = true) : v.outline = w.outline := by
  rw [← outline_shape v, (same_iff v w).1 h, outline_shape]

theorem exists_child_of_same (h : v.same w = true) {p : Place} {c : Value}
    (hc : v.child? p = some c) : ∃ d, w.child? p = some d ∧ c.same d = true := by
  have hshape : (v.child? p).map shape = (w.child? p).map shape := by
    rw [← child?_shape, (same_iff v w).1 h, child?_shape]
  rw [hc, Option.map_some] at hshape
  obtain ⟨d, hd, hcd⟩ := Option.map_eq_some_iff.1 hshape.symm
  exact ⟨d, hd, (same_iff c d).2 hcd.symm⟩

/-- A path leads to equal values in equal values. -/
theorem targets_of_same (steps : List Step) (h : v.same w = true) :
    List.Forall₂ (fun x y => x.same y = true) (v.targets steps) (w.targets steps) := by
  induction steps generalizing v w with
  | nil => exact .cons h .nil
  | cons s rest ih =>
    have hparts : List.Forall₂ (fun x y => x.2.same y.2 = true) (v.parts s) (w.parts s) :=
      parts_forall₂ (outline_eq_of_same h).symm fun p _ c hc => exists_child_of_same h hc
    exact List.rel_flatMap hparts fun x y hxy => ih hxy

theorem overwrite_same (old new : Value) : (old.overwrite new).same new = true := by
  rw [overwrite]
  split
  · assumption
  · exact (same_iff new new).2 rfl

end Value

end JsonPipe
