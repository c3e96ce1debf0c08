import JsonPipe.Proofs.Run.Continuation
import JsonPipe.Proofs.Value.Growth

/-! Updates of an array under several keys.

    The slots that the keys name are read in the array as it is, and the row of candidates is then
    written slot by slot into an array that may grow meanwhile. So a candidate is found in the slot
    it was made for as long as no key before it has moved the end from which its own key is
    counted; otherwise it is found elsewhere (`Feed.update_keys`). -/

namespace JsonPipe

namespace Items

/-- What a write at an index has to go by. -/
def target (items : List Value) (index : Int) : Value := (get? items index).getD .null

/-- What a write at an index puts there: the new value, unless an equal one stands there. -/
def updated (g : Value → Value) (items : List Value) (index : Int) : Value :=
  (target items index).overwrite (g (target items index))

/-- The array after a write at each of the indices. -/
def updateAll (g : Value → Value) (items : List Value) (indices : List Int) : List Value :=
  writeAll .null items (indices.zip (indices.map (updated g items)))

variable (g : Value → Value) (items : List Value) (indices : List Int)

theorem spans_updateAll :
    Spans items.length (reached items.length indices) (updateAll g items indices) ∧
      content (reached items.length indices).front (updateAll g items indices) =
        written (content 0 items)
          ((landings items.length ⟨0, 0⟩ indices).zip (indices.map (updated g items))) := by
  have hfst : (indices.zip (indices.map (updated g items))).map Prod.fst = indices :=
    List.map_fst_zip (by simp)
  have hsnd : (indices.zip (indices.map (updated g items))).map Prod.snd =
      indices.map (updated g items) := List.map_snd_zip (by simp)
  have hspans := (spans_start items).writeAll .null (indices.zip (indices.map (updated g items)))
  have hcontent := (spans_start items).content_writeAll (indices.zip (indices.map (updated g items)))
  rw [hfst] at hspans
  rw [hfst, hsnd] at hcontent
  exact ⟨hspans, hcontent⟩

variable {g items indices}

/-- Where every candidate lands in the slot it was made for. -/
theorem content_updateAll (h : indices.Pairwise (Undisturbed items.length)) (x : Int) :
    content (reached items.length indices).front (updateAll g items indices) x =
      if x ∈ indices.map (resolve items.length) then
        (content 0 items x).overwrite (g (content 0 items x))
      else content 0 items x := by
  -- what is written depends on the slot alone, whichever index it is named by
  have hrow : indices.map (updated g items) = (indices.map (resolve items.length)).map
      fun x => (content 0 items x).overwrite (g (content 0 items x)) := by
    rw [List.map_map]
    refine List.map_congr_left fun index _ => ?_
    simp only [updated, target, get?_getD, Function.comp_apply]
  rw [(spans_updateAll g items indices).2, (landings_eq_iff items.length indices).2 h, hrow]
  exact written_settled (fun x _ => Value.overwrite_overwrite _ _) x

/-- Every slot that is named holds the candidate made for it. -/
theorem getElem?_updateAll_slot (h : indices.Pairwise (Undisturbed items.length)) {index : Int}
    (hindex : index ∈ indices) :
    ∃ i : Nat, (i : Int) = (reached items.length indices).front + resolve items.length index ∧
      (updateAll g items indices)[i]? = some (updated g items index) := by
  have hspan : (updateAll g items indices).length = _ := (spans_updateAll g items indices).1
  have hslot : resolve items.length index ∈ indices.map (resolve items.length) :=
    List.mem_map_of_mem hindex
  obtain ⟨-, -, hreach⟩ :=
    Span.foldl_reach items.length ⟨0, 0⟩ (landings items.length ⟨0, 0⟩ indices)
  obtain ⟨hstart, hend⟩ : 0 ≤ (reached items.length indices).front + resolve items.length index ∧
      resolve items.length index < items.length + (reached items.length indices).back :=
    hreach _ (by rwa [(landings_eq_iff items.length indices).2 h])
  obtain ⟨i, hi⟩ := Int.eq_ofNat_of_zero_le hstart
  have hcoordinate : (i : Int) - (reached items.length indices).front =
      resolve items.length index := by omega
  refine ⟨i, hi.symm, ?_⟩
  rw [getElem?_eq_content (by omega), hcoordinate, content_updateAll h, if_pos hslot, updated,
    target, get?_getD]

/-- Every element that is not named stays as it is. -/
theorem getElem?_updateAll_other (h : indices.Pairwise (Undisturbed items.length)) {i : Nat}
    (hi : i < items.length) (hother : ∀ index ∈ indices, resolve items.length index ≠ i) :
    (updateAll g items indices)[(reached items.length indices).front + i]? = items[i]? := by
  have hspan : (updateAll g items indices).length = _ := (spans_updateAll g items indices).1
  have hslot : (i : Int) ∉ indices.map (resolve items.length) := by
    rintro hmem
    obtain ⟨index, hindex, heq⟩ := List.mem_map.1 hmem
    exact hother index hindex heq
  have hcoordinate : (((reached items.length indices).front + i : Nat) : Int) -
      (reached items.length indices).front = i := by omega
  rw [getElem?_eq_content (by omega), hcoordinate, content_updateAll h, if_neg hslot,
    content_of_nat (by omega : ((0 : Nat) : Int) + i = i), List.getElem?_eq_getElem hi]
  rfl

end Items

/-! ### The instruction -/

theorem Assign.elements_updateAll {fill : Fill} {g : Value → Value} {indices : List Int}
    {items : List Value}
    (h : ∀ index ∈ indices, fill (Items.target items index) = .ok [g (Items.target items index)]) :
    elements fill indices items = .ok [.array (Items.updateAll g items indices)] := by
  have hrows : slotRows fill (indices.map (Items.target items)) =
      .ok [indices.map (Items.updated g items)] := slotRows_map h
  rw [elements]
  change (slotRows fill (indices.map (Items.target items)) >>= _) = _
  rw [hrows]
  rfl

namespace Feed

variable {call : Call} {scope : Scope} {items : List Value} {key rhs : Pipeline} {ks : List Number}
  {g : Value → Value}

theorem evaluate_update_keys
    (hkey : evaluate call key scope (.array items) = .ok (ks.map .number))
    (hroom : ∀ k ∈ ks, Assign.neededLength k.toIndex ≤ max items.length maxCollectionLength)
    (hrhs : ∀ k ∈ ks, evaluate call rhs scope (Items.target items k.toIndex) =
      .ok [g (Items.target items k.toIndex)]) (optional : Bool) :
    evaluate call [.assign [] [.field key optional] .update rhs] scope (.array items) =
      .ok [.array (Items.updateAll g items (ks.map Number.toIndex))] := by
  have hassign : assign call [.field key optional] scope (.array items) .update
      (Run.assigned .update (fun _ => pipeline call rhs scope (.array items) .one)
        (fun target => pipeline call rhs scope target .one)) (.array items) =
      .ok [.array (Items.updateAll g items (ks.map Number.toIndex))] := by
    have hfill : ∀ index ∈ ks.map Number.toIndex,
        assign call [] scope (.array items) .update
          (Run.assigned .update (fun _ => pipeline call rhs scope (.array items) .one)
            (fun target => pipeline call rhs scope target .one)) (Items.target items index) =
          .ok [g (Items.target items index)] := by
      intro index hindex
      obtain ⟨k, hk, rfl⟩ := List.mem_map.1 hindex
      rw [assign]
      exact hrhs k hk
    rw [evaluate] at hkey
    rw [assign, hkey]
    change Assign.keys _ optional _ _ = _
    rw [Assign.keys_array optional hroom, Assign.elements_updateAll hfill]
  rw [evaluate, pipeline, instruction, pipeline, hassign]
  · rfl
  all_goals simp

/-- An update of an array under several keys, with one candidate for each slot, gives one document,
    in which every candidate is found where its key has landed. All keys land in the slots that they
    name in the array as it was exactly if no key before the first element is followed by one that
    counts from the start, and no key behind the last element by one that counts from the end. Then
    every slot that is named, there before or new, holds the candidate made for it, and every other
    element is the same as before. -/
theorem update_keys
    (hkey : evaluate call key scope (.array items) = .ok (ks.map .number))
    (hroom : ∀ k ∈ ks, Assign.neededLength k.toIndex ≤ max items.length maxCollectionLength)
    (hrhs : ∀ k ∈ ks, evaluate call rhs scope (Items.target items k.toIndex) =
      .ok [g (Items.target items k.toIndex)]) (optional : Bool) :
    let indices := ks.map Number.toIndex
    let landed := Items.landings items.length ⟨0, 0⟩ indices
    let slots := indices.map (Items.resolve items.length)
    let grown := Items.reached items.length indices
    ∃ items', evaluate call [.assign [] [.field key optional] .update rhs] scope (.array items) =
        .ok [.array items'] ∧
      items'.length = grown.front + items.length + grown.back ∧
      Items.content grown.front items' =
        Items.written (Items.content 0 items) (landed.zip (indices.map (Items.updated g items))) ∧
      (landed = slots ↔ indices.Pairwise (Items.Undisturbed items.length)) ∧
      (landed = slots →
        (∀ index ∈ indices, ∃ (i : Nat) (v : Value),
          (i : Int) = grown.front + Items.resolve items.length index ∧ items'[i]? = some v ∧
            v = Items.updated g items index ∧ v.same (g (Items.target items index)) = true) ∧
        ∀ i, i < items.length → (i : Int) ∉ slots → items'[grown.front + i]? = items[i]?) := by
  intro indices landed slots grown
  obtain ⟨hspan, hcontent⟩ := Items.spans_updateAll g items indices
  have hlands := Items.landings_eq_iff items.length indices
  refine ⟨_, evaluate_update_keys hkey hroom hrhs optional, hspan, hcontent, hlands, ?_⟩
  intro hslots
  have hundisturbed := hlands.1 hslots
  constructor
  · intro index hindex
    obtain ⟨i, hi, hv⟩ := Items.getElem?_updateAll_slot hundisturbed hindex
    exact ⟨i, _, hi, hv, rfl, Value.overwrite_same _ _⟩
  · intro i hi hother
    exact Items.getElem?_updateAll_other hundisturbed hi fun index hindex heq =>
      hother (heq ▸ List.mem_map_of_mem hindex)

/-- `["a", "b", "c"]` -/
def letters : List Value := [.string "a", .string "b", .string "c"]

/-- A value as the only element of an array. -/
def wrapped (v : Value) : Value := .array [v]

/-- The numbers -1 and -4 as a key. -/
def lastThenFront : Pipeline :=
  [.concat [[.number (.ofNat 1), .negate], [.number (.ofNat 4), .negate]]]

theorem lastThenFront_toIndex :
    [(Number.ofNat 1).neg, (Number.ofNat 4).neg].map Number.toIndex = [-1, -4] := by
  decide +kernel

/-- The last element, and a new one in front of the first, are put into arrays. -/
theorem update_keys_lastThenFront :
    ∃ items', evaluate (Run.call 0) [.assign [] [.field lastThenFront false] .update [.array []]] []
        (.array letters) = .ok [.array items'] ∧
      items'[0]? = some (.array [.null]) ∧ items'[1]? = some (.string "a") ∧
      items'[3]? = some (.array [.string "c"]) := by
  have hkey : evaluate (Run.call 0) lastThenFront [] (.array letters) =
      .ok ([(Number.ofNat 1).neg, (Number.ofNat 4).neg].map .number) := rfl
  have hroom : ∀ k ∈ [(Number.ofNat 1).neg, (Number.ofNat 4).neg],
      Assign.neededLength k.toIndex ≤ max letters.length maxCollectionLength := by decide +kernel
  have hrhs : ∀ k ∈ [(Number.ofNat 1).neg, (Number.ofNat 4).neg],
      evaluate (Run.call 0) [.array []] [] (Items.target letters k.toIndex) =
        .ok [wrapped (Items.target letters k.toIndex)] := fun _ _ => rfl
  obtain ⟨items', heval, -, -, hlands, hown⟩ := update_keys hkey hroom hrhs false
  rw [lastThenFront_toIndex] at hlands hown
  obtain ⟨hslots, hothers⟩ := hown (hlands.2 (by decide))
  obtain ⟨i, -, hi, hlast, rfl, -⟩ := hslots (-1) (by decide)
  obtain ⟨j, -, hj, hfront, rfl, -⟩ := hslots (-4) (by decide)
  have hfirst := hothers 0 (by decide) (by decide)
  have hgrown : (Items.reached letters.length [-1, -4]).front = 1 := by decide
  have hlastSlot : Items.resolve letters.length (-1) = 2 := by decide
  have hfrontSlot : Items.resolve letters.length (-4) = -1 := by decide
  obtain rfl : i = 3 := by omega
  obtain rfl : j = 0 := by omega
  rw [hgrown] at hfirst
  exact ⟨items', heval, hfront, hfirst, hlast⟩

/-- The numbers 3 and -1 as a key. -/
def backThenLast : Pipeline := [.concat [[.number (.ofNat 3)], [.number (.ofNat 1), .negate]]]

theorem backThenLast_toIndex :
    [.ofNat 3, (Number.ofNat 1).neg].map Number.toIndex = [3, -1] := by
  decide +kernel

/-- What is written behind the end moves the end: the last element keeps its value, and its update
    replaces the one of the new slot. -/
theorem update_backThenLast :
    let items' : List Value := [.string "a", .string "b", .string "c", .array [.string "c"]]
    evaluate (Run.call 0) [.assign [] [.field backThenLast false] .update [.array []]] []
        (.array letters) = .ok [.array items'] ∧
      ¬∀ index ∈ [3, -1], ∃ v, items'[(Items.resolve letters.length index).toNat]? = some v ∧
        v.same (wrapped (Items.target letters index)) = true := by
  intro items'
  have hkey : evaluate (Run.call 0) backThenLast [] (.array letters) =
      .ok ([.ofNat 3, (Number.ofNat 1).neg].map .number) := rfl
  have hroom : ∀ k ∈ [.ofNat 3, (Number.ofNat 1).neg],
      Assign.neededLength k.toIndex ≤ max letters.length maxCollectionLength := by decide +kernel
  have hrhs : ∀ k ∈ [.ofNat 3, (Number.ofNat 1).neg],
      evaluate (Run.call 0) [.array []] [] (Items.target letters k.toIndex) =
        .ok [wrapped (Items.target letters k.toIndex)] := fun _ _ => rfl
  have heval := evaluate_update_keys hkey hroom hrhs false
  rw [backThenLast_toIndex] at heval
  refine ⟨heval, fun hall => ?_⟩
  obtain ⟨v, hv, hsame⟩ := hall (-1) (by decide)
  cases hv
  exact Bool.false_ne_true hsame

end Feed

end JsonPipe
