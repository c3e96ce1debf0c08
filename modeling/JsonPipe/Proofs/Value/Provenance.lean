import JsonPipe.Proofs.Value.Growth

/-! Where the slots of a grown array come from.

    After any writes, whatever they pad the array with, a slot is one of three things: it holds what
    was last written to it, or the element that stood there before all writes, or the filler
    (`Items.writeAll_provenance`). Slots are counted from where the first element stood, so an index
    leads to a coordinate that does not move under the writes after it, and all elements that
    nothing was written over stay in order, shifted by the growth at the front. -/

namespace JsonPipe.Items

variable {length : Nat} {s : Span} {items : List Value}

/-- The array is as long as the writes need it to be. -/
theorem length_writeAll (filler : Value) (items : List Value) (changes : List (Int × Value)) :
    (writeAll filler items changes).length =
      (changes.map fun c => Assign.neededLength c.1).foldl max items.length := by
  induction changes generalizing items with
  | nil => rfl
  | cons c changes ih =>
    have hwrite : (write filler items c.1 c.2).length =
        max items.length (Assign.neededLength c.1) := by
      rw [length_write, resolve, Assign.neededLength]
      split <;> omega
    rw [List.map_cons, List.foldl_cons, ← hwrite]
    exact ih _

/-- An index leads to where it resolves after the growth under the indices before it. -/
theorem getElem?_landings (length : Nat) (s : Span) (indices : List Int) (k : Nat) :
    (landings length s indices)[k]? = indices[k]?.map
      (landing length ((landings length s (indices.take k)).foldl (Span.reach length) s)) := by
  induction indices generalizing s k with
  | nil => rfl
  | cons index indices ih =>
    cases k with
    | zero => rfl
    | succ k => exact ih _ k

/-- One index more lets the array grow as far as it leads. -/
theorem reached_concat (length : Nat) (indices : List Int) (index : Int) :
    reached length (indices ++ [index]) =
      (reached length indices).reach length (landing length (reached length indices) index) := by
  have hconcat : ∀ s : Span, landings length s (indices ++ [index]) =
      landings length s indices ++
        [landing length ((landings length s indices).foldl (Span.reach length) s) index] := by
    intro s
    induction indices generalizing s with
    | nil => rfl
    | cons first indices ih => exact congrArg (_ :: ·) (ih _)
  rw [reached, hconcat, List.foldl_append]
  rfl

/-! ### The last write -/

/-- The value of the last of several changes at a coordinate. -/
def lastAt (x : Int) (changes : List (Int × Value)) : Option Value :=
  (changes.filter (·.1 = x)).getLast?.map Prod.snd

/-- A change counts if there is none after it at the same coordinate. -/
theorem lastAt_cons (x : Int) (c : Int × Value) (changes : List (Int × Value)) :
    lastAt x (c :: changes) = (lastAt x changes).or (if c.1 = x then some c.2 else none) := by
  rw [lastAt, lastAt, List.filter_cons]
  by_cases hc : c.1 = x
  · rw [if_pos (by simpa using hc), if_pos hc, List.getLast?_cons]
    cases (changes.filter (·.1 = x)).getLast? <;> rfl
  · rw [if_neg (by simpa using hc), if_neg hc, Option.or_none]

theorem lastAt_eq_none {x : Int} {changes : List (Int × Value)} (h : x ∉ changes.map Prod.fst) :
    lastAt x changes = none := by
  induction changes with
  | nil => rfl
  | cons c changes ih =>
    rw [List.map_cons, List.mem_cons, not_or] at h
    rw [lastAt_cons, ih h.2, if_neg (Ne.symm h.1)]
    rfl

/-- Slots hold what was last written to them, up to equality, and everything else is as before. -/
theorem Spans.held_writeAll (h : Spans length s items) (filler : Value)
    (changes : List (Int × Value)) (x : Int) :
    let landed := landings length s (changes.map Prod.fst)
    let now := held filler (landed.foldl (Span.reach length) s).front
      (Items.writeAll filler items changes) x
    match lastAt x (landed.zip (changes.map Prod.snd)) with
    | some new => now.same new = true
    | none => now = held filler s.front items x := by
  induction changes generalizing s items with
  | nil => rfl
  | cons c changes ih =>
    have hrest := ih (h.write filler c.1 c.2)
    rw [h.held_write, Function.update_apply] at hrest
    simp only [List.map_cons, landings, List.zip_cons_cons, lastAt_cons] at hrest ⊢
    generalize lastAt x _ = last at hrest ⊢
    cases last with
    | some new => exact hrest
    | none =>
      -- no later write came to `x`, so it holds what the first one left there
      by_cases hx : landing length s c.1 = x
      · rw [if_pos hx.symm] at hrest
        rw [if_pos hx]
        refine Eq.trans ?_ (afterWrite_same items c.1 c.2)
        exact congrArg (Value.same · c.2) hrest
      · rw [if_neg (Ne.symm hx)] at hrest
        rw [if_neg hx]
        exact hrest

/-! ### The law -/

/-- A change lands where its index leads in the array that the changes before it have made, and the
    slots that it has to put in front of that array add to the growth at the front. -/
theorem landed_at (filler : Value) (items : List Value) (changes : List (Int × Value)) {k : Nat}
    {c : Int × Value} (hc : changes[k]? = some c) :
    let grown (changes : List (Int × Value)) := reached items.length (changes.map Prod.fst)
    let position := resolve (writeAll filler items (changes.take k)).length c.1
    (landings items.length ⟨0, 0⟩ (changes.map Prod.fst))[k]? =
        some (position - (grown (changes.take k)).front) ∧
      (grown (changes.take (k + 1))).front =
        (grown (changes.take k)).front + (-position).toNat := by
  intro grown position
  have hlength : (writeAll filler items (changes.take k)).length =
      (grown (changes.take k)).front + items.length + (grown (changes.take k)).back :=
    (spans_start items).writeAll filler (changes.take k)
  have hlanding : landing items.length (grown (changes.take k)) c.1 =
      position - (grown (changes.take k)).front := by
    rw [landing, ← hlength]
  constructor
  · rw [getElem?_landings, List.getElem?_map, hc, ← List.map_take]
    exact congrArg some hlanding
  · have hnext : grown (changes.take (k + 1)) =
        (grown (changes.take k)).reach items.length (position - (grown (changes.take k)).front) := by
      simp only [← hlanding, grown, List.take_add_one, hc, Option.toList_some, List.map_append]
      exact reached_concat _ _ _
    rw [hnext, Span.reach_front]
    omega

/-- An element to which no change came stands where it stood. -/
theorem getElem?_writeAll_kept (filler : Value) {items : List Value}
    (changes : List (Int × Value)) {j : Nat} (hj : j < items.length)
    (hnot : (j : Int) ∉ landings items.length ⟨0, 0⟩ (changes.map Prod.fst)) :
    (writeAll filler items changes)[(reached items.length (changes.map Prod.fst)).front + j]? =
      items[j]? := by
  have hlast : lastAt (j : Int) ((landings items.length ⟨0, 0⟩ (changes.map Prod.fst)).zip
      (changes.map Prod.snd)) = none := by
    refine lastAt_eq_none fun hmem => hnot ?_
    obtain ⟨c, hc, hcj⟩ := List.mem_map.1 hmem
    exact hcj ▸ (List.of_mem_zip hc).1
  have hheld := (spans_start items).held_writeAll filler changes j
  simp only [hlast] at hheld
  have hlength : (writeAll filler items changes).length =
      (reached items.length (changes.map Prod.fst)).front + items.length +
        (reached items.length (changes.map Prod.fst)).back :=
    (spans_start items).writeAll filler changes
  rw [reached] at hlength ⊢
  generalize (landings items.length ⟨0, 0⟩ (changes.map Prod.fst)).foldl
    (Span.reach items.length) ⟨0, 0⟩ = s at hheld hlength ⊢
  have hat : ((s.front + j : Nat) : Int) - s.front = j := by omega
  rw [getElem?_eq_held filler (by omega : s.front + j < _), hat, hheld,
    held_of_nat (Int.zero_add j), List.getElem?_eq_getElem hj]
  rfl

/-- Every change lands where its index leads in the array that the changes before it have made, and
    the slots that it has to put in front of that array add to the growth at the front. The array
    becomes as long as the neediest index asks for, which is what it was and what it has grown at
    either end. An element to which no change came stands where it stood, behind the growth at the
    front; and every slot holds the last value that came to it, up to equality, or else the element
    that stood there, or else the filler. -/
theorem writeAll_provenance (filler : Value) (items : List Value) (changes : List (Int × Value)) :
    let result := writeAll filler items changes
    let grown (changes : List (Int × Value)) := reached items.length (changes.map Prod.fst)
    let front := (grown changes).front
    let landed := landings items.length ⟨0, 0⟩ (changes.map Prod.fst)
    (∀ k c, changes[k]? = some c →
      let position := resolve (writeAll filler items (changes.take k)).length c.1
      landed[k]? = some (position - (grown (changes.take k)).front) ∧
        (grown (changes.take (k + 1))).front =
          (grown (changes.take k)).front + (-position).toNat) ∧
    result.length = (changes.map fun c => Assign.neededLength c.1).foldl max items.length ∧
    result.length = front + items.length + (grown changes).back ∧
    (∀ j, j < items.length → (j : Int) ∉ landed → result[front + j]? = items[j]?) ∧
    ∀ i, i < result.length → ∃ v, result[i]? = some v ∧
      match lastAt (i - front) (landed.zip (changes.map Prod.snd)) with
      | some new => v.same new = true
      | none => v = held filler 0 items (i - front) := by
  intro result grown front landed
  refine ⟨fun k c hc => landed_at filler items changes hc, length_writeAll filler items changes,
    (spans_start items).writeAll filler changes,
    fun j hj hnot => getElem?_writeAll_kept filler changes hj hnot, fun i hi => ?_⟩
  exact ⟨_, getElem?_eq_held filler hi, (spans_start items).held_writeAll filler changes _⟩

/-- Writes behind the end, in the middle and in front of the start, which puts two slots there: the
    `"a"` is still there behind them, and a later write has come to the slot of the `"b"`. -/
theorem writeAll_provenance_bothEnds :
    let items : List Value := [.string "a", .string "b"]
    let changes : List (Int × Value) :=
      [(-4, .string "w"), (3, .string "x"), (-1, .string "y"), (5, .string "z")]
    let result := writeAll (.string "f") items changes
    result.length = 6 ∧ result[2]? = some (.string "a") ∧
      ∃ v, result[3]? = some v ∧ v.same (.string "y") = true := by
  intro items changes result
  obtain ⟨-, hlength, -, hkept, hslots⟩ := writeAll_provenance (.string "f") items changes
  exact ⟨hlength, hkept 0 (by decide) (by decide), hslots 3 (by decide)⟩

end JsonPipe.Items
