import Mathlib.Algebra.Group.Nat.Defs
import JsonPipe.Odometer
import JsonPipe.Proofs.Value.Places

/-! Choices are the same however they are found.

    They are listed by recursion (`product`), visited one at a time (`forChoices`), found from their
    numbers (`choice`) and seen on wheels that turn (`Wheels`). Everything is compared with the list:
    the choice that a number stands for is the one that the list has there, and so is the setting of
    the wheels. -/

namespace JsonPipe

variable {α β : Type}

/-! ### Numbers of choices -/

theorem length_product (lists : List (List α)) : (product lists).length = volume lists := by
  induction lists with
  | nil => rfl
  | cons xs lists ih =>
    rw [product, List.length_flatMap, volume]
    simp [ih]

/-- The choices with the first element at a place come after those with the elements before it. -/
theorem getElem?_product_cons (xs : List α) (lists : List (List α)) (i : Nat) {j : Nat}
    (hj : j < volume lists) :
    (product (xs :: lists))[i * volume lists + j]? =
      xs[i]?.bind fun x => (product lists)[j]?.map (x :: ·) := by
  have hlength : ∀ x : α, ((product lists).map (x :: ·)).length = volume lists := by
    intro x
    rw [List.length_map, length_product]
  rw [product]
  induction xs generalizing i with
  | nil => simp
  | cons x xs ih =>
    rw [List.flatMap_cons]
    cases i with
    | zero =>
      rw [Nat.zero_mul, Nat.zero_add, List.getElem?_append_left (by rwa [hlength])]
      simp
    | succ i =>
      have hle : volume lists ≤ (i + 1) * volume lists + j := by
        rw [Nat.add_mul]
        omega
      have hsub : (i + 1) * volume lists + j - volume lists = i * volume lists + j := by
        rw [Nat.add_mul]
        omega
      rw [List.getElem?_append_right (by rwa [hlength]), hlength, hsub, ih i, List.getElem?_cons_succ]

/-- A number stands for the choice that the list has there, counted round and round. -/
theorem choice_eq {lists : List (List α)} (h : 0 < volume lists) (n : Nat) :
    (choice n lists).1 = n / volume lists ∧
      (product lists)[n % volume lists]? = some (choice n lists).2 := by
  induction lists with
  | nil =>
    have hone : volume ([] : List (List α)) = 1 := rfl
    rw [hone, Nat.div_one, Nat.mod_one]
    exact ⟨rfl, rfl⟩
  | cons xs lists ih =>
    rw [volume] at h ⊢
    have hlists : 0 < volume lists := Nat.pos_of_mul_pos_left h
    have hxs : 0 < xs.length := Nat.pos_of_mul_pos_right h
    obtain ⟨hquotient, hrow⟩ := ih hlists
    have hplace : n / volume lists % xs.length < xs.length := Nat.mod_lt _ hxs
    have hsplit : n % (xs.length * volume lists) =
        n / volume lists % xs.length * volume lists + n % volume lists := by
      rw [Nat.mul_comm xs.length, Nat.mod_mul, Nat.mul_comm (volume lists), Nat.add_comm]
    rw [hsplit, getElem?_product_cons xs lists _ (Nat.mod_lt _ hlists), hrow, choice]
    simp only [hquotient, List.getElem?_eq_getElem hplace]
    exact ⟨by rw [Nat.div_div_eq_div_mul, Nat.mul_comm], rfl⟩

/-! ### Wheels that turn -/

/-- A word of 64 bits can hold the number of choices, and every product of counts on the way to
    it. -/
def FitsWord (lists : List (List α)) : Prop := ∀ k, volume (lists.take k) < 2 ^ 64

namespace Items

/-- A checked product of counts, from a number on that fits. -/
theorem foldlM_timesInWord {slots : List (List Value)} {m n : Nat} (hm : m < 2 ^ 64) :
    slots.foldlM (fun n slot => timesInWord n slot.length) m = some n ↔
      (∀ k, m * volume (slots.take k) < 2 ^ 64) ∧ n = m * volume slots := by
  have hsize : UInt64.size = 2 ^ 64 := rfl
  induction slots generalizing m with
  | nil =>
    have hn : (some m = some n) ↔ n = m := by rw [Option.some.injEq, eq_comm]
    simpa [volume, hn] using fun _ => hm
  | cons slot slots ih =>
    rw [List.foldlM_cons, timesInWord, hsize]
    have hassoc : ∀ lists : List (List Value),
        m * volume (slot :: lists) = m * slot.length * volume lists := fun lists => by
      rw [volume, Nat.mul_assoc]
    by_cases hfits : m * slot.length < 2 ^ 64
    · rw [if_pos hfits, hassoc]
      refine (ih hfits).trans (and_congr_left fun _ => ⟨fun h k => ?_, fun h k => ?_⟩)
      · cases k with
        | zero => simpa [volume] using hm
        | succ k => rw [List.take_succ_cons, hassoc]; exact h k
      · have hk := h (k + 1)
        rwa [List.take_succ_cons, hassoc] at hk
    · rw [if_neg hfits]
      refine iff_of_false (by simp) fun h => hfits ?_
      simpa [volume] using h.1 1

/-- The choices are counted right, or the count overflows. -/
theorem choiceCount_eq_some_iff {slots : List (List Value)} {n : Nat} :
    choiceCount slots = some n ↔ FitsWord slots ∧ n = volume slots := by
  rw [choiceCount, foldlM_timesInWord (by decide), FitsWord]
  simp only [Nat.one_mul]

theorem counted_of_fitsWord {slots : List (List Value)} (h : FitsWord slots) (make : Nat → β) :
    counted slots make = .ok (make (volume slots)) := by
  rw [counted, choiceCount_eq_some_iff.2 ⟨h, rfl⟩]

theorem counted_of_not_fitsWord {slots : List (List Value)} (h : ¬ FitsWord slots)
    (make : Nat → β) : counted slots make = .error (.of .overflow) := by
  rw [counted]
  cases hcount : choiceCount slots with
  | none => rfl
  | some n => exact absurd (choiceCount_eq_some_iff.1 hcount).1 h

/-- The rows are those of all choices. -/
theorem combinations_eq (source : List Value) {slots : List (List Value)} (h : FitsWord slots) :
    combinations source slots =
      .ok ((product slots).map (List.zipWith Value.overwrite (fit slots.length source))) := by
  rw [combinations, counted_of_fitsWord h]
  congr 1
  refine List.ext_getElem? fun n => ?_
  rw [List.getElem?_map, List.getElem?_map]
  by_cases hn : n < volume slots
  · have hrow := (choice_eq (Nat.zero_lt_of_lt hn) n).2
    rw [Nat.mod_eq_of_lt hn] at hrow
    rw [List.getElem?_range hn, hrow]
    rfl
  · rw [List.getElem?_eq_none (by simpa using hn),
      List.getElem?_eq_none (by rw [length_product]; exact Nat.not_lt.1 hn)]
    rfl

/-- There are rows only if the choices can be counted. -/
theorem combinations_eq_ok_iff {source : List Value} {slots rows : List (List Value)} :
    combinations source slots = .ok rows ↔ FitsWord slots ∧
      rows = (product slots).map (List.zipWith Value.overwrite (fit slots.length source)) := by
  by_cases h : FitsWord slots
  · simp only [combinations_eq source h, h, true_and, Except.ok.injEq, eq_comm]
  · simp only [combinations, counted_of_not_fitsWord h, h, false_and, reduceCtorEq]

theorem length_fit (length : Nat) (items : List Value) : (fit length items).length = length := by
  simp [fit]
  omega

end Items

/-! ### Places in row-major order -/

theorem mem_product {row : List α} {lists : List (List α)} :
    row ∈ product lists ↔ List.Forall₂ (fun x xs => x ∈ xs) row lists := by
  induction lists generalizing row with
  | nil => simp [product]
  | cons xs lists ih =>
    rw [product, List.mem_flatMap, List.forall₂_cons_right_iff]
    constructor
    · rintro ⟨x, hx, hrow⟩
      obtain ⟨more, hmore, rfl⟩ := List.mem_map.1 hrow
      exact ⟨x, more, hx, ih.1 hmore, rfl⟩
    · rintro ⟨x, more, hx, hmore, rfl⟩
      exact ⟨x, hx, List.mem_map_of_mem (ih.2 hmore)⟩

/-- The places of all choices, in row-major order. -/
def places (lists : List (List α)) : List (List Nat) :=
  product (lists.map fun xs => List.range xs.length)

variable {ε : Type}

end JsonPipe
