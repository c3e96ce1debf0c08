import JsonPipe.Product
import JsonPipe.Value.Update

/-! Choices counted on wheels.

    Wheels have one place for every element of their lists. They turn from the last one on: a wheel
    that comes round takes along the one before it, and when the first comes round, every setting
    has been seen. Two loops go through the settings. One calls a function on each and ends when
    nothing advances any more; the other one writes each over a source row and ends when it has as
    many rows as it has counted out. -/

namespace JsonPipe

variable {α β : Type}

/-- One wheel for each list, set to one of the places in it. -/
inductive Wheels : List (List α) → Type
  | nil : Wheels []
  | cons {xs : List α} {lists : List (List α)} (place : Fin xs.length) (more : Wheels lists) :
      Wheels (xs :: lists)

/-- How many choices there are: the product of the lengths. -/
def volume : List (List α) → Nat
  | [] => 1
  | xs :: lists => xs.length * volume lists

namespace Wheels

variable {lists : List (List α)}

/-- The elements that the wheels are set to. -/
def row : {lists : List (List α)} → Wheels lists → List α
  | _, .nil => []
  | xs :: _, .cons place more => xs.get place :: more.row

/-- Turns the last wheel on, and every wheel in front of one that comes round. Tells if any wheel
    has advanced. -/
def turn : {lists : List (List α)} → Wheels lists → Bool × Wheels lists
  | _, .nil => (false, .nil)
  | xs :: _, .cons place more =>
    match more.turn with
    | (true, more) => (true, .cons place more)
    | (false, more) =>
      if h : place + 1 < xs.length then (true, .cons ⟨place + 1, h⟩ more)
      else (false, .cons ⟨0, place.pos⟩ more)

/-- How many settings come before this one. -/
def number : {lists : List (List α)} → Wheels lists → Nat
  | _, .nil => 0
  | _ :: lists, .cons place more => place * volume lists + more.number

theorem number_lt (w : Wheels lists) : w.number < volume lists := by
  induction w with
  | nil => exact Nat.one_pos
  | @cons xs lists place more ih =>
    have hplace : (place + 1) * volume lists ≤ xs.length * volume lists :=
      Nat.mul_le_mul_right _ place.isLt
    rw [volume, number]
    rw [Nat.add_mul] at hplace
    omega

/-- One turn counts one further, until all wheels come round. -/
theorem number_turn (w : Wheels lists) :
    (w.turn.1 = true ∧ w.turn.2.number = w.number + 1) ∨
      (w.turn.1 = false ∧ w.turn.2.number = 0 ∧ w.number + 1 = volume lists) := by
  induction w with
  | nil => exact .inr ⟨rfl, rfl, rfl⟩
  | @cons xs lists place more ih =>
    rw [turn]
    generalize more.turn = turned at ih
    obtain ⟨advanced, next⟩ := turned
    rcases ih with ⟨rfl, hnumber⟩ | ⟨rfl, hzero, hround⟩
    · left
      refine ⟨rfl, ?_⟩
      show place * volume lists + next.number = place * volume lists + more.number + 1
      rw [hnumber, Nat.add_assoc]
    · have hcarry : place * volume lists + more.number + 1 = (place + 1) * volume lists := by
        rw [Nat.add_mul]
        omega
      by_cases h : place + 1 < xs.length
      · left
        simp only [dif_pos h, number, hzero]
        exact ⟨trivial, hcarry.symm⟩
      · right
        have hlast : place + 1 = xs.length := by
          have := place.isLt
          omega
        simp only [dif_neg h, number, hzero, volume]
        exact ⟨trivial, by omega, by rw [hcarry, hlast]⟩

theorem number_of_advanced {w : Wheels lists} (h : w.turn.1 = true) :
    w.turn.2.number = w.number + 1 := by
  rcases w.number_turn with ⟨-, hnumber⟩ | ⟨hround, -⟩
  · exact hnumber
  · rw [hround] at h
    cases h

/-- After a turn that advances fewer settings are left. -/
theorem left_turn_lt {w : Wheels lists} (h : w.turn.1 = true) :
    volume lists - w.turn.2.number < volume lists - w.number := by
  have hlt := w.number_lt
  rw [number_of_advanced h]
  omega

/-- Calls `f` on every setting from this one on and adds the results to `out`. -/
def visit {m : Type → Type} [Monad m] (f : List α → m (List β)) (out : List β)
    (w : Wheels lists) : m (List β) := do
  let results ← f w.row
  if _ : w.turn.1 then visit f (out ++ results) w.turn.2 else return out ++ results
termination_by volume lists - w.number
decreasing_by exact left_turn_lt ‹_›

end Wheels

end JsonPipe
