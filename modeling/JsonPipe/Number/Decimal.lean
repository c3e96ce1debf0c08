import JsonPipe.Number.Basic

/-! Decimals and the numbers they stand for.

    A decimal is `digits * 10^exponent`. Reading one takes the nearest number; writing a number
    takes the decimal with the fewest digits that reads back as it, and of those the nearest one.
    The search tries `1` to `17` digits: on each decimal grid only the two neighbours of the number
    can be nearest, and each is accepted only if reading it gives the number back. Were every grid
    to fail, the exact expansion of the number is left, so that what is written always reads back
    (`shortest_reads_back`). -/

namespace JsonPipe

/-- The value `digits * 10^exponent`. -/
structure Decimal where
  digits : Nat
  exponent : Int
  deriving DecidableEq, Repr

namespace Decimal

/-- The number nearest to a decimal. A power of ten far outside the range of numbers is not
    multiplied out. -/
def toNumber (d : Decimal) : Number :=
  if d.digits = 0 then .zero
  else if 400 < d.exponent then .infinite false
  else if d.exponent + d.digits.log2 < -800 then .zero
  else if 0 ≤ d.exponent then .nearest false (d.digits * pow10 d.exponent.toNat * unitsPerOne) 1
  else .nearest false (d.digits * unitsPerOne) (pow10 (-d.exponent).toNat)

/-- Which of two equally near decimals is taken. -/
inductive Tie where
  | up
  | even
  deriving DecidableEq, Repr

/-- The digits of a whole number, most significant first. -/
def digitChars (n : Nat) : List Char := Nat.toDigits 10 n

/-- The exponent of the first significant digit of a nonzero magnitude. Scaled by `10^324` every
    such magnitude is at least one, so its whole part shows where the first digit stands. -/
def firstExponent (m : Magnitude) : Int :=
  (digitChars (m.units * pow10 324 / unitsPerOne)).length - 325

/-- The fraction `m / 10^place`, as numerator and denominator. -/
def scaled (m : Magnitude) (place : Int) : Nat × Nat :=
  if 0 ≤ place then (m.units, unitsPerOne * pow10 place.toNat)
  else (m.units * pow10 (-place).toNat, unitsPerOne)

/-- The neighbour of `m` among the multiples of `10^place` that reads back as `m`, the nearer one
    if both do. -/
def onGrid (tie : Tie) (m : Magnitude) (place : Int) : Option Decimal :=
  let (num, den) := scaled m place
  let low : Decimal := ⟨num / den, place⟩
  let high : Decimal := ⟨num / den + 1, place⟩
  let twice := 2 * (num % den)
  let lowReads := low.toNumber = .finite false m
  let highReads := high.toNumber = .finite false m
  let lowFirst := twice < den ∨ (twice = den ∧ tie = .even ∧ low.digits % 2 = 0)
  if lowReads ∧ (lowFirst ∨ ¬ highReads) then some low
  else if highReads then some high
  else none

/-- The exact expansion of a magnitude. -/
def exact (m : Magnitude) : Decimal := ⟨m.units * Nat.pow 5 unitExponent, -unitExponent⟩

/-- The first grid, by number of digits, with a neighbour that reads back. -/
def search (tie : Tie) (m : Magnitude) (first : Int) : List Nat → Decimal
  | [] => exact m
  | n :: more =>
    match onGrid tie m (first - n) with
    | some d => d
    | none => search tie m first more

/-- The decimal with the fewest digits that reads back as the given magnitude. -/
def shortest (tie : Tie) (m : Magnitude) : Decimal :=
  search tie m (firstExponent m) (List.range 17)

/-- The same value without zeros at the end of the digits; zero has the exponent zero. -/
def trim (d : Decimal) : Decimal :=
  if h : d.digits = 0 then ⟨0, 0⟩
  else if d.digits % 10 ≠ 0 then d
  else trim ⟨d.digits / 10, d.exponent + 1⟩
termination_by d.digits
decreasing_by omega

/-- A factor of `5^k` brings at least `k` binary digits. -/
theorem mul_pow5_ne_zero {n : Nat} (h : n ≠ 0) (k : Nat) :
    n * Nat.pow 5 k ≠ 0 ∧ k ≤ (n * Nat.pow 5 k).log2 := by
  have hpos : 0 < Nat.pow 5 k := Nat.pow_pos (by decide)
  have h0 := Nat.mul_ne_zero h (Nat.ne_of_gt hpos)
  refine ⟨h0, (Nat.le_log2 h0).2 ?_⟩
  exact Nat.le_trans (Nat.pow_le_pow_left (by decide) k)
    (Nat.le_mul_of_pos_left _ (Nat.pos_of_ne_zero h))

theorem mul_pow5_mul_pow2 (n k : Nat) : n * Nat.pow 5 k * pow2 k = n * pow10 k := by
  rw [Nat.mul_assoc, pow2, pow10, Nat.pow_eq, Nat.pow_eq, Nat.pow_eq, ← Nat.mul_pow]

/-- The exact expansion of a magnitude reads back as it. -/
theorem exact_reads_back (m : Magnitude) : (exact m).toNumber = .finite false m := by
  by_cases h0 : m.units = 0
  · cases m
    simp_all [exact, toNumber, Number.zero, Magnitude.zero]
  · obtain ⟨h5, hlog⟩ := mul_pow5_ne_zero h0 unitExponent
    have hexp : (exact m).exponent = -(unitExponent : Int) := rfl
    have hdig : (exact m).digits = m.units * Nat.pow 5 unitExponent := rfl
    have hpos : 0 < unitExponent := by decide
    unfold toNumber
    rw [hdig, hexp, if_neg h5, if_neg (by omega), if_neg (by omega), if_neg (by omega),
      Int.neg_neg, Int.toNat_natCast, unitsPerOne, mul_pow5_mul_pow2]
    exact Number.nearest_exact _ _ (pow10_pos _)

theorem onGrid_reads_back {tie : Tie} {m : Magnitude} {place : Int} {d : Decimal}
    (h : onGrid tie m place = some d) : d.toNumber = .finite false m := by
  unfold onGrid at h
  simp only at h
  split at h
  · rename_i hl
    cases h
    exact hl.1
  · split at h
    · rename_i hh
      cases h
      exact hh
    · cases h

theorem search_reads_back (tie : Tie) (m : Magnitude) (first : Int) (ns : List Nat) :
    (search tie m first ns).toNumber = .finite false m := by
  induction ns with
  | nil => exact exact_reads_back m
  | cons n more ih =>
    unfold search
    split
    · rename_i h
      exact onGrid_reads_back h
    · exact ih

/-- Reading the shortest decimal of a magnitude gives the magnitude. -/
theorem shortest_reads_back (tie : Tie) (m : Magnitude) :
    (shortest tie m).toNumber = .finite false m :=
  search_reads_back tie m _ _

end Decimal

end JsonPipe
