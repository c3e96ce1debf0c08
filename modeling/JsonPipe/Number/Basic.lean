/-! Double-precision numbers, exactly.

    Every finite double is a whole number of *units*, a unit being the least positive double
    `2^-1074`. A magnitude is such a count with at most 53 significant binary digits, and a number
    is NaN, a signed infinity or a signed magnitude. With this view addition and remainder are
    integer operations, a product or quotient is one fraction of integers, and every operation
    rounds exactly once, in `Number.nearest`: to the nearest representable count, a half going to
    the even neighbour, and to infinity from `2^1024` on. Nothing here depends on machine
    arithmetic, so laws of numbers are laws of natural numbers. -/

namespace JsonPipe

/-- `2^n` -/
def pow2 (n : Nat) : Nat := Nat.pow 2 n

/-- `10^n` -/
def pow10 (n : Nat) : Nat := Nat.pow 10 n

theorem pow2_pos (n : Nat) : 0 < pow2 n := Nat.two_pow_pos n

theorem pow10_pos (n : Nat) : 0 < pow10 n := Nat.pow_pos (by decide)

theorem pow2_add (m n : Nat) : pow2 (m + n) = pow2 m * pow2 n := Nat.pow_add 2 m n

theorem pow2_dvd {m n : Nat} (h : m ≤ n) : pow2 m ∣ pow2 n := Nat.pow_dvd_pow 2 h

theorem pow2_le {m n : Nat} (h : m ≤ n) : pow2 m ≤ pow2 n := Nat.pow_le_pow_right (by decide) h

theorem lt_pow2_log2 (n : Nat) : n < pow2 (n.log2 + 1) := Nat.lt_log2_self

theorem log2_pow2 (n : Nat) : (pow2 n).log2 = n := Nat.log2_two_pow

theorem log2_lt_of_lt {n k : Nat} (h0 : n ≠ 0) (h : n < pow2 k) : n.log2 < k :=
  (Nat.log2_lt h0).2 h

/-- The unit is two to the power of minus this. -/
def unitExponent : Nat := 1074

/-- The number of units in `1`. -/
def unitsPerOne : Nat := pow2 unitExponent

/-- The first count of units beyond the finite range, the double `2^1024`. -/
def overflowUnits : Nat := pow2 (1024 + unitExponent)

/-- The absolute value of a finite number, as a count of units. -/
structure Magnitude where
  /-- How many times `2^-1074`. -/
  units : Nat
  /-- There are at most 53 significant binary digits. -/
  fits : pow2 (units.log2 - 52) ∣ units
  /-- The count is below the overflow bound. -/
  bounded : units < overflowUnits
  deriving DecidableEq

namespace Magnitude

/-- The magnitude of both zeros. -/
def zero : Magnitude := ⟨0, Nat.dvd_zero _, pow2_pos _⟩

instance : Inhabited Magnitude := ⟨zero⟩

/-- The integer nearest to `num / den`, a half going to the even neighbour. -/
def roundQuotient (num den : Nat) : Nat :=
  let q := num / den
  let r := num % den
  if 2 * r < den then q else if den < 2 * r then q + 1 else q + q % 2

/-- The count with 53 significant binary digits nearest to `num / den`. -/
def roundUnits (num den : Nat) : Nat :=
  let s := (num / den).log2 - 52
  roundQuotient num (den * pow2 s) * pow2 s

theorem roundQuotient_le (num den : Nat) : roundQuotient num den ≤ num / den + 1 := by
  simp only [roundQuotient]
  split
  · omega
  · split <;> omega

/-- Scaling a fraction down by its own surplus binary digits leaves at most 53 of them. -/
theorem div_scale_lt (num den : Nat) :
    num / (den * pow2 ((num / den).log2 - 52)) < pow2 53 := by
  rw [← Nat.div_div_eq_div_mul, Nat.div_lt_iff_lt_mul (pow2_pos _), ← pow2_add]
  refine Nat.lt_of_lt_of_le (lt_pow2_log2 _) (pow2_le ?_)
  omega

/-- A multiple of `2^s` with a factor of at most `2^53` has at most 53 significant digits. -/
theorem scaled_fits {q : Nat} (s : Nat) (h : q ≤ pow2 53) :
    pow2 ((q * pow2 s).log2 - 52) ∣ q * pow2 s := by
  by_cases hq : q = pow2 53
  · rw [hq, ← pow2_add, log2_pow2]
    exact pow2_dvd (by omega)
  · by_cases h0 : q * pow2 s = 0
    · rw [h0]; exact Nat.dvd_zero _
    · refine Nat.dvd_trans (pow2_dvd ?_) (Nat.dvd_mul_left _ _)
      have hlt : q * pow2 s < pow2 (53 + s) := by
        rw [pow2_add]
        exact Nat.mul_lt_mul_of_pos_right (Nat.lt_of_le_of_ne h hq) (pow2_pos s)
      have := log2_lt_of_lt h0 hlt
      omega

theorem roundUnits_fits (num den : Nat) :
    pow2 ((roundUnits num den).log2 - 52) ∣ roundUnits num den := by
  refine scaled_fits _ (Nat.le_trans (roundQuotient_le _ _) ?_)
  exact div_scale_lt num den

/-- A fraction that is already a representable count is kept as it is. -/
theorem roundUnits_exact (m : Magnitude) {den : Nat} (h : 0 < den) :
    roundUnits (m.units * den) den = m.units := by
  obtain ⟨c, hc⟩ := m.fits
  have hmul : m.units * den = c * (den * pow2 (m.units.log2 - 52)) := by
    calc m.units * den = (pow2 (m.units.log2 - 52) * c) * den := by rw [← hc]
      _ = c * (den * pow2 (m.units.log2 - 52)) := by
        rw [Nat.mul_comm (pow2 _) c, Nat.mul_assoc, Nat.mul_comm (pow2 _) den]
  have hpos : 0 < den * pow2 (m.units.log2 - 52) := Nat.mul_pos h (pow2_pos _)
  simp only [roundUnits, Nat.mul_div_cancel _ h]
  have hq : roundQuotient (m.units * den) (den * pow2 (m.units.log2 - 52)) = c := by
    simp only [roundQuotient, hmul, Nat.mul_div_cancel _ hpos, Nat.mul_mod_left, Nat.mul_zero]
    rw [if_pos hpos]
  rw [hq, Nat.mul_comm, ← hc]

end Magnitude

/-- A double-precision number. -/
inductive Number where
  | nan
  | infinite (negative : Bool)
  | finite (negative : Bool) (magnitude : Magnitude)
  deriving DecidableEq

namespace Number

/-- Positive zero. -/
def zero : Number := .finite false .zero

instance : Inhabited Number := ⟨zero⟩

/-- The number nearest to `±num / den` units, a half going to the even neighbour. -/
def nearest (negative : Bool) (num den : Nat) : Number :=
  let k := Magnitude.roundUnits num den
  if h : k < overflowUnits then
    .finite negative ⟨k, Magnitude.roundUnits_fits num den, h⟩
  else
    .infinite negative

/-- Rounding keeps what is already a number. -/
theorem nearest_exact (negative : Bool) (m : Magnitude) {den : Nat} (h : 0 < den) :
    nearest negative (m.units * den) den = .finite negative m := by
  have hk := Magnitude.roundUnits_exact m h
  simp only [nearest]
  rw [dif_pos (by rw [hk]; exact m.bounded)]
  congr 1
  cases m
  simp only [Magnitude.mk.injEq]
  exact hk

/-- The number nearest to a whole number. -/
def ofNat (n : Nat) : Number := nearest false (n * unitsPerOne) 1

/-- The number nearest to an integer. -/
def ofInt (i : Int) : Number := nearest (decide (i < 0)) (i.natAbs * unitsPerOne) 1

/-- Neither NaN nor infinite. -/
def isFinite : Number → Bool
  | .finite .. => true
  | _ => false

/-- The number without its fraction, toward zero, if it is finite. -/
def truncated? : Number → Option Int
  | .finite negative m =>
    let whole := m.units / unitsPerOne
    some (if negative then -(whole : Int) else whole)
  | _ => none

/-- The integer that a finite number without fraction equals. -/
def integer? : Number → Option Int
  | .finite negative m =>
    if m.units % unitsPerOne = 0 then (Number.finite negative m).truncated? else none
  | _ => none

/-! ### Order -/

/-- The place of a number in the order of numbers: NaN comes first, both zeros share a place. -/
def key : Number → Int
  | .nan => -overflowUnits - 1
  | .infinite true => -overflowUnits
  | .infinite false => overflowUnits
  | .finite true m => -m.units
  | .finite false m => m.units

/-- The total order of numbers, in which NaN is least and equal to itself. -/
def order (x y : Number) : Ordering := compare x.key y.key

/-- Equality that tells NaN from everything, itself included, and does not see the sign of zero. -/
def sameValue (x y : Number) : Bool := x != .nan && y != .nan && x.key == y.key

/-! ### Bit patterns -/

/-- The sign as a bit pattern. -/
def signBit (negative : Bool) : Nat := if negative then pow2 63 else 0

/-- The 64-bit pattern of a number: sign, biased exponent, fraction. -/
def toBits : Number → Nat
  | .nan => 2047 * pow2 52 + pow2 51
  | .infinite negative => signBit negative + 2047 * pow2 52
  | .finite negative m =>
    let s := m.units.log2 - 52
    signBit negative + s * pow2 52 + m.units / pow2 s

/-- The number with a given 64-bit pattern. -/
def ofBits (bits : Nat) : Number :=
  let negative := decide (pow2 63 ≤ bits)
  let exponent := bits / pow2 52 % 2048
  let fraction := bits % pow2 52
  if exponent = 2047 then
    if fraction = 0 then .infinite negative else .nan
  else if exponent = 0 then nearest negative fraction 1
  else nearest negative ((pow2 52 + fraction) * pow2 (exponent - 1)) 1

end Number

end JsonPipe
