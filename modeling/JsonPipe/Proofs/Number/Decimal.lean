import JsonPipe.Number.Text

/-! Different decimals for the same number.

    Shifting the point of a decimal and making up for it in the exponent does not change the number
    it is read as (`toNumber_shift`), although reading takes shortcuts for powers of ten that are
    far out of range: where one of the two decimals meets a shortcut and the other does not, both
    are beyond the largest number or below half of the least. So the digits that are written for a
    number, without zeros at their end, still read back as it. -/

namespace JsonPipe

namespace Magnitude

/-- Rounding sees a fraction, not its numerator and denominator. -/
theorem roundQuotient_scale (num den : Nat) {k : Nat} (hk : 0 < k) :
    roundQuotient (num * k) (den * k) = roundQuotient num den := by
  have hlow : 2 * (num % den * k) < den * k ↔ 2 * (num % den) < den := by
    rw [← Nat.mul_assoc]
    exact Nat.mul_lt_mul_right hk
  have hhigh : den * k < 2 * (num % den * k) ↔ den < 2 * (num % den) := by
    rw [← Nat.mul_assoc]
    exact Nat.mul_lt_mul_right hk
  simp only [roundQuotient, Nat.mul_div_mul_right _ _ hk, Nat.mul_mod_mul_right, hlow, hhigh]

theorem roundUnits_scale (num den : Nat) {k : Nat} (hk : 0 < k) :
    roundUnits (num * k) (den * k) = roundUnits num den := by
  simp only [roundUnits, Nat.mul_div_mul_right _ _ hk]
  rw [Nat.mul_right_comm, roundQuotient_scale _ _ hk]

/-- Rounding does not fall below a power of two. -/
theorem le_roundUnits {num k : Nat} (h : pow2 k ≤ num) (hk : 52 ≤ k) :
    pow2 k ≤ roundUnits num 1 := by
  have h0 : num ≠ 0 := Nat.ne_of_gt (Nat.lt_of_lt_of_le (pow2_pos k) h)
  have hlog : k ≤ num.log2 := (Nat.le_log2 h0).2 h
  have hself : pow2 num.log2 ≤ num := (Nat.le_log2 h0).1 (Nat.le_refl _)
  have hsplit : pow2 num.log2 = pow2 52 * pow2 (num.log2 - 52) := by
    rw [← pow2_add]
    congr 1
    omega
  have hquot : pow2 52 ≤ roundQuotient num (1 * pow2 (num.log2 - 52)) := by
    have hdiv : pow2 52 ≤ num / pow2 (num.log2 - 52) := by
      rw [Nat.le_div_iff_mul_le (pow2_pos _), ← hsplit]
      exact hself
    simp only [roundQuotient, Nat.one_mul]
    split
    · exact hdiv
    · split <;> omega
  calc pow2 k ≤ pow2 num.log2 := pow2_le hlog
    _ = pow2 52 * pow2 (num.log2 - 52) := hsplit
    _ ≤ roundQuotient num (1 * pow2 (num.log2 - 52)) * pow2 (num.log2 - 52) :=
      Nat.mul_le_mul_right _ hquot
    _ = roundUnits num 1 := by simp only [roundUnits, Nat.div_one]

/-- What is less than half rounds to nothing. -/
theorem roundUnits_eq_zero {num den : Nat} (h : 2 * num < den) : roundUnits num den = 0 := by
  have hdiv : num / den = 0 := Nat.div_eq_of_lt (by omega)
  have hlog : Nat.log2 0 = 0 := by decide
  have hone : pow2 0 = 1 := rfl
  have hmod : num % den = num := Nat.mod_eq_of_lt (by omega)
  simp only [roundUnits, hdiv, hlog, Nat.zero_sub, hone, Nat.mul_one, roundQuotient, hmod,
    if_pos h]

end Magnitude

namespace Number

theorem nearest_scale (negative : Bool) (num den : Nat) {k : Nat} (hk : 0 < k) :
    nearest negative (num * k) (den * k) = nearest negative num den := by
  simp only [nearest, Magnitude.roundUnits_scale _ _ hk]

theorem nearest_overflow (negative : Bool) {num : Nat} (h : overflowUnits ≤ num) :
    nearest negative num 1 = .infinite negative := by
  have hround := Magnitude.le_roundUnits h (by decide)
  rw [nearest]
  exact dif_neg (Nat.not_lt.2 hround)

theorem nearest_underflow {num den : Nat} (h : 2 * num < den) : nearest false num den = .zero := by
  have hround := Magnitude.roundUnits_eq_zero h
  have hbound : Magnitude.roundUnits num den < overflowUnits := by
    rw [hround]
    exact pow2_pos _
  simp only [nearest, zero]
  rw [dif_pos hbound]
  congr 1
  simp only [Magnitude.zero, hround]

end Number

theorem pow10_succ (k : Nat) : pow10 (k + 1) = pow10 k * 10 := Nat.pow_succ 10 k

theorem pow10_add (m n : Nat) : pow10 (m + n) = pow10 m * pow10 n := Nat.pow_add 10 m n

theorem pow10_le {m n : Nat} (h : m ≤ n) : pow10 m ≤ pow10 n := Nat.pow_le_pow_right (by decide) h

theorem pow2_le_pow10 (n : Nat) : pow2 n ≤ pow10 n := Nat.pow_le_pow_left (by decide) n

namespace Decimal

/-- A decimal beyond the shortcut for large exponents is beyond all numbers. -/
theorem overflow_of_exponent {n k : Nat} (hn : n ≠ 0) (hk : 400 ≤ k) :
    overflowUnits ≤ n * pow10 k * unitsPerOne := by
  have hten : pow2 1024 ≤ pow10 400 := by decide +kernel
  have hpow : pow10 k ≤ n * pow10 k := Nat.le_mul_of_pos_left _ (Nat.pos_of_ne_zero hn)
  rw [overflowUnits, unitsPerOne, pow2_add]
  exact Nat.mul_le_mul_right _ (Nat.le_trans hten (Nat.le_trans (pow10_le hk) hpow))

/-- A decimal before the shortcut for small exponents is below half of the least number. -/
theorem underflow_of_exponent {n k : Nat} (hk : 802 + n.log2 ≤ k) :
    2 * (n * 10 * unitsPerOne) < pow10 k := by
  have hn : n < pow2 1 * pow2 n.log2 := by
    rw [← pow2_add, Nat.add_comm]
    exact lt_pow2_log2 n
  have hbase : 2 * (pow2 1 * 10 * unitsPerOne) ≤ pow10 802 := by decide +kernel
  have hstrict : ∀ u, 0 < u → 2 * (n * 10 * u) < 2 * (pow2 1 * 10 * u) * pow2 n.log2 := by
    intro u hu
    have := Nat.mul_lt_mul_of_pos_right hn (show 0 < 2 * (10 * u) by omega)
    calc 2 * (n * 10 * u) = n * (2 * (10 * u)) := by ac_rfl
      _ < pow2 1 * pow2 n.log2 * (2 * (10 * u)) := this
      _ = 2 * (pow2 1 * 10 * u) * pow2 n.log2 := by ac_rfl
  calc 2 * (n * 10 * unitsPerOne)
      < 2 * (pow2 1 * 10 * unitsPerOne) * pow2 n.log2 := hstrict _ (pow2_pos _)
    _ ≤ pow10 802 * pow10 n.log2 := Nat.mul_le_mul hbase (pow2_le_pow10 _)
    _ = pow10 (802 + n.log2) := (pow10_add _ _).symm
    _ ≤ pow10 k := pow10_le hk

theorem log2_mul_ten {n : Nat} (h : n ≠ 0) : n.log2 + 3 ≤ (n * 10).log2 := by
  have h10 : n * 10 ≠ 0 := by omega
  have hself : pow2 n.log2 ≤ n := (Nat.le_log2 h).1 (Nat.le_refl _)
  refine (Nat.le_log2 h10).2 ?_
  have hpow : (2 : Nat) ^ (n.log2 + 3) = pow2 n.log2 * 8 := pow2_add _ 3
  rw [hpow]
  omega

/-- A zero at the end of the digits is as good as a larger exponent. -/
theorem toNumber_shift (n : Nat) (e : Int) :
    toNumber ⟨n * 10, e⟩ = toNumber ⟨n, e + 1⟩ := by
  by_cases hn : n = 0
  · simp [toNumber, hn]
  have h10 : n * 10 ≠ 0 := by omega
  have hlog := log2_mul_ten hn
  simp only [toNumber, if_neg hn, if_neg h10]
  by_cases hlarge : 400 < e
  · rw [if_pos hlarge, if_pos (by omega)]
  rw [if_neg hlarge]
  by_cases hedge : 400 < e + 1
  · -- Only the larger exponent takes the shortcut.
    rw [if_pos hedge, if_neg (by omega), if_pos (by omega)]
    refine Number.nearest_overflow false (overflow_of_exponent h10 ?_)
    omega
  rw [if_neg hedge]
  by_cases hsmall : e + 1 + n.log2 < -800
  · rw [if_pos hsmall]
    split
    · rfl
    · -- Only the smaller mantissa takes the shortcut.
      rw [if_neg (by omega)]
      refine Number.nearest_underflow (underflow_of_exponent ?_)
      omega
  rw [if_neg hsmall, if_neg (by omega)]
  by_cases hsign : 0 ≤ e
  · rw [if_pos hsign, if_pos (by omega)]
    have hexp : (e + 1).toNat = e.toNat + 1 := by omega
    rw [hexp, pow10_succ, Nat.mul_assoc n 10, Nat.mul_comm 10]
  · rw [if_neg hsign]
    have hexp : (-e).toNat = (-(e + 1)).toNat + 1 := by omega
    have hnum : n * 10 * unitsPerOne = n * unitsPerOne * 10 := Nat.mul_right_comm _ _ _
    rw [hexp, pow10_succ, hnum, Number.nearest_scale _ _ _ (by decide)]
    by_cases hone : 0 ≤ e + 1
    · have hzero : e + 1 = 0 := by omega
      rw [if_pos hone, hzero]
      simp [pow10]
    · rw [if_neg hone]

/-- Zeros at the end of the digits are as good as a larger exponent. -/
theorem toNumber_shiftBy (n k : Nat) (e : Int) :
    toNumber ⟨n * pow10 k, e⟩ = toNumber ⟨n, e + k⟩ := by
  induction k generalizing e with
  | zero => simp [pow10]
  | succ k ih =>
    rw [pow10_succ, ← Nat.mul_assoc, toNumber_shift, ih]
    congr 2
    omega

/-- Dropping zeros at the end of the digits keeps the number. -/
theorem toNumber_trim (d : Decimal) : d.trim.toNumber = d.toNumber := by
  fun_induction trim d with
  | case1 d h => simp [toNumber, h]
  | case2 d h hmod => rfl
  | case3 d h hmod ih =>
    rw [ih, ← toNumber_shift]
    congr 2
    omega

end Decimal

end JsonPipe
