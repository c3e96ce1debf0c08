import JsonPipe.Proofs.Number.Decimal
import JsonPipe.Proofs.Source.Reading
import JsonPipe.Source.Literal

/-! Numerals: the ways to spell a number.

    A numeral has digits, perhaps more of them after a point, and perhaps an exponent. Whichever of
    these parts there are, it is read as the number nearest to the decimal that they stand for
    (`Spells.reads`). The digits of a decimal around a point, all of them in place, are a numeral
    for it, and so are one digit in front of the point and an exponent. The JSON text of a number is
    a sign and one of these, or the digits of an integer (`magnitudeText_spells`). -/

namespace JsonPipe

namespace Source

open Reader

/-! ### Taking characters -/

theorem takeWhile_takes (p : Char → Bool) (run : List Char) {rest : List Char}
    (hrun : ∀ x ∈ run, p x = true) (hrest : rest.head?.any p = false) :
    Takes Anywhere Anywhere (takeWhile p) (run ++ rest) run rest :=
  fun b _ => ⟨run.reverse ++ b, trivial, by rw [Reader.takeWhile, span_append run b hrun hrest]⟩

theorem take_takes (x : Char) (t : List Char) :
    Takes Anywhere Anywhere take (x :: t) (some x) t :=
  fun b _ => ⟨x :: b, trivial, rfl⟩

theorem takeOneOf_hit {set : String} {x : Char} (h : set.toList.contains x = true)
    (t : List Char) : Takes Anywhere Anywhere (takeOneOf set) (x :: t) (some x) t :=
  fun b _ => ⟨x :: b, trivial, by simp only [takeOneOf, h, if_true]⟩

theorem takeOneOf_miss {I : Cursor → Prop} {set : String} {t : List Char}
    (h : t.head?.any set.toList.contains = false) : Takes I I (takeOneOf set) t none t := by
  intro b hb
  refine ⟨b, hb, ?_⟩
  cases t with
  | nil => rfl
  | cons x t =>
    rw [List.head?_cons, Option.any_some] at h
    simp only [takeOneOf, h, Bool.false_eq_true, if_false]

theorem skipTrivia_takes {t : List Char} (hbreak : BreaksOff t) (ht : isTidy t = true) :
    Takes Anywhere Apart skipTrivia t () (stripped t) :=
  fun b _ => reads_skipTrivia ht b (.inr hbreak)

/-! ### Digits -/

theorem digitsValue_eq (ds : List Char) : digitsValue ds = Nat.ofDigitChars 10 ds 0 := by
  simp only [digitsValue, Nat.ofDigitChars_eq_foldl, Nat.mul_comm]

theorem isDigit_digitChars (n : Nat) : ∀ x ∈ Decimal.digitChars n, x.isDigit = true :=
  fun _ hx => Nat.isDigit_of_mem_toDigits (by decide) (by decide) hx

theorem digitsValue_digitChars (n : Nat) : digitsValue (Decimal.digitChars n) = n := by
  rw [digitsValue_eq]
  exact Nat.ofDigitChars_ten_toDigits

/-- The digits of a decimal and the zeros that fill it up to the point have its value. -/
theorem positional_value (d : Decimal) :
    Decimal.toNumber ⟨digitsValue (d.positional.1 ++ d.positional.2), -d.positional.2.length⟩ =
      d.toNumber := by
  have hdigits : Nat.ofDigitChars 10 (Decimal.digitChars d.digits) 0 = d.digits :=
    Nat.ofDigitChars_ten_toDigits
  rw [digitsValue_eq, Decimal.positional]
  split
  · next hexp =>
    rw [List.append_nil, Nat.ofDigitChars_append, hdigits, Nat.ofDigitChars_replicate_zero,
      Nat.mul_comm]
    have hshift := Decimal.toNumber_shiftBy d.digits d.exponent.toNat 0
    have hcast : (0 : Int) + d.exponent.toNat = d.exponent := by omega
    rw [hcast] at hshift
    exact hshift
  · next hexp =>
    split
    · next hplaces =>
      rw [List.take_append_drop, hdigits, List.length_drop]
      congr 2
      omega
    · next hplaces =>
      rw [List.singleton_append, Nat.ofDigitChars_cons, Nat.ofDigitChars_append,
        Nat.ofDigitChars_replicate_zero, List.length_append, List.length_replicate]
      simp only [Char.reduceToNat, Nat.sub_self, Nat.mul_zero, Nat.add_zero, hdigits]
      congr 2
      omega

theorem isDigit_positional (d : Decimal) :
    (∀ x ∈ d.positional.1, x.isDigit = true) ∧ ∀ x ∈ d.positional.2, x.isDigit = true := by
  have hdigits := isDigit_digitChars d.digits
  have hzeros : ∀ n, ∀ x ∈ List.replicate n '0', x.isDigit = true := by
    intro n x hx
    rw [List.eq_of_mem_replicate hx]
    rfl
  rw [Decimal.positional]
  split
  · exact ⟨fun x hx => (List.mem_append.1 hx).elim (hdigits x) (hzeros _ x), by simp⟩
  · split
    · exact ⟨fun x hx => hdigits x (List.mem_of_mem_take hx),
        fun x hx => hdigits x (List.mem_of_mem_drop hx)⟩
    · exact ⟨by simp, fun x hx => (List.mem_append.1 hx).elim (hzeros _ x) (hdigits x)⟩

theorem positional_ne_nil (d : Decimal) : d.positional.1 ≠ [] := by
  have hdigits : Decimal.digitChars d.digits ≠ [] := Nat.toDigits_ne_nil
  rw [Decimal.positional]
  split
  · simp [hdigits]
  · split
    · next hplaces =>
      rw [ne_eq, List.take_eq_nil_iff, not_or]
      exact ⟨by omega, hdigits⟩
    · simp

/-- What is no character of a name is neither a digit nor the letter of an exponent. -/
theorem BreaksOff.not_any {t : List Char} (h : BreaksOff t) {p : Char → Bool}
    (hp : ∀ x, p x = true → isNameChar x = true) : t.head?.any p = false := by
  cases t with
  | nil => rfl
  | cons x t =>
    rw [BreaksOff, List.head?_cons, Option.any_some] at h
    rw [List.head?_cons, Option.any_some]
    cases hx : p x with
    | false => rfl
    | true => rw [hp x hx] at h; cases h

theorem isNameChar_of_isDigit (x : Char) (h : x.isDigit = true) : isNameChar x = true := by
  simp [isNameChar, Char.isAlphanum, h]

theorem exponent_miss {I : Cursor → Prop} {t : List Char} (h : BreaksOff t) :
    Takes I I exponent t 0 t := by
  have hletter : t.head?.any "eE".toList.contains = false := by
    refine h.not_any fun x hx => ?_
    have hx : x = 'e' ∨ x = 'E' := by simpa using hx
    rcases hx with rfl | rfl <;> rfl
  exact (takeOneOf_miss hletter).bind (takes_pure _)

/-! ### Numerals -/

/-- The parts of a number in a text. -/
structure Numeral where
  whole : List Char
  /-- The digits after the point, if there is a point. -/
  fraction : Option (List Char)
  power : Option Int
  whole_ne_nil : whole ≠ []
  isDigit_whole : ∀ x ∈ whole, x.isDigit = true
  isDigit_fraction : ∀ x ∈ fraction.getD [], x.isDigit = true

namespace Numeral

/-- The digits of a fraction, with the point in front of them. -/
def pointText : Option (List Char) → List Char
  | none => []
  | some ds => '.' :: ds

/-- The letter of an exponent, its sign and its digits. -/
def powerText : Option Int → List Char
  | none => []
  | some e => 'e' :: (if e < 0 then '-' else '+') :: Decimal.digitChars e.natAbs

/-- The numeral as a text. -/
def text (n : Numeral) : List Char := n.whole ++ (pointText n.fraction ++ powerText n.power)

/-- The decimal that a numeral stands for. -/
def value (n : Numeral) : Decimal :=
  ⟨digitsValue (n.whole ++ n.fraction.getD []), n.power.getD 0 - (n.fraction.getD []).length⟩

end Numeral

/-- The text is a numeral for the number. -/
def Spells (t : List Char) (x : Number) : Prop :=
  ∃ n : Numeral, t = n.text ∧ n.value.toNumber = x

/-- A numeral starts with a digit. -/
theorem Spells.cons {t : List Char} {x : Number} (h : Spells t x) :
    ∃ c cs, t = c :: cs ∧ c.isDigit = true := by
  obtain ⟨n, rfl, -⟩ := h
  cases hwhole : n.whole with
  | nil => exact absurd hwhole n.whole_ne_nil
  | cons c cs =>
    refine ⟨c, cs ++ (Numeral.pointText n.fraction ++ Numeral.powerText n.power), ?_, ?_⟩
    · rw [Numeral.text, hwhole, List.cons_append]
    · exact n.isDigit_whole c (by rw [hwhole]; exact List.mem_cons_self)

section Reading

variable {rest : List Char} (hbreak : BreaksOff rest)
include hbreak

/-- An exponent is read back with its sign. -/
theorem powerText_takes (e : Option Int) :
    Takes Anywhere Anywhere exponent (Numeral.powerText e ++ rest) (e.getD 0) rest := by
  cases e with
  | none => exact exponent_miss hbreak
  | some e =>
    have hne : (Decimal.digitChars e.natAbs).isEmpty = false :=
      List.isEmpty_eq_false_iff.2 Nat.toDigits_ne_nil
    have hdigit := hbreak.not_any isNameChar_of_isDigit
    have hsign : ∀ sign : Char, "+-".toList.contains sign = true →
        (if some sign = some '-' then -(e.natAbs : Int) else e.natAbs) = e →
        Takes Anywhere Anywhere exponent
          ('e' :: sign :: (Decimal.digitChars e.natAbs ++ rest)) e rest := by
      intro sign hsign he
      refine (takeOneOf_hit (by decide) _).bind ((takeOneOf_hit hsign _).bind ?_)
      refine (takeWhile_takes _ _ (isDigit_digitChars _) hdigit).bind ?_
      simp only [hne, digitsValue_digitChars, he, Bool.false_eq_true, if_false]
      exact takes_pure e
    rw [Numeral.powerText, Option.getD_some]
    split
    · exact hsign '-' rfl (by rw [if_pos rfl]; omega)
    · exact hsign '+' rfl (by rw [if_neg (by decide)]; omega)

/-- A numeral is read as the number that it spells. -/
theorem Spells.reads {t : List Char} {x : Number} (h : Spells t x)
    (hpoint : rest.head? ≠ some '.') (htidy : isTidy rest = true) :
    Reads number (t ++ rest) (some x) (stripped rest) := by
  obtain ⟨⟨whole, fraction, power, hne, hwhole, hfraction⟩, rfl, rfl⟩ := h
  have hend : Takes Anywhere Apart
      (do
        let power ← exponent
        skipTrivia
        return some (Decimal.toNumber ⟨digitsValue (whole ++ fraction.getD []),
          power - (fraction.getD []).length⟩))
      (Numeral.powerText power ++ rest)
      (some (Decimal.toNumber ⟨digitsValue (whole ++ fraction.getD []),
        power.getD 0 - (fraction.getD []).length⟩)) (stripped rest) :=
    (powerText_takes hbreak power).bind ((skipTrivia_takes hbreak htidy).bind (takes_pure _))
  have hdigit : (Numeral.powerText power ++ rest).head?.any Char.isDigit = false := by
    cases power with
    | none => exact hbreak.not_any isNameChar_of_isDigit
    | some e => rfl
  simp only [number, Numeral.text, Numeral.value, List.append_assoc]
  cases fraction with
  | none =>
    refine (takeWhile_takes _ _ hwhole hdigit).anywhere.bind ?_
    rw [if_neg (by simpa using hne)]
    refine (takeOneOf_miss ?_).bind ((takes_pure _).bind hend)
    cases power with
    | some e => rfl
    | none =>
      cases rest with
      | nil => rfl
      | cons x rest => simpa [Numeral.powerText] using hpoint
  | some ds =>
    refine (takeWhile_takes _ _ hwhole rfl).anywhere.bind ?_
    rw [if_neg (by simpa using hne)]
    refine (takeOneOf_hit (by decide) _).bind ?_
    exact (takeWhile_takes _ _ hfraction hdigit).bind hend

end Reading

end Source

/-! ### The forms of a decimal -/

namespace Decimal

open Source

/-- The digits of a decimal around a point, or without a point if nothing is after it, spell it. -/
theorem positional_spells (d : Decimal) (fraction : Option (List Char))
    (h : fraction.getD [] = d.positional.2) :
    Spells (d.positional.1 ++ Numeral.pointText fraction) d.toNumber := by
  obtain ⟨hwhole, hfraction⟩ := isDigit_positional d
  refine ⟨⟨d.positional.1, fraction, none, positional_ne_nil d, hwhole, ?_⟩, ?_, ?_⟩
  · rwa [h]
  · simp [Numeral.text, Numeral.powerText]
  · simp only [Numeral.value, h, Option.getD_none, Int.zero_sub, positional_value]

theorem plain_spells (d : Decimal) : Spells d.plain d.toNumber := by
  rw [plain]
  split
  · next whole h =>
    have hspells := d.positional_spells none (by rw [h]; rfl)
    simpa [h, Numeral.pointText] using hspells
  · next whole fraction _ h =>
    have hspells := d.positional_spells (some fraction) (by rw [h]; rfl)
    simpa [h, Numeral.pointText] using hspells

theorem pointed_spells (d : Decimal) : Spells d.pointed d.toNumber := by
  rw [pointed]
  split
  · next whole h =>
    -- the zero after the point is made up for by the exponent
    have hne := positional_ne_nil d
    have hwhole := (isDigit_positional d).1
    have hvalue := positional_value d
    rw [h] at hne hwhole hvalue
    have hzero : digitsValue (whole ++ ['0']) = digitsValue whole * 10 := by
      rw [digitsValue, List.foldl_append]
      rfl
    rw [List.append_nil] at hvalue
    refine ⟨⟨whole, some ['0'], none, hne, hwhole, by simp⟩, ?_, ?_⟩
    · simp [Numeral.text, Numeral.pointText, Numeral.powerText]
    rw [← hvalue]
    simp only [Numeral.value, Option.getD_some, Option.getD_none, hzero]
    exact toNumber_shift _ _
  · next whole fraction _ h =>
    have hspells := d.positional_spells (some fraction) (by rw [h]; rfl)
    simpa [h, Numeral.pointText] using hspells

/-- One digit, the others after a point and an exponent spell the decimal that they come from. -/
theorem scientific_spells (d : Decimal) : Spells d.scientific d.toNumber := by
  have hvalue := digitsValue_digitChars d.digits
  have hdigits := isDigit_digitChars d.digits
  have hleading : d.leading = d.exponent + (digitChars d.digits).length - 1 := rfl
  rw [scientific]
  cases hds : digitChars d.digits with
  | nil => exact absurd hds Nat.toDigits_ne_nil
  | cons c more =>
    rw [hds] at hvalue hdigits hleading
    rw [List.length_cons] at hleading
    have hone : ∀ x ∈ [c], x.isDigit = true := by simpa using hdigits c List.mem_cons_self
    have hmore : ∀ x ∈ more, x.isDigit = true :=
      fun x hx => hdigits x (List.mem_cons_of_mem _ hx)
    have hdecimal : (⟨digitsValue (c :: more), d.leading - more.length⟩ : Decimal) = d := by
      rw [hvalue, hleading]
      congr 1
      omega
    cases more with
    | nil =>
      exact ⟨⟨[c], none, some d.leading, by simp, hone, by simp⟩, rfl,
        congrArg toNumber hdecimal⟩
    | cons x more =>
      exact ⟨⟨[c], some (x :: more), some d.leading, by simp, hone, hmore⟩, rfl,
        congrArg toNumber hdecimal⟩

end Decimal

/-! ### The JSON text of a number -/

namespace Number

open Source

/-- A whole number is read from its digits. -/
theorem toNumber_whole {m : Magnitude} (h : m.units % unitsPerOne = 0) :
    Decimal.toNumber ⟨m.units / unitsPerOne, 0⟩ = .finite false m := by
  have hunits : m.units / unitsPerOne * unitsPerOne = m.units :=
    Nat.div_mul_cancel (Nat.dvd_of_mod_eq_zero h)
  have hone : pow10 0 = 1 := rfl
  simp only [Decimal.toNumber]
  split
  · next hzero =>
    rw [hzero, Nat.zero_mul] at hunits
    cases m
    simp_all [zero, Magnitude.zero]
  · rw [if_neg (by decide), if_neg (by omega), if_pos (Int.le_refl 0), Int.toNat_zero, hone,
      Nat.mul_one, hunits]
    have hexact := nearest_exact false m Nat.one_pos
    rwa [Nat.mul_one] at hexact

/-- The JSON text of a number without its sign. -/
def magnitudeText (m : Magnitude) : List Char :=
  if m.units % unitsPerOne = 0 ∧ ((m.units / unitsPerOne : Nat) : Int) ≤ maxSafeInteger then
    Decimal.digitChars (m.units / unitsPerOne)
  else fractionText m

/-- A number is written as an integer if it is whole and small, whatever its sign. -/
theorem jsonInteger?_finite (negative : Bool) (m : Magnitude) :
    (Number.finite negative m).jsonInteger? =
      if m.units % unitsPerOne = 0 ∧ ((m.units / unitsPerOne : Nat) : Int) ≤ maxSafeInteger then
        some (if negative then -((m.units / unitsPerOne : Nat) : Int)
          else (m.units / unitsPerOne : Nat))
      else none := by
  have hrange : ∀ whole : Nat, (-maxSafeInteger ≤ (if negative then -(whole : Int) else whole) ∧
      (if negative then -(whole : Int) else whole) ≤ maxSafeInteger) ↔
        (whole : Int) ≤ maxSafeInteger := by
    intro whole
    have hmax : 0 ≤ maxSafeInteger := by decide
    cases negative <;> simp <;> omega
  rw [jsonInteger?, integer?, truncated?]
  by_cases hwhole : m.units % unitsPerOne = 0
  · simp only [hwhole, if_true, true_and, Option.filter_some, hrange, decide_eq_true_eq]
  · simp only [hwhole, if_false, false_and, Option.filter_none]

/-- The JSON text of a number has a sign if it is negative, and zero has none. -/
theorem jsonText_finite (negative : Bool) (m : Magnitude) :
    (Number.finite negative m).jsonText =
      signed (negative && decide (m.units ≠ 0)) (magnitudeText m) := by
  simp only [jsonText, jsonInteger?_finite, magnitudeText]
  by_cases h : m.units % unitsPerOne = 0 ∧ ((m.units / unitsPerOne : Nat) : Int) ≤ maxSafeInteger
  · have hzero : m.units / unitsPerOne = 0 ↔ m.units = 0 := by
      have hunits := Nat.div_mul_cancel (Nat.dvd_of_mod_eq_zero h.1)
      refine ⟨fun hdiv => ?_, fun hzero => by rw [hzero, Nat.zero_div]⟩
      rw [← hunits, hdiv, Nat.zero_mul]
    simp only [h, and_self, if_true, integerText]
    generalize m.units / unitsPerOne = whole at *
    have hsign : decide ((if negative then -(whole : Int) else whole) < 0) =
        (negative && decide (m.units ≠ 0)) := by
      cases negative <;> simp [Nat.pos_iff_ne_zero, hzero]
    have habs : (if negative then -(whole : Int) else whole).natAbs = whole := by
      cases negative <;> simp
    rw [hsign, habs]
  · have hzero : m.units ≠ 0 := by
      intro hzero
      refine h ⟨by rw [hzero, Nat.zero_mod], ?_⟩
      rw [hzero, Nat.zero_div]
      decide
    simp only [h, if_false, hzero, ne_eq, not_false_eq_true, decide_true, Bool.and_true]

/-- The JSON text of a number that is not negative is a numeral for it. -/
theorem magnitudeText_spells (m : Magnitude) : Spells (magnitudeText m) (.finite false m) := by
  have hdigits : (jsonDigits m).toNumber = .finite false m := by
    rw [jsonDigits, Decimal.toNumber_trim]
    exact Decimal.shortest_reads_back _ _
  rw [magnitudeText]
  split
  · next hwhole =>
    have hvalue : digitsValue (Decimal.digitChars (m.units / unitsPerOne) ++ []) =
        m.units / unitsPerOne := by rw [List.append_nil, digitsValue_digitChars]
    refine ⟨⟨Decimal.digitChars (m.units / unitsPerOne), none, none, Nat.toDigits_ne_nil,
      isDigit_digitChars _, by simp⟩, (List.append_nil _).symm, ?_⟩
    simp only [Numeral.value, Option.getD_none, hvalue]
    exact toNumber_whole hwhole.1
  · rw [fractionText, ← hdigits]
    split
    · exact (jsonDigits m).pointed_spells
    · exact (jsonDigits m).scientific_spells

end Number

end JsonPipe
