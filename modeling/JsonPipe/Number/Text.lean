import JsonPipe.Number.Decimal

/-! The two texts of a number.

    The display text writes every digit in place, however large or small the number is, and has
    words for NaN and the infinities. The JSON text writes whole numbers up to `2^53 - 1` as
    integers, other numbers with a point while the first digit stands between the fifth place after
    the point and the sixteenth before it, and with a signed exponent beyond; numbers that JSON
    lacks are `null`. Both take the shortest digits that read back. -/

namespace JsonPipe

namespace Decimal

/-- The digits before and after the point, with nothing after it if there is no fraction. -/
def positional (d : Decimal) : List Char × List Char :=
  let ds := digitChars d.digits
  let places := (-d.exponent).toNat
  if 0 ≤ d.exponent then (ds ++ List.replicate d.exponent.toNat '0', [])
  else if places < ds.length then (ds.take (ds.length - places), ds.drop (ds.length - places))
  else (['0'], List.replicate (places - ds.length) '0' ++ ds)

/-- Positional digits, with a point only in front of a fraction. -/
def plain (d : Decimal) : List Char :=
  match d.positional with
  | (whole, []) => whole
  | (whole, fraction) => whole ++ '.' :: fraction

/-- Positional digits with at least one digit after the point. -/
def pointed (d : Decimal) : List Char :=
  match d.positional with
  | (whole, []) => whole ++ ['.', '0']
  | (whole, fraction) => whole ++ '.' :: fraction

/-- The exponent of the first digit. -/
def leading (d : Decimal) : Int := d.exponent + (digitChars d.digits).length - 1

/-- One digit, the others after a point, and a signed exponent. -/
def scientific (d : Decimal) : List Char :=
  let exponent := (if d.leading < 0 then '-' else '+') :: digitChars d.leading.natAbs
  match digitChars d.digits with
  | [] => []
  | [c] => c :: 'e' :: exponent
  | c :: more => c :: '.' :: more ++ 'e' :: exponent

end Decimal

namespace Number

/-- A sign in front of the text of a negative number. -/
def signed (negative : Bool) (text : List Char) : List Char :=
  if negative then '-' :: text else text

/-- Of two display texts equally near, the larger is taken. -/
def displayDigits (m : Magnitude) : Decimal := (Decimal.shortest .up m).trim

/-- Of two JSON texts equally near, the one with an even last digit is taken. -/
def jsonDigits (m : Magnitude) : Decimal := (Decimal.shortest .even m).trim

/-- The display text. -/
def display : Number → String
  | .nan => "NaN"
  | .infinite negative => String.ofList (signed negative ['i', 'n', 'f'])
  | .finite negative m => String.ofList (signed negative (displayDigits m).plain)

/-- The largest whole number up to which all whole numbers are numbers. -/
def maxSafeInteger : Int := 9007199254740991

/-- The text of an integer. -/
def integerText (i : Int) : List Char :=
  signed (decide (i < 0)) (Decimal.digitChars i.natAbs)

/-- The JSON text of a magnitude that is not written as an integer. -/
def fractionText (m : Magnitude) : List Char :=
  let d := jsonDigits m
  if -5 ≤ d.leading ∧ d.leading ≤ 15 then d.pointed else d.scientific

/-- The integer as which a number is written in JSON. -/
def jsonInteger? (x : Number) : Option Int :=
  x.integer?.filter fun i => -maxSafeInteger ≤ i ∧ i ≤ maxSafeInteger

/-- The JSON text. -/
def jsonText (x : Number) : List Char :=
  match x with
  | .finite negative m =>
    match x.jsonInteger? with
    | some i => integerText i
    | none => signed negative (fractionText m)
  | _ => "null".toList

end Number

end JsonPipe
