import JsonPipe.Number.Basic

/-! The five operations and negation on numbers.

    Finite operands are combined exactly, as integers or as one fraction of integers, and the
    result is rounded once. The special cases are those of binary floating point: opposite
    infinities have no sum, zero times infinity no product, and a remainder takes the sign of its
    dividend. -/

namespace JsonPipe.Number

/-- The number with the opposite sign. -/
def neg : Number → Number
  | .nan => .nan
  | .infinite negative => .infinite (!negative)
  | .finite negative m => .finite (!negative) m

/-- The sum. Two zeros add up to negative zero only if both are negative. -/
def add : Number → Number → Number
  | .nan, _ => .nan
  | _, .nan => .nan
  | .infinite a, .infinite b => if a = b then .infinite a else .nan
  | .infinite a, _ => .infinite a
  | _, .infinite b => .infinite b
  | .finite a m, .finite b n =>
    let total := (Number.finite a m).key + (Number.finite b n).key
    if total = 0 then .finite (a && b) .zero
    else nearest (decide (total < 0)) total.natAbs 1

/-- The difference. -/
def sub (x y : Number) : Number := x.add y.neg

/-- The product. -/
def mul : Number → Number → Number
  | .nan, _ => .nan
  | _, .nan => .nan
  | .infinite a, .infinite b => .infinite (a != b)
  | .infinite a, .finite b n => if n.units = 0 then .nan else .infinite (a != b)
  | .finite a m, .infinite b => if m.units = 0 then .nan else .infinite (a != b)
  | .finite a m, .finite b n => nearest (a != b) (m.units * n.units) unitsPerOne

/-- The quotient; a nonzero number over zero is infinite. -/
def div : Number → Number → Number
  | .nan, _ => .nan
  | _, .nan => .nan
  | .infinite _, .infinite _ => .nan
  | .infinite a, .finite b _ => .infinite (a != b)
  | .finite a _, .infinite b => .finite (a != b) .zero
  | .finite a m, .finite b n =>
    if n.units = 0 then
      if m.units = 0 then .nan else .infinite (a != b)
    else nearest (a != b) (m.units * unitsPerOne) n.units

/-- The remainder of the quotient truncated toward zero, with the sign of the dividend. -/
def rem : Number → Number → Number
  | .nan, _ => .nan
  | _, .nan => .nan
  | .infinite _, _ => .nan
  | .finite a m, .infinite _ => .finite a m
  | .finite a m, .finite _ n => if n.units = 0 then .nan else nearest a (m.units % n.units) 1

/-- One of the two zeros. -/
def isZero : Number → Bool
  | .finite _ m => m.units == 0
  | _ => false

/-- Negating twice changes nothing, NaN and the zeros included. -/
theorem neg_neg (x : Number) : x.neg.neg = x := by
  cases x <;> simp [neg]

end JsonPipe.Number
