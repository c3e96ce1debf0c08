import JsonPipe.Failure
import JsonPipe.Value.Update

/-! Reading parts of values: fields, elements, all elements, slices.

    Indices and bounds are numbers without their fraction; negative ones count from the end. A
    field of null, or a key that an object lacks, is absent rather than a failure, while an index
    outside an array is a failure. Bounds of a slice are clamped and may be null, which leaves that
    end open. -/

namespace JsonPipe

/-- The largest index. -/
def maxIndex : Int := 9223372036854775807

/-- The index that a number stands for, saturating at the ends of a 64-bit word; NaN is zero. -/
def Number.toIndex (n : Number) : Int :=
  match n with
  | .nan => 0
  | .infinite negative => if negative then -maxIndex - 1 else maxIndex
  | .finite .. => max (-maxIndex - 1) (min maxIndex (n.truncated?.getD 0))

namespace Items

/-- The element at an index; a negative index counts from the end. -/
def get? (items : List Value) : Int → Option Value
  | .ofNat i => items[i]?
  | .negSucc i => if i < items.length then items[items.length - (i + 1)]? else none

end Items

namespace Value

/-- What stands under a key: nothing if an object lacks the key or the value is null. -/
def field : Value → Value → Except Failure (Option Value)
  | .object entries, .string name => .ok (Entries.get? name entries)
  | .array items, .number n =>
    match Items.get? items n.toIndex with
    | some v => .ok (some v)
    | none => .error (.of (.indexOutOfRange n.toIndex items.length))
  | .null, _ => .ok none
  | v, key => .error (.of (.typeMismatch v.kind key.kind))

/-- Elements of an array in order, values of an object in key order. -/
def iterate : Value → Except Failure (List Value)
  | .array items => .ok items
  | .object entries => .ok (Entries.values entries)
  | v => .error (.of (.notIterable v.kind))

/-- A bound of a slice of `target`, clamped to the length; null stands for the open end. -/
def sliceBound (target : Value) (length : Nat) (bound : Value) (openEnd : Nat) :
    Except Failure Nat :=
  match bound with
  | .null => .ok openEnd
  | .number n => .ok (min length (Items.resolve length n.toIndex).toNat)
  | v => .error (.of (.typeMismatch target.kind v.kind))

/-- The range that a slice of `target` covers, as its two ends. -/
def sliceRange (target : Value) (length : Nat) (start stop : Value) :
    Except Failure (Nat × Nat) := do
  let low ← sliceBound target length start 0
  let high ← sliceBound target length stop length
  return (low, max low high)

/-- The part of an array or text between two bounds; null has only itself. -/
def slice (target start stop : Value) : Except Failure Value :=
  match target with
  | .null => .ok .null
  | .array items => do
    let (i, j) ← sliceRange target items.length start stop
    return .array ((items.take j).drop i)
  | .string s => do
    let cs := s.toList
    let (i, j) ← sliceRange target cs.length start stop
    return .string (String.ofList ((cs.take j).drop i))
  | v => .error (.of (.notSliceable v.kind))

end Value

end JsonPipe
