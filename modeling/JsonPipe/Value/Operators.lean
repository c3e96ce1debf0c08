import JsonPipe.Failure
import JsonPipe.Number.Arithmetic
import JsonPipe.Text.Split
import JsonPipe.Value.Update

/-! The operators on values.

    Addition adds numbers, joins texts and arrays and lays one object over another, and null is
    its identity. Subtraction removes elements from an array. Multiplication repeats a text and
    merges objects at every depth, division cuts a text into parts. Every other pair of types is a
    failure. -/

namespace JsonPipe

/-- The most bytes of a text, and the most elements of an array, that a number can ask for. -/
def maxCollectionLength : Nat := 16777216

namespace Value

/-- The failure of an operator on values of the wrong types. -/
def invalidOperand (op : String) (left right : Value) : Failure :=
  .of (.invalidOperand op left.kind right.kind)

/-- `left + right` -/
def add : Value → Value → Except Failure Value
  | .null, v => .ok v
  | v, .null => .ok v
  | .number x, .number y => .ok (.number (x.add y))
  | .string s, .string t => .ok (.string (s ++ t))
  | .array xs, .array ys => .ok (.array (xs ++ ys))
  | .object es, .object fs => .ok (.object (Entries.writeAll es fs))
  | v, w => .error (invalidOperand "+" v w)

/-- `left - right` -/
def subtract : Value → Value → Except Failure Value
  | .number x, .number y => .ok (.number (x.sub y))
  | .array xs, .array ys => .ok (.array (xs.filter fun x => !ys.any fun y => x.same y))
  | v, w => .error (invalidOperand "-" v w)

/-- A text `count` times over. -/
def repeated (text : String) (count : Nat) : String := count.repeat (fun t => t ++ text) ""

/-- A text repeated by a number: null below one, and a failure if the result would be too long. -/
def multiplyText (text : String) (n : Number) : Except Failure Value :=
  let tooLong := Except.error (Failure.of (.sizeLimitExceeded maxCollectionLength))
  if n ≠ .nan ∧ n.key < unitsPerOne then .ok .null
  else if text.isEmpty then .ok (.string "")
  else match n.truncated? with
    | some count =>
      if text.utf8ByteSize * count.toNat ≤ maxCollectionLength then
        .ok (.string (repeated text count.toNat))
      else tooLong
    | none => tooLong

mutual

/-- What stands after merging a value over what was there: objects are merged, anything else is
    replaced. -/
def mergeOver : Value → Option Value → Value
  | .object other, some (.object inner) =>
    .object (Entries.writeAll inner (mergedEntries other inner))
  | v, _ => v
termination_by structural x => x

/-- The entries on the right, each merged over what `left` has under its name. -/
def mergedEntries : List (String × Value) → List (String × Value) → List (String × Value)
  | [], _ => []
  | (k, v) :: rest, left => (k, mergeOver v (Entries.get? k left)) :: mergedEntries rest left
termination_by structural x => x

end

/-- Lays one object over another, at every depth where both hold objects. -/
def merge (left right : Entries Value) : Entries Value :=
  left.writeAll (mergedEntries right left)

/-- `left * right` -/
def multiply : Value → Value → Except Failure Value
  | .number x, .number y => .ok (.number (x.mul y))
  | .string s, .number n => multiplyText s n
  | .number n, .string s => multiplyText s n
  | .object es, .object fs => .ok (.object (merge es fs))
  | v, w => .error (invalidOperand "*" v w)

/-- `left / right` -/
def divide : Value → Value → Except Failure Value
  | .number x, .number y =>
    if y.isZero then .error (.of .divisionByZero) else .ok (.number (x.div y))
  | .string s, .string t => .ok (.array ((Text.split t s).map .string))
  | v, w => .error (invalidOperand "/" v w)

/-- `left % right` -/
def remainder : Value → Value → Except Failure Value
  | .number x, .number y =>
    if y.isZero then .error (.of .divisionByZero) else .ok (.number (x.rem y))
  | v, w => .error (invalidOperand "%" v w)

/-- `-value` -/
def negate : Value → Except Failure Value
  | .number x => .ok (.number x.neg)
  | v => .error (.of (.invalidUnaryOperand "-" v.kind))

/-- `not value` -/
def not (v : Value) : Value := .bool !v.isTruthy

end Value

/-- Applies an arithmetic operator. -/
def ArithmeticOp.apply : ArithmeticOp → Value → Value → Except Failure Value
  | .addition => Value.add
  | .subtraction => Value.subtract
  | .multiplication => Value.multiply
  | .division => Value.divide
  | .remainder => Value.remainder

/-- Applies a comparison operator. -/
def ComparisonOp.apply (op : ComparisonOp) (left right : Value) : Bool :=
  op.accepts (left.orderShared right).1

theorem ComparisonOp.apply_eq (op : ComparisonOp) (left right : Value) :
    op.apply left right = op.accepts (left.order right) := by
  rw [apply, (left.orderShared right).2]

end JsonPipe
