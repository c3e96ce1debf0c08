/-! The operators of the language and how they are written.

    Operators come in three families: arithmetic steps of a calculation, steps of a comparison, and
    the ways of an assignment. Multiplication, division and remainder bind tighter than addition
    and subtraction; the two equality tests bind looser than the four relational ones. -/

namespace JsonPipe

/-- Arithmetic operators. -/
inductive ArithmeticOp where
  | addition | subtraction | multiplication | division | remainder
  deriving DecidableEq, Repr

namespace ArithmeticOp

/-- All arithmetic operators. -/
def all : List ArithmeticOp := [.addition, .subtraction, .multiplication, .division, .remainder]

/-- How the operator is written. -/
def symbol : ArithmeticOp → String
  | .addition => "+"
  | .subtraction => "-"
  | .multiplication => "*"
  | .division => "/"
  | .remainder => "%"

/-- The operator binds tighter than addition and subtraction. -/
def isMultiplicative : ArithmeticOp → Bool
  | .addition | .subtraction => false
  | .multiplication | .division | .remainder => true

end ArithmeticOp

/-- Comparison operators. -/
inductive ComparisonOp where
  | equal | unequal | less | lessEqual | greater | greaterEqual
  deriving DecidableEq, Repr

namespace ComparisonOp

/-- All comparison operators. -/
def all : List ComparisonOp := [.equal, .unequal, .less, .lessEqual, .greater, .greaterEqual]

/-- How the operator is written. -/
def symbol : ComparisonOp → String
  | .equal => "=="
  | .unequal => "!="
  | .less => "<"
  | .lessEqual => "<="
  | .greater => ">"
  | .greaterEqual => ">="

/-- The operator asks for equality only and binds looser than the relational ones. -/
def isEquality : ComparisonOp → Bool
  | .equal | .unequal => true
  | .less | .lessEqual | .greater | .greaterEqual => false

/-- Whether the operator accepts two values that stand in the given order. -/
def accepts : ComparisonOp → Ordering → Bool
  | .equal, o => o == .eq
  | .unequal, o => o != .eq
  | .less, o => o == .lt
  | .lessEqual, o => o != .gt
  | .greater, o => o == .gt
  | .greaterEqual, o => o != .lt

end ComparisonOp

/-- Ways to assign: replace the target, compute from the target, combine target and value by an
    arithmetic operator, or fill in a target that is null. -/
inductive AssignmentOp where
  | set
  | update
  | arithmetic (op : ArithmeticOp)
  | coalesce
  deriving DecidableEq, Repr

namespace AssignmentOp

/-- All assignment operators. -/
def all : List AssignmentOp :=
  [.set, .update] ++ ArithmeticOp.all.map .arithmetic ++ [.coalesce]

/-- How the operator is written. -/
def symbol : AssignmentOp → String
  | .set => "="
  | .update => "|="
  | .arithmetic op => op.symbol ++ "="
  | .coalesce => "?="

/-- The arithmetic operator that the assignment applies, if it is one of those. -/
def arithmetic? : AssignmentOp → Option ArithmeticOp
  | .arithmetic op => some op
  | _ => none

end AssignmentOp

end JsonPipe
