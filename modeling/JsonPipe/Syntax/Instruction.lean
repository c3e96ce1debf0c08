import JsonPipe.Number.Basic
import JsonPipe.Syntax.Operator

/-! Instructions and pipelines.

    A pipeline is a list of instructions, each fed with the outputs of the one before; the empty
    pipeline passes its input on. Instructions hold operand pipelines, so the tree nests through
    lists. Selectors are the steps of an access or assignment path; they are generic in what their
    operands are. -/

namespace JsonPipe

/-- A step of a path, with operands of type `π`. An optional step drops what it cannot select. -/
inductive Selector (π : Type) where
  /-- `.name` or `[key]` -/
  | field (key : π) (optional : Bool)
  /-- `[]` -/
  | iterate (optional : Bool)
  /-- `[start:stop]` -/
  | slice (start stop : π) (optional : Bool)
  /-- `(args)`, or `->(args)` if the call is bound to what the function was selected from. -/
  | call (args : List π) (bound : Bool) (optional : Bool)
  deriving Repr

/-- A `key: value` entry of an object constructor; an optional one is left out if its value is
    null. -/
structure Field (π : Type) where
  key : π
  value : π
  optional : Bool
  deriving Repr

/-- One node of a program. -/
inductive Instruction where
  | null
  | bool (value : Bool)
  | number (value : Number)
  | string (value : String)
  /-- `"before\(pipe)…after"` -/
  | interpolated (parts : List (String × List Instruction)) (after : String)
  | variable (name : String)
  /-- Binds each output of the body for the rest of the pipeline and passes the input on. -/
  | define (name : String) (body : List Instruction)
  | function (params : List String) (body : List Instruction)
  | access (base : List Instruction) (path : List (Selector (List Instruction)))
  | assign (base : List Instruction) (path : List (Selector (List Instruction)))
      (op : AssignmentOp) (value : List Instruction)
  | calculate (base : List Instruction) (steps : List (ArithmeticOp × List Instruction))
  | compare (base : List Instruction) (steps : List (ComparisonOp × List Instruction))
  | branch (arms : List (List Instruction × List Instruction))
      (otherwise : Option (List Instruction))
  | and (operands : List (List Instruction))
  | or (operands : List (List Instruction))
  /-- `a ?? b` -/
  | coalesce (operands : List (List Instruction))
  | negate
  | not
  /-- `try body catch handler` -/
  | attempt (body handler : List Instruction)
  | array (body : List Instruction)
  | object (fields : List (Field (List Instruction)))
  /-- `a, b` -/
  | concat (operands : List (List Instruction))
  /-- No output at all. -/
  | void

/-- A list of instructions, each fed with the outputs of the one before. -/
abbrev Pipeline := List Instruction

instance : Inhabited Instruction := ⟨.null⟩

namespace Instruction

/-- What kind of instruction this is, in words. -/
def kindName : Instruction → String
  | .null | .bool _ => "constant"
  | .number _ => "number"
  | .string _ => "string"
  | .interpolated .. => "interpolated string"
  | .variable _ => "variable"
  | .define .. => "variable definition"
  | .function .. => "function definition"
  | .access .. => "access"
  | .assign .. => "assignment"
  | .calculate .. => "calculation"
  | .compare .. => "comparison"
  | .branch .. => "if"
  | .and _ => "and"
  | .or _ => "or"
  | .coalesce _ => "null coalescence"
  | .negate => "negation"
  | .not => "not"
  | .attempt .. => "try"
  | .array _ => "array constructor"
  | .object _ => "object constructor"
  | .concat _ => "output concat"
  | .void => "void"

end Instruction

namespace Selector

variable {π : Type}

/-- The step asks to drop what cannot be selected. -/
def optional : Selector π → Bool
  | .field _ o | .iterate o | .slice _ _ o | .call _ _ o => o

/-- The step is a function call. -/
def isCall : Selector π → Bool
  | .call .. => true
  | _ => false

end Selector

/-- A step to the field of the given name. -/
def Selector.named (name : String) (optional : Bool) : Selector Pipeline :=
  .field [.string name] optional

/-- A pipeline that is the void instruction alone. -/
def Pipeline.isVoid : Pipeline → Bool
  | [.void] => true
  | _ => false

/-! ### Equality of trees

    Two trees are the same if they differ in nothing but the sign of zero; a tree with a NaN is
    not even the same as itself. -/

mutual

/-- Equality of instructions, with numbers compared by value. -/
def Instruction.same : Instruction → Instruction → Bool
  | .null, .null => true
  | .bool a, .bool b => a == b
  | .number a, .number b => a.sameValue b
  | .string a, .string b => a == b
  | .interpolated ps a, .interpolated qs b => sameParts ps qs && a == b
  | .variable a, .variable b => a == b
  | .define a p, .define b q => a == b && samePipeline p q
  | .function a p, .function b q => a == b && samePipeline p q
  | .access p s, .access q t => samePipeline p q && samePath s t
  | .assign p s o v, .assign q t r w =>
    samePipeline p q && samePath s t && o == r && samePipeline v w
  | .calculate p s, .calculate q t => samePipeline p q && sameArithmetic s t
  | .compare p s, .compare q t => samePipeline p q && sameComparisons s t
  | .branch a none, .branch b none => sameArms a b
  | .branch a (some p), .branch b (some q) => sameArms a b && samePipeline p q
  | .and a, .and b => samePipelines a b
  | .or a, .or b => samePipelines a b
  | .coalesce a, .coalesce b => samePipelines a b
  | .negate, .negate => true
  | .not, .not => true
  | .attempt a p, .attempt b q => samePipeline a b && samePipeline p q
  | .array a, .array b => samePipeline a b
  | .object a, .object b => sameFields a b
  | .concat a, .concat b => samePipelines a b
  | .void, .void => true
  | _, _ => false
termination_by structural x => x

/-- Equality of pipelines. -/
def samePipeline : List Instruction → List Instruction → Bool
  | [], [] => true
  | a :: p, b :: q => a.same b && samePipeline p q
  | _, _ => false
termination_by structural x => x

/-- Equality of operand lists. -/
def samePipelines : List (List Instruction) → List (List Instruction) → Bool
  | [], [] => true
  | a :: p, b :: q => samePipeline a b && samePipelines p q
  | _, _ => false
termination_by structural x => x

/-- Equality of the parts of interpolated strings. -/
def sameParts : List (String × List Instruction) → List (String × List Instruction) → Bool
  | [], [] => true
  | (s, a) :: p, (t, b) :: q => s == t && samePipeline a b && sameParts p q
  | _, _ => false
termination_by structural x => x

/-- Equality of paths. -/
def samePath : List (Selector (List Instruction)) → List (Selector (List Instruction)) → Bool
  | [], [] => true
  | .field a o :: p, .field b r :: q => samePipeline a b && o == r && samePath p q
  | .iterate o :: p, .iterate r :: q => o == r && samePath p q
  | .slice a b o :: p, .slice c d r :: q =>
    samePipeline a c && samePipeline b d && o == r && samePath p q
  | .call a b o :: p, .call c d r :: q => samePipelines a c && b == d && o == r && samePath p q
  | _, _ => false
termination_by structural x => x

/-- Equality of the steps of calculations. -/
def sameArithmetic : List (ArithmeticOp × List Instruction) →
    List (ArithmeticOp × List Instruction) → Bool
  | [], [] => true
  | (s, a) :: p, (t, b) :: q => s == t && samePipeline a b && sameArithmetic p q
  | _, _ => false
termination_by structural x => x

/-- Equality of the steps of comparisons. -/
def sameComparisons : List (ComparisonOp × List Instruction) →
    List (ComparisonOp × List Instruction) → Bool
  | [], [] => true
  | (s, a) :: p, (t, b) :: q => s == t && samePipeline a b && sameComparisons p q
  | _, _ => false
termination_by structural x => x

/-- Equality of the arms of conditionals. -/
def sameArms : List (List Instruction × List Instruction) →
    List (List Instruction × List Instruction) → Bool
  | [], [] => true
  | (s, a) :: p, (t, b) :: q => samePipeline s t && samePipeline a b && sameArms p q
  | _, _ => false
termination_by structural x => x

/-- Equality of the fields of object constructors. -/
def sameFields : List (Field (List Instruction)) → List (Field (List Instruction)) → Bool
  | [], [] => true
  | ⟨j, a, o⟩ :: p, ⟨k, b, r⟩ :: q =>
    samePipeline j k && samePipeline a b && o == r && sameFields p q
  | _, _ => false
termination_by structural x => x

end

end JsonPipe
