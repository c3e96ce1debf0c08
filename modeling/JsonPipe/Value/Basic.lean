import JsonPipe.Entries
import JsonPipe.Syntax.Instruction

/-! Values: JSON data and functions.

    A function is a closure, which keeps the scope it was made in, or one of the builtins that a
    host may hand to a program. A scope is a list of frames, the innermost first; nothing ever
    changes a frame, so a closure sees the names as they were when it was made. -/

namespace JsonPipe

/-- Functions provided by the host. -/
inductive Builtin where
  /-- Passes the input on. -/
  | id
  /-- One array of all arguments. -/
  | args
  /-- Every argument as an output. -/
  | spread
  /-- No output. -/
  | none
  /-- The name of the type of the first argument, or of the input. -/
  | type
  /-- Fails with the first argument, or the input, as payload. -/
  | throw
  /-- Fails with a message. -/
  | fail
  /-- Fails beyond recovery. -/
  | fatal
  /-- Calls its first argument with the others. -/
  | apply
  /-- Calls its first argument on every element of the input. -/
  | map
  /-- Some other function, of which only the name is known here. -/
  | foreign (name : String)
  deriving DecidableEq, Repr

namespace Builtin

/-- The builtins that are provided here. -/
def all : List Builtin :=
  [.id, .args, .spread, .none, .type, .throw, .fail, .fatal, .apply, .map]

/-- The name under which a builtin is known. -/
def name : Builtin → String
  | .id => "id"
  | .args => "args"
  | .spread => "spread"
  | .none => "none"
  | .type => "type"
  | .throw => "throw"
  | .fail => "fail"
  | .fatal => "fatal"
  | .apply => "apply"
  | .map => "map"
  | .foreign name => name

/-- The builtin of a name. -/
def ofName? (name : String) : Option Builtin := all.find? (·.name == name)

end Builtin

mutual

/-- A value of a running program. -/
inductive Value where
  | null
  | bool (b : Bool)
  | number (n : Number)
  | string (s : String)
  | array (items : List Value)
  | object (entries : List (String × Value))
  | function (f : Function)

/-- A function value. -/
inductive Function where
  | closure (params : List String) (body : List Instruction)
      (scope : List (List (String × Value)))
  | builtin (b : Builtin)

end

instance : Inhabited Value := ⟨.null⟩

/-- The type of a value. -/
inductive Kind where
  | null | boolean | number | string | array | object | function
  deriving DecidableEq, Repr

namespace Kind

/-- The name of a type in messages. -/
def name : Kind → String
  | .null => "null"
  | .boolean => "boolean"
  | .number => "number"
  | .string => "string"
  | .array => "array"
  | .object => "object"
  | .function => "function"

/-- The place of a type in the order of values. -/
def rank : Kind → Nat
  | .null => 0
  | .boolean => 1
  | .number => 2
  | .string => 3
  | .array => 4
  | .object => 5
  | .function => 6

end Kind

namespace Value

/-- The type of a value. -/
def kind : Value → Kind
  | .null => .null
  | .bool _ => .boolean
  | .number _ => .number
  | .string _ => .string
  | .array _ => .array
  | .object _ => .object
  | .function _ => .function

/-- Everything but null and `false` counts as true. -/
def isTruthy : Value → Bool
  | .null | .bool false => false
  | _ => true

/-- The value is null. -/
def isNull : Value → Bool
  | .null => true
  | _ => false

/-- The string that the value is. -/
def string? : Value → Option String
  | .string s => some s
  | _ => none

/-- The number that the value is. -/
def number? : Value → Option Number
  | .number n => some n
  | _ => none

/-- The function that the value is. -/
def function? : Value → Option Function
  | .function f => some f
  | _ => none

end Value

/-! ### Scopes -/

/-- The names bound together at one place. -/
abbrev Frame := Entries Value

/-- The frames in sight, the innermost first. -/
abbrev Scope := List Frame

namespace Scope

/-- No names. -/
def empty : Scope := []

/-- A new frame with several names; of a repeated name the last value counts. Without names there
    is no new frame. -/
def bindAll (bindings : List (String × Value)) (scope : Scope) : Scope :=
  match Entries.ofList bindings with
  | [] => scope
  | frame => frame :: scope

/-- A new frame with one name. -/
def bind (name : String) (value : Value) (scope : Scope) : Scope := [(name, value)] :: scope

/-- The value of a name in the innermost frame that has it. -/
def lookup (name : String) : Scope → Option Value
  | [] => none
  | frame :: outer =>
    match Entries.get? name frame with
    | some v => some v
    | none => lookup name outer

/-- The number of frames. -/
def depth (scope : Scope) : Nat := scope.length

end Scope

end JsonPipe
