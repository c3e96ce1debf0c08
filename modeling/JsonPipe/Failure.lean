import JsonPipe.Value.Text

/-! Failures: why a run ended early.

    A failure has a cause and may carry a value. Most causes are recoverable: a program may
    intercept them. The others are fatal and always reach the caller: runaway recursion, misuse of
    the library, and a count that outgrows its word, which breaks the run off where it stands. A
    failure can also be enclosed, any number of times; an enclosed failure belongs to somebody else
    and is not caught until it is disclosed as often. -/

namespace JsonPipe

/-- Why a run failed. -/
inductive Cause where
  | divisionByZero
  | invalidOperand (op : String) (left right : Kind)
  | invalidUnaryOperand (op : String) (operand : Kind)
  | sizeLimitExceeded (limit : Nat)
  | typeMismatch (container key : Kind)
  | notIterable (kind : Kind)
  | notSliceable (kind : Kind)
  | indexOutOfRange (index : Int) (length : Nat)
  | invalidObjectKey (kind : Kind)
  | undefinedVariable (name : String)
  | notCallable (kind : Kind)
  /-- Raised by a program, with a value. -/
  | thrown (message : String)
  /-- Raised by a host function. -/
  | custom (message : String)
  | invalidAssignmentPath (reason : String)
  | stackOverflow (limit : Nat)
  | normalization (message : String)
  | internal (message : String)
  /-- A product of counts does not fit a word. No part of a program answers for it: the run just
      breaks off. -/
  | overflow
  deriving DecidableEq, Repr

namespace Cause

/-- The cause in words. -/
def message : Cause → String
  | .divisionByZero => "division by zero"
  | .invalidOperand op left right =>
    "cannot apply `" ++ op ++ "` to " ++ left.name ++ " and " ++ right.name
  | .invalidUnaryOperand op operand => "cannot apply `" ++ op ++ "` to " ++ operand.name
  | .sizeLimitExceeded limit => "result would exceed " ++ toString limit ++ " elements"
  | .typeMismatch container key =>
    "cannot access " ++ container.name ++ " with a " ++ key.name ++ " key"
  | .notIterable kind => "cannot iterate over " ++ kind.name
  | .notSliceable kind => "cannot slice " ++ kind.name
  | .indexOutOfRange index length =>
    "index " ++ toString index ++ " is out of range for array of length " ++ toString length
  | .invalidObjectKey kind => "object keys must be strings, got " ++ kind.name
  | .undefinedVariable name => "undefined variable: " ++ name
  | .notCallable kind => kind.name ++ " is not callable"
  | .thrown message => message
  | .custom message => message
  | .invalidAssignmentPath reason => "invalid assignment path: " ++ reason
  | .stackOverflow limit => "maximum call depth of " ++ toString limit ++ " exceeded"
  | .normalization message => message
  | .internal message => "internal error: " ++ message
  | .overflow => "attempt to multiply with overflow"

/-- The cause is beyond recovery. -/
def isFatal : Cause → Bool
  | .invalidAssignmentPath _ | .stackOverflow _ | .normalization _ | .internal _ | .overflow => true
  | _ => false

end Cause

/-- A failed run. -/
structure Failure where
  cause : Cause
  /-- The value that the failure carries, if it does. -/
  value : Option Value := none
  /-- How often the failure is enclosed. -/
  enclosures : Nat := 0

namespace Failure

instance : Inhabited Failure := ⟨⟨.divisionByZero, none, 0⟩⟩

/-- A failure that carries no value. -/
def of (cause : Cause) : Failure := ⟨cause, none, 0⟩

/-- A failure raised by a program with a value. -/
def thrown (value : Value) : Failure := ⟨.thrown value.text, some value, 0⟩

/-- The failure in words. -/
def message (e : Failure) : String := e.cause.message

/-- The failure is beyond recovery. -/
def isFatal (e : Failure) : Bool := e.cause.isFatal

/-- The failure belongs to somebody else. -/
def isEnclosed (e : Failure) : Bool := 0 < e.enclosures

/-- The failure may be intercepted here. -/
def isCatchable (e : Failure) : Bool := !e.isFatal && !e.isEnclosed

/-- What a handler gets as its input: the value of the failure, or else its message. -/
def payload (e : Failure) : Value := e.value.getD (.string e.message)

/-- The failure with a value for its handler. -/
def withValue (value : Value) (e : Failure) : Failure := { e with value := some value }

/-- Keeps the failure from being caught at the next place that would. -/
def enclose (e : Failure) : Failure := { e with enclosures := e.enclosures + 1 }

/-- Undoes one enclosure. -/
def disclose (e : Failure) : Failure := { e with enclosures := e.enclosures - 1 }

end Failure

end JsonPipe
