import JsonPipe.Run.Feed

/-! Calling functions.

    Builtins call back into other functions only with fewer arguments, so a call of builtins is
    settled by recursion on the argument list. Closures run their body with the names of their
    parameters bound, and the number of closure calls inside one another is limited: the recursion
    is on the number of calls that are left. A run therefore always ends. -/

namespace JsonPipe

namespace Run

/-- A way to enter a closure: parameters, body, scope, input, arguments. -/
abbrev Enter := List String → List Instruction → Scope → Value → List Value →
    Except Failure (List Value)

/-- The first argument, or else the input. -/
def subject (input : Value) : List Value → Value
  | [] => input
  | v :: _ => v

/-- The message of a builtin that fails: the first argument, or else a word of its own. -/
def complaint (word : String) : List Value → String
  | [] => word
  | v :: _ => v.text

/-- Calls a function, given a way to enter closures. -/
def invoke (enter : Enter) : Function → Value → List Value → Except Failure (List Value)
  | .closure params body scope, input, args => enter params body scope input args
  | .builtin .apply, input, .function f :: rest => invoke enter f input rest
  | .builtin .map, .array items, .function f :: rest =>
    return [.array (← items.mapM fun item => invoke enter f item rest).flatten]
  | .builtin .map, input, .function _ :: _ => .error (.of (.notIterable input.kind))
  | .builtin .apply, _, args => .error (.of (.notCallable (subject .null args).kind))
  | .builtin .map, _, args => .error (.of (.notCallable (subject .null args).kind))
  | .builtin .id, input, _ => .ok [input]
  | .builtin .args, _, args => .ok [.array args]
  | .builtin .spread, _, args => .ok args
  | .builtin .none, _, _ => .ok []
  | .builtin .type, input, args => .ok [.string (subject input args).kind.name]
  | .builtin .throw, input, args => .error (.thrown (subject input args))
  | .builtin .fail, _, args => .error (.of (.custom (complaint "failed" args)))
  | .builtin .fatal, _, args => .error (.of (.internal (complaint "broken" args)))
  | .builtin (.foreign _), _, _ => .error (.of (.notCallable .function))
termination_by structural _ _ args => args

/-- The parameters with their arguments; a missing argument is null, one too many is ignored. -/
def bindings : List String → List Value → List (String × Value)
  | [], _ => []
  | p :: ps, [] => (p, .null) :: bindings ps []
  | p :: ps, v :: vs => (p, v) :: bindings ps vs

/-- Enters a closure while `left` more calls may be nested, out of `limit`. -/
def enter (limit : Nat) : Nat → Enter
  | 0, _, _, _, _, _ => .error (.of (.stackOverflow limit))
  | left + 1, params, body, scope, input, args =>
    Feed.evaluate (invoke (enter limit left)) body (scope.bindAll (bindings params args)) input

/-- Calls a function with at most `limit` closure calls inside one another. -/
def call (limit : Nat) : Call := invoke (enter limit limit)

end Run

/-- How many closure calls may be nested unless something else is asked for. -/
def defaultCallDepth : Nat := 4096

/-- The outcome of a pipeline on an input with at most `limit` nested closure calls. -/
def Pipeline.run (limit : Nat) (p : Pipeline) (scope : Scope) (input : Value) : Outcome Value :=
  Run.pipeline (Run.call limit) p scope input

/-- Runs a pipeline on an input and hands each output to `next` as soon as it is there; the results
    are joined. -/
def Pipeline.deliver (limit : Nat) (p : Pipeline) (scope : Scope) (input : Value)
    (next : Value → Except Failure (List Value)) : Except Failure (List Value) :=
  Feed.deliver (Run.call limit) p scope input next

/-- All outputs of a pipeline, or its failure. -/
def Pipeline.evaluate (limit : Nat) (p : Pipeline) (scope : Scope) (input : Value) :
    Except Failure (List Value) :=
  Feed.evaluate (Run.call limit) p scope input

/-- Calls a function value; anything else cannot be called. -/
def Value.call (limit : Nat) (f input : Value) (args : List Value) : Except Failure (List Value) :=
  match f with
  | .function f => Run.call limit f input args
  | v => .error (.of (.notCallable v.kind))

end JsonPipe
