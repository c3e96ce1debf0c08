import JsonPipe.Program

/-! Functions of a host.

    A program may be handed functions that are not written in its own language. What they do is up
    to the host. Such a function sees its input and its arguments, it can have functions called that
    it was handed, and it answers with outputs or with a failure. If a call fails, that failure is
    its answer.

    A function that comes to its answer has called others finitely often. So what it does is a tree
    with a branch for everything that a call may put out (`Dialogue`), and a host is a table of such
    trees. The builtins are one host (`Host.builtins`). -/

namespace JsonPipe

/-- What a function of a host does once it is called. -/
inductive Dialogue where
  | answer (r : Except Failure (List Value))
  /-- Has a closure called. -/
  | call (params : List String) (body : List Instruction) (scope : Scope) (input : Value)
      (args : List Value)
  /-- Goes on with the outputs of what is done first, if that does not fail. -/
  | andThen (first : Dialogue) (further : List Value → Dialogue)

namespace Dialogue

/-- The answer, given a way to enter closures. -/
def run (enter : Run.Enter) : Dialogue → Except Failure (List Value)
  | answer r => r
  | call params body scope input args => enter params body scope input args
  | andThen first further => do (further (← first.run enter)).run enter

/-- Does something for one value after the other and puts out all that this gives. -/
def each (f : Value → Dialogue) : List Value → Dialogue
  | [] => .answer (.ok [])
  | v :: vs => .andThen (f v) fun outputs =>
      .andThen (each f vs) fun more => .answer (.ok (outputs ++ more))

/-- Has a closure or a builtin called. -/
def invoke : Function → Value → List Value → Dialogue
  | .closure params body scope, input, args => .call params body scope input args
  | .builtin .apply, input, .function f :: rest => invoke f input rest
  | .builtin .map, .array items, .function f :: rest =>
    .andThen (each (fun item => invoke f item rest) items) fun outputs =>
      .answer (.ok [.array outputs])
  -- What is left calls nothing, so the way to enter closures does not matter.
  | f, input, args => .answer (Run.invoke (fun _ _ _ _ _ => .ok []) f input args)
termination_by structural _ _ args => args

end Dialogue

/-- What the functions of a host do, given their input and arguments. -/
abbrev Host := Builtin → Value → List Value → Dialogue

namespace Host

/-- The host that provides the builtins. -/
def builtins : Host := fun b => Dialogue.invoke (.builtin b)

variable (host : Host)

/-- Calls a function, given a way to enter closures. -/
def invoke (enter : Run.Enter) : Call
  | .closure params body scope, input, args => enter params body scope input args
  | .builtin b, input, args => (host b input args).run enter

/-- Enters a closure while `left` more calls may be nested, out of `limit`. -/
def enter (limit : Nat) : Nat → Run.Enter
  | 0, _, _, _, _, _ => .error (.of (.stackOverflow limit))
  | left + 1, params, body, scope, input, args =>
    Feed.evaluate (host.invoke (enter limit left)) body
      (scope.bindAll (Run.bindings params args)) input

/-- Calls a function with at most `limit` closure calls inside one another. -/
def call (limit : Nat) : Call := host.invoke (host.enter limit limit)

/-- All outputs of a pipeline, or its failure. -/
def evaluate (limit : Nat) (p : Pipeline) (scope : Scope) (input : Value) :
    Except Failure (List Value) :=
  Feed.evaluate (host.call limit) p scope input

/-- Runs a pipeline on several inputs and hands each output to `next`. -/
def execute (limit : Nat) (p : Pipeline) (scope : Scope) (inputs : List Value)
    (next : Value → Except Failure (List Value)) : Except Failure (List Value) :=
  return (← inputs.mapM fun v => Feed.deliver (host.call limit) p scope v next).flatten

/-- Calls a function value; anything else cannot be called. -/
def callValue (limit : Nat) (f input : Value) (args : List Value) : Except Failure (List Value) :=
  match f with
  | .function f => host.call limit f input args
  | v => .error (.of (.notCallable v.kind))

end Host

end JsonPipe
