import JsonPipe.Run.Host
import JsonPipe.Value.Plan

/-! Runs under watch.

    The outcome of a run shows its outputs and the failure it ends in. What was caught or dropped
    on the way leaves no trace in it. A run under watch shows these failures too: between the
    outputs stands every failure at the moment when it is raised, whatever becomes of it later.

    The rules are those of plain runs. A failure is raised by an operator, a selector or a
    constructor, by a name that is not bound, a path that cannot be assigned to, a function of the
    host, a closure that may not be entered, or by the continuation. Where a failure is only handed
    on, nothing is raised. -/

namespace JsonPipe

/-- What is seen of a run under watch. -/
inductive Watched (α : Type) where
  | done
  | fail (e : Failure)
  | next (a : α) (rest : Watched α)
  /-- A failure is raised; `rest` is what becomes of it. -/
  | raised (e : Failure) (rest : Watched α)

namespace Watched

variable {α β : Type}

/-- The same run without the watch. -/
def plain : Watched α → Outcome α
  | .done => .done
  | .fail e => .fail e
  | .next a rest => .next a fun _ => rest.plain
  | .raised _ rest => rest.plain

/-- All outputs, or the failure at the end. -/
def result (w : Watched α) : Except Failure (List α) := w.plain.collect

/-- The failures in the order in which they are raised. -/
def failures : Watched α → List Failure
  | .done | .fail _ => []
  | .next _ rest => rest.failures
  | .raised e rest => e :: rest.failures

/-- One output. -/
def one (a : α) : Watched α := .next a .done

/-- Several outputs. -/
def ofList : List α → Watched α
  | [] => .done
  | a :: as => .next a (ofList as)

/-- Raises a failure and ends in it. -/
def raise (e : Failure) : Watched α := .raised e (.fail e)

/-- One output, or a failure that is raised here. -/
def of : Except Failure α → Watched α
  | .ok a => one a
  | .error e => raise e

/-- The first run and, if it does not fail, the second. -/
def append (w more : Watched α) : Watched α :=
  match w with
  | .done => more
  | .fail e => .fail e
  | .next a rest => .next a (rest.append more)
  | .raised e rest => .raised e (rest.append more)

/-- Feeds every output to `f`. -/
def bind (w : Watched α) (f : α → Watched β) : Watched β :=
  match w with
  | .done => .done
  | .fail e => .fail e
  | .next a rest => (f a).append (rest.bind f)
  | .raised e rest => .raised e (rest.bind f)

/-- Goes on with `handler` in place of a failure that may be caught; any other failure passes and
    is disclosed once. -/
def intercept (handler : Failure → Watched α) : Watched α → Watched α
  | .done => .done
  | .fail e => if e.isCatchable then handler e else .fail e.disclose
  | .next a rest => .next a (rest.intercept handler)
  | .raised e rest => .raised e (rest.intercept handler)

/-- Runs to the end and goes on with all there is. -/
def settle (w : Watched α) (further : Except Failure (List α) → Watched β) : Watched β :=
  w.failures.foldr .raised (further w.result)

/-- All outputs as one list. -/
def collected (w : Watched α) : Watched (List α) :=
  w.settle fun
    | .ok as => one as
    | .error e => .fail e

/-- Runs `f` on the elements of a list one after the other and lists what it gives. -/
def forEach (f : α → Watched β) : List α → Watched (List β)
  | [] => one []
  | a :: as => (f a).bind fun b => (forEach f as).bind fun bs => one (b :: bs)

/-- Drops a failure that may be caught if the selector is optional. -/
def guarded (optional : Bool) (result : Except Failure α) (found : α → Watched β) : Watched β :=
  match result with
  | .ok a => found a
  | .error e => .raised e (if optional && e.isCatchable then .done else .fail e)

end Watched

/-- A way to call a function under watch. -/
abbrev WatchedCall := Function → Value → List Value → Watched (List Value)

namespace Watch

/-- What a slot may hold after a write, given what it holds before. -/
abbrev Fill := Value → Watched (List Value)

/-- Fills the slots of a plan one after the other and builds the documents. -/
def perform (fill : Fill) (plan : Assign.Plan) : Watched (List Value) :=
  (Watched.forEach fill plan.slots).bind fun candidates => .of (plan.build candidates)

/-- Writes the slices between all pairs of bounds, each into the target as it is. -/
def slices (fill : Fill) (op : AssignmentOp) (optional : Bool) (starts stops : List Value)
    (target : Value) : Watched (List Value) :=
  let row (a : Value) := Watched.forEach
    (fun b => perform fill (Assign.slicePlan op optional a b target)) stops
  (Watched.forEach (fun a => (row a).bind fun rows => .one rows.flatten) starts).bind fun rows =>
    .one rows.flatten

/-- What an assignment puts in place of a target, given the runs of its right side on the input and
    on the target. -/
def assigned (op : AssignmentOp) (onInput : Watched Value) (onTarget : Value → Watched Value)
    (target : Value) : Watched (List Value) :=
  match op with
  | .arithmetic op =>
    onInput.collected.bind fun values => Watched.forEach (fun v => .of (op.apply target v)) values
  | .update => (onTarget target).collected
  | .coalesce => if target.isNull then onInput.collected else .one [target]
  | .set => onInput.collected

mutual

/-- Runs a pipeline on an input. -/
def pipeline (call : WatchedCall) : List Instruction → Scope → Value → Watched Value
  | [], _, input => .one input
  | .define name body :: rest, scope, input =>
    (pipeline call body scope input).bind fun v => pipeline call rest (scope.bind name v) input
  | i :: rest, scope, input =>
    (instruction call i scope input).bind fun v => pipeline call rest scope v
termination_by structural x => x

/-- Runs one instruction on an input. -/
def instruction (call : WatchedCall) : Instruction → Scope → Value → Watched Value
  | .null, _, _ => .one .null
  | .bool b, _, _ => .one (.bool b)
  | .number n, _, _ => .one (.number n)
  | .string s, _, _ => .one (.string s)
  | .interpolated parts after, scope, input =>
    (texts call parts scope input).bind fun candidates =>
      .ofList ((product candidates).map fun row => .string (String.join row ++ after))
  | .variable name, scope, _ =>
    match scope.lookup name with
    | some v => .one v
    | none => .raise (.of (.undefinedVariable name))
  | .define _ body, scope, input => (pipeline call body scope input).bind fun _ => .one input
  | .function params body, scope, _ => .one (.function (.closure params body scope))
  | .access base path, scope, input =>
    (pipeline call base scope input).bind fun v => select call path scope input v none
  | .assign base path op value, scope, input =>
    (pipeline call base scope input).bind fun document =>
      (assign call path scope input op
        (assigned op (pipeline call value scope input) (pipeline call value scope))
        document).bind .ofList
  | .calculate base steps, scope, input =>
    (pipeline call base scope input).bind fun v => calculate call steps scope input v
  | .compare base steps, scope, input =>
    (pipeline call base scope input).bind fun v => compareSteps call steps scope input v
  | .branch arms otherwise, scope, input =>
    branches call arms scope input
      (match otherwise with
      | some p => pipeline call p scope input
      | none => .one input)
  | .and operands, scope, input => connective call false operands scope input
  | .or operands, scope, input => connective call true operands scope input
  | .coalesce operands, scope, input => coalesce call operands scope input
  | .negate, _, input => .of input.negate
  | .not, _, input => .one input.not
  | .attempt body handler, scope, input =>
    (pipeline call body scope input).intercept fun e => pipeline call handler scope e.payload
  | .array body, scope, input =>
    (pipeline call body scope input).collected.bind fun items => .one (.array items)
  | .object fields, scope, input =>
    (choices call fields scope input).bind fun candidates =>
      .ofList ((product candidates).map fun row => .object (Entries.ofList (row.filterMap id)))
  | .concat operands, scope, input => concat call operands scope input
  | .void, _, _ => .done
termination_by structural x => x

/-- The outputs of several operands, each as a list. -/
def operands (call : WatchedCall) : List (List Instruction) → Scope → Value →
    Watched (List (List Value))
  | [], _, _ => .one []
  | p :: rest, scope, input =>
    (pipeline call p scope input).collected.bind fun values =>
      (operands call rest scope input).bind fun lists => .one (values :: lists)
termination_by structural x => x

/-- The texts that each part of an interpolated string may have. -/
def texts (call : WatchedCall) : List (String × List Instruction) → Scope → Value →
    Watched (List (List String))
  | [], _, _ => .one []
  | (before, p) :: rest, scope, input =>
    (pipeline call p scope input).collected.bind fun values =>
      (texts call rest scope input).bind fun lists =>
        .one (values.map (fun v => before ++ v.text) :: lists)
termination_by structural x => x

/-- The entries that each field of an object constructor may have. -/
def choices (call : WatchedCall) : List (Field (List Instruction)) → Scope → Value →
    Watched (List (List (Option (String × Value))))
  | [], _, _ => .one []
  | ⟨key, value, optional⟩ :: rest, scope, input =>
    (pipeline call key scope input).collected.bind fun keys =>
      (pipeline call value scope input).collected.bind fun values =>
        (Watched.of (Run.fieldChoices optional keys values)).bind fun entries =>
          (choices call rest scope input).bind fun lists => .one (entries :: lists)
termination_by structural x => x

/-- Applies arithmetic steps to a value from left to right. -/
def calculate (call : WatchedCall) : List (ArithmeticOp × List Instruction) → Scope → Value →
    Value → Watched Value
  | [], _, _, left => .one left
  | (op, p) :: rest, scope, input, left =>
    (pipeline call p scope input).bind fun right =>
      (Watched.of (op.apply left right)).bind fun v => calculate call rest scope input v
termination_by structural x => x

/-- Applies comparison steps to a value from left to right. -/
def compareSteps (call : WatchedCall) : List (ComparisonOp × List Instruction) → Scope → Value →
    Value → Watched Value
  | [], _, _, left => .one left
  | (op, p) :: rest, scope, input, left =>
    (pipeline call p scope input).bind fun right =>
      compareSteps call rest scope input (.bool (op.apply left right))
termination_by structural x => x

/-- Runs the first arm whose condition holds, for each output of each condition. -/
def branches (call : WatchedCall) : List (List Instruction × List Instruction) → Scope → Value →
    Watched Value → Watched Value
  | [], _, _, otherwise => otherwise
  | (condition, body) :: rest, scope, input, otherwise =>
    (pipeline call condition scope input).bind fun c =>
      if c.isTruthy then pipeline call body scope input
      else branches call rest scope input otherwise
termination_by structural x => x

/-- Operands in order until one is decisive: `and` is decided by `false`, `or` by `true`. -/
def connective (call : WatchedCall) (decisive : Bool) : List (List Instruction) → Scope → Value →
    Watched Value
  | [], _, _ => .one (.bool !decisive)
  | p :: rest, scope, input =>
    (pipeline call p scope input).bind fun v =>
      if v.isTruthy == decisive then .one (.bool decisive)
      else connective call decisive rest scope input
termination_by structural x => x

/-- The outputs other than null of the first operand that has any and does not fail; the last
    operand is taken as it is. -/
def coalesce (call : WatchedCall) : List (List Instruction) → Scope → Value → Watched Value
  | [], _, _ => .one .null
  | [p], scope, input => pipeline call p scope input
  | p :: rest, scope, input =>
    (pipeline call p scope input).settle fun
      | .ok values =>
        match values.filter fun v => !v.isNull with
        | [] => coalesce call rest scope input
        | present => .ofList present
      | .error e => if e.isCatchable then coalesce call rest scope input else .fail e
termination_by structural x => x

/-- The outputs of all operands, one after the other. -/
def concat (call : WatchedCall) : List (List Instruction) → Scope → Value → Watched Value
  | [], _, _ => .done
  | p :: rest, scope, input =>
    (pipeline call p scope input).append (concat call rest scope input)
termination_by structural x => x

/-- Follows a path from a value. `parent` is what the value was selected from. -/
def select (call : WatchedCall) : List (Selector (List Instruction)) → Scope → Value → Value →
    Option Value → Watched Value
  | [], _, _, v, _ => .one v
  | .field key optional :: rest, scope, input, v, _ =>
    (pipeline call key scope input).bind fun k =>
      .guarded optional (v.field k) fun
        | some found => select call rest scope input found (some v)
        | none => if optional then .done else select call rest scope input .null (some v)
  | .iterate optional :: rest, scope, input, v, _ =>
    .guarded optional v.iterate fun items =>
      (Watched.ofList items).bind fun item => select call rest scope input item (some v)
  | .slice start stop optional :: rest, scope, input, v, _ =>
    (pipeline call start scope input).bind fun a =>
      (pipeline call stop scope input).bind fun b =>
        .guarded optional (v.slice a b) fun part => select call rest scope input part (some v)
  | .call args bound optional :: rest, scope, input, v, parent =>
    match v with
    | .function f =>
      (operands call args scope input).bind fun lists =>
        let receiver := if bound then parent.getD input else input
        (Watched.ofList (product lists)).bind fun row =>
          ((call f receiver row).bind .ofList).bind fun result =>
            select call rest scope input result (some v)
    | v => .raised (.of (.notCallable v.kind))
        (if optional then .done else .fail (.of (.notCallable v.kind)))
termination_by structural x => x

/-- Every document that a write along a path gives; `fill` gives the candidates at its end. -/
def assign (call : WatchedCall) : List (Selector (List Instruction)) → Scope → Value →
    AssignmentOp → Fill → Fill
  | [], _, _, _, fill, target => fill target
  | .field key optional :: rest, scope, input, op, fill, target =>
    (pipeline call key scope input).collected.bind fun ks =>
      perform (assign call rest scope input op fill) (Assign.keysPlan optional ks target)
  | .iterate optional :: rest, scope, input, op, fill, target =>
    perform (assign call rest scope input op fill) (Assign.eachPlan optional target)
  | .slice start stop optional :: rest, scope, input, op, fill, target =>
    (pipeline call start scope input).collected.bind fun starts =>
      (pipeline call stop scope input).collected.bind fun stops =>
        slices (assign call rest scope input op fill) op optional starts stops target
  | .call _ _ _ :: _, _, _, _, _, _ =>
    .raise (.of (.invalidAssignmentPath "a function call cannot be assigned to"))
termination_by structural x => x

end

/-! ### Calls -/

/-- A way to enter a closure under watch: parameters, body, scope, input, arguments. -/
abbrev Enter := List String → List Instruction → Scope → Value → List Value →
    Watched (List Value)

/-- The answer of a function of the host, given a way to enter closures. -/
def answer (enter : Enter) : Dialogue → Watched (List Value)
  | .answer r => .of r
  | .call params body scope input args => enter params body scope input args
  | .andThen first further =>
    (answer enter first).bind fun outputs => answer enter (further outputs)

/-- Calls a function, given a way to enter closures. -/
def invoke (host : Host) (enter : Enter) : WatchedCall
  | .closure params body scope, input, args => enter params body scope input args
  | .builtin b, input, args => answer enter (host b input args)

/-- Enters a closure while `left` more calls may be nested, out of `limit`. -/
def enter (host : Host) (limit : Nat) : Nat → Enter
  | 0, _, _, _, _, _ => .raise (.of (.stackOverflow limit))
  | left + 1, params, body, scope, input, args =>
    (pipeline (invoke host (enter host limit left)) body
      (scope.bindAll (Run.bindings params args)) input).collected

/-- Calls a function with at most `limit` closure calls inside one another. -/
def call (host : Host) (limit : Nat) : WatchedCall := invoke host (enter host limit limit)

end Watch

/-! ### Whole runs -/

namespace Host

variable (host : Host)

/-- Runs a pipeline on an input under watch. -/
def watch (limit : Nat) (p : Pipeline) (scope : Scope) (input : Value) : Watched Value :=
  Watch.pipeline (Watch.call host limit) p scope input

/-- Runs a pipeline on several inputs and hands each output to `next`, under watch. -/
def watchEach (limit : Nat) (p : Pipeline) (scope : Scope) (inputs : List Value)
    (next : Value → Except Failure (List Value)) : Watched Value :=
  (Watched.ofList inputs).bind fun input =>
    (host.watch limit p scope input).bind fun v => (Watched.of (next v)).bind .ofList

/-- Calls a function value under watch. -/
def watchCall (limit : Nat) (f input : Value) (args : List Value) : Watched Value :=
  match f with
  | .function f => (Watch.call host limit f input args).bind .ofList
  | v => .raise (.of (.notCallable v.kind))

end Host

end JsonPipe
