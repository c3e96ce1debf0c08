import JsonPipe.Program
import JsonPipe.Value.Plan

/-! Runs one step at a time.

    The rules of a run say what a pipeline comes to. Here they say what happens next. A task is
    something to be done: a pipeline to run, a path to follow, a function to call. One step puts
    what a task asks for in its place, hands what a task has come to over to what waits for it, or
    enters or leaves the body of a closure. A task does not know what it will come to, and nothing
    bounds the number of steps.

    The machine counts the closures it is inside of. It does not enter one when the count has come
    to the limit, and takes one off the count whenever a body has come to its end, failed or not.
    Between two requests the count is all that is left of it. -/

namespace JsonPipe

/-- What a task has come to: its outputs, and the failure after them if there is one. -/
structure Ending where
  outputs : List Value
  failure : Option Failure

namespace Ending

/-- What comes all at once. -/
def ofResult : Except Failure (List Value) → Ending
  | .ok vs => ⟨vs, none⟩
  | .error e => ⟨[], some e⟩

/-- All outputs, or the failure after them. -/
def result (e : Ending) : Except Failure (List Value) :=
  match e.failure with
  | none => .ok e.outputs
  | some f => .error f

end Ending

/-- Something to be done. Every output of a run is handed to `next`, and what is known once a part
    has come to its end goes to `further`. -/
inductive Task where
  | ended (e : Ending)
  | andThen (first : Task) (further : Ending → Task)
  | call (f : Function) (input : Value) (args : List Value)
  | pipeline (p : List Instruction) (scope : Scope) (input : Value) (next : Value → Task)
  | instruction (i : Instruction) (scope : Scope) (input : Value) (next : Value → Task)
  | operands (ps : List (List Instruction)) (scope : Scope) (input : Value)
      (further : List (List Value) → Task)
  | texts (parts : List (String × List Instruction)) (scope : Scope) (input : Value)
      (further : List (List String) → Task)
  | choices (fields : List (Field (List Instruction))) (scope : Scope) (input : Value)
      (further : List (List (Option (String × Value))) → Task)
  | calculate (steps : List (ArithmeticOp × List Instruction)) (scope : Scope) (input left : Value)
      (next : Value → Task)
  | compareSteps (steps : List (ComparisonOp × List Instruction)) (scope : Scope)
      (input left : Value) (next : Value → Task)
  | branches (arms : List (List Instruction × List Instruction)) (scope : Scope) (input : Value)
      (otherwise : Task) (next : Value → Task)
  | connective (decisive : Bool) (operands : List (List Instruction)) (scope : Scope)
      (input : Value) (next : Value → Task)
  | coalesce (operands : List (List Instruction)) (scope : Scope) (input : Value)
      (next : Value → Task)
  | concat (operands : List (List Instruction)) (scope : Scope) (input : Value)
      (next : Value → Task)
  | select (path : List (Selector (List Instruction))) (scope : Scope) (input v : Value)
      (parent : Option Value) (next : Value → Task)
  | assign (path : List (Selector (List Instruction))) (scope : Scope) (input : Value)
      (op : AssignmentOp) (fill : Value → Task) (target : Value)

namespace Task

variable {α : Type}

/-! ### Tasks put together -/

/-- Nothing to be done, and no output. -/
def done : Task := .ended ⟨[], none⟩

/-- Fails at once. -/
def fail (e : Failure) : Task := .ended ⟨[], some e⟩

/-- One output. -/
def one (v : Value) : Task := .ended ⟨[v], none⟩

/-- A result that is there. -/
def ofResult (r : Except Failure (List Value)) : Task := .ended (.ofResult r)

/-- Waits for all outputs and goes on with them, unless there is a failure. -/
def collect (t : Task) (further : List Value → Task) : Task :=
  .andThen t fun e =>
    match e.result with
    | .ok vs => further vs
    | .error f => fail f

/-- Waits for all outputs; a failure leaves none. -/
def collected (t : Task) : Task := .andThen t fun e => ofResult e.result

/-- Puts outputs in front of those of a task. -/
def after (outputs : List Value) (t : Task) : Task :=
  .andThen t fun e => .ended ⟨outputs ++ e.outputs, e.failure⟩

/-- The first task and, if it does not fail, the second. -/
def append (t more : Task) : Task :=
  .andThen t fun e =>
    match e.failure with
    | none => after e.outputs more
    | some _ => .ended e

/-- One task for each element of a list, one after the other. -/
def each (f : α → Task) : List α → Task
  | [] => done
  | a :: as => append (f a) (each f as)

/-- Collects the outputs of one task for each element of a list. -/
def gather (f : α → Task) : List α → (List (List Value) → Task) → Task
  | [], further => further []
  | a :: as, further => collect (f a) fun vs => gather f as fun rows => further (vs :: rows)

/-- The task with its failure enclosed once more. -/
def enclosed (t : Task) : Task := .andThen t fun e => .ended ⟨e.outputs, e.failure.map .enclose⟩

/-- Goes on with `handler` in place of a failure that may be caught; any other failure passes and
    is disclosed once. -/
def intercept (handler : Failure → Task) (t : Task) : Task :=
  .andThen t fun e =>
    match e.failure with
    | none => .ended e
    | some f =>
      if f.isCatchable then after e.outputs (handler f) else .ended ⟨e.outputs, some f.disclose⟩

/-- Drops a failure that may be caught if the selector is optional. -/
def guarded (optional : Bool) (result : Except Failure α) (found : α → Task) : Task :=
  match result with
  | .ok a => found a
  | .error e => if optional && e.isCatchable then done else fail e

/-! ### Writing -/

/-- Fills the slots of a plan one after the other and builds the documents. -/
def perform (fill : Value → Task) (plan : Assign.Plan) : Task :=
  gather fill plan.slots fun rows => ofResult (plan.build rows)

/-- Writes the slices between all pairs of bounds, each into the target as it is. -/
def slices (fill : Value → Task) (op : AssignmentOp) (optional : Bool) (starts stops : List Value)
    (target : Value) : Task :=
  collected <| each (fun a =>
    each (fun b => perform fill (Assign.slicePlan op optional a b target)) stops) starts

/-- What an assignment puts in place of a target, given its right side. -/
def assigned (op : AssignmentOp) (value : List Instruction) (scope : Scope) (input target : Value) :
    Task :=
  match op with
  | .arithmetic op =>
    collect (.pipeline value scope input one) fun vs => ofResult (vs.mapM (op.apply target))
  | .update => collected (.pipeline value scope target one)
  | .coalesce =>
    if target.isNull then collected (.pipeline value scope input one) else one target
  | .set => collected (.pipeline value scope input one)

/-! ### What a task asks for -/

/-- What an instruction asks for. -/
def ofInstruction (i : Instruction) (scope : Scope) (input : Value) (next : Value → Task) : Task :=
  match i with
  | .null => next .null
  | .bool b => next (.bool b)
  | .number n => next (.number n)
  | .string s => next (.string s)
  | .interpolated parts after =>
    .texts parts scope input fun candidates =>
      each next ((product candidates).map fun row => .string (String.join row ++ after))
  | .variable name =>
    match scope.lookup name with
    | some v => next v
    | none => fail (.of (.undefinedVariable name))
  | .define _ body => .pipeline body scope input fun _ => next input
  | .function params body => next (.function (.closure params body scope))
  | .access base path =>
    .pipeline base scope input fun v => .select path scope input v none next
  | .assign base path op value =>
    .pipeline base scope input fun document =>
      collect (.assign path scope input op (assigned op value scope input) document) (each next)
  | .calculate base steps =>
    .pipeline base scope input fun v => .calculate steps scope input v next
  | .compare base steps =>
    .pipeline base scope input fun v => .compareSteps steps scope input v next
  | .branch arms otherwise =>
    .branches arms scope input
      (match otherwise with
      | some p => .pipeline p scope input next
      | none => next input)
      next
  | .and ps => .connective false ps scope input next
  | .or ps => .connective true ps scope input next
  | .coalesce ps => .coalesce ps scope input next
  | .negate =>
    match input.negate with
    | .ok v => next v
    | .error e => fail e
  | .not => next input.not
  | .attempt body handler =>
    intercept (fun e => .pipeline handler scope e.payload next)
      (.pipeline body scope input fun v => enclosed (next v))
  | .array body => collect (.pipeline body scope input one) fun items => next (.array items)
  | .object fields =>
    .choices fields scope input fun candidates =>
      each next ((product candidates).map fun row => .object (Entries.ofList (row.filterMap id)))
  | .concat ps => .concat ps scope input next
  | .void => done

/-- What a path asks for next; `parent` is what the value was selected from. -/
def ofSelector (s : Selector (List Instruction)) (rest : List (Selector (List Instruction)))
    (scope : Scope) (input v : Value) (parent : Option Value) (next : Value → Task) : Task :=
  match s with
  | .field key optional =>
    .pipeline key scope input fun k =>
      guarded optional (v.field k) fun
        | some found => .select rest scope input found (some v) next
        | none => if optional then done else .select rest scope input .null (some v) next
  | .iterate optional =>
    guarded optional v.iterate (each fun item => .select rest scope input item (some v) next)
  | .slice start stop optional =>
    .pipeline start scope input fun a =>
      .pipeline stop scope input fun b =>
        guarded optional (v.slice a b) fun part => .select rest scope input part (some v) next
  | .call args bound optional =>
    match v with
    | .function f =>
      .operands args scope input fun lists =>
        each (fun row =>
          collect (.call f (if bound then parent.getD input else input) row)
            (each fun result => .select rest scope input result (some v) next))
          (product lists)
    | v => if optional then done else fail (.of (.notCallable v.kind))

/-- What a write along a path asks for next. -/
def ofTarget (s : Selector (List Instruction)) (rest : List (Selector (List Instruction)))
    (scope : Scope) (input : Value) (op : AssignmentOp) (fill : Value → Task) (target : Value) :
    Task :=
  match s with
  | .field key optional =>
    collect (.pipeline key scope input one) fun ks =>
      perform (.assign rest scope input op fill) (Assign.keysPlan optional ks target)
  | .iterate optional =>
    perform (.assign rest scope input op fill) (Assign.eachPlan optional target)
  | .slice start stop optional =>
    collect (.pipeline start scope input one) fun starts =>
      collect (.pipeline stop scope input one) fun stops =>
        slices (.assign rest scope input op fill) op optional starts stops target
  | .call _ _ _ => fail (.of (.invalidAssignmentPath "a function call cannot be assigned to"))

/-- What a task asks for. What has come to its end asks for nothing. -/
def unfold : Task → Task
  | .pipeline [] _ input next => next input
  | .pipeline (.define name body :: rest) scope input next =>
    .pipeline body scope input fun v => .pipeline rest (scope.bind name v) input next
  | .pipeline [i] scope input next => .instruction i scope input next
  | .pipeline (i :: rest) scope input next =>
    .instruction i scope input fun v => .pipeline rest scope v next
  | .instruction i scope input next => ofInstruction i scope input next
  | .operands [] _ _ further => further []
  | .operands (p :: rest) scope input further =>
    collect (.pipeline p scope input one) fun values =>
      .operands rest scope input fun lists => further (values :: lists)
  | .texts [] _ _ further => further []
  | .texts ((before, p) :: rest) scope input further =>
    collect (.pipeline p scope input one) fun values =>
      .texts rest scope input fun lists =>
        further (values.map (fun v => before ++ v.text) :: lists)
  | .choices [] _ _ further => further []
  | .choices (⟨key, value, optional⟩ :: rest) scope input further =>
    collect (.pipeline key scope input one) fun keys =>
      collect (.pipeline value scope input one) fun values =>
        match Run.fieldChoices optional keys values with
        | .ok entries => .choices rest scope input fun lists => further (entries :: lists)
        | .error e => fail e
  | .calculate [] _ _ left next => next left
  | .calculate ((op, p) :: rest) scope input left next =>
    .pipeline p scope input fun right =>
      match op.apply left right with
      | .ok v => .calculate rest scope input v next
      | .error e => fail e
  | .compareSteps [] _ _ left next => next left
  | .compareSteps ((op, p) :: rest) scope input left next =>
    .pipeline p scope input fun right =>
      .compareSteps rest scope input (.bool (op.apply left right)) next
  | .branches [] _ _ otherwise _ => otherwise
  | .branches ((condition, body) :: rest) scope input otherwise next =>
    .pipeline condition scope input fun c =>
      if c.isTruthy then .pipeline body scope input next
      else .branches rest scope input otherwise next
  | .connective decisive [] _ _ next => next (.bool !decisive)
  | .connective decisive (p :: rest) scope input next =>
    .pipeline p scope input fun v =>
      if v.isTruthy == decisive then next (.bool decisive)
      else .connective decisive rest scope input next
  | .coalesce [] _ _ next => next .null
  | .coalesce [p] scope input next => .pipeline p scope input next
  | .coalesce (p :: rest) scope input next =>
    .andThen (.pipeline p scope input one) fun e =>
      match e.result with
      | .ok values =>
        match values.filter fun v => !v.isNull with
        | [] => .coalesce rest scope input next
        | present => each next present
      | .error e => if e.isCatchable then .coalesce rest scope input next else fail e
  | .concat [] _ _ _ => done
  | .concat (p :: rest) scope input next =>
    append (.pipeline p scope input next) (.concat rest scope input next)
  | .select [] _ _ v _ next => next v
  | .select (s :: rest) scope input v parent next => ofSelector s rest scope input v parent next
  | .assign [] _ _ _ fill target => fill target
  | .assign (s :: rest) scope input op fill target => ofTarget s rest scope input op fill target
  | t => t

end Task

/-- What the functions of a host do, given their input and arguments. They may have functions
    called, and go on with whatever comes of it. -/
abbrev Natives := Builtin → Value → List Value → Task

/-- What the builtins do. -/
def Builtin.task : Natives
  | .apply, input, .function f :: rest => .call f input rest
  | .map, .array items, .function f :: rest =>
    (Task.each (fun item => .call f item rest) items).collect fun outputs => .one (.array outputs)
  -- What is left calls nothing, so the way to enter closures does not matter.
  | b, input, values => .ofResult (Run.invoke (fun _ _ _ _ _ => .ok []) (.builtin b) input values)

/-- What waits for a task to come to its end. -/
inductive Waiting where
  | further (k : Ending → Task)
  /-- The call whose body is being run. -/
  | body

/-- The machine at one moment. -/
structure Machine where
  /-- How many closures it is inside of. -/
  depth : Nat
  /-- What waits for the task, the first to go on first. -/
  waiting : List Waiting
  task : Task

namespace Machine

/-- Hands what a task has come to over to what waits for it. -/
def resume (depth : Nat) : List Waiting → Ending → Machine
  | [], e => ⟨depth, [], .ended e⟩
  | .further k :: waiting, e => ⟨depth, waiting, k e⟩
  | .body :: waiting, e => ⟨depth - 1, waiting, .ofResult e.result⟩

/-- Starts to call a function. -/
def call (natives : Natives) (limit depth : Nat) (waiting : List Waiting) (f : Function)
    (input : Value) (args : List Value) : Machine :=
  match f with
  | .closure params body scope =>
    if depth < limit then
      ⟨depth + 1, .body :: waiting,
        .pipeline body (Scope.bindAll (Run.bindings params args) scope) input .one⟩
    else ⟨depth, waiting, .fail (.of (.stackOverflow limit))⟩
  | .builtin b => ⟨depth, waiting, natives b input args⟩

/-- One step. -/
def step (natives : Natives) (limit : Nat) (m : Machine) : Machine :=
  match m.task with
  | .ended e => resume m.depth m.waiting e
  | .andThen first further => ⟨m.depth, .further further :: m.waiting, first⟩
  | .call f input args => call natives limit m.depth m.waiting f input args
  | t => ⟨m.depth, m.waiting, t.unfold⟩

/-- A task at its start, with nothing waiting for it. -/
def start (depth : Nat) (t : Task) : Machine := ⟨depth, [], t⟩

end Machine

/-- What may be asked of a machine that is kept from one request to the next. -/
inductive Request where
  | evaluate (p : List Instruction) (scope : Scope) (input : Value)
  /-- Every output is handed to `next`, which may have more done. -/
  | execute (p : List Instruction) (scope : Scope) (inputs : List Value) (next : Value → Task)
  | call (f : Function) (input : Value) (args : List Value)

/-- What is to be done for a request. -/
def Request.task : Request → Task
  | .evaluate p scope input => .pipeline p scope input .one
  | .execute p scope inputs next => Task.each (fun v => .pipeline p scope v next) inputs
  | .call f input args => .call f input args

end JsonPipe
