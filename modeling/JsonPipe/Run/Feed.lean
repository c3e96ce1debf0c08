import JsonPipe.Run.Pipeline

/-! Running a pipeline into what comes after it.

    Here a run is told what comes after it: every output goes to `next` at once, and the outcomes
    of these calls are joined in order. The first instruction is run with the rest of the pipeline
    as what comes after it, so a failure further on comes back through every instruction that had
    a part in the output. `try` has to tell such failures from those of its own operand: it
    encloses what comes back from `next`, does not catch what is enclosed, and discloses what it
    lets pass. Operands whose outputs are needed together are run with nothing after them
    (`evaluate`). -/

namespace JsonPipe

/-- What comes after a run: it is given every output. -/
abbrev Next := Value → Outcome Value

namespace Feed

mutual

/-- Runs a pipeline on an input. -/
def pipeline (call : Call) : List Instruction → Scope → Value → Next → Outcome Value
  | [], _, input, next => next input
  | .define name body :: rest, scope, input, next =>
    pipeline call body scope input fun v => pipeline call rest (scope.bind name v) input next
  | [i], scope, input, next => instruction call i scope input next
  | i :: rest, scope, input, next =>
    instruction call i scope input fun v => pipeline call rest scope v next
termination_by structural x => x

/-- Runs one instruction on an input. -/
def instruction (call : Call) : Instruction → Scope → Value → Next → Outcome Value
  | .null, _, _, next => next .null
  | .bool b, _, _, next => next (.bool b)
  | .number n, _, _, next => next (.number n)
  | .string s, _, _, next => next (.string s)
  | .interpolated parts after, scope, input, next =>
    match texts call parts scope input with
    | .ok candidates =>
      ((Outcome.choices candidates).map fun row => .string (String.join row ++ after)).bind next
    | .error e => .fail e
  | .variable name, scope, _, next =>
    match scope.lookup name with
    | some v => next v
    | none => .fail (.of (.undefinedVariable name))
  | .define _ body, scope, input, next => pipeline call body scope input fun _ => next input
  | .function params body, scope, _, next => next (.function (.closure params body scope))
  | .access base path, scope, input, next =>
    pipeline call base scope input fun v => select call path scope input v none next
  | .assign base path op value, scope, input, next =>
    pipeline call base scope input fun document =>
      (Outcome.ofExcept (assign call path scope input op
        (Run.assigned op (fun _ => pipeline call value scope input .one)
          (fun target => pipeline call value scope target .one))
        document)).bind next
  | .calculate base steps, scope, input, next =>
    pipeline call base scope input fun v => calculate call steps scope input v next
  | .compare base steps, scope, input, next =>
    pipeline call base scope input fun v => compareSteps call steps scope input v next
  | .branch arms otherwise, scope, input, next =>
    branches call arms scope input
      (fun _ =>
        match otherwise with
        | some p => pipeline call p scope input next
        | none => next input)
      next
  | .and operands, scope, input, next => connective call false operands scope input next
  | .or operands, scope, input, next => connective call true operands scope input next
  | .coalesce operands, scope, input, next => coalesce call operands scope input next
  | .negate, _, input, next =>
    match input.negate with
    | .ok v => next v
    | .error e => .fail e
  | .not, _, input, next => next input.not
  | .attempt body handler, scope, input, next =>
    (pipeline call body scope input fun v => (next v).enclosed).intercept fun e =>
      pipeline call handler scope e.payload next
  | .array body, scope, input, next =>
    match (pipeline call body scope input .one).collect with
    | .ok items => next (.array items)
    | .error e => .fail e
  | .object fields, scope, input, next =>
    match choices call fields scope input with
    | .ok candidates => (Run.objects candidates).bind next
    | .error e => .fail e
  | .concat operands, scope, input, next => concat call operands scope input next
  | .void, _, _, _ => .done
termination_by structural x => x

/-- The outputs of several operands, each as a list. -/
def operands (call : Call) : List (List Instruction) → Scope → Value →
    Except Failure (List (List Value))
  | [], _, _ => .ok []
  | p :: rest, scope, input => do
    let values ← (pipeline call p scope input .one).collect
    return values :: (← operands call rest scope input)
termination_by structural x => x

/-- The texts that each part of an interpolated string may have. -/
def texts (call : Call) : List (String × List Instruction) → Scope → Value →
    Except Failure (List (List String))
  | [], _, _ => .ok []
  | (before, p) :: rest, scope, input => do
    let values ← (pipeline call p scope input .one).collect
    return values.map (fun v => before ++ v.text) :: (← texts call rest scope input)
termination_by structural x => x

/-- The entries that each field of an object constructor may have. -/
def choices (call : Call) : List (Field (List Instruction)) → Scope → Value →
    Except Failure (List (List (Option (String × Value))))
  | [], _, _ => .ok []
  | ⟨key, value, optional⟩ :: rest, scope, input => do
    let keys ← (pipeline call key scope input .one).collect
    let values ← (pipeline call value scope input .one).collect
    let entries ← Run.fieldChoices optional keys values
    return entries :: (← choices call rest scope input)
termination_by structural x => x

/-- Applies arithmetic steps to a value from left to right. -/
def calculate (call : Call) : List (ArithmeticOp × List Instruction) → Scope → Value → Value →
    Next → Outcome Value
  | [], _, _, left, next => next left
  | (op, p) :: rest, scope, input, left, next =>
    pipeline call p scope input fun right =>
      match op.apply left right with
      | .ok v => calculate call rest scope input v next
      | .error e => .fail e
termination_by structural x => x

/-- Applies comparison steps to a value from left to right. -/
def compareSteps (call : Call) : List (ComparisonOp × List Instruction) → Scope → Value → Value →
    Next → Outcome Value
  | [], _, _, left, next => next left
  | (op, p) :: rest, scope, input, left, next =>
    pipeline call p scope input fun right =>
      compareSteps call rest scope input (.bool (op.apply left right)) next
termination_by structural x => x

/-- Runs the first arm whose condition holds, for each output of each condition. -/
def branches (call : Call) : List (List Instruction × List Instruction) → Scope → Value →
    (Unit → Outcome Value) → Next → Outcome Value
  | [], _, _, otherwise, _ => otherwise ()
  | (condition, body) :: rest, scope, input, otherwise, next =>
    pipeline call condition scope input fun c =>
      if c.isTruthy then pipeline call body scope input next
      else branches call rest scope input otherwise next
termination_by structural x => x

/-- Operands in order until one is decisive: `and` is decided by `false`, `or` by `true`. -/
def connective (call : Call) (decisive : Bool) : List (List Instruction) → Scope → Value → Next →
    Outcome Value
  | [], _, _, next => next (.bool !decisive)
  | p :: rest, scope, input, next =>
    pipeline call p scope input fun v =>
      if v.isTruthy == decisive then next (.bool decisive)
      else connective call decisive rest scope input next
termination_by structural x => x

/-- The outputs other than null of the first operand that has any and does not fail; the last
    operand is taken as it is. -/
def coalesce (call : Call) : List (List Instruction) → Scope → Value → Next → Outcome Value
  | [], _, _, next => next .null
  | [p], scope, input, next => pipeline call p scope input next
  | p :: rest, scope, input, next =>
    match (pipeline call p scope input .one).collect with
    | .ok values =>
      match values.filter fun v => !v.isNull with
      | [] => coalesce call rest scope input next
      | present => (Outcome.ofList present).bind next
    | .error e => if e.isCatchable then coalesce call rest scope input next else .fail e
termination_by structural x => x

/-- The outputs of all operands, one after the other. -/
def concat (call : Call) : List (List Instruction) → Scope → Value → Next → Outcome Value
  | [], _, _, _ => .done
  | p :: rest, scope, input, next =>
    (pipeline call p scope input next).append fun _ => concat call rest scope input next
termination_by structural x => x

/-- Follows a path from a value. `parent` is what the value was selected from; it is the input of a
    bound call. -/
def select (call : Call) : List (Selector (List Instruction)) → Scope → Value → Value →
    Option Value → Next → Outcome Value
  | [], _, _, v, _, next => next v
  | .field key optional :: rest, scope, input, v, _, next =>
    pipeline call key scope input fun k =>
      Run.guarded optional (v.field k) fun
        | some found => select call rest scope input found (some v) next
        | none => if optional then .done else select call rest scope input .null (some v) next
  | .iterate optional :: rest, scope, input, v, _, next =>
    Run.guarded optional v.iterate fun items =>
      (Outcome.ofList items).bind fun item => select call rest scope input item (some v) next
  | .slice start stop optional :: rest, scope, input, v, _, next =>
    pipeline call start scope input fun a =>
      pipeline call stop scope input fun b =>
        Run.guarded optional (v.slice a b) fun part =>
          select call rest scope input part (some v) next
  | .call args bound optional :: rest, scope, input, v, parent, next =>
    match v with
    | .function f =>
      match operands call args scope input with
      | .ok lists =>
        let receiver := if bound then parent.getD input else input
        (Outcome.choices lists).bind fun row =>
          (Outcome.ofExcept (call f receiver row)).bind fun result =>
            select call rest scope input result (some v) next
      | .error e => .fail e
    | v => if optional then .done else .fail (.of (.notCallable v.kind))
termination_by structural x => x

/-- Every document that a write along a path gives; `fill` gives the candidates at its end. -/
def assign (call : Call) : List (Selector (List Instruction)) → Scope → Value → AssignmentOp →
    Assign.Fill → Assign.Fill
  | [], _, _, _, fill, target => fill target
  | .field key optional :: rest, scope, input, op, fill, target => do
    let ks ← (pipeline call key scope input .one).collect
    Assign.keys (assign call rest scope input op fill) optional ks target
  | .iterate optional :: rest, scope, input, op, fill, target =>
    Assign.each (assign call rest scope input op fill) optional target
  | .slice start stop optional :: rest, scope, input, op, fill, target => do
    let starts ← (pipeline call start scope input .one).collect
    let stops ← (pipeline call stop scope input .one).collect
    Assign.slices (assign call rest scope input op fill) op optional starts stops target
  | .call _ _ _ :: _, _, _, _, _, _ =>
    .error (.of (.invalidAssignmentPath "a function call cannot be assigned to"))
termination_by structural x => x

end

/-- Runs a pipeline on an input and hands each output to `next` as soon as it is there; the results
    are joined. -/
def deliver (call : Call) (p : List Instruction) (scope : Scope) (input : Value)
    (next : Value → Except Failure (List Value)) : Except Failure (List Value) :=
  (pipeline call p scope input fun v => .ofExcept (next v)).collect

/-- All outputs of a pipeline, or its failure. -/
def evaluate (call : Call) (p : List Instruction) (scope : Scope) (input : Value) :
    Except Failure (List Value) :=
  (pipeline call p scope input .one).collect

/-- The rest of the pipeline is what comes after the first instruction; a definition hands the
    input itself on. -/
theorem pipeline_cons (call : Call) (i : Instruction) (rest : List Instruction) (scope : Scope)
    (input : Value) (next : Next) :
    pipeline call (i :: rest) scope input next =
      match i with
      | .define name body =>
        pipeline call body scope input fun v => pipeline call rest (scope.bind name v) input next
      | i => instruction call i scope input fun v => pipeline call rest scope v next := by
  cases i <;> cases rest <;> simp only [pipeline]

end Feed

end JsonPipe
