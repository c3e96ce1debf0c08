import JsonPipe.Run.Outcome
import JsonPipe.Value.Assign

/-! The outcome of a pipeline.

    The rules are given by recursion on the program, each instruction with an outcome of its own
    that is fed to the next. What they need beside the program is a way to call functions, the
    names in scope and the input. An operand always runs on the input of its
    instruction, and every output of an operand is a case of its own: operators, conditions,
    selectors and constructors give one result per combination, in the order in which the operands
    produce their outputs. A definition binds its name for the instructions after it, once per
    output of its body, and hands its own input on to them. -/

namespace JsonPipe

/-- A way to call a function: on an input, with arguments. -/
abbrev Call := Function → Value → List Value → Except Failure (List Value)

namespace Run

/-- Drops a failure that may be caught if the selector is optional. -/
def guarded {α : Type} (optional : Bool) (result : Except Failure α) (found : α → Outcome Value) :
    Outcome Value :=
  match result with
  | .ok a => found a
  | .error e => if optional && e.isCatchable then .done else .fail e

/-- What an assignment puts in place of a target, given the outcomes of its right side on the input
    and on the target. -/
def assigned (op : AssignmentOp) (onInput : Unit → Outcome Value)
    (onTarget : Value → Outcome Value) (target : Value) : Except Failure (List Value) :=
  match op with
  | .arithmetic op => do (← (onInput ()).collect).mapM (op.apply target)
  | .update => (onTarget target).collect
  | .coalesce => if target.isNull then (onInput ()).collect else .ok [target]
  | .set => (onInput ()).collect

/-- The entries that one field of an object constructor may have. An optional field with a null
    value has none, but still counts as a choice. -/
def fieldChoices (optional : Bool) (keys values : List Value) :
    Except Failure (List (Option (String × Value))) :=
  return (← keys.mapM fun
    | .string name =>
      .ok (values.map fun v => if optional && v.isNull then none else some (name, v))
    | key => .error (.of (.invalidObjectKey key.kind))).flatten

/-- One object for every choice of entries; of a repeated key the last value stays. -/
def objects (candidates : List (List (Option (String × Value)))) : Outcome Value :=
  (Outcome.choices candidates).map fun row => .object (Entries.ofList (row.filterMap id))

mutual

/-- Runs a pipeline on an input. -/
def pipeline (call : Call) : List Instruction → Scope → Value → Outcome Value
  | [], _, input => .one input
  | .define name body :: rest, scope, input =>
    (pipeline call body scope input).bind fun v => pipeline call rest (scope.bind name v) input
  | [i], scope, input => instruction call i scope input
  | i :: rest, scope, input =>
    (instruction call i scope input).bind fun v => pipeline call rest scope v
termination_by structural x => x

/-- Runs one instruction on an input. -/
def instruction (call : Call) : Instruction → Scope → Value → Outcome Value
  | .null, _, _ => .one .null
  | .bool b, _, _ => .one (.bool b)
  | .number n, _, _ => .one (.number n)
  | .string s, _, _ => .one (.string s)
  | .interpolated parts after, scope, input =>
    match texts call parts scope input with
    | .ok candidates =>
      (Outcome.choices candidates).map fun row => .string (String.join row ++ after)
    | .error e => .fail e
  | .variable name, scope, _ =>
    match scope.lookup name with
    | some v => .one v
    | none => .fail (.of (.undefinedVariable name))
  | .define _ body, scope, input => (pipeline call body scope input).bind fun _ => .one input
  | .function params body, scope, _ => .one (.function (.closure params body scope))
  | .access base path, scope, input =>
    (pipeline call base scope input).bind fun v => select call path scope input v none
  | .assign base path op value, scope, input =>
    (pipeline call base scope input).bind fun document =>
      .ofExcept (assign call path scope input op
        (assigned op (fun _ => pipeline call value scope input) (pipeline call value scope))
        document)
  | .calculate base steps, scope, input =>
    (pipeline call base scope input).bind fun v => calculate call steps scope input v
  | .compare base steps, scope, input =>
    (pipeline call base scope input).bind fun v => compareSteps call steps scope input v
  | .branch arms otherwise, scope, input =>
    branches call arms scope input fun _ =>
      match otherwise with
      | some p => pipeline call p scope input
      | none => .one input
  | .and operands, scope, input => connective call false operands scope input
  | .or operands, scope, input => connective call true operands scope input
  | .coalesce operands, scope, input => coalesce call operands scope input
  | .negate, _, input =>
    match input.negate with
    | .ok v => .one v
    | .error e => .fail e
  | .not, _, input => .one input.not
  | .attempt body handler, scope, input =>
    (pipeline call body scope input).intercept fun e => pipeline call handler scope e.payload
  | .array body, scope, input =>
    match (pipeline call body scope input).collect with
    | .ok items => .one (.array items)
    | .error e => .fail e
  | .object fields, scope, input =>
    match choices call fields scope input with
    | .ok candidates => objects candidates
    | .error e => .fail e
  | .concat operands, scope, input => concat call operands scope input
  | .void, _, _ => .done
termination_by structural x => x

/-- The outputs of several operands, each as a list. -/
def operands (call : Call) : List (List Instruction) → Scope → Value →
    Except Failure (List (List Value))
  | [], _, _ => .ok []
  | p :: rest, scope, input => do
    let values ← (pipeline call p scope input).collect
    return values :: (← operands call rest scope input)
termination_by structural x => x

/-- The texts that each part of an interpolated string may have. -/
def texts (call : Call) : List (String × List Instruction) → Scope → Value →
    Except Failure (List (List String))
  | [], _, _ => .ok []
  | (before, p) :: rest, scope, input => do
    let values ← (pipeline call p scope input).collect
    return values.map (fun v => before ++ v.text) :: (← texts call rest scope input)
termination_by structural x => x

/-- The entries that each field of an object constructor may have. -/
def choices (call : Call) : List (Field (List Instruction)) → Scope → Value →
    Except Failure (List (List (Option (String × Value))))
  | [], _, _ => .ok []
  | ⟨key, value, optional⟩ :: rest, scope, input => do
    let keys ← (pipeline call key scope input).collect
    let values ← (pipeline call value scope input).collect
    let entries ← fieldChoices optional keys values
    return entries :: (← choices call rest scope input)
termination_by structural x => x

/-- Applies arithmetic steps to a value from left to right. -/
def calculate (call : Call) : List (ArithmeticOp × List Instruction) → Scope → Value → Value →
    Outcome Value
  | [], _, _, left => .one left
  | (op, p) :: rest, scope, input, left =>
    (pipeline call p scope input).bind fun right =>
      match op.apply left right with
      | .ok v => calculate call rest scope input v
      | .error e => .fail e
termination_by structural x => x

/-- Applies comparison steps to a value from left to right. -/
def compareSteps (call : Call) : List (ComparisonOp × List Instruction) → Scope → Value → Value →
    Outcome Value
  | [], _, _, left => .one left
  | (op, p) :: rest, scope, input, left =>
    (pipeline call p scope input).bind fun right =>
      compareSteps call rest scope input (.bool (op.apply left right))
termination_by structural x => x

/-- Runs the first arm whose condition holds, for each output of each condition. -/
def branches (call : Call) : List (List Instruction × List Instruction) → Scope → Value →
    (Unit → Outcome Value) → Outcome Value
  | [], _, _, otherwise => otherwise ()
  | (condition, body) :: rest, scope, input, otherwise =>
    (pipeline call condition scope input).bind fun c =>
      if c.isTruthy then pipeline call body scope input
      else branches call rest scope input otherwise
termination_by structural x => x

/-- Operands in order until one is decisive: `and` is decided by `false`, `or` by `true`. -/
def connective (call : Call) (decisive : Bool) : List (List Instruction) → Scope → Value →
    Outcome Value
  | [], _, _ => .one (.bool !decisive)
  | p :: rest, scope, input =>
    (pipeline call p scope input).bind fun v =>
      if v.isTruthy == decisive then .one (.bool decisive)
      else connective call decisive rest scope input
termination_by structural x => x

/-- The outputs other than null of the first operand that has any and does not fail; the last
    operand is taken as it is. -/
def coalesce (call : Call) : List (List Instruction) → Scope → Value → Outcome Value
  | [], _, _ => .one .null
  | [p], scope, input => pipeline call p scope input
  | p :: rest, scope, input =>
    match (pipeline call p scope input).collect with
    | .ok values =>
      match values.filter fun v => !v.isNull with
      | [] => coalesce call rest scope input
      | present => .ofList present
    | .error e => if e.isCatchable then coalesce call rest scope input else .fail e
termination_by structural x => x

/-- The outputs of all operands, one after the other. -/
def concat (call : Call) : List (List Instruction) → Scope → Value → Outcome Value
  | [], _, _ => .done
  | p :: rest, scope, input =>
    (pipeline call p scope input).append fun _ => concat call rest scope input
termination_by structural x => x

/-- Follows a path from a value. `parent` is what the value was selected from; it is the input of a
    bound call. -/
def select (call : Call) : List (Selector (List Instruction)) → Scope → Value → Value →
    Option Value → Outcome Value
  | [], _, _, v, _ => .one v
  | .field key optional :: rest, scope, input, v, _ =>
    (pipeline call key scope input).bind fun k =>
      guarded optional (v.field k) fun
        | some found => select call rest scope input found (some v)
        | none => if optional then .done else select call rest scope input .null (some v)
  | .iterate optional :: rest, scope, input, v, _ =>
    guarded optional v.iterate fun items =>
      (Outcome.ofList items).bind fun item => select call rest scope input item (some v)
  | .slice start stop optional :: rest, scope, input, v, _ =>
    (pipeline call start scope input).bind fun a =>
      (pipeline call stop scope input).bind fun b =>
        guarded optional (v.slice a b) fun part => select call rest scope input part (some v)
  | .call args bound optional :: rest, scope, input, v, parent =>
    match v with
    | .function f =>
      match operands call args scope input with
      | .ok lists =>
        let receiver := if bound then parent.getD input else input
        (Outcome.choices lists).bind fun row =>
          (Outcome.ofExcept (call f receiver row)).bind fun result =>
            select call rest scope input result (some v)
      | .error e => .fail e
    | v => if optional then .done else .fail (.of (.notCallable v.kind))
termination_by structural x => x

/-- Every document that a write along a path gives; `fill` gives the candidates at its end. -/
def assign (call : Call) : List (Selector (List Instruction)) → Scope → Value → AssignmentOp →
    Assign.Fill → Assign.Fill
  | [], _, _, _, fill, target => fill target
  | .field key optional :: rest, scope, input, op, fill, target => do
    let ks ← (pipeline call key scope input).collect
    Assign.keys (assign call rest scope input op fill) optional ks target
  | .iterate optional :: rest, scope, input, op, fill, target =>
    Assign.each (assign call rest scope input op fill) optional target
  | .slice start stop optional :: rest, scope, input, op, fill, target => do
    let starts ← (pipeline call start scope input).collect
    let stops ← (pipeline call stop scope input).collect
    Assign.slices (assign call rest scope input op fill) op optional starts stops target
  | .call _ _ _ :: _, _, _, _, _, _ =>
    .error (.of (.invalidAssignmentPath "a function call cannot be assigned to"))
termination_by structural x => x

end

/-! ### One instruction after the other -/

/-- The first instruction is run on the input and the others on what it puts out; a definition
    hands the input itself on. -/
theorem pipeline_cons (call : Call) (i : Instruction) (rest : List Instruction) (scope : Scope)
    (input : Value) :
    pipeline call (i :: rest) scope input =
      match i with
      | .define name body =>
        (pipeline call body scope input).bind fun v => pipeline call rest (scope.bind name v) input
      | i => (instruction call i scope input).bind fun v => pipeline call rest scope v := by
  cases i <;> cases rest <;> simp only [pipeline, Outcome.bind_one]

end Run

end JsonPipe
