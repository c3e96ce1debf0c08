import JsonPipe.Source.Literal

/-! The grammar, loosest level first.

    Each level reads operands of the next tighter level and joins them if one of its operators
    follows. A pipeline in parentheses is spliced into the pipeline around it, so parentheses leave
    no trace. Nested text is read by `inner`, a reader for the level of `try`; it is only called
    when at least one character has been taken, so the number of characters bounds the nesting, and
    `route` ties the knot by recursion on that number. -/

namespace JsonPipe.Source

open Reader

/-- A reader of a part of a pipeline. -/
abbrev Rule := Reader Pipeline

/-- Operands joined by an n-ary instruction; a single operand stays as it is. -/
def joinWith (build : List Pipeline → Instruction) : List Pipeline → Pipeline
  | [p] => p
  | ps => [build ps]

/-- An operand and the operators with further operands that follow it. -/
def chain {ω : Type} (operators : List (String × String × ω)) (operand : Rule)
    (build : Pipeline → List (ω × Pipeline) → Instruction) : Rule := do
  let first ← operand
  let steps ← many do
    match ← firstSymbol operators with
    | some op => return some (op, ← operand)
    | none => return none
  return match steps with
    | [] => first
    | steps => [build first steps]

/-! ### Pipes and lists of outputs -/

/-- `a, b` -/
def outputs (inner : Rule) : Rule := return joinWith .concat (← separated (symbol ",") inner)

/-- Pipelines one after the other; a single one stays as it is. -/
def splice : List Pipeline → Pipeline
  | [p] => p
  | ps => ps.flatten

theorem splice_eq (ps : List Pipeline) : splice ps = ps.flatten := by
  match ps with
  | [] => rfl
  | [p] => simp [splice]
  | p :: q :: rest => rfl

/-- `a | b` -/
def pipe (inner : Rule) : Rule :=
  return splice (← separated (symbolNotBefore "|" "=") (outputs inner))

/-- `a | b` where a comma ends the text, as in the arguments of a call. -/
def argument (inner : Rule) : Rule :=
  return splice (← separated (symbolNotBefore "|" "=") inner)

/-- `( pipe )` -/
def group (inner : Rule) : Rule := do
  let _ ← symbol "("
  let p ← pipe inner
  if ← symbol ")" then return p
  expected .group "expected ')'"

/-! ### Paths -/

/-- A question mark that makes a selector optional. -/
def optionalMark : Reader Bool := symbolNotBefore "?" "?="

/-- The key after a point: a name or a string. -/
def fieldName (inner : Rule) : Reader Pipeline := do
  match ← variableName with
  | some name => return [.string name]
  | none =>
    if (← peek) = some '"' then return [← string (pipe inner)]
    expected .fieldAccess "expected field name"

/-- The second bound of a slice and the closing bracket. -/
def sliceEnd (inner : Rule) : Reader Pipeline := do
  if ← symbol "]" then return [.null]
  let stop ← pipe inner
  if ← symbol "]" then return stop
  expected .arraySlice "expected ']'"

/-- What follows an opening bracket: nothing, a key or two bounds. -/
def bracket (inner : Rule) : Reader (Bool → Selector Pipeline) := do
  if ← symbol "]" then return .iterate
  if ← symbol ":" then return .slice [.null] (← sliceEnd inner)
  let key ← pipe inner
  if ← symbol "]" then return .field key
  if ← symbol ":" then return .slice key (← sliceEnd inner)
  expected .variableAccess "expected ':' or ']'"

/-- The arguments of a call, after its opening parenthesis. -/
def arguments (inner : Rule) : Reader (List Pipeline) :=
  listUntil ")" .functionCall "expected ',' or ')'" (argument inner)

/-- A selector without its question mark, if one follows. A field after a point is only looked for
    if `dotted`. -/
def selectorBody (inner : Rule) (dotted : Bool) : Reader (Option (Bool → Selector Pipeline)) := do
  if dotted then
    if ← symbol "." then return some (.field (← fieldName inner))
  if ← symbol "[" then return some (← bracket inner)
  if ← symbol "->" then
    if ← symbol "(" then return some (.call (← arguments inner) true)
    expected .boundCall "expected '('"
  if ← symbol "(" then return some (.call (← arguments inner) false)
  return none

/-- A selector, if one follows. -/
def selector (inner : Rule) (dotted : Bool) : Reader (Option (Selector Pipeline)) := do
  match ← selectorBody inner dotted with
  | some build => return some (build (← optionalMark))
  | none => return none

/-- As many selectors as follow. After a lone point the first of them has no point of its own. -/
def path (inner : Rule) (afterPoint : Bool) : Reader (List (Selector Pipeline)) := do
  match ← selector inner !afterPoint with
  | some first => return first :: (← many (selector inner true))
  | none => return []

/-- The symbols of assignment. -/
def assignmentSymbols : List (String × String × AssignmentOp) :=
  [("=", "=", .set), ("|=", "", .update), ("+=", "", .arithmetic .addition),
    ("-=", "", .arithmetic .subtraction), ("*=", "", .arithmetic .multiplication),
    ("/=", "", .arithmetic .division), ("%=", "", .arithmetic .remainder), ("?=", "", .coalesce)]

/-- An assignment to what was just read, if one follows. -/
def assignment (inner : Rule) : Reader (Option (AssignmentOp × Pipeline)) := do
  match ← firstSymbol assignmentSymbols with
  | some op => return some (op, ← inner)
  | none => return none

/-- An assignment to a path, if one follows; a path with a call cannot be assigned to. -/
def assignmentTo (inner : Rule) (steps : List (Selector Pipeline)) :
    Reader (Option (AssignmentOp × Pipeline)) :=
  if steps.any Selector.isCall then return none else assignment inner

/-! ### Primary expressions -/

/-- `[]` or `[ pipe ]` -/
def arrayConstructor (inner : Rule) : Rule := do
  let _ ← symbol "["
  if ← symbol "]" then return [.array [.void]]
  let p ← pipe inner
  if ← symbol "]" then return [.array p]
  expected .arrayConstructor "expected ']'"

/-- The key of a field, and the name if it is a bare one. -/
def fieldKey (inner : Rule) : Reader (Pipeline × Option String) := do
  match ← name with
  | some name => return ([.string name], some name)
  | none =>
    match ← peek with
    | some '"' => return ([← string (pipe inner)], none)
    | some '(' => return (← group inner, none)
    | _ => expected .objectConstructor "expected field name"

/-- `key: value` or `name`, which is short for `name: .name`. -/
def field (inner : Rule) : Reader (Field Pipeline) := do
  let (key, bare) ← fieldKey inner
  let optional ← symbolNotBefore "?" "?"
  if ← symbol ":" then return ⟨key, ← inner, optional⟩
  match bare with
  | some name => return ⟨key, [.access [] [.named name false]], optional⟩
  | none => expected .objectConstructor "expected ':'"

/-- An object constructor. -/
def objectConstructor (inner : Rule) : Rule := do
  let _ ← symbol "\x7b"
  let fields ← listUntil "\x7d" .objectConstructor "expected ',' or '\x7d'" (field inner)
  return [.object fields]

/-- Groups, strings and constructors. -/
def primary (inner : Rule) : Rule := do
  match ← peek with
  | some '(' => group inner
  | some '"' => return [← string (pipe inner)]
  | some '[' => arrayConstructor inner
  | some '\x7b' => objectConstructor inner
  | _ => expected .value "expected value"

/-- What a value access starts with: a point with or without a key, or a primary expression. -/
def accessBase (inner : Rule) : Reader (Pipeline × List (Selector Pipeline)) := do
  if ← symbol "." then
    match ← variableName with
    | some name => return ([], [.named name (← optionalMark)])
    | none =>
      if (← peek) = some '"' then
        let key ← string (pipe inner)
        return ([], [.field [key] (← optionalMark)])
      return ([], [])
  return (← primary inner, [])

/-- `.`, `.name` or a primary expression, with a path, perhaps assigned to. -/
def valueAccess (inner : Rule) : Rule := do
  let (base, steps) ← accessBase inner
  let more ← path inner (base.isEmpty && steps.isEmpty)
  match steps ++ more with
  | [] => return base
  | steps =>
    match ← assignmentTo inner steps with
    | some (op, value) => return [.assign base steps op value]
    | none => return [.access base steps]

/-- A variable with a path, perhaps assigned to. An assignment binds the variable anew. -/
def variableAccess (inner : Rule) : Rule := do
  match ← variableName with
  | none => valueAccess inner
  | some name =>
    let steps ← path inner false
    match ← assignmentTo inner steps, steps with
    | some (.set, value), [] => return [.define name value]
    | some (op, value), steps => return [.define name [.assign [.variable name] steps op value]]
    | none, [] => return [.variable name]
    | none, steps => return [.access [.variable name] steps]

/-- The name of a parameter. -/
def parameter : Reader String := do
  match ← variableName with
  | some name => return name
  | none => expected .functionDefinition "expected argument name"

/-- The parameters of a function and the colon after them. -/
def parameters : Reader (List String) := do
  if !(← symbol "(") then expected .functionDefinition "expected '('"
  let names ← listUntil ")" .functionDefinition "expected ',' or ')'" parameter
  if ← symbol ":" then return names
  expected .functionDefinition "expected ':'"

/-- `func name(params): body` or `func (params): body` -/
def functionDefinition (inner : Rule) : Rule := do
  if ← keyword "func" then
    let name ← variableName
    let params ← parameters
    let body ← inner
    return match name with
      | some name => [.define name [.function params body]]
      | none => [.function params body]
  variableAccess inner

/-- `true`, `false`, `null` and numbers. -/
def constant (inner : Rule) : Rule := do
  if ← keyword "true" then return [.bool true]
  if ← keyword "false" then return [.bool false]
  if ← keyword "null" then return [.null]
  match ← number with
  | some n => return [.number n]
  | none => functionDefinition inner

/-- A condition and what to do if it holds. -/
def arm (inner : Rule) : Reader (Pipeline × Pipeline) := do
  let condition ← pipe inner
  if ← keyword "then" then return (condition, ← pipe inner)
  expected .ifStatement "expected 'then'"

/-- `if c then t elif c then t else e end` -/
def conditional (inner : Rule) : Rule := do
  if ← keyword "if" then
    let arms ← separated (keyword "elif") (arm inner)
    let otherwise ← if ← keyword "else" then some <$> pipe inner else pure none
    if ← keyword "end" then return [.branch arms otherwise]
    expected .ifStatement "expected 'end'"
  constant inner

/-! ### Operators -/

/-- `-a` -/
def negation (inner : Rule) : Rule := do
  if ← symbolNotBefore "-" "=>" then return (← conditional inner) ++ [.negate]
  conditional inner

/-- `a ?? b` -/
def coalescence (inner : Rule) : Rule :=
  return joinWith .coalesce (← separated (symbol "??") (negation inner))

/-- `a * b`, `a / b`, `a % b` -/
def multiplicative (inner : Rule) : Rule :=
  chain [("*", "=", .multiplication), ("/", "=", .division), ("%", "=", .remainder)]
    (coalescence inner) .calculate

/-- `a + b`, `a - b` -/
def additive (inner : Rule) : Rule :=
  chain [("+", "=", .addition), ("-", "=>", .subtraction)] (multiplicative inner) .calculate

/-- `a?` -/
def suppression (inner : Rule) : Rule := do
  let p ← additive inner
  if ← symbolNotBefore "?" "?=" then return [.attempt p [.void]]
  return p

/-- `not a` -/
def complement (inner : Rule) : Rule := do
  if ← keyword "not" then return (← suppression inner) ++ [.not]
  suppression inner

/-- `a < b`, `a <= b`, `a > b`, `a >= b` -/
def relational (inner : Rule) : Rule :=
  chain [("<=", "", .lessEqual), ("<", "", .less), (">=", "", .greaterEqual), (">", "", .greater)]
    (complement inner) .compare

/-- `a == b`, `a != b` -/
def equality (inner : Rule) : Rule :=
  chain [("==", "", .equal), ("!=", "", .unequal)] (relational inner) .compare

/-- `a and b` -/
def conjunction (inner : Rule) : Rule :=
  return joinWith .and (← separated (keyword "and") (equality inner))

/-- `a or b` -/
def disjunction (inner : Rule) : Rule :=
  return joinWith .or (← separated (keyword "or") (conjunction inner))

/-- `try a catch b` -/
def attempt (inner : Rule) : Rule := do
  if ← keyword "try" then
    let body ← disjunction inner
    let handler ← if ← keyword "catch" then disjunction inner else pure [.void]
    return [.attempt body handler]
  disjunction inner

/-! ### Programs -/

/-- The level of `try`, with at most the given number of levels nested in it. -/
def route : Nat → Rule
  | 0, c => expected .value "expected value" c
  | depth + 1, c => attempt (route depth) c

/-- A whole program. -/
def program (depth : Nat) : Rule := do
  skipTrivia
  let p ← pipe (route depth)
  fun c => if c.after.isEmpty then .ok (p, c) else expected .program "expected EOT" c

end JsonPipe.Source

namespace JsonPipe

/-- The program that a text stands for, or the first error in it. -/
def Pipeline.parse (source : String) : Except SyntaxError Pipeline :=
  let text := source.toList
  return (← Source.program (text.length + 1) (.start text)).1

end JsonPipe
