import JsonPipe.Source.Cursor

/-! Readers: steps that take something off a program text or report a syntax error.

    The basic readers match a symbol, a keyword or a name. A symbol may be refused in front of
    certain characters, where it would be the start of another symbol; a keyword stands between
    characters that cannot belong to a name. -/

namespace JsonPipe

/-- A step through a program text. -/
abbrev Reader := StateT Cursor (Except SyntaxError)

namespace Reader

variable {α : Type}

/-- Reports what was expected here. -/
def expected (construct : Construct) (what : String) : Reader α :=
  fun c => .error ⟨construct, what, c.offset⟩

/-- The next character, which stays. -/
def peek : Reader (Option Char) := fun c => .ok (c.after.head?, c)

/-- Takes the next character. -/
def take : Reader (Option Char) := fun c =>
  match c.after with
  | [] => .ok (none, c)
  | x :: rest => .ok (some x, ⟨x :: c.before, rest⟩)

/-- Takes the next character if it is one of the given ones. -/
def takeOneOf (set : String) : Reader (Option Char) := fun c =>
  match c.after with
  | x :: rest =>
    if set.toList.contains x then .ok (some x, ⟨x :: c.before, rest⟩) else .ok (none, c)
  | [] => .ok (none, c)

/-- Takes the characters of a class, as many as follow. -/
def takeWhile (p : Char → Bool) : Reader (List Char) := fun c => .ok (c.span p)

/-- Takes a phrase as it is, without the trivia after it. -/
def takePhrase (phrase : String) : Reader Bool := fun c =>
  match c.pass? phrase.toList with
  | some c' => .ok (true, c')
  | none => .ok (false, c)

/-- Passes over trivia. -/
def skipTrivia : Reader Unit := fun c => do
  let c' ← Cursor.skipTrivia .between c.before c.after
  return ((), c')

/-- Takes a symbol and the trivia after it, unless one of the given characters follows it. -/
def symbolNotBefore (symbol refused : String) : Reader Bool := fun c =>
  match c.pass? symbol.toList with
  | none => .ok (false, c)
  | some c' =>
    if c'.after.head?.any refused.toList.contains then .ok (false, c)
    else return (true, (← skipTrivia c').2)

/-- Takes a symbol and the trivia after it. -/
def symbol (s : String) : Reader Bool := symbolNotBefore s ""

/-- The first of several symbols that follows; each comes with the characters that it is refused
    in front of. -/
def firstSymbol : List (String × String × α) → Reader (Option α)
  | [] => pure none
  | (s, refused, a) :: more => do
    if ← symbolNotBefore s refused then return some a else firstSymbol more

/-! ### Names -/

/-- The characters that start a name. -/
def isNameStart (c : Char) : Bool := c.isAlpha || c == '_'

/-- The characters of a name. -/
def isNameChar (c : Char) : Bool := c.isAlphanum || c == '_'

/-- The words that are no variable names. -/
def keywords : List String :=
  ["and", "catch", "elif", "else", "end", "false", "func", "if", "not", "null", "or", "then",
    "true", "try"]

/-- Takes a keyword and the trivia after it. -/
def keyword (word : String) : Reader Bool := fun c =>
  match c.pass? word.toList with
  | none => .ok (false, c)
  | some c' =>
    if c'.after.head?.any isNameChar || c.before.head?.any isNameChar then .ok (false, c)
    else return (true, (← skipTrivia c').2)

/-- The name that follows, if one does, and the cursor after it. -/
def nextName? (c : Cursor) : Option (String × Cursor) :=
  if c.after.head?.any isNameStart then
    let (run, c') := c.span isNameChar
    some (String.ofList run, c')
  else none

/-- Takes a name, keywords included, and the trivia after it. -/
def name : Reader (Option String) := fun c =>
  match nextName? c with
  | none => .ok (none, c)
  | some (s, c') => return (some s, (← skipTrivia c').2)

/-- Takes a name that is no keyword and the trivia after it. -/
def variableName : Reader (Option String) := fun c =>
  match nextName? c with
  | none => .ok (none, c)
  | some (s, c') =>
    if keywords.contains s then .ok (none, c) else return (some s, (← skipTrivia c').2)

/-! ### Repetition -/

/-- Repeats a step until it yields nothing, at most once for each character of `bound` and once
    more. -/
def repeatAlong (step : Reader (Option α)) : List Char → Reader (List α)
  | [], c => do
    let (last, c') ← step c
    return (last.toList, c')
  | _ :: bound, c => do
    match ← step c with
    | (none, c') => return ([], c')
    | (some a, c') =>
      let (more, c'') ← repeatAlong step bound c'
      return (a :: more, c'')

/-- Repeats a step that takes at least one character, until it yields nothing; the text that is
    left bounds the number of repetitions. -/
def many (step : Reader (Option α)) : Reader (List α) := fun c => repeatAlong step c.after c

/-- One or more items with a separator in between. -/
def separated (separator : Reader Bool) (item : Reader α) : Reader (List α) := do
  let first ← item
  let more ← many do
    if ← separator then return some (← item) else return none
  return first :: more

/-- Items separated by commas up to a closing symbol, which may follow at once. -/
def listUntil (close : String) (construct : Construct) (what : String) (item : Reader α) :
    Reader (List α) := do
  if ← symbol close then return []
  let first ← item
  let more ← many do
    if ← symbol close then return none
    if ← symbol "," then return some (← item)
    expected construct what
  return first :: more

end Reader

end JsonPipe
