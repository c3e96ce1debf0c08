import JsonPipe.Text.Blank

/-! Program text and positions in it.

    A cursor splits a program text in two: what has been read, last character first, and what is
    left. Positions are counted in bytes of UTF-8. After every token the cursor passes over trivia,
    that is white space, comments from `#` to the end of the line and comments between `/*` and
    `*/`, so it always rests on the first character of the next token. -/

namespace JsonPipe

/-- What was being read when a syntax error came up. -/
inductive Construct where
  | program
  | ifStatement
  | functionDefinition
  | fieldAccess
  | arraySlice
  | variableAccess
  | boundCall
  | functionCall
  | number
  | string
  | group
  | arrayConstructor
  | objectConstructor
  | value
  | comment
  deriving DecidableEq, Repr

/-- The name of a construct in messages. -/
def Construct.name : Construct → String
  | .program => "program"
  | .ifStatement => "if statement"
  | .functionDefinition => "function definition"
  | .fieldAccess => "field access operator"
  | .arraySlice => "array slice operator"
  | .variableAccess => "variable access operator"
  | .boundCall => "bound function call"
  | .functionCall => "function call"
  | .number => "number"
  | .string => "string"
  | .group => "group"
  | .arrayConstructor => "array constructor"
  | .objectConstructor => "object constructor"
  | .value => "value"
  | .comment => "comment"

/-- The first thing wrong with a program text. -/
structure SyntaxError where
  construct : Construct
  expected : String
  /-- Where, in bytes from the start. -/
  offset : Nat
  deriving DecidableEq, Repr

namespace SyntaxError

/-- The error in words. -/
def message (e : SyntaxError) : String :=
  "unexpected token in " ++ e.construct.name ++ ": " ++ e.expected ++ " at offset " ++
    toString e.offset

/-- The error as a program that does not run reports it. -/
def report (e : SyntaxError) : String := "syntax error: " ++ e.message

/-- The start of a text that takes exactly `bytes` bytes, if there is one. -/
def startOf (bytes : Nat) : List Char → Option (List Char)
  | [] => if bytes = 0 then some [] else none
  | c :: cs =>
    if bytes = 0 then some []
    else if bytes < c.utf8Size then none
    else (startOf (bytes - c.utf8Size) cs).map (c :: ·)

/-- Line and column of the error in a text, both counted from one; the column counts characters.
    An offset that is not the start of a character counts as the end of the text. -/
def location (e : SyntaxError) (source : String) : Nat × Nat :=
  let before := (startOf e.offset source.toList).getD source.toList
  let line := before.reverse.takeWhile (· ≠ '\n')
  (before.count '\n' + 1, line.length + 1)

end SyntaxError

/-- A position in a text. -/
structure Cursor where
  /-- What has been read, the last character first. -/
  before : List Char
  /-- What is left. -/
  after : List Char
  deriving DecidableEq, Repr

namespace Cursor

/-- The start of a text. -/
def start (text : List Char) : Cursor := ⟨[], text⟩

/-- The position in bytes. -/
def offset (c : Cursor) : Nat := c.before.foldr (fun x n => x.utf8Size + n) 0

/-- The text around the position, all of it. -/
def text (c : Cursor) : List Char := c.before.reverse ++ c.after

/-- Passes over a phrase if it is what follows. -/
def pass? : List Char → Cursor → Option Cursor
  | [], c => some c
  | x :: phrase, ⟨before, y :: after⟩ => if x = y then pass? phrase ⟨y :: before, after⟩ else none
  | _ :: _, ⟨_, []⟩ => none

/-- Passes over the characters of a class, as many as follow. -/
def span (p : Char → Bool) (c : Cursor) : List Char × Cursor :=
  let run := c.after.takeWhile p
  (run, ⟨run.reverse ++ c.before, c.after.dropWhile p⟩)

/-- Where the cursor stands while it passes over trivia. -/
inductive Trivia where
  | between
  | line
  /-- In a comment that started at the given place. -/
  | block (start : Cursor)

/-- Passes over trivia. -/
def skipTrivia : Trivia → List Char → List Char → Except SyntaxError Cursor
  | .between, before, '/' :: '*' :: after =>
    skipTrivia (.block ⟨before, '/' :: '*' :: after⟩) ('*' :: '/' :: before) after
  | .between, before, '#' :: after => skipTrivia .line ('#' :: before) after
  | .between, before, c :: after =>
    if Text.isBlank c then skipTrivia .between (c :: before) after else .ok ⟨before, c :: after⟩
  | .between, before, [] => .ok ⟨before, []⟩
  | .line, before, '\n' :: after => skipTrivia .between ('\n' :: before) after
  | .line, before, c :: after => skipTrivia .line (c :: before) after
  | .line, before, [] => .ok ⟨before, []⟩
  | .block _, before, '*' :: '/' :: after => skipTrivia .between ('/' :: '*' :: before) after
  | .block start, before, c :: after => skipTrivia (.block start) (c :: before) after
  | .block start, _, [] => .error ⟨.comment, "expected '*/'", start.offset⟩
termination_by structural _ _ after => after

end Cursor

end JsonPipe
