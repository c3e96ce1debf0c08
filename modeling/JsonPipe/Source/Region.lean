import JsonPipe.Text.Blank

/-! Where in a program a piece of text stands.

    A program text is code with comments and strings in it. A string has escapes, and between `\(`
    and the parenthesis that closes it there is code again, so a parenthesis that is open has to be
    remembered as one of the code or as the start of a hole. -/

namespace JsonPipe

/-- What the characters at a place are part of. -/
inductive Region where
  | code
  /-- A comment up to the end of the line. -/
  | line
  /-- A comment up to the next `*/`. -/
  | block
  | string
  /-- Right after a backslash in a string. -/
  | escape
  deriving DecidableEq, Repr

/-- What a closing parenthesis closes. -/
inductive Opening where
  | group
  /-- Code in a string. -/
  | hole
  deriving DecidableEq, Repr

namespace Region

/-- The place at the end of a text that starts at the given place, with the given parentheses still
    open, the innermost first. -/
def scan : Region → List Opening → List Char → Region
  | .code, opened, '"' :: t => scan .string opened t
  | .code, opened, '#' :: t => scan .line opened t
  | .code, opened, '/' :: '*' :: t => scan .block opened t
  | .code, opened, '(' :: t => scan .code (.group :: opened) t
  | .code, .hole :: opened, ')' :: t => scan .string opened t
  | .code, opened, ')' :: t => scan .code opened.tail t
  | .code, opened, _ :: t => scan .code opened t
  | .line, opened, '\n' :: t => scan .code opened t
  | .line, opened, _ :: t => scan .line opened t
  | .block, opened, '*' :: '/' :: t => scan .code opened t
  | .block, opened, _ :: t => scan .block opened t
  | .string, opened, '"' :: t => scan .code opened t
  | .string, opened, '\\' :: t => scan .escape opened t
  | .string, opened, _ :: t => scan .string opened t
  | .escape, opened, '(' :: t => scan .code (.hole :: opened) t
  | .escape, opened, _ :: t => scan .string opened t
  | region, _, [] => region
termination_by structural _ _ t => t

/-- The place at the end of a program text. -/
def atEnd (source : String) : Region := scan .code [] source.toList

end Region

/-- White space and whole comments: what may stand between two tokens. -/
inductive IsTrivia : List Char → Prop
  | nil : IsTrivia []
  | blank {c : Char} {t : List Char} (hc : Text.isBlank c = true) (ht : IsTrivia t) :
      IsTrivia (c :: t)
  /-- A comment up to the end of the line. -/
  | line {body t : List Char} (hbody : '\n' ∉ body) (ht : IsTrivia t) :
      IsTrivia ('#' :: body ++ '\n' :: t)
  /-- A comment up to the first `*/`. -/
  | block {body t : List Char} (hbody : ¬ ['*', '/'] <:+: body) (ht : IsTrivia t) :
      IsTrivia ('/' :: '*' :: body ++ '*' :: '/' :: t)

end JsonPipe
