/-! Quoted text: a text between double quotes, with escapes.

    Three ways of quoting share the rule that a quote and a backslash are written after a backslash
    and differ in what else they escape: JSON escapes the characters below the space, programs
    escape every control character, and the display form writes code points in braces. -/

namespace JsonPipe.Text

/-- A hexadecimal digit. -/
def hexDigit (n : Nat) : Char := Nat.digitChar (n % 16)

/-- Four hexadecimal digits. -/
def hex4 (n : Nat) : List Char :=
  [hexDigit (n / 4096), hexDigit (n / 256), hexDigit (n / 16), hexDigit n]

/-- The control characters of Unicode. -/
def isControl (c : Char) : Bool := c.toNat < 0x20 || (0x7f ≤ c.toNat && c.toNat < 0xa0)

/-- The escapes of a single letter, which JSON and programs share. -/
def shortEscape? (c : Char) : Option Char :=
  if c = '"' then some '"'
  else if c = '\\' then some '\\'
  else if c = '\n' then some 'n'
  else if c = '\r' then some 'r'
  else if c = '\t' then some 't'
  else if c = '\x08' then some 'b'
  else if c = '\x0c' then some 'f'
  else none

/-- A character as it stands in a quoted text: by its short escape, by its code if it must be
    escaped, or as it is. -/
def escape (must : Char → Bool) (c : Char) : List Char :=
  match shortEscape? c with
  | some e => ['\\', e]
  | none => if must c then '\\' :: 'u' :: hex4 c.toNat else [c]

/-- A text between quotes. -/
def quote (must : Char → Bool) (cs : List Char) : List Char :=
  '"' :: cs.flatMap (escape must) ++ ['"']

/-- JSON escapes the characters below the space. -/
def jsonEscaped (c : Char) : Bool := c.toNat < 0x20

/-- A JSON string. -/
def jsonText (s : String) : List Char := quote jsonEscaped s.toList

/-- A character as it stands in a displayed text. -/
def displayEscape (c : Char) : List Char :=
  if c = '"' then ['\\', '"']
  else if c = '\\' then ['\\', '\\']
  else if c = '\n' then ['\\', 'n']
  else if c = '\r' then ['\\', 'r']
  else if c = '\t' then ['\\', 't']
  else if c = '\x00' then ['\\', '0']
  else if isControl c then ['\\', 'u', '\x7b'] ++ Nat.toDigits 16 c.toNat ++ ['\x7d']
  else [c]

/-- The display form of a text. -/
def display (s : String) : String :=
  String.ofList ('"' :: s.toList.flatMap displayEscape ++ ['"'])

end JsonPipe.Text
