import JsonPipe.Number.Decimal
import JsonPipe.Source.Reader
import JsonPipe.Syntax.Instruction

/-! Numbers and strings in program text.

    A number is read as the nearest double. A string has the escapes of JSON, with code points
    beyond the first plane as two escapes that form a surrogate pair, and may contain pipelines
    between `\(` and `)`. -/

namespace JsonPipe.Source

open Reader

/-! ### Numbers -/

/-- The whole number that digits stand for. -/
def digitsValue (ds : List Char) : Nat := ds.foldl (fun n d => n * 10 + (d.toNat - '0'.toNat)) 0

/-- The exponent after the digits of a number: nothing, or a letter, a sign and digits. -/
def exponent : Reader Int := do
  match ← takeOneOf "eE" with
  | none => return 0
  | some _ =>
    let sign ← takeOneOf "+-"
    let ds ← takeWhile Char.isDigit
    if ds.isEmpty then expected .number "expected digit"
    return if sign = some '-' then -(digitsValue ds : Int) else digitsValue ds

/-- A number, if one follows. -/
def number : Reader (Option Number) := do
  let whole ← takeWhile Char.isDigit
  if whole.isEmpty then return none
  let fraction ← match ← takeOneOf "." with
    | some _ => takeWhile Char.isDigit
    | none => pure []
  let power ← exponent
  skipTrivia
  return some (Decimal.toNumber ⟨digitsValue (whole ++ fraction), power - fraction.length⟩)

/-! ### Strings -/

/-- The value of a hexadecimal digit. -/
def hexValue? (c : Char) : Option Nat :=
  if c.isDigit then some (c.toNat - '0'.toNat)
  else if 'a' ≤ c ∧ c ≤ 'f' then some (c.toNat - 'a'.toNat + 10)
  else if 'A' ≤ c ∧ c ≤ 'F' then some (c.toNat - 'A'.toNat + 10)
  else none

/-- A hexadecimal digit. -/
def hexDigit : Reader Nat := do
  match (← peek).bind hexValue? with
  | some n =>
    let _ ← take
    return n
  | none => expected .string "expected hex digit"

/-- Four hexadecimal digits. -/
def hex4 : Reader Nat := do
  let a ← hexDigit
  let b ← hexDigit
  let c ← hexDigit
  let d ← hexDigit
  return ((a * 16 + b) * 16 + c) * 16 + d

/-- The first half of a surrogate pair. -/
def isHighSurrogate (n : Nat) : Bool := 0xd800 ≤ n && n < 0xdc00

/-- The second half of a surrogate pair. -/
def isLowSurrogate (n : Nat) : Bool := 0xdc00 ≤ n && n < 0xe000

/-- The character of a code, unless the code is half of a pair. -/
def charOfCode (n : Nat) : Reader Char :=
  if isHighSurrogate n || isLowSurrogate n then expected .string "invalid unicode escape"
  else return Char.ofNat n

/-- The character of an escape by its code, after the `u`. -/
def codeEscape : Reader Char := do
  let first ← hex4
  if isHighSurrogate first then
    if ← takePhrase "\\u" then
      let second ← hex4
      if isLowSurrogate second then
        return Char.ofNat (0x10000 + (first - 0xd800) * 1024 + (second - 0xdc00))
  charOfCode first

/-- The characters that have an escape of a single letter. -/
def shortEscapes : List (Char × Char) :=
  [('"', '"'), ('\\', '\\'), ('/', '/'), ('b', '\x08'), ('f', '\x0c'), ('n', '\n'), ('r', '\r'),
    ('t', '\t')]

/-- The character of an escape, after the backslash. -/
def escape : Reader Char := do
  match ← take with
  | some 'u' => codeEscape
  | some c =>
    match shortEscapes.lookup c with
    | some e => return e
    | none => expected .string "invalid escape sequence"
  | none => expected .string "invalid escape sequence"

/-- A piece of a string. -/
inductive Piece where
  | char (c : Char)
  | hole (p : Pipeline)

/-- The next piece of a string, or nothing at its end. -/
def piece (pipe : Reader Pipeline) : Reader (Option Piece) := do
  match ← take with
  | none => expected .string "expected '\"'"
  | some '"' => return none
  | some '\\' =>
    match ← takeOneOf "(" with
    | some _ =>
      skipTrivia
      let p ← pipe
      match ← takeOneOf ")" with
      | some _ => return some (.hole p)
      | none => expected .string "expected ')'"
    | none => return some (.char (← escape))
  | some c => return some (.char c)

/-- The pieces of a string as the holes, each with the text before it, and the text at the end;
    `text` is what has been seen of the next text, in reverse. -/
def assemble (text : List Char) : List Piece → List (String × Pipeline) × String
  | [] => ([], String.ofList text.reverse)
  | .char c :: more => assemble (c :: text) more
  | .hole p :: more =>
    let (parts, after) := assemble [] more
    ((String.ofList text.reverse, p) :: parts, after)

/-- A string, with its opening quote next. -/
def string (pipe : Reader Pipeline) : Reader Instruction := do
  let _ ← take
  let pieces ← many (piece pipe)
  skipTrivia
  return match assemble [] pieces with
    | ([], text) => .string text
    | (parts, after) => .interpolated parts after

end JsonPipe.Source
