import JsonPipe.Number.Text
import JsonPipe.Text.Quoted
import JsonPipe.Value.Basic

/-! Values as text.

    The JSON text is compact, with the keys of objects in order; functions and numbers that JSON
    lacks are `null`. The display text is for people: it has spaces after commas and colons, every
    digit of a number in its place, and shows functions by their parameters or name. -/

namespace JsonPipe

namespace Text

/-- Texts with a separator in between. -/
def joined (separator : String) (texts : List String) : String := separator.intercalate texts

end Text

mutual

/-- Compact JSON, in front of the text that comes after it. -/
def Value.jsonText : Value → List Char → List Char
  | .null, rest => "null".toList ++ rest
  | .bool true, rest => "true".toList ++ rest
  | .bool false, rest => "false".toList ++ rest
  | .number n, rest => n.jsonText ++ rest
  | .string s, rest => Text.jsonText s ++ rest
  | .array items, rest => '[' :: itemsText items (']' :: rest)
  | .object entries, rest => '\x7b' :: entriesText entries ('\x7d' :: rest)
  | .function _, rest => "null".toList ++ rest
termination_by structural x => x

/-- The elements of an array in JSON, with commas in between. -/
def itemsText : List Value → List Char → List Char
  | [], rest => rest
  | [v], rest => v.jsonText rest
  | v :: more, rest => v.jsonText (',' :: itemsText more rest)
termination_by structural x => x

/-- The entries of an object in JSON, with commas in between. -/
def entriesText : List (String × Value) → List Char → List Char
  | [], rest => rest
  | [(k, v)], rest => Text.jsonText k ++ ':' :: v.jsonText rest
  | (k, v) :: more, rest => Text.jsonText k ++ ':' :: v.jsonText (',' :: entriesText more rest)
termination_by structural x => x

end

/-- Compact JSON. -/
def Value.json (v : Value) : String := String.ofList (v.jsonText [])

mutual

/-- The display text. -/
def Value.display : Value → String
  | .null => "null"
  | .bool b => if b then "true" else "false"
  | .number n => n.display
  | .string s => Text.display s
  | .array items => "[" ++ Text.joined ", " (displayItems items) ++ "]"
  | .object entries => "\x7b" ++ Text.joined ", " (displayEntries entries) ++ "\x7d"
  | .function (.closure params _ _) => "<function(" ++ Text.joined ", " params ++ ")>"
  | .function (.builtin b) => "<native " ++ b.name ++ ">"
termination_by structural x => x

/-- The display texts of the elements of an array. -/
def displayItems : List Value → List String
  | [] => []
  | v :: rest => v.display :: displayItems rest
termination_by structural x => x

/-- The display texts of the entries of an object. -/
def displayEntries : List (String × Value) → List String
  | [] => []
  | (k, v) :: rest => (Text.display k ++ ": " ++ v.display) :: displayEntries rest
termination_by structural x => x

end

/-- The text that a value has inside another text: a string as it is, anything else as JSON. -/
def Value.text : Value → String
  | .string s => s
  | v => v.json

/-- The names of each frame of a scope, the innermost first. -/
def Scope.display (scope : Scope) : String :=
  let frames := scope.map fun frame =>
    "[" ++ Text.joined ", " ((Entries.keys frame).map Text.display) ++ "]"
  "[" ++ Text.joined ", " frames ++ "]"

end JsonPipe
