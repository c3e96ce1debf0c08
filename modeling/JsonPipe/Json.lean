import JsonPipe.Failure

/-! Host data: what a program is given and what it returns at its border.

    Host numbers are integers or finite fractions. On the way in every number becomes the nearest
    double. On the way out a whole number of magnitude below `2^53` becomes an integer again, other
    finite numbers stay fractions, functions become null, and a number that JSON lacks is
    refused. -/

namespace JsonPipe

/-- JSON data. -/
inductive Json where
  | null
  | bool (b : Bool)
  | integer (i : Int)
  | fraction (negative : Bool) (magnitude : Magnitude)
  | string (s : String)
  | array (items : List Json)
  | object (entries : List (String × Json))

instance : Inhabited Json := ⟨.null⟩

namespace Json

/-- The type of host data, as the type of the value that it becomes. -/
def kind : Json → Kind
  | .null => .null
  | .bool _ => .boolean
  | .integer _ | .fraction .. => .number
  | .string _ => .string
  | .array _ => .array
  | .object _ => .object

mutual

/-- Compact text, in front of the text that comes after it. -/
def jsonText : Json → List Char → List Char
  | .null, rest => "null".toList ++ rest
  | .bool true, rest => "true".toList ++ rest
  | .bool false, rest => "false".toList ++ rest
  | .integer i, rest => Number.integerText i ++ rest
  | .fraction negative m, rest => Number.signed negative (Number.fractionText m) ++ rest
  | .string s, rest => Text.jsonText s ++ rest
  | .array items, rest => '[' :: itemsText items (']' :: rest)
  | .object entries, rest => '\x7b' :: entriesText entries ('\x7d' :: rest)
termination_by structural x => x

/-- The elements of an array, with commas in between. -/
def itemsText : List Json → List Char → List Char
  | [], rest => rest
  | [j], rest => j.jsonText rest
  | j :: more, rest => j.jsonText (',' :: itemsText more rest)
termination_by structural x => x

/-- The entries of an object, with commas in between. -/
def entriesText : List (String × Json) → List Char → List Char
  | [], rest => rest
  | [(k, j)], rest => Text.jsonText k ++ ':' :: j.jsonText rest
  | (k, j) :: more, rest => Text.jsonText k ++ ':' :: j.jsonText (',' :: entriesText more rest)
termination_by structural x => x

end

/-- Compact text. -/
def text (j : Json) : String := String.ofList (j.jsonText [])

mutual

/-- The value of host data. -/
def toValue : Json → Value
  | .null => .null
  | .bool b => .bool b
  | .integer i => .number (.ofInt i)
  | .fraction negative m => .number (.finite negative m)
  | .string s => .string s
  | .array items => .array (toValues items)
  | .object entries => .object (Entries.ofList (toEntries entries))
termination_by structural x => x

/-- The values of the elements of an array. -/
def toValues : List Json → List Value
  | [] => []
  | j :: rest => j.toValue :: toValues rest
termination_by structural x => x

/-- The values of the entries of an object. -/
def toEntries : List (String × Json) → List (String × Value)
  | [] => []
  | (k, j) :: rest => (k, j.toValue) :: toEntries rest
termination_by structural x => x

end

/-- The values of a list of inputs; `name` says what the list is called. -/
def toInputs (name : String) : Json → Except Failure (List Value)
  | .array items => .ok (toValues items)
  | j => .error (.of (.normalization
      ("expected " ++ name ++ " to be an array, got " ++ j.kind.name)))

end Json

/-- The integer that a number becomes on the way out. -/
def Number.hostInteger? (n : Number) : Option Int := n.integer?.filter fun i => i.natAbs < pow2 53

/-- A number as host data. -/
def Number.toJson (n : Number) : Except Failure Json :=
  match n with
  | .finite negative m =>
    match n.hostInteger? with
    | some i => .ok (.integer i)
    | none => .ok (.fraction negative m)
  | _ => .error (.of (.normalization ("cannot represent " ++ n.display ++ " as JSON")))

mutual

/-- A value as host data. -/
def Value.toJson : Value → Except Failure Json
  | .null => .ok .null
  | .bool b => .ok (.bool b)
  | .number n => n.toJson
  | .string s => .ok (.string s)
  | .array items => return .array (← itemsToJson items)
  | .object entries => return .object (← entriesToJson entries)
  | .function _ => .ok .null
termination_by structural x => x

/-- The elements of an array as host data. -/
def itemsToJson : List Value → Except Failure (List Json)
  | [] => .ok []
  | v :: rest => return (← v.toJson) :: (← itemsToJson rest)
termination_by structural x => x

/-- The entries of an object as host data. -/
def entriesToJson : List (String × Value) → Except Failure (List (String × Json))
  | [] => .ok []
  | (k, v) :: rest => return (k, ← v.toJson) :: (← entriesToJson rest)
termination_by structural x => x

end

end JsonPipe
