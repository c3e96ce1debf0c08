import JsonPipe.Number.Arithmetic
import JsonPipe.Number.Text
import JsonPipe.Syntax.Instruction
import JsonPipe.Text.Quoted

/-! Programs as text.

    Every operand is written in parentheses, which the grammar splices away again, so the text of a
    program reads as that program. Numbers that no literal stands for are written as expressions
    with their value, and the instruction without outputs as the elements of an empty array. -/

namespace JsonPipe

namespace Source

/-- A number, or an expression with its value. -/
def numberText (n : Number) : List Char :=
  match n with
  | .nan => "(1e999 - 1e999)".toList
  | .infinite false => "1e999".toList
  | .infinite true => "-(1e999)".toList
  | .finite false m => (Number.displayDigits m).plain
  | .finite true m => "-(".toList ++ (Number.displayDigits m).plain ++ ")".toList

/-- The inside of a string. -/
def stringText (s : String) : List Char := s.toList.flatMap (Text.escape Text.isControl)

/-- A question mark after what is optional. -/
def markText (optional : Bool) (rest : List Char) : List Char :=
  if optional then '?' :: rest else rest

/-- An operator between spaces. -/
def operatorText (symbol : String) (rest : List Char) : List Char :=
  ' ' :: symbol.toList ++ ' ' :: rest

/-- The names of parameters, with commas in between. -/
def paramsText : List String → List Char → List Char
  | [], rest => rest
  | [name], rest => name.toList ++ rest
  | name :: more, rest => name.toList ++ ", ".toList ++ paramsText more rest

/-- The name and parameters of a function, up to its body. -/
def headText (name : String) (params : List String) (rest : List Char) : List Char :=
  "func ".toList ++ name.toList ++ '(' :: paramsText params ("): ".toList ++ rest)

mutual

/-- The instructions joined by pipes, in front of the text that comes after them; the empty
    pipeline is a point. -/
def pipelineText : List Instruction → List Char → List Char
  | [], rest => '.' :: rest
  | [i], rest => instructionText i rest
  | i :: more, rest => instructionText i (" | ".toList ++ pipelineText more rest)
termination_by structural x => x

/-- The text of an instruction, in front of the text that comes after it. -/
def instructionText : Instruction → List Char → List Char
  | .null, rest => "null".toList ++ rest
  | .bool true, rest => "true".toList ++ rest
  | .bool false, rest => "false".toList ++ rest
  | .number n, rest => numberText n ++ rest
  | .string s, rest => '"' :: stringText s ++ '"' :: rest
  | .interpolated parts after, rest => '"' :: partsText parts (stringText after ++ '"' :: rest)
  | .variable name, rest => name.toList ++ rest
  | .define name [.function params body], rest =>
    headText name params ('(' :: pipelineText body (')' :: rest))
  | .define name [.assign [.variable v] path op value], rest =>
    if v = name ∧ ¬ (path.isEmpty ∧ op = .set) then
      name.toList ++
        pathText path (operatorText op.symbol ('(' :: pipelineText value (')' :: rest)))
    else
      name.toList ++ " = ((".toList ++ v.toList ++ ')' ::
        pathText path (operatorText op.symbol ('(' :: pipelineText value (')' :: ')' :: rest)))
  | .define name body, rest => name.toList ++ " = (".toList ++ pipelineText body (')' :: rest)
  | .function params body, rest => headText "" params ('(' :: pipelineText body (')' :: rest))
  | .access [] path, rest => '.' :: pathText path rest
  | .access base path, rest => '(' :: pipelineText base (')' :: pathText path rest)
  | .assign [] path op value, rest =>
    '.' :: pathText path (operatorText op.symbol ('(' :: pipelineText value (')' :: rest)))
  | .assign base path op value, rest =>
    '(' :: pipelineText base (')' ::
      pathText path (operatorText op.symbol ('(' :: pipelineText value (')' :: rest))))
  | .calculate base steps, rest => '(' :: pipelineText base (')' :: arithmeticText steps rest)
  | .compare base steps, rest => '(' :: pipelineText base (')' :: comparisonText steps rest)
  | .branch arms none, rest => armsText "if " arms (" end".toList ++ rest)
  | .branch arms (some p), rest =>
    armsText "if " arms (" else (".toList ++ pipelineText p (") end".toList ++ rest))
  | .and operands, rest => operandsText " and " operands rest
  | .or operands, rest => operandsText " or " operands rest
  | .coalesce operands, rest => operandsText " ?? " operands rest
  | .concat operands, rest => operandsText ", " operands rest
  | .negate, rest => "-.".toList ++ rest
  | .not, rest => "not .".toList ++ rest
  | .attempt body [.void], rest => "try (".toList ++ pipelineText body (')' :: rest)
  | .attempt body handler, rest =>
    "try (".toList ++ pipelineText body (") catch (".toList ++ pipelineText handler (')' :: rest))
  | .array [.void], rest => "[]".toList ++ rest
  | .array body, rest => '[' :: pipelineText body (']' :: rest)
  | .object fields, rest => '\x7b' :: fieldsText fields ('\x7d' :: rest)
  | .void, rest => "[][]".toList ++ rest
termination_by structural x => x

/-- Operands in parentheses, with a separator in between. -/
def operandsText (separator : String) : List (List Instruction) → List Char → List Char
  | [], rest => rest
  | [p], rest => '(' :: pipelineText p (')' :: rest)
  | p :: more, rest =>
    '(' :: pipelineText p (')' :: separator.toList ++ operandsText separator more rest)
termination_by structural x => x

/-- The texts and holes of an interpolated string, up to its last text. -/
def partsText : List (String × List Instruction) → List Char → List Char
  | [], rest => rest
  | (before, p) :: more, rest =>
    stringText before ++ '\\' :: '(' :: pipelineText p (')' :: partsText more rest)
termination_by structural x => x

/-- The selectors of a path; keys are written in brackets. -/
def pathText : List (Selector (List Instruction)) → List Char → List Char
  | [], rest => rest
  | .field key optional :: more, rest =>
    "[(".toList ++ pipelineText key (")]".toList ++ markText optional (pathText more rest))
  | .iterate optional :: more, rest => "[]".toList ++ markText optional (pathText more rest)
  | .slice start stop optional :: more, rest =>
    "[(".toList ++ pipelineText start ("):(".toList ++
      pipelineText stop (")]".toList ++ markText optional (pathText more rest)))
  | .call args bound optional :: more, rest =>
    (if bound then "->(".toList else "(".toList) ++
      operandsText ", " args (')' :: markText optional (pathText more rest))
termination_by structural x => x

/-- The steps of a calculation. -/
def arithmeticText : List (ArithmeticOp × List Instruction) → List Char → List Char
  | [], rest => rest
  | (op, p) :: more, rest =>
    operatorText op.symbol ('(' :: pipelineText p (')' :: arithmeticText more rest))
termination_by structural x => x

/-- The steps of a comparison. -/
def comparisonText : List (ComparisonOp × List Instruction) → List Char → List Char
  | [], rest => rest
  | (op, p) :: more, rest =>
    operatorText op.symbol ('(' :: pipelineText p (')' :: comparisonText more rest))
termination_by structural x => x

/-- The arms of a conditional, the first after `lead`. -/
def armsText (lead : String) : List (List Instruction × List Instruction) → List Char → List Char
  | [], rest => rest
  | (condition, body) :: more, rest =>
    lead.toList ++ '(' :: pipelineText condition (") then (".toList ++
      pipelineText body (')' :: armsText " elif " more rest))
termination_by structural x => x

/-- The fields of an object constructor, with commas in between. -/
def fieldsText : List (Field (List Instruction)) → List Char → List Char
  | [], rest => rest
  | [⟨key, value, optional⟩], rest =>
    '(' :: pipelineText key (')' :: markText optional (": (".toList ++
      pipelineText value (')' :: rest)))
  | ⟨key, value, optional⟩ :: more, rest =>
    '(' :: pipelineText key (')' :: markText optional (": (".toList ++
      pipelineText value (')' :: ", ".toList ++ fieldsText more rest)))
termination_by structural x => x

end

end Source

/-- The program as text. -/
def Pipeline.print (p : Pipeline) : String := String.ofList (Source.pipelineText p [])

end JsonPipe
