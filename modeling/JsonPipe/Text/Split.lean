/-! Cutting a text at every occurrence of a separator, from left to right without overlap. -/

namespace JsonPipe.Text

/-- The parts of the rest of a text, given the part read so far in reverse and how many characters
    of a separator are still to be passed over. -/
def splitFrom (separator : List Char) : Nat → List Char → List Char → List (List Char)
  | _, part, [] => [part.reverse]
  | skip + 1, part, _ :: cs => splitFrom separator skip part cs
  | 0, part, c :: cs =>
    if separator.isPrefixOf (c :: cs) then
      part.reverse :: splitFrom separator (separator.length - 1) [] cs
    else splitFrom separator 0 (c :: part) cs

/-- The parts of a text between the occurrences of a separator that is not empty. -/
def splitAtEach (separator text : List Char) : List (List Char) := splitFrom separator 0 [] text

/-- The parts of a text: none of the empty text, its characters if the separator is empty, and
    else what stands between the separators. -/
def split (separator text : String) : List String :=
  if text.isEmpty then []
  else if separator.isEmpty then text.toList.map fun c => String.ofList [c]
  else (splitAtEach separator.toList text.toList).map String.ofList

end JsonPipe.Text
