import TestCost.Total

/-!
# Parts of texts

Beginnings, endings and separated parts of texts, and how many bytes they
take, each defined on the list of characters of a text.
-/

namespace TestCost

namespace Text

/-- Number of bytes of a text in UTF-8. -/
def byteLength (text : String) : Nat := total (text.toList.map Char.utf8Size)

/-- One text is the beginning of another. -/
def startsWith (text start : String) : Bool :=
  start.toList.isPrefixOf text.toList

/-- One text is the ending of another. -/
def endsWith (text ending : String) : Bool :=
  ending.toList.isSuffixOf text.toList

/-- A text without an ending, if it has it. -/
def withoutEnding? (text ending : String) : Option String :=
  if endsWith text ending then
    some (String.ofList
      (text.toList.take (text.toList.length - ending.toList.length)))
  else none

/-- The parts of a text between separators. There is one part more than
there are separators. -/
def splitChars (separator : Char) : List Char → List (List Char)
  | [] => [[]]
  | c :: rest =>
    if c = separator then [] :: splitChars separator rest
    else
      match splitChars separator rest with
      | [] => [[c]]
      | part :: parts => (c :: part) :: parts

/-- The parts of a text between separators. -/
def splitOn (separator : Char) (text : String) : List String :=
  (splitChars separator text.toList).map String.ofList

end Text

end TestCost
