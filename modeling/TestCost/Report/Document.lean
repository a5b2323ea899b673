/-!
# Documents

Structured reports are JSON documents. A document keeps the order of its
members, and is written with one item a line, indented by two columns for
each level.
-/

namespace TestCost

/-- A JSON document without numbers other than naturals. -/
inductive Document where
  | text (value : String)
  | number (value : Nat)
  | boolean (value : Bool)
  | list (items : List Document)
  | record (members : List (String × Document))

namespace Document

/-- A digit of four in an escape. -/
private def hexDigits (n : Nat) : List Char :=
  let digits := Nat.toDigits 16 n
  List.replicate (4 - digits.length) '0' ++ digits

/-- What stands for a character in a text: quotes, backslashes and controls
are escaped, all else stands for itself. -/
def escapedChar (c : Char) : List Char :=
  match c with
  | '"' => ['\\', '"']
  | '\\' => ['\\', '\\']
  | '\n' => ['\\', 'n']
  | '\r' => ['\\', 'r']
  | '\t' => ['\\', 't']
  | '\x08' => ['\\', 'b']
  | '\x0c' => ['\\', 'f']
  | c => if c.toNat < 0x20 then ['\\', 'u'] ++ hexDigits c.toNat else [c]

/-- A text with its quotes. -/
def escaped (value : String) : String :=
  String.ofList ('"' :: value.toList.flatMap escapedChar ++ ['"'])

/-- A line break and the indentation of a level. -/
def newLine (level : Nat) : String :=
  "\n" ++ String.ofList (List.replicate (2 * level) ' ')

/-- Items between brackets, one a line. -/
def enclosed (opening closing : String) (level : Nat) (items : List String) :
    String :=
  if items.isEmpty then opening ++ closing
  else
    opening ++ String.intercalate "," (items.map (newLine (level + 1) ++ ·)) ++
      newLine level
      ++ closing

mutual

/-- The document as it is written at a level. -/
def render (level : Nat) : Document → String
  | text value => escaped value
  | number value => toString value
  | boolean value => if value then "true" else "false"
  | list items => enclosed "[" "]" level (renderItems (level + 1) items)
  | record members =>
    enclosed "\x7b" "\x7d" level (renderMembers (level + 1) members)

/-- Items as they are written at a level. -/
def renderItems (level : Nat) : List Document → List String
  | [] => []
  | item :: items => render level item :: renderItems level items

/-- Members as they are written at a level. -/
def renderMembers (level : Nat) : List (String × Document) → List String
  | [] => []
  | (name, value) :: members =>
    (escaped name ++ ": " ++ render level value) :: renderMembers level members

end

/-- The document as a text. -/
def toText (d : Document) : String := d.render 0

end Document

end TestCost
