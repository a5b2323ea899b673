import TestCost.Text.Combining

/-!
# Quoted text

Text between double quotes, with an escape for every character that would
be lost or misread there: the quote and the backslash, tabulators and line
ends, and by its code point whatever has no glyph or is drawn on another.
-/

namespace TestCost

namespace Text

/-- The code point in braces, in hexadecimal without leading zeros. -/
def codePointEscape (c : Char) : List Char :=
  ['\\', 'u', '\x7b'] ++ Nat.toDigits 16 c.toNat ++ ['\x7d']

/-- What stands for a character between quotes. -/
def quotedChar (c : Char) : List Char :=
  match c with
  | '"' => ['\\', '"']
  | '\\' => ['\\', '\\']
  | '\n' => ['\\', 'n']
  | '\r' => ['\\', 'r']
  | '\t' => ['\\', 't']
  | '\x00' => ['\\', '0']
  | c => if isUnprintable c || isCombining c then codePointEscape c else [c]

/-- The text between quotes. -/
def quoted (text : String) : String :=
  String.ofList ('"' :: text.toList.flatMap quotedChar ++ ['"'])

end Text

end TestCost
