/-!
# Blank characters

The characters with the Unicode property `White_Space`, and the removal of
them from both ends of a text. The set is wider than ASCII: it holds the
no-break space and the ideographic space, and not the zero-width space.
-/

namespace TestCost

namespace Text

/-- Code points with the property `White_Space`, as inclusive ranges. -/
def blankRanges : List (Nat × Nat) :=
  [(0x09, 0x0d), (0x20, 0x20), (0x85, 0x85), (0xa0, 0xa0), (0x1680, 0x1680),
   (0x2000, 0x200a), (0x2028, 0x2029), (0x202f, 0x202f), (0x205f, 0x205f),
     (0x3000, 0x3000)]

/-- The character has the property `White_Space`. -/
def isBlank (c : Char) : Bool :=
  blankRanges.any fun (first, last) => first ≤ c.toNat && c.toNat ≤ last

/-- The text without the blanks at its two ends. -/
def trimmed (text : String) : String :=
  let started := text.toList.dropWhile isBlank
  String.ofList (started.reverse.dropWhile isBlank).reverse

end Text

end TestCost
