import TestCost.ClassName
import TestCost.Text.Blank
import TestCost.Text.Parts

/-!
# Whitelists

Calls into some packages never count against a class: those of the
standard library, and those that a run is told to leave alone. A whitelist
is a list of prefixes of class names.
-/

namespace TestCost

/-- Prefixes of the names of classes whose cost is ignored. -/
structure Whitelist where
  prefixes : List String

namespace Whitelist

/-- The standard library, which is always there. -/
def standard : Whitelist := { prefixes := ["java."] }

/-- Add a prefix, in dotted form and without blanks around it; an empty or
known one changes nothing. -/
def add (w : Whitelist) (pre : String) : Whitelist :=
  let pre := ClassName.dotted (Text.trimmed pre)
  if pre.isEmpty || w.prefixes.contains pre then w
  else { w with prefixes := w.prefixes ++ [pre] }

/-- The standard library and the prefixes of a list that colons separate. -/
def ofText (text : Option String) : Whitelist :=
  match text with
  | none => standard
  | some text => (Text.splitOn ':' text).foldl add standard

/-- The class is one whose cost is ignored. -/
def covers (w : Whitelist) (name : String) : Bool :=
  w.prefixes.any (Text.startsWith name)

end Whitelist

end TestCost
