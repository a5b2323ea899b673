import TestCost.ClassFile.Pool
import TestCost.Text.Quoted

/-!
# Faults of class files

Why the bytes of a class file cannot be read. The wording of a fault is
part of what the analysis reports about a class, down to the braces around
it: most faults are told as an input error that carries a quoted text.
-/

namespace TestCost

namespace ClassFile

/-- Why the bytes of a class file cannot be read. -/
inductive Fault where
  /-- The file does not start with the mark of a class file. -/
  | wrongMagic
  /-- The file ends within the integer that starts at `start`. -/
  | integerPastEnd (start length : Nat)
  /-- The file ends within a block that should end at `stop`. -/
  | blockPastEnd (stop length : Nat)
  /-- The file goes on after the class. -/
  | leftover (length position : Nat)
  | unknownPoolTag (tag : Nat)
  /-- The bytes of a pool entry are no text. -/
  | notText
  /-- The name of an attribute is no entry of the pool. -/
  | nameMissing (index : Nat)
  /-- The name of an attribute is an entry that holds no text. -/
  | nameNotText (entry : PoolEntry)
  | unknownAttribute (name : String)
  | unknownElementTag (tag : Nat)
  | unknownFrameType (frameType : Nat)
  | unknownVerificationTag (tag : Nat)

namespace Fault

/-- A text told as an input error of some kind. -/
private def told (kind text : String) : String :=
  "Error(Io(Custom \x7b kind: " ++ kind ++ ", error: " ++ text ++ " \x7d))"

/-- The input itself is wrong. -/
private def invalidInput (text : String) : String :=
  told "InvalidInput" (Text.quoted text)

/-- What the input stands for is wrong. -/
private def invalidData (text : String) : String :=
  told "InvalidData" (Text.quoted text)

/-- The fault as it is shown to a reader. -/
def message : Fault → String
  | wrongMagic => "Error(InvalidInput(\"Not a valid class-file\"))"
  | integerPastEnd start length =>
    invalidInput ("overflow : attempt to read from " ++ toString start ++
      " whereas len is "
      ++ toString length)
  | blockPastEnd stop length =>
    invalidInput ("Index out of bounds: " ++ toString stop ++ " of " ++
      toString length)
  | leftover length position =>
    invalidInput ("Not all was read : data.len() is " ++ toString length ++
      ", start_from is "
      ++ toString position)
  | unknownPoolTag tag => invalidInput ("unmatched tag: " ++ toString tag)
  | notText => told "InvalidData" "Cesu8DecodingError"
  | nameMissing index =>
    invalidData ("element not found at index " ++ toString index)
  | nameNotText entry =>
    invalidData ("element type is not Uint8 but " ++ entry.text)
  | unknownAttribute name => invalidData ("unmatched attribute: " ++ name)
  | unknownElementTag tag =>
    invalidData ("Unsupported element tag: " ++ toString tag)
  | unknownFrameType frameType =>
    invalidData ("Unsupported frame_type: " ++ toString frameType)
  | unknownVerificationTag tag =>
    invalidData ("tag " ++ toString tag ++ " is not valid")

end Fault

end ClassFile

end TestCost
