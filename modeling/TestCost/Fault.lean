import TestCost.ClassFile.Fault

/-!
# Faults of classes

Why a class cannot be loaded: there is none of that name, its file cannot
be read or parsed, or something in it is wrong. A fault within the body of
a method names the method and the line that decoding had come to.
-/

namespace TestCost

/-- Why a class cannot be loaded. -/
inductive LoadFault where
  | notFound (name : String)
  /-- The bytes of the class cannot be had. -/
  | unreadable (name why : String)
  /-- The bytes are no class file. -/
  | malformed (name : String) (fault : ClassFile.Fault)
  /-- A declaration refers to something wrong. -/
  | declaration (fault : CodeFault)
  /-- The body of a method is wrong. -/
  | body (owner signature : String) (line : Nat) (fault : CodeFault)

namespace LoadFault

/-- The fault as it is shown to a reader. -/
def message : LoadFault → String
  | notFound name => "class '" ++ name ++ "' was not found"
  | unreadable name why => "failed to read class '" ++ name ++ "': " ++ why
  | malformed name fault =>
    "failed to parse class '" ++ name ++ "': " ++ fault.message
  | declaration fault => fault.message
  | body owner signature line fault =>
    owner ++ "." ++ signature ++ " (line " ++ toString line ++ "): " ++
      fault.message

/-- The class that is not there, when that is the fault. -/
def missingClass? : LoadFault → Option String
  | notFound name => some name
  | _ => none

end LoadFault

end TestCost
