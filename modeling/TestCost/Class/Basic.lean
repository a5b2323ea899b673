import TestCost.Method.Basic

/-!
# Classes

A decoded class: its name and that of its superclass, its fields, and its
methods in the order of declaration.
-/

namespace TestCost

/-- A decoded class. -/
structure ClassModel where
  name : String
  superName : Option String
  fields : List Field
  methods : List Method

/-- The method with this name and descriptor. Should a class declare two,
the later one is found. -/
def ClassModel.method? (c : ClassModel) (signature : String) : Option Method :=
  c.methods.reverse.find? fun m => m.signature == signature

end TestCost
