import TestCost.Variable

/-!
# Statements

A statement is what is left of an instruction when the operand stack is
taken away: an assignment or a call that names its variables. The analysis
of injectable and global variables sees a method only as a list of
statements.
-/

namespace TestCost

/-- A call, with the variables it is made on. -/
structure Invocation where
  line : Nat
  owner : String
  name : String
  descriptor : String
  /-- `none` for a static method. -/
  receiver : Option Variable
  arguments : List Variable

/-- Name and descriptor, which together find a method in a class. -/
def Invocation.signature (i : Invocation) : String := i.name ++ i.descriptor

/-- An effect of a method that outlives the instruction. -/
inductive Statement where
  /-- A value goes into a local. -/
  | assign (line : Nat) (target value : Variable)
  /-- A value goes into a field; there is no receiver for a static one. -/
  | putField (line : Nat) (receiver : Option Variable) (target : Field)
      (value : Variable)
  /-- A value goes into an element of an array. -/
  | putElement (line : Nat) (array index value : Variable)
  | invoke (call : Invocation)

namespace Statement

def line : Statement → Nat
  | assign line .. | putField line .. | putElement line .. => line
  | invoke call => call.line

/-- The statement as it is shown to a reader. -/
def text : Statement → String
  | assign _ target value => target.text ++ " <- " ++ value.text
  | putField _ (some receiver) target value =>
    receiver.text ++ "." ++ target.name ++ " <- " ++ value.text
  | putField _ none target value =>
    target.owner ++ "." ++ target.name ++ " <- " ++ value.text
  | putElement _ array index value =>
    array.text ++ "[" ++ index.text ++ "] <- " ++ value.text
  | invoke call =>
    let on := (call.receiver.map Variable.text).getD call.owner
    let arguments := String.intercalate ", " (call.arguments.map Variable.text)
    on ++ "." ++ call.name ++ call.descriptor ++ "(" ++ arguments ++ ")"

end Statement

end TestCost
