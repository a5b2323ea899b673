import TestCost.ValueType

/-!
# Variables

A variable is what a value can flow into or out of: a parameter or a local
of one method, a field, or a constant. Locals are told apart by the method
they belong to and by the order in which they came up in it, so two locals
of one name stay different. A field is told apart by its owner and its
name alone: a reference to a field in code does not know whether the field
is private, and must still meet the declaration that does.

`Variable.identity` erases what does not tell variables apart, and `==` on
variables compares identities.

## Main results

* `beq_iff` — two variables are the same exactly when their identities
  are equal; the instances `ReflBEq` and so on follow from it.
-/

namespace TestCost

/-- A parameter or a local of one method. -/
structure LocalVariable where
  /-- Full name of the method. -/
  scope : String
  /-- Rank among the variables of the method, in order of appearance. -/
  ordinal : Nat
  name : String
  type : ValueType
  deriving DecidableEq, Inhabited

/-- A field of a class. -/
structure Field where
  owner : String
  name : String
  type : ValueType
  isStatic : Bool
  isPrivate : Bool
  deriving DecidableEq, Inhabited

/-- A value that is known when the code is read, or known to be untracked. -/
structure Constant where
  value : String
  type : ValueType
  deriving DecidableEq, Inhabited

/-- Result of a computation whose value is not tracked. -/
def Constant.unknown (type : ValueType) : Constant := { value := "?", type }

/-- A storage location or a value that flows through a method. -/
inductive Variable where
  | parameter (v : LocalVariable)
  | localVar (v : LocalVariable)
  | field (f : Field)
  | constant (c : Constant)
  deriving Inhabited

/-- What tells one field from another: its owner and its name. -/
def Field.identity (f : Field) : Field :=
  { owner := f.owner, name := f.name, type := .void, isStatic := false,
    isPrivate := false }

namespace Variable

/-- Kind of the values the variable holds. -/
def type : Variable → ValueType
  | parameter v | localVar v => v.type
  | field f => f.type
  | constant c => c.type

/-- A static field. -/
def isStatic : Variable → Bool
  | field f => f.isStatic
  | _ => false

/-- The variable as it is shown to a reader. -/
def text : Variable → String
  | parameter v | localVar v => v.name
  | field f => f.owner ++ "." ++ f.name
  | constant c => c.value

/-- What tells one variable from another. -/
def identity : Variable → Variable
  | field f => field f.identity
  | v => v

/-- Two mentions of one variable. -/
def same : Variable → Variable → Bool
  | parameter a, parameter b => a == b
  | localVar a, localVar b => a == b
  | field a, field b => a.owner == b.owner && a.name == b.name
  | constant a, constant b => a == b
  | _, _ => false

instance : BEq Variable := ⟨same⟩

theorem beq_iff (a b : Variable) :
    (a == b) = true ↔ a.identity = b.identity := by
  show same a b = true ↔ _
  cases a <;> cases b <;> simp [same, identity, Field.identity]

instance : ReflBEq Variable where
  rfl {a} := (beq_iff a a).2 rfl

instance : EquivBEq Variable where
  symm {a b} h := (beq_iff b a).2 ((beq_iff a b).1 h).symm
  trans {a b c} h k :=
    (beq_iff a c).2 (((beq_iff a b).1 h).trans ((beq_iff b c).1 k))

/-- The values that a variable takes on the stack: a wide one is there
twice and a void one not at all. -/
def onStack (v : Variable) : List Variable := List.replicate v.type.slots v

end Variable

end TestCost
