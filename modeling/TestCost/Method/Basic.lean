import TestCost.Statement

/-!
# Methods

A method as the analysis sees it: what its class declares about it, the
variables it has, the statements its body stands for, and how many ways
there are through it.
-/

namespace TestCost

/-- Who can call a member. -/
inductive Visibility where
  | publicAccess
  | protectedAccess
  | packageAccess
  | privateAccess
  deriving DecidableEq, Inhabited

/-- What a class declares about a method. -/
structure MethodHeader where
  owner : String
  name : String
  descriptor : String
  visibility : Visibility
  isStatic : Bool

namespace MethodHeader

/-- Name and descriptor, which tell the methods of a class apart. -/
def signature (h : MethodHeader) : String := h.name ++ h.descriptor

/-- Class, name and descriptor. -/
def fullName (h : MethodHeader) : String := h.owner ++ "." ++ h.signature

def isConstructor (h : MethodHeader) : Bool := h.name == "<init>"

def isStaticInitializer (h : MethodHeader) : Bool := h.name == "<clinit>"

def isPrivate (h : MethodHeader) : Bool := h.visibility == .privateAccess

/-- A subclass can replace the method, and with it a test. -/
def canOverride (h : MethodHeader) : Bool :=
  !h.isStatic && !h.isPrivate && !h.isConstructor

end MethodHeader

/-- A decoded method. -/
structure Method extends MethodHeader where
  /-- The receiver, which a static method has not. -/
  receiver : Option Variable
  parameters : List Variable
  locals : List Variable
  /-- One more than the number of branches, switch cases and typed
  handlers. -/
  complexity : Nat
  /-- The first source line, `0` when it is not known. -/
  startingLine : Nat
  statements : List Statement

namespace Method

/-- What the branching of the method itself costs; without branches it
costs nothing. -/
def ownCost (m : Method) : Nat := m.complexity - 1

/-- Number of parameters that a test can replace. -/
def referenceParameters (m : Method) : Nat :=
  (m.parameters.filter fun v => v.type.isReference).length

end Method

end TestCost
