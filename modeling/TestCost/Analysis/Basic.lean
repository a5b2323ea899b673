import TestCost.Cost.Class
import TestCost.Repository
import TestCost.Whitelist

/-!
# The state of an analysis

The analysis of a class traces two facts about variables through the
statements of methods. A variable is *injectable* when a test can decide
what it holds, and *global* when what it holds outlives the test. Both
flow along assignments, in the order in which the analysis meets them: a
value that becomes injectable later does not reach back to variables it
was assigned to before.

A static field is global from the start. A write through a receiver that
is global, or without a receiver, touches global state: it is recorded as
a cost and makes the field global. A write into an element touches global
state only when the array is global.
-/

namespace TestCost

/-- An analysis of one class under way. -/
structure Analysis where
  repository : Repository
  whitelist : Whitelist
  /-- The analysed class. -/
  className : String
  /-- Variables that a test can decide about. -/
  injectables : List Variable := []
  /-- Variables found to hold global state. -/
  globals : List Variable := []
  graph : CostGraph := {}
  /-- Methods that have a node and are still to be analysed, the next one
  first, each with the class that it was found in. -/
  queue : List (ClassModel × String) := []
  /-- Classes that could not be loaded, in the order met. -/
  missing : List MissingClass := []

namespace Analysis

/-- Add a variable that is not among those known. -/
def remember (known : List Variable) (v : Variable) : List Variable :=
  if known.contains v then known else v :: known

def isInjectable (a : Analysis) (v : Variable) : Bool :=
  a.injectables.contains v

def isGlobal (a : Analysis) (v : Variable) : Bool :=
  v.isStatic || a.globals.contains v

def setInjectable (a : Analysis) (v : Variable) : Analysis :=
  { a with injectables := remember a.injectables v }

def setGlobal (a : Analysis) (v : Variable) : Analysis :=
  { a with globals := remember a.globals v }

/-- A test can pass any receiver and any arguments. -/
def setMethodInjectable (a : Analysis) (m : Method) : Analysis :=
  (m.receiver.toList ++ m.parameters).foldl setInjectable a

/-- A value flows from one variable into another. -/
def assign (a : Analysis) (target source : Variable) : Analysis :=
  let injected := if a.isInjectable source then a.setInjectable target else a
  if target.isStatic || a.isGlobal source then injected.setGlobal target
  else injected

/-- A method writes to global state. -/
def touch (a : Analysis) (writer : NodeId) (line : Nat) (target : Variable) :
    Analysis :=
  { a with graph := a.graph.addTouch writer line target }

/-- A method writes a field. -/
def putField (a : Analysis) (writer : NodeId) (line : Nat)
    (receiver : Option Variable) (target : Field) (value : Variable) :
    Analysis :=
  let target := Variable.field target
  let a := a.assign target value
  if receiver.all a.isGlobal then (a.touch writer line target).setGlobal target
  else a

/-- A method writes an element of an array. -/
def putElement (a : Analysis) (writer : NodeId) (line : Nat)
    (array value : Variable) : Analysis :=
  let a := a.assign array value
  if a.isGlobal array then a.touch writer line array else a

/-- Record a call. -/
def addCall (a : Analysis) (caller : NodeId) (line : Nat) (callee : NodeId) :
    Analysis :=
  { a with graph := a.graph.addCall caller line callee }

/-- Note an event. -/
def note (a : Analysis) (event : LogEvent) : Analysis :=
  { a with repository := a.repository.note event }

end Analysis

end TestCost
