import TestCost.Cost.Graph

/-!
# Costs of classes

The cost of a class is the cost of the methods it declares. Weights turn
complexity and global state into one figure, the overall cost.
-/

namespace TestCost

/-- A class that the analysis needed and could not load. -/
structure MissingClass where
  name : String
  /-- Why it could not be loaded, as it is shown to a reader. -/
  reason : String
  deriving DecidableEq

/-- The linked costs of the methods that a class declares. -/
structure ClassCost where
  name : String
  graph : CostGraph
  /-- The nodes of the methods, in the order of declaration. -/
  methods : List NodeId
  missing : List MissingClass

namespace ClassCost

/-- The costs of the methods, in the order of declaration. -/
def methodCosts (c : ClassCost) : List MethodCost := c.methods.map c.graph.node

def totalComplexity (c : ClassCost) : Nat :=
  total (c.methodCosts.map MethodCost.totalComplexity)

def totalGlobals (c : ClassCost) : Nat :=
  total (c.methodCosts.map MethodCost.totalGlobals)

/-- The largest complexity of a method, `0` without methods. -/
def highestComplexity (c : ClassCost) : Nat :=
  (c.methodCosts.map MethodCost.totalComplexity).foldl max 0

/-- The largest number of global writes of a method, `0` without methods. -/
def highestGlobals (c : ClassCost) : Nat :=
  (c.methodCosts.map MethodCost.totalGlobals).foldl max 0

/-- The class stands before another in a report, or level with it: the
more complex one first, then the one with more global state, then by
name. -/
def precedes (a b : ClassCost) : Bool :=
  if a.totalComplexity ≠ b.totalComplexity then b.totalComplexity <
    a.totalComplexity
  else if a.totalGlobals ≠ b.totalGlobals then b.totalGlobals < a.totalGlobals
  else !decide (b.name < a.name)

/-- Classes in the order of a report; level ones keep their order. -/
def sorted (classes : List ClassCost) : List ClassCost :=
  classes.mergeSort precedes

/-- The class as it is shown to a reader: its name, then its methods. -/
def text (c : ClassCost) : String :=
  String.join (c.name :: c.methodCosts.map fun m => "\n  " ++ m.text)

end ClassCost

/-- Weights of the two kinds of cost. -/
structure CostModel where
  complexityWeight : Float := 1.0
  globalWeight : Float := 10.0

/-- A count as a floating-point number. -/
def floatOfCount (n : Nat) : Float := n.toUInt64.toFloat

/-- The weighted cost of a class as a whole number; a half goes up. -/
def CostModel.overall (w : CostModel) (c : ClassCost) : Nat :=
  let weighted :=
    w.complexityWeight * floatOfCount c.totalComplexity
      + w.globalWeight * floatOfCount c.totalGlobals
  if weighted > 0 then weighted.round.toUInt64.toNat else 0

end TestCost
