import TestCost.StackEffect
import TestCost.Total

/-!
# Flow graphs

The flow graph of a method has a basic block for every straight run of
stack operations and an edge for every way control can leave a block. A
block is named by its position, and control enters at block `0`.

Operand stacks live in two kinds of places of a graph: on a block while it
runs, and on an edge until the target of the edge takes them over.
-/

namespace TestCost

/-- A position in the list of blocks. -/
abbrev BlockId := Nat

/-- How control comes to follow an edge. -/
inductive EdgeKind where
  | fallThrough
  | branch
  | exception
  deriving DecidableEq, Inhabited

def EdgeKind.text : EdgeKind → String
  | fallThrough => "FallThrough"
  | branch => "Branch"
  | exception => "Exception"

/-- A way out of a block. -/
structure Edge where
  target : BlockId
  kind : EdgeKind
  deriving DecidableEq, Inhabited

/-- A straight run of stack operations. -/
structure Block where
  /-- The name that the block was given when it was made. -/
  id : BlockId := 0
  ops : List StackOp := []
  successors : List Edge := []
  /-- The run ended by leaving the method: nothing is added to it. -/
  isTerminal : Bool := false
  deriving Inhabited

/-- The blocks of a method. -/
structure FlowGraph where
  blocks : Array Block

namespace FlowGraph

/-- The block at which control enters. -/
def entry : BlockId := 0

/-- The block of that position; a position outside the graph is an empty
block without successors. -/
def block (g : FlowGraph) (id : BlockId) : Block := g.blocks.getD id { id }

/-- Positions that the edges of a block lead to, in order. -/
def targets (g : FlowGraph) (id : BlockId) : List BlockId :=
  (g.block id).successors.map Edge.target

def edgeCount (g : FlowGraph) : Nat :=
  total (g.blocks.toList.map fun b => b.successors.length)

/-- Every edge leads to a block of the graph. -/
def WellFormed (g : FlowGraph) : Prop :=
  ∀ b ∈ g.blocks, ∀ e ∈ b.successors, e.target < g.blocks.size

end FlowGraph

/-- Where operand stacks live. -/
inductive Place where
  | block (id : BlockId)
  | edge (source target : BlockId) (kind : EdgeKind)
  deriving DecidableEq, Inhabited

namespace Place

/-- The place leads to that block. -/
def leadsTo (id : BlockId) : Place → Bool
  | edge _ target _ => target == id
  | block _ => false

/-- The place as it is shown to a reader. -/
def text : Place → String
  | block id => "Block(" ++ toString id ++ ")"
  | edge source target kind =>
    "Edge \x7b from: " ++ toString source ++ ", to: " ++ toString target
      ++ ", kind: " ++ kind.text ++ " \x7d"

end Place

end TestCost
