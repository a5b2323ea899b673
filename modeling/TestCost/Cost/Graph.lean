import TestCost.Method.Basic
import TestCost.Total

/-!
# Cost graphs

A cost graph has a node for every method that an analysis has met: what
the branching of the method itself costs, the writes to global state it
makes, and the calls that a test of it cannot intercept. Calls may form
cycles.

The total cost of a method is the sum of the own costs of all methods that
can be reached from it by calls, itself included, each counted once.
`CostGraph.link` computes it for every node.

## Main results

* `length_discover` — what a step of the search finds and what it leaves
  unseen make up what was unseen before, which is why the search ends.
-/

namespace TestCost

/-- A position in the list of nodes. -/
abbrev NodeId := Nat

/-- A call at a source line. -/
structure Call where
  line : Nat
  callee : NodeId
  deriving DecidableEq, Inhabited

/-- A write to global state at a source line. -/
structure Touch where
  line : Nat
  /-- What is written, as it is shown to a reader. -/
  target : String
  deriving DecidableEq, Inhabited

/-- The cost of one method. -/
structure MethodCost where
  owner : String
  signature : String
  startingLine : Nat
  /-- What the branching of the method itself costs. -/
  ownComplexity : Nat
  calls : List Call := []
  touches : List Touch := []
  /-- Complexity over all methods reached, as of the last linking. -/
  totalComplexity : Nat := 0
  /-- Writes to global state over all methods reached, likewise. -/
  totalGlobals : Nat := 0
  deriving Inhabited

namespace MethodCost

def fullName (m : MethodCost) : String := m.owner ++ "." ++ m.signature

/-- Writes to global state that the method itself makes. -/
def ownGlobals (m : MethodCost) : Nat := m.touches.length

/-- The node as it is shown to a reader: own costs, then totals. -/
def text (m : MethodCost) : String :=
  m.fullName ++ " [" ++ toString m.ownComplexity ++ ", " ++
    toString m.ownGlobals ++ " / "
    ++ toString m.totalComplexity ++ ", " ++ toString m.totalGlobals ++ "]"

/-- One of the totals is at least `cost`. -/
def reaches (m : MethodCost) (cost : Nat) : Bool :=
  cost ≤ m.totalComplexity || cost ≤ m.totalGlobals

end MethodCost

/-- The methods that an analysis has met, and their calls. -/
structure CostGraph where
  nodes : Array MethodCost := #[]

namespace CostGraph

/-- The node of the method with this full name. -/
def find? (g : CostGraph) (fullName : String) : Option NodeId :=
  g.nodes.findIdx? fun m => m.fullName == fullName

/-- The node of a method, a new one if it has none. -/
def add (g : CostGraph) (m : Method) : CostGraph × NodeId :=
  match g.find? m.fullName with
  | some id => (g, id)
  | none =>
    ({ nodes := g.nodes.push
        { owner := m.owner, signature := m.signature,
          startingLine := m.startingLine
          ownComplexity := m.ownCost } }, g.nodes.size)

/-- The node at a position; one without costs outside the graph. -/
def node (g : CostGraph) (id : NodeId) : MethodCost := g.nodes.getD id default

/-- Record a call. -/
def addCall (g : CostGraph) (caller : NodeId) (line : Nat) (callee : NodeId) :
    CostGraph :=
  { nodes := g.nodes.modify caller fun m =>
      { m with calls := m.calls ++ [{ line, callee }] } }

/-- Record a write to global state. -/
def addTouch (g : CostGraph) (writer : NodeId) (line : Nat)
    (target : Variable) : CostGraph :=
  { nodes := g.nodes.modify writer fun m =>
      { m with touches := m.touches ++ [{ line, target := target.text }] } }

/-- The methods that a method calls, in order. -/
def callees (g : CostGraph) (id : NodeId) : List NodeId :=
  (g.node id).calls.map Call.callee

/-- Those of `targets` that are unseen, each once, and what is still unseen
after them. -/
def discover (unseen : List NodeId) : List NodeId → List NodeId × List NodeId
  | [] => ([], unseen)
  | target :: targets =>
    if target ∈ unseen then
      let (found, left) := discover (unseen.erase target) targets
      (target :: found, left)
    else discover unseen targets

theorem length_discover (unseen targets : List NodeId) :
    (discover unseen targets).1.length + (discover unseen targets).2.length =
      unseen.length := by
  induction targets generalizing unseen with
  | nil => simp [discover]
  | cons target targets ih =>
    unfold discover
    split
    · next h =>
      have := ih (unseen.erase target)
      have := List.length_pos_of_mem h
      rw [List.length_erase_of_mem h] at *
      simp only [List.length_cons]
      omega
    · exact ih unseen

/-- Search from the methods in `work`, last found first. `found` are the
methods reached so far, in the order in which they were found. -/
def search (g : CostGraph) (unseen work found : List NodeId) : List NodeId :=
  match work with
  | [] => found
  | id :: rest =>
    let step := discover unseen (g.callees id)
    g.search step.2 (step.1.reverse ++ rest) (found ++ step.1)
termination_by (unseen.length, work.length)
decreasing_by
  have h := length_discover unseen (g.callees id)
  by_cases hempty : (discover unseen (g.callees id)).1.length = 0
  · have hsame : (discover unseen (g.callees id)).2.length = unseen.length := by
      omega
    rw [hsame]
    apply Prod.Lex.right
    simp [List.eq_nil_of_length_eq_zero hempty]
  · apply Prod.Lex.left
    omega

/-- The methods that can be reached from one by calls, that one first. -/
def reachable (g : CostGraph) (id : NodeId) : List NodeId :=
  g.search ((List.range g.nodes.size).erase id) [id] [id]

/-- Compute the totals of every node. -/
def link (g : CostGraph) : CostGraph :=
  { nodes := g.nodes.mapIdx fun id m =>
      let reached := (g.reachable id).map g.node
      { m with
        totalComplexity := total (reached.map MethodCost.ownComplexity)
        totalGlobals := total (reached.map MethodCost.ownGlobals) } }

end CostGraph

end TestCost
