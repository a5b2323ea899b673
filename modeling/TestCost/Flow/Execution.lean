import TestCost.Code.Fault
import TestCost.Flow.Order

/-!
# Symbolic execution

`FlowGraph.statements` runs the operand stack of a method symbolically and
answers the statements that its instructions stand for.

Every reachable block runs once, in the order of `FlowGraph.order`. It
starts with the stacks that earlier blocks left on the edges to it, and
leaves its own on the edges to blocks that have not run; what would flow
along an edge backwards is dropped. An operation meets every distinct list
of operands that some path leads to, and stands for one statement for each
of them. A handler starts over: the stacks of the protected code do not
reach it.
-/

namespace TestCost

/-- The first wide value that is not followed by its second half. -/
def unpairedWide? : List Variable → Option Variable
  | [] => none
  | v :: rest =>
    if v.type.isWide then
      match rest with
      | [] => some v
      | w :: rest => if w == v then unpairedWide? rest else some v
    else unpairedWide? rest

/-- An execution under way. -/
structure Execution where
  family : StackFamily Place Variable
  /-- Statements met so far, in order. -/
  statements : Array Statement := #[]
  /-- Blocks that have run. -/
  done : List BlockId := []
  /-- Edges that hold stacks for blocks that have not run, in the order in
  which they were left. -/
  pending : List Place := []

namespace Execution

/-- One empty stack on the entry block. -/
def start : Execution :=
  { family := StackFamily.init {} (.block FlowGraph.entry) }

/-- The statement that an operation stands for on one operand list, after
checking that the wide values it puts back come in pairs. -/
def emit (op : StackOp) (input : List Variable) :
    Except CodeFault (Option Statement) :=
  match op.statement? input with
  | none => .error (.missingOperand op.line)
  | some statement =>
    match unpairedWide? (op.results input) with
    | some v => .error (.unpairedWide v)
    | none => .ok statement

/-- Run one operation on the stacks of a place. -/
def runOp (here : Place) (x : Execution) (op : StackOp) :
    Except CodeFault Execution := do
  let (taken, family) ← (x.family.pop here op.operands op.results).mapError
    .stack
  let emitted ← taken.mapM (emit op)
  return { x with family, statements := x.statements ++ emitted.filterMap id }

/-- Take over the stacks that wait on the edges to a block. -/
def enter (x : Execution) (id : BlockId) : Except CodeFault Execution := do
  let (arrived, others) := x.pending.partition (Place.leadsTo id)
  let family ←
    if arrived.isEmpty then pure x.family
    else (x.family.join arrived (.block id)).mapError .stack
  return { x with family, pending := others, done := id :: x.done }

/-- Leave the stacks of a block on its edges to blocks that have not run. -/
def leave (x : Execution) (id : BlockId) (successors : List Edge) :
    Except CodeFault Execution := do
  let ahead := successors.filter fun e => !x.done.contains e.target
  let place (e : Edge) : Place := .edge id e.target e.kind
  let (caught, carried) := ahead.partition fun e => e.kind == .exception
  let fresh := (caught.map place).foldl StackFamily.init x.family
  let family ←
    if carried.isEmpty then (fresh.remove (.block id)).mapError .stack
    else
      match fresh.split (.block id) (carried.map place) with
      | (family, .ok ()) => .ok family
      | (_, .error fault) => .error (.stack fault)
  return { x with family, pending := x.pending ++ ahead.map place }

/-- Run one block. -/
def runBlock (g : FlowGraph) (x : Execution) (id : BlockId) :
    Except CodeFault Execution := do
  let block := g.block id
  let x ← x.enter id
  let x ← block.ops.foldlM (runOp (.block id)) x
  x.leave id block.successors

end Execution

/-- The execution of a whole graph. -/
def FlowGraph.execute (g : FlowGraph) : Except CodeFault Execution :=
  g.order.foldlM (Execution.runBlock g) Execution.start

/-- The statements that a method body stands for. -/
def FlowGraph.statements (g : FlowGraph) : Except CodeFault (List Statement) :=
  g.execute.map fun x => x.statements.toList

end TestCost
