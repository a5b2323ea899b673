import TestCost.Flow.Graph

/-!
# Flow events

The body of a method, read in program order, is a list of flow events:
stack operations, jumps, labels, and protected ranges. `FlowGraph.ofEvents`
cuts that list into basic blocks.

A label owns one block from the first event that mentions it, be it the
label itself or a jump to it, so that a jump forward and the code it lands
on meet in one block. After a jump that cannot be passed, code belongs to
a fresh block that no edge leads to, until the next label.

The code at a handler or a subroutine starts with a value that the jump to
it leaves on the stack. That value is loaded by an operation put at the
start of the block, the *seed*; only the first seed of a label counts.
-/

namespace TestCost

/-- A code offset that control can be sent to. -/
abbrev Label := Nat

/-- One step of a method body, as control flow sees it. -/
inductive FlowEvent where
  /-- An operation; leaving the method ends the block. -/
  | op (op : StackOp)
  /-- A jump that is taken or passed. -/
  | branch (target : Label)
  /-- A jump that is always taken. -/
  | jump (target : Label)
  /-- A call of a subroutine that starts with its return address. -/
  | subroutine (target : Label) (returnAddress : StackOp)
  /-- A jump to one of the cases or to the default. -/
  | switch (default : Label) (cases : List Label)
  /-- The next event is at this label. -/
  | label (label : Label)
  /-- From this label on, exceptions go to a handler, which starts with the
  exception. -/
  | protect (start handler : Label) (exception : StackOp)

/-- A flow graph under construction. -/
structure FlowBuilder where
  blocks : Array Block
  /-- The block that takes the next operation. -/
  current : Option BlockId
  /-- The blocks that labels own. -/
  labelled : List (Label × BlockId)
  /-- Labels that have their seed. -/
  seeded : List Label

namespace FlowBuilder

/-- Only the entry block, which is the current one. -/
def start : FlowBuilder :=
  { blocks := #[{ id := FlowGraph.entry }], current := some FlowGraph.entry
    labelled := [], seeded := [] }

/-- A new block without operations, named by its position. -/
def addBlock (b : FlowBuilder) : FlowBuilder × BlockId :=
  ({ b with blocks := b.blocks.push { id := b.blocks.size } }, b.blocks.size)

/-- The current block, a new one if there is none. -/
def ensureCurrent (b : FlowBuilder) : FlowBuilder × BlockId :=
  match b.current with
  | some id => (b, id)
  | none =>
    let (b, id) := b.addBlock
    ({ b with current := some id }, id)

/-- The block that a label owns, a new one if the label is new. -/
def blockAt (b : FlowBuilder) (label : Label) : FlowBuilder × BlockId :=
  match b.labelled.lookup label with
  | some id => (b, id)
  | none =>
    let (b, id) := b.addBlock
    ({ b with labelled := (label, id) :: b.labelled }, id)

/-- The block that a label owns, with `op` at its start unless the label
has a seed already. -/
def seed (b : FlowBuilder) (label : Label) (op : StackOp) :
    FlowBuilder × BlockId :=
  let (b, id) := b.blockAt label
  if b.seeded.contains label then (b, id)
  else
    ({ b with
        blocks := b.blocks.modify id fun block =>
          { block with ops := op :: block.ops }
        seeded := label :: b.seeded }, id)

/-- Add an edge that the block does not have; a terminal block takes none. -/
def addEdge (b : FlowBuilder) (source : BlockId) (edge : Edge) : FlowBuilder :=
  { b with
    blocks := b.blocks.modify source fun block =>
      if block.isTerminal || block.successors.contains edge then block
      else { block with successors := block.successors ++ [edge] } }

def addOp (b : FlowBuilder) (op : StackOp) : FlowBuilder :=
  let (b, id) := b.ensureCurrent
  { b with
    blocks := b.blocks.modify id fun block =>
      { block with ops := block.ops ++ [op],
                   isTerminal := block.isTerminal || op.isTerminal }
    current := if op.isTerminal then none else b.current }

/-- Leave `source` for `target` by a jump that may be passed, and go on in
a new block. -/
def fork (b : FlowBuilder) (source target : BlockId) : FlowBuilder :=
  let (b, next) := b.addBlock
  let b := b.addEdge source { target := next, kind := .fallThrough }
  let b := b.addEdge source { target, kind := .branch }
  { b with current := some next }

/-- A branch edge to the block of a label. -/
def branchTo (source : BlockId) (b : FlowBuilder) (label : Label) :
    FlowBuilder :=
  let (b, target) := b.blockAt label
  b.addEdge source { target, kind := .branch }

/-- Take one event. -/
def step (b : FlowBuilder) : FlowEvent → FlowBuilder
  | .op op => b.addOp op
  | .branch target =>
    let (b, source) := b.ensureCurrent
    let (b, target) := b.blockAt target
    b.fork source target
  | .jump target =>
    let (b, source) := b.ensureCurrent
    { b.branchTo source target with current := none }
  | .subroutine target returnAddress =>
    let (b, source) := b.ensureCurrent
    let (b, target) := b.seed target returnAddress
    b.fork source target
  | .switch default cases =>
    let (b, source) := b.ensureCurrent
    { (cases ++ [default]).foldl (branchTo source) b with current := none }
  | .label label =>
    let (b, target) := b.blockAt label
    let b := match b.current with
      | some source =>
        if source = target then b
        else b.addEdge source { target, kind := .fallThrough }
      | none => b
    { b with current := some target }
  | .protect start handler exception =>
    let (b, source) := b.blockAt start
    let (b, target) := b.seed handler exception
    b.addEdge source { target, kind := .exception }

/-- The graph as it stands. -/
def graph (b : FlowBuilder) : FlowGraph := { blocks := b.blocks }

/-- The builder after all events. -/
def run (b : FlowBuilder) (events : List FlowEvent) : FlowBuilder :=
  events.foldl step b

@[simp] theorem run_nil (b : FlowBuilder) : b.run [] = b := rfl

@[simp] theorem run_cons (b : FlowBuilder) (e : FlowEvent)
    (events : List FlowEvent) :
    b.run (e :: events) = (b.step e).run events := rfl

theorem run_append (b : FlowBuilder) (first second : List FlowEvent) :
    b.run (first ++ second) = (b.run first).run second := List.foldl_append

end FlowBuilder

/-- The flow graph of a method body. -/
def FlowGraph.ofEvents (events : List FlowEvent) : FlowGraph :=
  (FlowBuilder.start.run events).graph

end TestCost
