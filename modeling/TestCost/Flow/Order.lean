import TestCost.Flow.Graph

/-!
# Order of blocks

Symbolic execution runs every block once, after the blocks that hand it
their stacks. `FlowGraph.order` lists the blocks that control can reach in
such an order: depth first from the entry, each block placed in front of
all that were finished before it. Only an edge that closes a cycle can
lead backwards in it.

The last successor of a block is explored first, so that the code that
follows a jump precedes the target of the jump.

The search holds the blocks that it has not found yet. Finding one takes
it off that list, and every other step uses up a successor or a block on
the path, so the search ends.
-/

namespace TestCost

namespace FlowGraph

/-- Successors still to be tried and blocks to be finished on a path. -/
def pathWork (path : List (BlockId × List BlockId)) : Nat :=
  total (path.map fun (_, left) => left.length + 1)

/-- Run a search to its end. `unseen` are the blocks not found yet, `path`
leads from the entry, innermost block first, each with the successors that
are still to be tried, and `finished` are the blocks whose successors have
all been tried, the last one first. -/
def explore (g : FlowGraph) (unseen : List BlockId)
    (path : List (BlockId × List BlockId)) (finished : List BlockId) :
    List BlockId :=
  match path with
  | [] => finished
  | (id, []) :: outer => g.explore unseen outer (id :: finished)
  | (id, next :: left) :: outer =>
    if next ∈ unseen then
      g.explore (unseen.erase next) ((next, (g.targets next).reverse) ::
        (id, left) :: outer) finished
    else g.explore unseen ((id, left) :: outer) finished
termination_by (unseen.length, pathWork path)
decreasing_by
  · apply Prod.Lex.right
    simp [pathWork]
  · rename_i h
    apply Prod.Lex.left
    have := List.length_pos_of_mem h
    rw [List.length_erase_of_mem h]
    omega
  · apply Prod.Lex.right
    simp [pathWork]

/-- The blocks that control can reach, each after the blocks that it is
reached from, cycles apart. -/
def order (g : FlowGraph) : List BlockId :=
  g.explore ((List.range g.blocks.size).erase entry)
    [(entry, (g.targets entry).reverse)] []

end FlowGraph

end TestCost
