import Mathlib
import TestCost.Proofs.Flow.Order

/-!
# Edges against the order

`FlowGraph.order` puts the source of an edge before its target unless the edge
closes a cycle. Two things hold of the search at every moment. Its path is a way
through the graph, so each block on it leads to all that were found after it.
And an edge out of a finished block has been settled: it leads to a block that
was finished earlier and so stands later, or back to where control can return
from.

The second is decided at the moment a block is finished. All its targets have
been found by then, and what is found and not finished is on the path.

The search ends on every graph, cycles or not: a step finds a block or leaves
less of the path to try, which is how `explore` recurses.

## Main results

* `Settled.explore` — the search keeps both to its end.
* `order_respects_edges` — the order of blocks, whatever the shape of the graph.
-/

namespace TestCost

namespace FlowGraph

/-- No block lies on a cycle. -/
def Acyclic (g : FlowGraph) : Prop :=
  ∀ b, ¬ Relation.TransGen (fun a c => c ∈ g.targets a) b b

/-- What holds of the edges met by a search at every step. -/
structure Settled (g : FlowGraph) (path : List (BlockId × List BlockId))
    (finished : List BlockId) : Prop where
  /-- The path, innermost block first, is a way through the graph. -/
  leads : (path.map Prod.fst).Pairwise fun inner outer => g.Reaches outer inner
  /-- An edge leads on to what was finished earlier, or it closes a cycle. -/
  settled : ∀ b ∈ finished, ∀ t ∈ g.targets b, [b, t].Sublist finished ∨
    g.Reaches t b

/-- When a block is finished, its targets are on the path or finished. -/
theorem Searched.target_mem_found
    {g : FlowGraph} (hg : g.WellFormed) {unseen finished : List BlockId}
    {id : BlockId} {outer : List (BlockId × List BlockId)}
    (h : g.Searched unseen ((id, []) :: outer) finished) {t : BlockId}
    (ht : t ∈ g.targets id) :
    t = id ∨ t ∈ outer.map Prod.fst ∨ t ∈ finished := by
  have hseen : t ∉ unseen :=
    (h.tried_path (id, []) List.mem_cons_self t ht).resolve_left (by simp)
  have hfound := (h.covered t (target_lt_size hg ht)).resolve_left hseen
  rw [found, List.mem_append, List.mem_reverse, List.map_cons, List.mem_cons,
    or_assoc] at hfound
  exact hfound

theorem settled_start (g : FlowGraph) :
    g.Settled [(entry, (g.targets entry).reverse)] [] where
  leads := List.pairwise_singleton _ _
  settled := by simp

/-- Finishing a block settles its edges. -/
theorem Settled.finish {g : FlowGraph}
    (hg : g.WellFormed) {unseen finished : List BlockId} {id : BlockId}
    {outer : List (BlockId × List BlockId)}
    (h : g.Settled ((id, []) :: outer) finished)
    (hsearched : g.Searched unseen ((id, []) :: outer) finished) :
    g.Settled outer (id :: finished) where
  leads := (List.pairwise_cons.1 h.leads).2
  settled := by
    intro b hb t ht
    rcases List.mem_cons.1 hb with rfl | hb
    · rcases hsearched.target_mem_found hg ht with rfl | hpath | hfinished
      · exact .inr .refl
      · exact .inr ((List.pairwise_cons.1 h.leads).1 t hpath)
      · exact .inl ((List.singleton_sublist.2 hfinished).cons_cons b)
    · exact (h.settled b hb t ht).imp_left fun hlater => hlater.cons id

/-- Passing over a successor. -/
theorem Settled.pass {g : FlowGraph} {finished left : List BlockId}
    {id next : BlockId} {outer : List (BlockId × List BlockId)}
    (h : g.Settled ((id, next :: left) :: outer) finished) :
    g.Settled ((id, left) :: outer) finished where
  leads := h.leads
  settled := h.settled

/-- Finding a block makes the path longer by an edge. -/
theorem Settled.find {g : FlowGraph} {finished left : List BlockId}
    {id next : BlockId} {outer : List (BlockId × List BlockId)}
    (h : g.Settled ((id, next :: left) :: outer) finished)
    (hedge : next ∈ g.targets id) :
    g.Settled ((next, (g.targets next).reverse) :: (id, left) :: outer)
      finished where
  leads := by
    refine List.pairwise_cons.2 ⟨?_, h.leads⟩
    intro b hb
    rcases List.mem_cons.1 hb with rfl | hb
    · exact .single hedge
    · exact ((List.pairwise_cons.1 h.leads).1 b hb).tail hedge
  settled := h.settled

/-- A search settles the edges of all that it finishes. The induction is that of
the search, with the invariant of `Searched` beside it. -/
theorem Settled.explore
    {g : FlowGraph} (hg : g.WellFormed) {unseen finished : List BlockId}
    {path : List (BlockId × List BlockId)} (h : g.Settled path finished)
    (hsearched : g.Searched unseen path finished) :
    g.Settled [] (g.explore unseen path finished) := by
  induction unseen, path, finished using FlowGraph.explore.induct (g := g) with
  | case1 unseen finished =>
      rw [FlowGraph.explore]
      exact h
  | case2 unseen finished id outer ih =>
      rw [FlowGraph.explore]
      exact ih (h.finish hg hsearched) hsearched.finish
  | case3 unseen finished id next left outer hnext ih =>
      rw [FlowGraph.explore, if_pos hnext]
      have hedge : next ∈ g.targets id := hsearched.left_subset
        (id, next :: left) List.mem_cons_self next List.mem_cons_self
      exact ih (h.find hedge) (hsearched.find hnext)
  | case4 unseen finished id next left outer hnext ih =>
      rw [FlowGraph.explore, if_neg hnext]
      exact ih h.pass (hsearched.pass hnext)

theorem settled_order {g : FlowGraph} (hg : g.WellFormed) :
    g.Settled [] g.order :=
  g.settled_start.explore hg g.searched_start

/-- An edge that does not lead on closes a cycle. -/
theorem reaches_of_not_before {g : FlowGraph} (hg : g.WellFormed)
    {u v : BlockId} (hu : u ∈ g.order) (hedge : v ∈ g.targets u)
    (hback : ¬ g.Before u v) : g.Reaches v u :=
  ((settled_order hg).settled u hu v hedge).resolve_left hback

theorem before_of_acyclic {g : FlowGraph} (hg : g.WellFormed)
    (hacyclic : g.Acyclic) {u v : BlockId} (hu : u ∈ g.order)
    (hedge : v ∈ g.targets u) : g.Before u v := by
  by_contra hback
  exact hacyclic u (.head' hedge (reaches_of_not_before hg hu hedge hback))

/-- Every listed block but the entry follows one that leads to it. -/
theorem exists_source_of_mem (g : FlowGraph) {b : BlockId} (hb : b ∈ g.order)
    (hentry : b ≠ entry) :
    ∃ a, g.Before a b ∧ b ∈ g.targets a := by
  obtain ⟨before, after, horder⟩ := List.append_of_mem hb
  obtain ⟨a, ha, hedge⟩ := g.exists_source_before horder hentry
  refine ⟨a, ?_, hedge⟩
  rw [Before, horder]
  exact (List.singleton_sublist.2 ha).append
    (List.singleton_sublist.2 List.mem_cons_self)

/-- **The order of blocks.** Whatever the cycles of a graph, and whatever lies
apart in it, the order lists the blocks that control can come to, each once and
the entry first. Every other block follows one that leads to it. An edge from a
listed block leads on, or else control can return along it; so without cycles a
block follows all that lead to it. -/
theorem order_respects_edges {g : FlowGraph} (hg : g.WellFormed) :
    g.order.Nodup ∧ (∀ b, b ∈ g.order ↔ g.Reachable b) ∧
      g.order.head? = some entry ∧
      (∀ b ∈ g.order, b ≠ entry → ∃ a, g.Before a b ∧ b ∈ g.targets a) ∧
      (∀ u ∈ g.order, ∀ v ∈ g.targets u, ¬ g.Before u v → g.Reaches v u) ∧
      (g.Acyclic → ∀ u v, g.Reachable u → v ∈ g.targets u → g.Before u v) := by
  refine ⟨g.nodup_order, g.mem_order_iff hg, g.head?_order, ?_, ?_, ?_⟩
  · intro b hb hentry
    exact g.exists_source_of_mem hb hentry
  · intro u hu v hedge hback
    exact reaches_of_not_before hg hu hedge hback
  · intro hacyclic u v hu hedge
    exact before_of_acyclic hg hacyclic ((g.mem_order_iff hg u).2 hu) hedge

/-- A loop that is entered at both of its blocks, a block that leads to itself,
and one that nothing leads to. -/
def twoDoors : FlowGraph where
  blocks := #[
    { successors := [⟨1, .fallThrough⟩, ⟨2, .branch⟩] },
    { successors := [⟨2, .fallThrough⟩] },
    { successors := [⟨1, .branch⟩, ⟨3, .fallThrough⟩] },
    { successors := [⟨3, .branch⟩] },
    { successors := [⟨4, .branch⟩, ⟨1, .branch⟩] } ]

/-- A choice whose ways meet again. -/
def fork : FlowGraph where
  blocks := #[
    { successors := [⟨1, .fallThrough⟩, ⟨2, .branch⟩] },
    { successors := [⟨3, .branch⟩] },
    { successors := [⟨3, .fallThrough⟩] },
    {} ]

/-- Edges of the fork lead to later positions only. -/
theorem fork_acyclic : fork.Acyclic := by
  have hedge : ∀ a b, b ∈ fork.targets a → a < b := by
    intro a b hb
    by_cases ha : a < 4
    · have hall : ∀ a < 4, ∀ b ∈ fork.targets a, a < b := by decide
      exact hall a ha b hb
    · have hnone : fork.targets a = [] := by
        rw [targets, block, Array.getD_eq_getD_getElem?,
          Array.getElem?_eq_none (Nat.le_of_not_lt ha)]
        rfl
      simp [hnone] at hb
  have hrises : ∀ {a b},
      Relation.TransGen (fun a c => c ∈ fork.targets a) a b → a < b := by
    intro a b h
    induction h with
    | single h => exact hedge _ _ h
    | tail _ h ih => exact Nat.lt_trans ih (hedge _ _ h)
  exact fun b hb => Nat.lt_irrefl b (hrises hb)

theorem twoDoors_and_fork_ordered :
    twoDoors.WellFormed ∧ twoDoors.order = [0, 2, 1, 3] ∧
      2 ∈ twoDoors.targets 1 ∧
      ¬ twoDoors.Before 1 2 ∧ twoDoors.Reaches 2 1 ∧ ¬ twoDoors.Reachable 4 ∧
      fork.WellFormed ∧ fork.Acyclic ∧ fork.order = [0, 1, 2, 3] ∧
      (∀ u v, fork.Reachable u → v ∈ fork.targets u → fork.Before u v) := by
  have hloop : twoDoors.WellFormed := by
    unfold WellFormed twoDoors
    decide
  have hfork : fork.WellFormed := by
    unfold WellFormed fork
    decide
  have horder : twoDoors.order = [0, 2, 1, 3] := by cbv
  have hback : ¬ twoDoors.Before 1 2 := by
    rw [Before, horder]
    decide
  have hall := order_respects_edges hloop
  have hunreached : ¬ twoDoors.Reachable 4 := by
    rw [← hall.2.1 4, horder]
    decide
  have hmem : 1 ∈ twoDoors.order := by
    rw [horder]
    decide
  exact ⟨hloop, horder, by decide, hback,
    hall.2.2.2.2.1 1 hmem 2 (by decide) hback, hunreached, hfork, fork_acyclic,
    by cbv, (order_respects_edges hfork).2.2.2.2.2 fork_acyclic⟩

end FlowGraph

end TestCost
