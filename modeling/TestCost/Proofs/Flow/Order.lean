import Mathlib.Logic.Relation
import TestCost.Flow.Order

/-!
# The order of blocks

`FlowGraph.order` lists every block that control can reach, once, and each
but the entry after one that leads to it. The last is what lets symbolic
execution hand stacks along: when a block runs, some block that leads to it
has run.

The search is read through one list, the blocks on its path from the entry
outwards followed by the finished ones. Finishing a block does not change
that list at all, since the block only passes from the end of the path to
the front of the finished ones, and finding a block puts it between the two.
So the list only ever grows by insertion, and what has been said about the
order of its elements (`a` before `b`, as the sublist `[a, b]`) stays true.

## Main results

* `nodup_order`, `mem_order_iff` — the order lists the reachable blocks,
  each once.
* `head?_order` — it starts with the entry.
* `exists_source_before` — every other block follows one that leads to it.
-/

namespace TestCost

namespace FlowGraph

/-- Control can go from one block to the other along edges. -/
def Reaches (g : FlowGraph) : BlockId → BlockId → Prop :=
  Relation.ReflTransGen fun a b => b ∈ g.targets a

/-- Control can come to the block. -/
def Reachable (g : FlowGraph) (b : BlockId) : Prop := g.Reaches entry b

/-- The first block is before the second in the order. -/
def Before (g : FlowGraph) (a b : BlockId) : Prop := [a, b].Sublist g.order

/-- The blocks found by a search: the path from the entry, then the finished
ones. -/
def found (path : List (BlockId × List BlockId)) (finished : List BlockId) :
    List BlockId :=
  (path.map Prod.fst).reverse ++ finished

/-- What holds of a search at every step. -/
structure Searched (g : FlowGraph) (unseen : List BlockId)
    (path : List (BlockId × List BlockId)) (finished : List BlockId) :
    Prop where
  nodup : (found path finished).Nodup
  nodup_unseen : unseen.Nodup
  fresh : ∀ b ∈ unseen, b ∉ found path finished
  covered : ∀ b < g.blocks.size, b ∈ unseen ∨ b ∈ found path finished
  starts : (found path finished).head? = some entry
  reachable : ∀ b ∈ found path finished, g.Reachable b
  source : ∀ b ∈ found path finished, b ≠ entry →
    ∃ a, [a, b].Sublist (found path finished) ∧ b ∈ g.targets a
  left_subset : ∀ p ∈ path, ∀ t ∈ p.2, t ∈ g.targets p.1
  tried_path : ∀ p ∈ path, ∀ t ∈ g.targets p.1, t ∈ p.2 ∨ t ∉ unseen
  tried_finished : ∀ b ∈ finished, ∀ t ∈ g.targets b, t ∉ unseen

theorem found_finish (id : BlockId) (left : List BlockId)
    (outer : List (BlockId × List BlockId)) (finished : List BlockId) :
    found outer (id :: finished) = found ((id, left) :: outer) finished := by
  simp [found]

theorem found_find (next : BlockId) (left : List BlockId)
    (path : List (BlockId × List BlockId)) (finished : List BlockId) :
    found ((next, left) :: path) finished = (path.map Prod.fst).reverse ++
      next :: finished := by
  simp [found]

/-- Finding a block puts it among those found before, in their order. -/
theorem found_find_sublist (next : BlockId) (left : List BlockId)
    (path : List (BlockId × List BlockId)) (finished : List BlockId) :
    (found path finished).Sublist (found ((next, left) :: path) finished) := by
  rw [found_find]
  exact (List.Sublist.refl _).append (List.sublist_cons_self next finished)

theorem found_find_perm (next : BlockId) (left : List BlockId)
    (path : List (BlockId × List BlockId)) (finished : List BlockId) :
    (found ((next, left) :: path) finished).Perm
      (next :: found path finished) := by
  rw [found_find]
  exact List.perm_middle

theorem mem_found_find (next : BlockId) (left : List BlockId)
    (path : List (BlockId × List BlockId)) (finished : List BlockId)
    (b : BlockId) :
    b ∈ found ((next, left) :: path) finished ↔
      b = next ∨ b ∈ found path finished := by
  rw [(found_find_perm next left path finished).mem_iff, List.mem_cons]

/-- The search keeps its first block while its path is not empty. -/
theorem head?_found_find {path : List (BlockId × List BlockId)}
    (hpath : path ≠ []) (next : BlockId) (left finished : List BlockId) :
    (found ((next, left) :: path) finished).head? =
      (found path finished).head? := by
  have hne : (path.map Prod.fst).reverse ≠ [] := by simpa using hpath
  obtain ⟨first, others, hcons⟩ := List.exists_cons_of_ne_nil hne
  rw [found_find, found, hcons]
  rfl

/-- The successors left to try do not matter for what is found. -/
theorem found_congr (id : BlockId) (left left' : List BlockId)
    (outer : List (BlockId × List BlockId)) (finished : List BlockId) :
    found ((id, left) :: outer) finished =
      found ((id, left') :: outer) finished := by
  simp [found]

/-- The search before its first step. -/
theorem searched_start (g : FlowGraph) :
    g.Searched ((List.range g.blocks.size).erase entry)
      [(entry, (g.targets entry).reverse)] [] where
  nodup := by simp [found]
  nodup_unseen := List.nodup_range.erase entry
  fresh := by
    intro b hb
    have hne := (List.nodup_range.mem_erase_iff.1 hb).1
    simpa [found] using hne
  covered := by
    intro b hb
    by_cases hentry : b = entry
    · exact .inr (by simp [found, hentry])
    · exact .inl ((List.mem_erase_of_ne hentry).2 (List.mem_range.2 hb))
  starts := rfl
  reachable := by
    intro b hb
    rw [show b = entry by simpa [found] using hb]
    exact .refl
  source := by
    intro b hb hne
    exact absurd (by simpa [found] using hb) hne
  left_subset := by simp
  tried_path := by
    intro p hp t ht
    rw [List.mem_singleton.1 hp] at ht ⊢
    exact .inl (List.mem_reverse.2 ht)
  tried_finished := by simp

/-- Finishing the innermost block. -/
theorem Searched.finish {g : FlowGraph} {unseen finished : List BlockId}
    {id : BlockId} {outer : List (BlockId × List BlockId)}
    (h : g.Searched unseen ((id, []) :: outer) finished) :
    g.Searched unseen outer (id :: finished) where
  nodup := by rw [found_finish id []]; exact h.nodup
  nodup_unseen := h.nodup_unseen
  fresh := by rw [found_finish id []]; exact h.fresh
  covered := by rw [found_finish id []]; exact h.covered
  starts := by rw [found_finish id []]; exact h.starts
  reachable := by rw [found_finish id []]; exact h.reachable
  source := by rw [found_finish id []]; exact h.source
  left_subset := fun p hp => h.left_subset p (List.mem_cons_of_mem _ hp)
  tried_path := fun p hp => h.tried_path p (List.mem_cons_of_mem _ hp)
  tried_finished := by
    intro b hb t ht
    rcases List.mem_cons.1 hb with rfl | hb
    · rcases h.tried_path (b, []) List.mem_cons_self t ht with hleft | hseen
      · simp at hleft
      · exact hseen
    · exact h.tried_finished b hb t ht

/-- Passing over a successor that has been found already. -/
theorem Searched.pass {g : FlowGraph} {unseen finished left : List BlockId}
    {id next : BlockId} {outer : List (BlockId × List BlockId)}
    (h : g.Searched unseen ((id, next :: left) :: outer) finished)
    (hnext : next ∉ unseen) :
    g.Searched unseen ((id, left) :: outer) finished where
  nodup := h.nodup
  nodup_unseen := h.nodup_unseen
  fresh := h.fresh
  covered := h.covered
  starts := h.starts
  reachable := h.reachable
  source := h.source
  left_subset := by
    intro p hp t ht
    rcases List.mem_cons.1 hp with rfl | hp
    · exact h.left_subset (id, next :: left) List.mem_cons_self t
        (List.mem_cons_of_mem _ ht)
    · exact h.left_subset p (List.mem_cons_of_mem _ hp) t ht
  tried_path := by
    intro p hp t ht
    rcases List.mem_cons.1 hp with rfl | hp
    · rcases h.tried_path (id, next :: left) List.mem_cons_self t ht with
        hleft | hseen
      · rcases List.mem_cons.1 hleft with rfl | hleft
        · exact .inr hnext
        · exact .inl hleft
      · exact .inr hseen
    · exact h.tried_path p (List.mem_cons_of_mem _ hp) t ht
  tried_finished := h.tried_finished

/-- Finding a block, which goes between the path and the finished ones. -/
theorem Searched.find {g : FlowGraph} {unseen finished left : List BlockId}
    {id next : BlockId} {outer : List (BlockId × List BlockId)}
    (h : g.Searched unseen ((id, next :: left) :: outer) finished)
    (hnext : next ∈ unseen) :
    g.Searched (unseen.erase next) ((next, (g.targets next).reverse) ::
      (id, left) :: outer)
      finished := by
  have hold : found ((id, next :: left) :: outer) finished =
      found ((id, left) :: outer) finished := found_congr id _ _ outer finished
  have hperm :=
    found_find_perm next (g.targets next).reverse ((id, left) :: outer) finished
  have hmem :=
    mem_found_find next (g.targets next).reverse ((id, left) :: outer) finished
  have hgrown := found_find_sublist next (g.targets next).reverse
    ((id, left) :: outer) finished
  rw [← hold] at hperm hmem hgrown
  have hedge : next ∈ g.targets id :=
    h.left_subset (id, next :: left) List.mem_cons_self next List.mem_cons_self
  have hid : id ∈ (((id, left) :: outer).map Prod.fst).reverse := by simp
  refine
    { nodup := hperm.nodup_iff.2 (List.nodup_cons.2 ⟨h.fresh next hnext,
      h.nodup⟩)
      nodup_unseen := h.nodup_unseen.erase next
      fresh := ?_
      covered := ?_
      starts := ?_
      reachable := ?_
      source := ?_
      left_subset := ?_
      tried_path := ?_
      tried_finished := ?_ }
  · intro b hb
    obtain ⟨hne, hb⟩ := h.nodup_unseen.mem_erase_iff.1 hb
    rw [hmem, not_or]
    exact ⟨hne, h.fresh b hb⟩
  · intro b hb
    rw [hmem]
    by_cases hne : b = next
    · exact .inr (.inl hne)
    · rcases h.covered b hb with hunseen | hfound
      · exact .inl ((List.mem_erase_of_ne hne).2 hunseen)
      · exact .inr (.inr hfound)
  · rw [head?_found_find (List.cons_ne_nil _ _), ← hold]
    exact h.starts
  · intro b hb
    rcases (hmem b).1 hb with rfl | hb
    · have hreached := h.reachable id (List.mem_append_left _ hid)
      exact hreached.tail hedge
    · exact h.reachable b hb
  · intro b hb hne
    rcases (hmem b).1 hb with rfl | hb
    · refine ⟨id, ?_, hedge⟩
      rw [found_find]
      exact (List.singleton_sublist.2 hid).append
        (List.singleton_sublist.2 List.mem_cons_self)
    · obtain ⟨a, hbefore, htarget⟩ := h.source b hb hne
      exact ⟨a, hbefore.trans hgrown, htarget⟩
  · intro p hp t ht
    rcases List.mem_cons.1 hp with rfl | hp
    · exact List.mem_reverse.1 ht
    · rcases List.mem_cons.1 hp with rfl | hp
      · exact h.left_subset (id, next :: left) List.mem_cons_self t
          (List.mem_cons_of_mem _ ht)
      · exact h.left_subset p (List.mem_cons_of_mem _ hp) t ht
  · intro p hp t ht
    rcases List.mem_cons.1 hp with rfl | hp
    · exact .inl (List.mem_reverse.2 ht)
    · have hstill : t ∉ unseen → t ∉ unseen.erase next := fun hseen hmem =>
        hseen (List.mem_of_mem_erase hmem)
      rcases List.mem_cons.1 hp with rfl | hp
      · rcases h.tried_path (id, next :: left) List.mem_cons_self t ht with
          hleft | hseen
        · rcases List.mem_cons.1 hleft with rfl | hleft
          · exact .inr fun hmem => (h.nodup_unseen.mem_erase_iff.1 hmem).1 rfl
          · exact .inl hleft
        · exact .inr (hstill hseen)
      · exact (h.tried_path p (List.mem_cons_of_mem _ hp) t ht).imp_right hstill
  · intro b hb t ht hmem
    exact h.tried_finished b hb t ht (List.mem_of_mem_erase hmem)

/-- A search keeps its invariant to its end. The induction is that of the
search itself. -/
theorem Searched.explore {g : FlowGraph}
    {unseen finished : List BlockId} {path : List (BlockId × List BlockId)}
    (h : g.Searched unseen path finished) :
    ∃ rest, g.Searched rest [] (g.explore unseen path finished) := by
  induction unseen, path, finished using FlowGraph.explore.induct (g := g) with
  | case1 unseen finished =>
      rw [FlowGraph.explore]
      exact ⟨unseen, h⟩
  | case2 unseen finished id outer ih =>
      rw [FlowGraph.explore]
      exact ih h.finish
  | case3 unseen finished id next left outer hnext ih =>
      rw [FlowGraph.explore, if_pos hnext]
      exact ih (h.find hnext)
  | case4 unseen finished id next left outer hnext ih =>
      rw [FlowGraph.explore, if_neg hnext]
      exact ih (h.pass hnext)

theorem searched_order (g : FlowGraph) : ∃ rest, g.Searched rest [] g.order :=
  (searched_start g).explore

/-! ## The finished order -/

theorem nodup_order (g : FlowGraph) : g.order.Nodup := by
  obtain ⟨rest, h⟩ := searched_order g
  simpa [found] using h.nodup

theorem head?_order (g : FlowGraph) : g.order.head? = some entry := by
  obtain ⟨rest, h⟩ := searched_order g
  simpa [found] using h.starts

theorem entry_mem_order (g : FlowGraph) : entry ∈ g.order :=
  List.mem_of_head? g.head?_order

/-- A position names a block of the graph or an empty one. -/
theorem block_mem_or_eq (g : FlowGraph) (a : BlockId) :
    g.block a ∈ g.blocks ∨ g.block a = { id := a } := by
  unfold block
  by_cases ha : a < g.blocks.size
  · rw [Array.getD_eq_getD_getElem?, Array.getElem?_eq_getElem ha]
    exact .inl (Array.getElem_mem ha)
  · rw [Array.getD_eq_getD_getElem?,
      Array.getElem?_eq_none (Nat.le_of_not_lt ha)]
    exact .inr rfl

theorem target_lt_size {g : FlowGraph} (hg : g.WellFormed) {a t : BlockId}
    (ht : t ∈ g.targets a) :
    t < g.blocks.size := by
  obtain ⟨e, he, rfl⟩ := List.mem_map.1 ht
  rcases g.block_mem_or_eq a with hblock | hempty
  · exact hg _ hblock e he
  · simp [hempty] at he

/-- Where an edge leads is in the order when its source is. -/
theorem target_mem_order (g : FlowGraph) (hg : g.WellFormed) {a t : BlockId}
    (ha : a ∈ g.order) (ht : t ∈ g.targets a) : t ∈ g.order := by
  obtain ⟨rest, h⟩ := searched_order g
  have hseen : t ∉ rest := h.tried_finished a ha t ht
  simpa [found] using (h.covered t (target_lt_size hg ht)).resolve_left hseen

theorem mem_order_iff (g : FlowGraph) (hg : g.WellFormed) (b : BlockId) :
    b ∈ g.order ↔ g.Reachable b := by
  constructor
  · intro hb
    obtain ⟨rest, h⟩ := searched_order g
    exact h.reachable b (by simpa [found] using hb)
  · intro hb
    induction hb with
    | refl => exact g.entry_mem_order
    | tail _ hedge ih => exact g.target_mem_order hg ih hedge

/-- In a list without repetition, what is before an element is in the part
before it. -/
theorem mem_of_sublist_pair {before after : List BlockId} {a b : BlockId}
    (hnodup : (before ++ b :: after).Nodup)
    (h : [a, b].Sublist (before ++ b :: after)) :
    a ∈ before := by
  obtain ⟨left, right, hpair, hleft, hright⟩ := List.sublist_append_iff.1 h
  have hafter : b ∉ after :=
    (List.nodup_cons.1 (List.nodup_append.1 hnodup).2.1).1
  cases left with
  | nil =>
      rw [List.nil_append] at hpair
      rw [← hpair] at hright
      cases hright with
      | cons _ hrest => exact absurd (hrest.subset (by simp)) hafter
      | cons_cons _ hrest => exact absurd (hrest.subset (by simp)) hafter
  | cons first left =>
      obtain ⟨rfl, _⟩ := List.cons.inj hpair
      exact hleft.subset List.mem_cons_self

/-- Every block but the entry follows one that leads to it. -/
theorem exists_source_before (g : FlowGraph) {before after : List BlockId}
    {b : BlockId} (h : g.order = before ++ b :: after) (hb : b ≠ entry) :
    ∃ a ∈ before, b ∈ g.targets a := by
  obtain ⟨rest, hsearched⟩ := searched_order g
  have hmem : b ∈ found [] g.order := by simp [found, h]
  obtain ⟨a, hpair, htarget⟩ := hsearched.source b hmem hb
  have hpair : [a, b].Sublist (before ++ b :: after) := by
    simpa [found, h] using hpair
  exact ⟨a, mem_of_sublist_pair (h ▸ g.nodup_order) hpair, htarget⟩

end FlowGraph

end TestCost
