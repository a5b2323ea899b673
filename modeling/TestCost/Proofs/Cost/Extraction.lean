import Mathlib
import TestCost.Proofs.Cost.Reachability

/-!
# Extracting a helper

A method can be cut in two: some of its branches, calls and writes move into a
helper, and the method calls the helper in their place. `CostGraph.Extracts` is
that change of a cost graph. What moves is any part at all. The calls that move
may lead back to the method, and a callee may be called from both halves, so the
helper can lie on cycles and share what it reaches.

No total notices. Whoever reaches the method reaches the helper, and nobody else
does, because only the method calls it; and what the two halves call together is
what the method called before. In the sums of own costs the method and the
helper then stand for what the method alone stood for.

## Main results

* `Extracts.reaches_iff` — calls lead from one old node to another exactly as
  before.
* `Extracts.reaches_helper_iff` — they lead to the helper exactly where they
  lead to the method.
* `extraction_keeps_totals` — the totals of all old nodes are the same.
-/

namespace TestCost

namespace CostGraph

/-- The second graph is the first one with a part of a method moved into a new
node, the helper, which the method calls. The helper is the last node. -/
structure Extracts (g : CostGraph) (method : NodeId) (g' : CostGraph) :
    Prop where
  size : g'.nodes.size = g.nodes.size + 1
  others : ∀ id < g.nodes.size, id ≠ method → g'.node id = g.node id
  called : g.nodes.size ∈ g'.callees method
  /-- Every call of the method stays or moves, those of the helper apart. -/
  calls : (((g'.node method).calls.filter fun c => c.callee ≠ g.nodes.size) ++
    (g'.node g.nodes.size).calls).Perm (g.node method).calls
  touches : ((g'.node method).touches ++ (g'.node g.nodes.size).touches).Perm
    (g.node method).touches
  complexity : (g'.node method).ownComplexity +
    (g'.node g.nodes.size).ownComplexity =
    (g.node method).ownComplexity

variable {g g' : CostGraph} {method : NodeId}

/-! ## Calls -/

theorem Extracts.mem_callees_iff (h : g.Extracts method g') (n : NodeId) :
    n ∈ g.callees method ↔
      (n ∈ g'.callees method ∧ n ≠ g.nodes.size) ∨
        n ∈ g'.callees g.nodes.size := by
  have hcalls := (h.calls.map Call.callee).mem_iff (a := n)
  rw [callees, ← hcalls, List.map_append, List.mem_append]
  constructor
  · rintro (hkept | hmoved)
    · obtain ⟨c, hc, rfl⟩ := List.mem_map.1 hkept
      obtain ⟨hc, hne⟩ := List.mem_filter.1 hc
      exact .inl ⟨List.mem_map_of_mem hc, of_decide_eq_true hne⟩
    · exact .inr hmoved
  · rintro (⟨hkept, hne⟩ | hmoved)
    · obtain ⟨c, hc, rfl⟩ := List.mem_map.1 hkept
      exact .inl
        (List.mem_map_of_mem (List.mem_filter.2 ⟨hc, decide_eq_true hne⟩))
    · exact .inr hmoved

theorem Extracts.callees_of_ne (h : g.Extracts method g') {id : NodeId}
    (hmethod : id ≠ method) (hhelper : id ≠ g.nodes.size) :
    g'.callees id = g.callees id := by
  by_cases hid : id < g.nodes.size
  · rw [callees, callees, h.others id hid hmethod]
  · have hlt : g.nodes.size < id :=
      Nat.lt_of_le_of_ne (Nat.le_of_not_lt hid) hhelper.symm
    rw [callees_of_le (h.size ▸ hlt), callees_of_le (Nat.le_of_lt hlt)]

/-- A call in the new graph is one to the helper, or a call of the first graph.
-/
theorem Extracts.call_cases (hg : g.WellFormed) (h : g.Extracts method g')
    {a b : NodeId} (hcall : b ∈ g'.callees a) :
    (a = method ∧ b = g.nodes.size) ∨
      b < g.nodes.size ∧
        b ∈ g.callees (if a = g.nodes.size then method else a) := by
  by_cases hhelper : a = g.nodes.size
  · have hmoved : b ∈ g.callees method :=
      (h.mem_callees_iff b).2 (.inr (hhelper ▸ hcall))
    exact .inr ⟨callee_lt hg hmoved, by rwa [if_pos hhelper]⟩
  · rw [if_neg hhelper]
    by_cases hmethod : a = method
    · subst hmethod
      by_cases hb : b = g.nodes.size
      · exact .inl ⟨rfl, hb⟩
      · have hkept := (h.mem_callees_iff b).2 (.inl ⟨hcall, hb⟩)
        exact .inr ⟨callee_lt hg hkept, hkept⟩
    · rw [h.callees_of_ne hmethod hhelper] at hcall
      exact .inr ⟨callee_lt hg hcall, hcall⟩

theorem Extracts.wellFormed (hg : g.WellFormed) (h : g.Extracts method g') :
    g'.WellFormed := by
  intro node hnode c hc
  obtain ⟨id, hid, rfl⟩ := Array.mem_iff_getElem.1 hnode
  have hcall : c.callee ∈ g'.callees id := by
    rw [callees, g'.node_of_lt hid]
    exact List.mem_map_of_mem hc
  rw [h.size]
  rcases h.call_cases hg hcall with ⟨_, hhelper⟩ | ⟨hlt, _⟩
  · exact hhelper ▸ Nat.lt_succ_self _
  · exact Nat.lt_succ_of_lt hlt

/-! ## Where calls lead -/

/-- A call that has moved takes a step more. -/
theorem Extracts.reaches (h : g.Extracts method g') {a b : NodeId}
    (hreaches : g.Reaches a b) :
    g'.Reaches a b := by
  induction hreaches with
  | refl => exact .refl
  | @tail b c _ hcall ih =>
      by_cases hmethod : b = method
      · subst hmethod
        rcases (h.mem_callees_iff c).1 hcall with ⟨hkept, _⟩ | hmoved
        · exact ih.tail hkept
        · exact (ih.tail h.called).tail hmoved
      · have hb : b ≠ g.nodes.size := by
          rintro rfl
          rw [callees_of_le (Nat.le_refl _)] at hcall
          cases hcall
        rw [← h.callees_of_ne hmethod hb] at hcall
        exact ih.tail hcall

/-- Seen from the first graph, the helper is the method. -/
theorem Extracts.reaches_of_reaches (hg : g.WellFormed)
    (h : g.Extracts method g') {a b : NodeId} (ha : a < g.nodes.size)
    (hreaches : g'.Reaches a b) :
    g.Reaches a (if b = g.nodes.size then method else b) := by
  induction hreaches with
  | refl =>
      rw [if_neg (Nat.ne_of_lt ha)]
      exact .refl
  | @tail b c _ hcall ih =>
      rcases h.call_cases hg hcall with ⟨rfl, rfl⟩ | ⟨hc, hold⟩
      · rw [if_pos rfl]
        split at ih
        · exact ih
        · exact ih
      · rw [if_neg (Nat.ne_of_lt hc)]
        exact ih.tail hold

theorem Extracts.reaches_iff (hg : g.WellFormed) (h : g.Extracts method g')
    {a b : NodeId} (ha : a < g.nodes.size) (hb : b ≠ g.nodes.size) :
    g'.Reaches a b ↔ g.Reaches a b := by
  constructor
  · intro hreaches
    have hold := h.reaches_of_reaches hg ha hreaches
    rwa [if_neg hb] at hold
  · exact h.reaches

theorem Extracts.reaches_helper_iff (hg : g.WellFormed)
    (h : g.Extracts method g') {a : NodeId} (ha : a < g.nodes.size) :
    g'.Reaches a g.nodes.size ↔ g.Reaches a method := by
  constructor
  · intro hreaches
    have hold := h.reaches_of_reaches hg ha hreaches
    rwa [if_pos rfl] at hold
  · intro hreaches
    exact (h.reaches hreaches).tail h.called

/-! ## Totals -/

/-- A cost that the method and the helper share is the same in sum over what an
old node reaches. -/
theorem Extracts.total_eq (hg : g.WellFormed) (h : g.Extracts method g')
    {id : NodeId} (hid : id < g.nodes.size) (cost : MethodCost → Nat)
    (hcost : cost (g'.node method) + cost (g'.node g.nodes.size) =
      cost (g.node method)) :
    total (((g'.reachable id).map g'.node).map cost) =
      total (((g.reachable id).map g.node).map cost) := by
  let reached := (g.reachable id).toFinset
  have hreached : ∀ n, n ∈ reached ↔ g.Reaches id n := by
    intro n
    rw [List.mem_toFinset, mem_reachable_iff hg]
  have hhelper : g.nodes.size ∉ reached := by
    intro hmem
    exact Nat.lt_irrefl _ (lt_of_mem_reachable hid (List.mem_toFinset.1 hmem))
  have hothers : ∀ n ∈ reached,
      n ≠ method → cost (g'.node n) = cost (g.node n) := by
    intro n hn hne
    rw [h.others n (lt_of_mem_reachable hid (List.mem_toFinset.1 hn)) hne]
  rw [total_reachable hg id cost hreached]
  by_cases hmethod : method ∈ reached
  · have hreached' : ∀ n, n ∈ insert g.nodes.size reached ↔
        g'.Reaches id n := by
      intro n
      rw [Finset.mem_insert]
      by_cases hn : n = g.nodes.size
      · subst hn
        rw [h.reaches_helper_iff hg hid, ← hreached]
        simp [hmethod]
      · rw [h.reaches_iff hg hid hn, ← hreached]
        simp [hn]
    rw [total_reachable (h.wellFormed hg) id cost hreached',
      Finset.sum_insert hhelper, ← Finset.add_sum_erase _ _ hmethod,
      ← Finset.add_sum_erase _ _ hmethod, ← hcost]
    have hrest : ∑ n ∈ reached.erase method, cost (g'.node n) =
        ∑ n ∈ reached.erase method, cost (g.node n) := by
      refine Finset.sum_congr rfl fun n hn => ?_
      obtain ⟨hne, hn⟩ := Finset.mem_erase.1 hn
      exact hothers n hn hne
    omega
  · have hreached' : ∀ n, n ∈ reached ↔ g'.Reaches id n := by
      intro n
      by_cases hn : n = g.nodes.size
      · subst hn
        rw [h.reaches_helper_iff hg hid, ← hreached]
        simp [hmethod, hhelper]
      · rw [h.reaches_iff hg hid hn, hreached]
    rw [total_reachable (h.wellFormed hg) id cost hreached']
    refine Finset.sum_congr rfl fun n hn => hothers n hn ?_
    rintro rfl
    exact hmethod hn

/-- **Extracting a helper is cost-neutral.** All nodes that were there keep both
totals, the method that the helper was taken from among them. -/
theorem extraction_keeps_totals (hg : g.WellFormed) (h : g.Extracts method g') :
    ∀ id < g.nodes.size,
      (g'.link.node id).totalComplexity = (g.link.node id).totalComplexity ∧
        (g'.link.node id).totalGlobals = (g.link.node id).totalGlobals := by
  intro id hid
  have hid' : id < g'.nodes.size := by
    rw [h.size]
    exact Nat.lt_succ_of_lt hid
  have htouches : (g'.node method).ownGlobals +
      (g'.node g.nodes.size).ownGlobals = (g.node method).ownGlobals := by
    have hlength := h.touches.length_eq
    rwa [List.length_append] at hlength
  rw [g.node_link hid, g'.node_link hid']
  exact ⟨h.total_eq hg hid MethodCost.ownComplexity h.complexity,
    h.total_eq hg hid MethodCost.ownGlobals htouches⟩

/-- The first method of `tangle`, which lies on a cycle, with its write, its one
branch and one of its two calls of the second method in a helper. -/
def tangleExtracted : CostGraph where
  nodes := #[
    { tangle.method "a" 0 [2, 5, 1] with touches := [] },
      tangle.method "b" 2 [3, 0],
    tangle.method "c" 4 [2, 3], tangle.method "d" 8 [],
      tangle.method "e" 16 [0],
    tangle.method "helper" 1 [1]]

theorem tangle_extracts : tangle.Extracts 0 tangleExtracted where
  size := rfl
  others := by
    intro id hid hne
    have hcases : ∀ n : Nat, n < 5 → n ≠ 0 → n = 1 ∨ n = 2 ∨ n = 3 ∨ n = 4 := by
      omega
    rcases hcases id hid hne with rfl | rfl | rfl | rfl <;> rfl
  called := by decide
  calls := by decide
  touches := by decide
  complexity := rfl

theorem tangle_keeps_totals :
    tangle.WellFormed ∧ tangle.Extracts 0 tangleExtracted ∧
      (tangleExtracted.link.node 0).totalComplexity = 15 ∧
      (tangle.link.node 0).totalComplexity = 15 ∧
      ∀ id < 5, (tangleExtracted.link.node id).totalComplexity =
          (tangle.link.node id).totalComplexity ∧
        (tangleExtracted.link.node id).totalGlobals =
          (tangle.link.node id).totalGlobals := by
  have hg : tangle.WellFormed := by
    unfold WellFormed tangle
    decide
  have htotals := extraction_keeps_totals hg tangle_extracts
  have hold : (tangle.link.node 0).totalComplexity = 15 := by cbv
  exact ⟨hg, tangle_extracts, (htotals 0 (by decide)).1.trans hold,
    hold, htotals⟩

end CostGraph

end TestCost
