import Mathlib
import TestCost.Cost.Graph

/-!
# Totals of a cost graph

A method is charged for every method that calls can lead to from it, once
each, however the calls run: through cycles, along several ways to one
method, or repeated. The search that collects these methods marks a method
when it is found and not when it is visited, so none is found twice; and a
method leaves the list of work only with all its callees found, so none is
missed.

Linking reads own costs and calls and writes totals. It does not read what
it writes, which is why linking again changes nothing.

## Main results

* `mem_reachable_iff`, `nodup_reachable`, `head?_reachable` — what the search
  finds.
* `link_link` — linking twice is linking once.
* `totals_le_of_call` — a caller costs at least what its callee costs.
* `link_charges_each_once` — the totals of every node.
-/

namespace TestCost

namespace CostGraph

/-- Every call is to a node of the graph. -/
def WellFormed (g : CostGraph) : Prop :=
  ∀ m ∈ g.nodes, ∀ c ∈ m.calls, c.callee < g.nodes.size

/-- Calls lead from one node to the other, in any number of steps. -/
def Reaches (g : CostGraph) : NodeId → NodeId → Prop :=
  Relation.ReflTransGen fun a b => b ∈ g.callees a

/-- What holds of a search from `start` at every step. -/
structure Searched (g : CostGraph) (start : NodeId)
    (unseen work found : List NodeId) : Prop where
  nodup : found.Nodup
  nodup_unseen : unseen.Nodup
  fresh : ∀ n ∈ unseen, n ∉ found
  covered : ∀ n < g.nodes.size, n ∈ unseen ∨ n ∈ found
  starts : found.head? = some start
  reached : ∀ n ∈ found, g.Reaches start n
  work_found : ∀ n ∈ work, n ∈ found
  visited : ∀ n ∈ found, n ∈ work ∨ ∀ m ∈ g.callees n, m ∉ unseen

theorem node_of_lt (g : CostGraph) {id : NodeId} (h : id < g.nodes.size) :
    g.node id = g.nodes[id] := by
  rw [node, Array.getD_eq_getD_getElem?, Array.getElem?_eq_getElem h,
    Option.getD_some]

theorem node_of_le (g : CostGraph) {id : NodeId} (h : g.nodes.size ≤ id) :
    g.node id = default := by
  rw [node, Array.getD_eq_getD_getElem?, Array.getElem?_eq_none h,
    Option.getD_none]

theorem callees_of_le {g : CostGraph} {id : NodeId} (h : g.nodes.size ≤ id) :
    g.callees id = [] := by
  rw [callees, g.node_of_le h]
  rfl

theorem caller_lt {g : CostGraph} {a b : NodeId} (h : b ∈ g.callees a) :
    a < g.nodes.size := by
  by_contra hout
  rw [callees_of_le (Nat.le_of_not_lt hout)] at h
  cases h

theorem callee_lt {g : CostGraph} (hg : g.WellFormed) {a b : NodeId}
    (h : b ∈ g.callees a) :
    b < g.nodes.size := by
  have ha := caller_lt h
  rw [callees, g.node_of_lt ha] at h
  obtain ⟨c, hc, rfl⟩ := List.mem_map.1 h
  exact hg _ (Array.getElem_mem ha) c hc

/-! ## One step of the search -/

theorem mem_discover_found (targets : List NodeId) {unseen : List NodeId}
    (hnodup : unseen.Nodup) (n : NodeId) :
    n ∈ (discover unseen targets).1 ↔ n ∈ targets ∧ n ∈ unseen := by
  induction targets generalizing unseen with
  | nil => simp [discover]
  | cons target targets ih =>
      unfold discover
      by_cases htarget : target ∈ unseen
      · have hrest := ih (hnodup.erase target)
        rw [hnodup.mem_erase_iff] at hrest
        rw [if_pos htarget, List.mem_cons, hrest, List.mem_cons]
        by_cases hn : n = target
        · simp [hn, htarget]
        · simp [hn]
      · rw [if_neg htarget, ih hnodup, List.mem_cons]
        by_cases hn : n = target
        · simp [hn, htarget]
        · simp [hn]

theorem mem_discover_left (targets : List NodeId) {unseen : List NodeId}
    (hnodup : unseen.Nodup) (n : NodeId) :
    n ∈ (discover unseen targets).2 ↔ n ∈ unseen ∧ n ∉ targets := by
  induction targets generalizing unseen with
  | nil => simp [discover]
  | cons target targets ih =>
      unfold discover
      by_cases htarget : target ∈ unseen
      · rw [if_pos htarget, ih (hnodup.erase target), hnodup.mem_erase_iff,
          List.mem_cons, not_or]
        exact ⟨fun h => ⟨h.1.2, h.1.1, h.2⟩, fun h => ⟨⟨h.2.1, h.1⟩, h.2.2⟩⟩
      · rw [if_neg htarget, ih hnodup, List.mem_cons, not_or]
        constructor
        · intro h
          refine ⟨h.1, ?_, h.2⟩
          intro hn
          exact htarget (hn ▸ h.1)
        · intro h
          exact ⟨h.1, h.2.2⟩

theorem nodup_discover (targets : List NodeId) {unseen : List NodeId}
    (hnodup : unseen.Nodup) :
    (discover unseen targets).1.Nodup ∧ (discover unseen targets).2.Nodup := by
  induction targets generalizing unseen with
  | nil => exact ⟨List.nodup_nil, hnodup⟩
  | cons target targets ih =>
      unfold discover
      by_cases htarget : target ∈ unseen
      · have hrest := ih (hnodup.erase target)
        rw [if_pos htarget]
        refine ⟨List.nodup_cons.2 ⟨?_, hrest.1⟩, hrest.2⟩
        rw [mem_discover_found _ (hnodup.erase target), hnodup.mem_erase_iff]
        exact fun h => h.2.1 rfl
      · rw [if_neg htarget]
        exact ih hnodup

theorem searched_start (g : CostGraph) (id : NodeId) :
    g.Searched id ((List.range g.nodes.size).erase id) [id] [id] where
  nodup := List.nodup_singleton id
  nodup_unseen := List.nodup_range.erase id
  fresh := by
    intro n hn hid
    exact (List.nodup_range.mem_erase_iff.1 hn).1 (List.mem_singleton.1 hid)
  covered := by
    intro n hn
    by_cases hid : n = id
    · exact .inr (List.mem_singleton.2 hid)
    · exact .inl ((List.mem_erase_of_ne hid).2 (List.mem_range.2 hn))
  starts := rfl
  reached := by
    intro n hn
    rw [List.mem_singleton.1 hn]
    exact .refl
  work_found := fun n hn => hn
  visited := fun n hn => .inl hn

/-- Visiting the method on top of the work. It has no unseen callee left then;
any other keeps its place. -/
theorem Searched.visit
    {g : CostGraph} {start id : NodeId} {unseen rest found : List NodeId}
    (h : g.Searched start unseen (id :: rest) found) :
    g.Searched start (discover unseen (g.callees id)).2
      ((discover unseen (g.callees id)).1.reverse ++ rest)
      (found ++ (discover unseen (g.callees id)).1) := by
  have hfound := mem_discover_found (g.callees id) h.nodup_unseen
  have hleft := mem_discover_left (g.callees id) h.nodup_unseen
  have hnodup := nodup_discover (g.callees id) h.nodup_unseen
  refine
    { nodup := ?_
      nodup_unseen := hnodup.2
      fresh := ?_
      covered := ?_
      starts := ?_
      reached := ?_
      work_found := ?_
      visited := ?_ }
  · refine List.nodup_append.2 ⟨h.nodup, hnodup.1, ?_⟩
    intro n hn m hm heq
    exact h.fresh m ((hfound m).1 hm).2 (heq ▸ hn)
  · intro n hn hmem
    rcases List.mem_append.1 hmem with hold | hnew
    · exact h.fresh n ((hleft n).1 hn).1 hold
    · exact ((hleft n).1 hn).2 ((hfound n).1 hnew).1
  · intro n hn
    rw [List.mem_append, hleft, hfound]
    rcases h.covered n hn with hunseen | hold
    · by_cases hcallee : n ∈ g.callees id
      · exact .inr (.inr ⟨hcallee, hunseen⟩)
      · exact .inl ⟨hunseen, hcallee⟩
    · exact .inr (.inl hold)
  · have hne : found ≠ [] := by
      intro hnil
      have hstarts := h.starts
      simp [hnil] at hstarts
    obtain ⟨first, others, rfl⟩ := List.exists_cons_of_ne_nil hne
    exact h.starts
  · intro n hn
    rcases List.mem_append.1 hn with hold | hnew
    · exact h.reached n hold
    · have hid := h.reached id (h.work_found id List.mem_cons_self)
      exact hid.tail ((hfound n).1 hnew).1
  · intro n hn
    rcases List.mem_append.1 hn with hnew | hrest
    · exact List.mem_append_right _ (List.mem_reverse.1 hnew)
    · exact List.mem_append_left _
        (h.work_found n (List.mem_cons_of_mem _ hrest))
  · intro n hn
    rcases List.mem_append.1 hn with hold | hnew
    · rcases h.visited n hold with hwork | hdone
      · rcases List.mem_cons.1 hwork with rfl | hrest
        · exact .inr fun m hm hunseen => ((hleft m).1 hunseen).2 hm
        · exact .inl (List.mem_append_right _ hrest)
      · exact .inr fun m hm hunseen => hdone m hm ((hleft m).1 hunseen).1
    · exact .inl (List.mem_append_left _ (List.mem_reverse.2 hnew))

/-- A search keeps its invariant until no work is left. -/
theorem Searched.search {g : CostGraph} {start : NodeId}
    {unseen work found : List NodeId} (h : g.Searched start unseen work found) :
    ∃ rest, g.Searched start rest [] (g.search unseen work found) := by
  induction unseen, work, found using CostGraph.search.induct (g := g) with
  | case1 unseen found =>
      rw [CostGraph.search]
      exact ⟨unseen, h⟩
  | case2 unseen found id rest step ih =>
      rw [CostGraph.search]
      exact ih h.visit

theorem searched_reachable (g : CostGraph) (id : NodeId) :
    ∃ rest, g.Searched id rest [] (g.reachable id) :=
  (g.searched_start id).search

theorem nodup_reachable (g : CostGraph) (id : NodeId) :
    (g.reachable id).Nodup := by
  obtain ⟨rest, h⟩ := g.searched_reachable id
  exact h.nodup

theorem head?_reachable (g : CostGraph) (id : NodeId) :
    (g.reachable id).head? = some id := by
  obtain ⟨rest, h⟩ := g.searched_reachable id
  exact h.starts

theorem mem_reachable_iff {g : CostGraph} (hg : g.WellFormed) (id n : NodeId) :
    n ∈ g.reachable id ↔ g.Reaches id n := by
  obtain ⟨rest, h⟩ := g.searched_reachable id
  constructor
  · exact h.reached n
  · intro hreaches
    induction hreaches with
    | refl => exact List.mem_of_head? h.starts
    | @tail a b _ hcall ih =>
        have hdone := (h.visited a ih).resolve_left List.not_mem_nil
        exact (h.covered b (callee_lt hg hcall)).resolve_left (hdone b hcall)

/-- A search finds only what it was told of. -/
theorem search_subset (g : CostGraph) {unseen work found : List NodeId}
    (hnodup : unseen.Nodup) :
    ∀ n ∈ g.search unseen work found, n ∈ found ∨ n ∈ unseen := by
  induction unseen, work, found using CostGraph.search.induct (g := g) with
  | case1 unseen found =>
      rw [CostGraph.search]
      exact fun n hn => .inl hn
  | case2 unseen found id rest step ih =>
      rw [CostGraph.search]
      intro n hn
      rcases ih (nodup_discover _ hnodup).2 n hn with hfound | hleft
      · rcases List.mem_append.1 hfound with hold | hnew
        · exact .inl hold
        · exact .inr ((mem_discover_found _ hnodup n).1 hnew).2
      · exact .inr ((mem_discover_left _ hnodup n).1 hleft).1

theorem lt_of_mem_reachable {g : CostGraph} {id n : NodeId}
    (hid : id < g.nodes.size) (h : n ∈ g.reachable id) : n < g.nodes.size := by
  rcases g.search_subset (List.nodup_range.erase id) n h with hstart | hunseen
  · rw [List.mem_singleton.1 hstart]
    exact hid
  · exact List.mem_range.1 (List.mem_of_mem_erase hunseen)

/-- Calls to nodes that are not there lead no further, so they do not keep the
search from any node that is. -/
theorem mem_reachable_of_lt {g : CostGraph} {id n : NodeId} (h : g.Reaches id n)
    (hn : n < g.nodes.size) : n ∈ g.reachable id := by
  obtain ⟨rest, hsearched⟩ := g.searched_reachable id
  induction h with
  | refl => exact List.mem_of_head? hsearched.starts
  | @tail a b _ hcall ih =>
      have hdone := (hsearched.visited a (ih (caller_lt hcall))).resolve_left
        List.not_mem_nil
      exact (hsearched.covered b hn).resolve_left (hdone b hcall)

/-! ## Linking -/

@[simp] theorem size_link (g : CostGraph) :
    g.link.nodes.size = g.nodes.size := by
  simp [link]

theorem node_link (g : CostGraph) {id : NodeId} (h : id < g.nodes.size) :
    g.link.node id = { g.node id with
      totalComplexity :=
        total (((g.reachable id).map g.node).map MethodCost.ownComplexity)
      totalGlobals :=
        total (((g.reachable id).map g.node).map MethodCost.ownGlobals) } := by
  rw [node_of_lt _ (by simpa using h), node_of_lt _ h]
  simp [link]

/-- Linking keeps what it reads. -/
theorem node_link_own (g : CostGraph) (id : NodeId) :
    (g.link.node id).ownComplexity = (g.node id).ownComplexity ∧
      (g.link.node id).ownGlobals = (g.node id).ownGlobals ∧
      (g.link.node id).calls = (g.node id).calls := by
  by_cases h : id < g.nodes.size
  · rw [g.node_link h]
    exact ⟨rfl, rfl, rfl⟩
  · rw [node_of_le _ (by simpa using h), node_of_le _ (Nat.le_of_not_lt h)]
    exact ⟨rfl, rfl, rfl⟩

/-- A search only looks at callees. -/
theorem search_congr
    {g h : CostGraph} (hcallees : ∀ id, h.callees id = g.callees id)
    (unseen work found : List NodeId) :
    h.search unseen work found = g.search unseen work found := by
  induction unseen, work, found using CostGraph.search.induct (g := g) with
  | case1 unseen found => rw [search, search]
  | case2 unseen found id rest step ih =>
      rw [search, search, hcallees id]
      exact ih

theorem callees_link (g : CostGraph) (id : NodeId) :
    g.link.callees id = g.callees id := by
  rw [callees, callees, (g.node_link_own id).2.2]

theorem reachable_link (g : CostGraph) (id : NodeId) :
    g.link.reachable id = g.reachable id := by
  rw [reachable, reachable, size_link, search_congr g.callees_link]

/-- Linking keeps costs that it does not write. -/
theorem map_node_link (g : CostGraph) {cost : MethodCost → Nat}
    (hcost : ∀ id, cost (g.link.node id) = cost (g.node id))
    (ids : List NodeId) :
    (ids.map g.link.node).map cost = (ids.map g.node).map cost := by
  rw [List.map_map, List.map_map]
  exact List.map_congr_left fun id _ => hcost id

theorem link_link (g : CostGraph) : g.link.link = g.link := by
  have hnodes : g.link.link.nodes = g.link.nodes := by
    apply Array.ext
    · simp
    · intro id hlinked hid
      have hlt : id < g.nodes.size := by simpa using hid
      rw [← node_of_lt _ hlinked, ← node_of_lt _ hid, node_link _ hid,
        node_link _ hlt, reachable_link, g.map_node_link fun n =>
        (g.node_link_own n).1, g.map_node_link fun n => (g.node_link_own n).2.1]
  exact congrArg CostGraph.mk hnodes

/-- A total over distinct methods is a sum over their set. -/
theorem total_map_eq_sum {ids : List NodeId} (hnodup : ids.Nodup)
    (cost : NodeId → Nat) :
    total (ids.map cost) = ∑ n ∈ ids.toFinset, cost n := by
  induction ids with
  | nil => rfl
  | cons id ids ih =>
      have hrest := List.nodup_cons.1 hnodup
      have hid : id ∉ ids.toFinset := by
        rw [List.mem_toFinset]
        exact hrest.1
      rw [List.map_cons, total_cons, List.toFinset_cons,
        Finset.sum_insert hid, ih hrest.2]

/-- A total over the methods that a search finds is a sum over the set of
methods that calls lead to. -/
theorem total_reachable {g : CostGraph} (hg : g.WellFormed) (id : NodeId)
    (cost : MethodCost → Nat) {reached : Finset NodeId}
    (hreached : ∀ n, n ∈ reached ↔ g.Reaches id n) :
    total (((g.reachable id).map g.node).map cost) = ∑ n ∈ reached,
      cost (g.node n) := by
  have hset : (g.reachable id).toFinset = reached := by
    ext n
    rw [List.mem_toFinset, mem_reachable_iff hg, hreached]
  rw [List.map_map, total_map_eq_sum (g.nodup_reachable id), hset]
  rfl

/-- A caller costs at least what its callee costs. -/
theorem totals_le_of_call {g : CostGraph} {caller callee : NodeId}
    (hcaller : caller < g.nodes.size) (hcallee : callee < g.nodes.size)
    (hcall : callee ∈ g.callees caller) :
    (g.link.node callee).totalComplexity ≤
      (g.link.node caller).totalComplexity ∧
      (g.link.node callee).totalGlobals ≤
        (g.link.node caller).totalGlobals := by
  have hsub :
      (g.reachable callee).toFinset ⊆ (g.reachable caller).toFinset := by
    intro n hn
    rw [List.mem_toFinset] at hn ⊢
    obtain ⟨rest, hsearched⟩ := g.searched_reachable callee
    exact mem_reachable_of_lt (.head hcall (hsearched.reached n hn))
      (lt_of_mem_reachable hcallee hn)
  have hle : ∀ cost : MethodCost → Nat,
      total (((g.reachable callee).map g.node).map cost) ≤
        total (((g.reachable caller).map g.node).map cost) := by
    intro cost
    rw [List.map_map, List.map_map, total_map_eq_sum (g.nodup_reachable callee),
      total_map_eq_sum (g.nodup_reachable caller)]
    exact Finset.sum_le_sum_of_subset hsub
  rw [g.node_link hcaller, g.node_link hcallee]
  exact ⟨hle MethodCost.ownComplexity, hle MethodCost.ownGlobals⟩

/-- **Linking charges every method once.** The search from a node lists the
nodes that calls lead to, each once and the node itself first. The totals of
the node are sums of own costs over the set of these nodes, and linking again
changes nothing. -/
theorem link_charges_each_once {g : CostGraph} (hg : g.WellFormed) :
    (∀ id < g.nodes.size,
      (g.reachable id).head? = some id ∧ (g.reachable id).Nodup ∧
        (∀ n, n ∈ g.reachable id ↔ g.Reaches id n) ∧
        ∃ reached : Finset NodeId, (∀ n, n ∈ reached ↔ g.Reaches id n) ∧
          (g.link.node id).totalComplexity = ∑ n ∈ reached,
            (g.node n).ownComplexity ∧
          (g.link.node id).totalGlobals = ∑ n ∈ reached,
            (g.node n).ownGlobals) ∧
      g.link.link = g.link := by
  refine ⟨?_, g.link_link⟩
  intro id hid
  have hmem := mem_reachable_iff hg id
  have hreached : ∀ n, n ∈ (g.reachable id).toFinset ↔ g.Reaches id n := by
    intro n
    rw [List.mem_toFinset, hmem]
  refine ⟨g.head?_reachable id, g.nodup_reachable id, hmem,
    (g.reachable id).toFinset, hreached, ?_, ?_⟩
  · rw [g.node_link hid]
    exact total_reachable hg id MethodCost.ownComplexity hreached
  · rw [g.node_link hid]
    exact total_reachable hg id MethodCost.ownGlobals hreached

/-- A cycle, a method that calls itself, a repeated call and a callee of two
methods. Nothing calls the last one. -/
def tangle : CostGraph where
  nodes := #[
    method "a" 1 [1, 2, 1], method "b" 2 [3, 0], method "c" 4 [2, 3],
      method "d" 8 [],
    method "e" 16 [0]]
where
  method (signature : String) (ownComplexity : Nat) (callees : List NodeId) :
    MethodCost :=
    { owner := "Tangle", signature, startingLine := 1, ownComplexity
      calls := callees.map fun callee => { line := 2, callee }
      touches := [{ line := 3, target := "Tangle.count" }] }

theorem tangle_charged_once :
    tangle.WellFormed ∧ tangle.reachable 1 = [1, 3, 0, 2] ∧
      (tangle.link.node 1).totalComplexity = 15 ∧
        (tangle.link.node 1).totalGlobals = 4 ∧
      (∃ reached : Finset NodeId, (∀ n, n ∈ reached ↔ tangle.Reaches 1 n) ∧
        (tangle.link.node 1).totalComplexity = ∑ n ∈ reached,
          (tangle.node n).ownComplexity ∧
        (tangle.link.node 1).totalGlobals = ∑ n ∈ reached,
          (tangle.node n).ownGlobals) ∧
      tangle.link.link = tangle.link := by
  have hg : tangle.WellFormed := by
    unfold WellFormed tangle
    decide
  have h := link_charges_each_once hg
  have hreachable : tangle.reachable 1 = [1, 3, 0, 2] := by cbv
  have hcomplexity : (tangle.link.node 1).totalComplexity = 15 := by cbv
  have hglobals : (tangle.link.node 1).totalGlobals = 4 := by cbv
  exact ⟨hg, hreachable, hcomplexity, hglobals, (h.1 1 (by decide)).2.2.2, h.2⟩

end CostGraph

end TestCost
