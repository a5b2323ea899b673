import Mathlib
import TestCost.Proofs.Report.DepthLimit

/-!
# What call trees show

A line of a call tree is that of a method within reach that is worth it, and no
method has two. Leaving out a method with too small totals loses nothing below
it, because totals do not grow along calls.

A tree with as many levels as there are methods loses nothing to its depth
either. Every level down to that of a line has a line, all of different methods,
so a line at the deepest level means that all methods have been shown.

A class is reported when the largest total of its methods is worth it, and then
the method with that total heads a tree of its own.

## Main results

* `not_reaches_of_reaches` — nothing below a method that is not worth a line is
  worth one.
* `mem_methods_iff_reaches` — what a tree that is deep enough shows.
* `isReported_iff` — which classes are reported.
* `call_trees_sound` — call trees as a whole.
-/

namespace TestCost

/-- The largest of some numbers reaches a bound exactly if one of them does. -/
theorem le_foldl_max_iff (costs : List Nat) (bound least : Nat) :
    bound ≤ costs.foldl max least ↔ bound ≤ least ∨ ∃ cost ∈ costs,
      bound ≤ cost := by
  induction costs generalizing least with
  | nil => simp
  | cons cost costs ih =>
      rw [List.foldl_cons, ih, le_max_iff, or_assoc]
      simp

/-- A class with methods is reported exactly if one of them is worth a line. -/
theorem ReportSettings.isReported_iff (s : ReportSettings) {c : ClassCost}
    (hmethods : c.methods ≠ []) :
    s.isReported c = true ↔ ∃ m ∈ c.methods,
      (c.graph.node m).reaches s.minCost = true := by
  obtain ⟨first, hfirst⟩ := List.exists_mem_of_ne_nil _ hmethods
  have hhighest : ∀ cost : MethodCost → Nat,
      s.minCost ≤ (c.methodCosts.map cost).foldl max 0 ↔
        ∃ m ∈ c.methods, s.minCost ≤ cost (c.graph.node m) := by
    intro cost
    rw [le_foldl_max_iff, ClassCost.methodCosts, List.map_map]
    simp only [List.mem_map, Function.comp_apply, exists_exists_and_eq_and]
    refine ⟨?_, .inr⟩
    rintro (hzero | hreached)
    · exact ⟨first, hfirst, by omega⟩
    · exact hreached
  rw [isReported, Bool.or_eq_true, decide_eq_true_eq, decide_eq_true_eq,
    ClassCost.highestComplexity, ClassCost.highestGlobals, hhighest, hhighest,
    ← exists_or]
  simp [MethodCost.reaches, and_or_left]

namespace CallTree

variable {g : CostGraph} {minCost depth : Nat} {root : NodeId}

/-- Nothing below a method that is not worth a line is worth one. -/
theorem not_reaches_of_reaches (hg : g.WellFormed) (hlinked : g.link = g)
    {m n : NodeId} (hcheap : ¬ (g.node m).reaches minCost = true)
    (hbelow : g.Reaches m n) :
    ¬ (g.node n).reaches minCost = true := by
  induction hbelow with
  | refl => exact hcheap
  | tail _ hcall ih =>
      exact fun hreaches => ih (reaches_of_call hg hlinked hcall hreaches)

/-- Every level down to that of a line has a line. -/
theorem exists_shown_at_level {s : Shown} (hs : s ∈ shown g minCost depth root)
    {level : Nat} (hlevel : level ≤ s.level) :
    ∃ t ∈ shown g minCost depth root, t.level = level := by
  induction hdistance : s.level - level generalizing s with
  | zero => exact ⟨s, hs, by omega⟩
  | succ distance ih =>
      rcases called_of_shown hs with ⟨hzero, _⟩ | ⟨caller, hcaller, hup, _⟩
      · omega
      · exact ih hcaller (by omega) (by omega)

theorem level_lt_length {s : Shown} (hs : s ∈ shown g minCost depth root) :
    s.level < (shown g minCost depth root).length := by
  have hsub : Finset.range (s.level + 1) ⊆
      ((shown g minCost depth root).map Shown.level).toFinset := by
    intro level hlevel
    obtain ⟨t, ht, rfl⟩ :=
      exists_shown_at_level hs (Nat.le_of_lt_succ (Finset.mem_range.1 hlevel))
    exact List.mem_toFinset.2 (List.mem_map_of_mem ht)
  have hcard := (Finset.card_le_card hsub).trans (List.toFinset_card_le _)
  rw [Finset.card_range, List.length_map] at hcard
  exact hcard

theorem lt_size_of_mem_methods (hg : g.WellFormed) (hroot : root < g.nodes.size)
    {m : NodeId} (hm : m ∈ methods g minCost depth root) :
    m < g.nodes.size := by
  rcases ((mem_methods_iff m).1 hm).2 with ⟨rfl, _⟩ | ⟨s, _, _, hcall⟩
  · exact hroot
  · exact CostGraph.callee_lt hg hcall

/-- In a tree with as many levels as there are methods, a line at the deepest
level means that every method has one. -/
theorem mem_methods_of_deepest (hg : g.WellFormed)
    (hroot : root < g.nodes.size) (hdepth : g.nodes.size ≤ depth) {s : Shown}
    (hs : s ∈ shown g minCost depth root) (hdeepest : s.level + 1 = depth)
    {m : NodeId} (hm : m < g.nodes.size) :
    m ∈ methods g minCost depth root := by
  have hsub :
      (methods g minCost depth root).toFinset ⊆ Finset.range g.nodes.size := by
    intro n hn
    exact Finset.mem_range.2
      (lt_size_of_mem_methods hg hroot (List.mem_toFinset.1 hn))
  have hcard : (Finset.range g.nodes.size).card ≤
      (methods g minCost depth root).toFinset.card := by
    have hlength := level_lt_length hs
    rw [Finset.card_range, List.toFinset_card_of_nodup
      (nodup_methods g minCost depth root), methods, List.length_map]
    omega
  rw [← List.mem_toFinset, Finset.eq_of_subset_of_card_le hsub hcard]
  exact Finset.mem_range.2 hm

/-- A tree that is deep enough shows all that is within reach and worth a line.
-/
theorem mem_methods_iff_reaches (hg : g.WellFormed) (hlinked : g.link = g)
    (hroot : root < g.nodes.size) (hdepth : g.nodes.size ≤ depth) (m : NodeId) :
    m ∈ methods g minCost depth root ↔
      g.Reaches root m ∧ (g.node m).reaches minCost = true := by
  constructor
  · intro hm
    obtain ⟨s, hs, rfl⟩ := List.mem_map.1 hm
    obtain ⟨path, hpath, _⟩ := exists_path_of_shown hs
    exact ⟨hpath.reaches, reaches_of_shown hs⟩
  · rintro ⟨hbelow, hreaches⟩
    obtain ⟨path, hpath⟩ := exists_callPath hbelow
    have hlevels : 0 < depth :=
      Nat.lt_of_lt_of_le (Nat.zero_lt_of_lt hroot) hdepth
    rcases mem_methods_or_deepest hg hlinked hlevels hpath hreaches with
      hm | hdeepest
    · exact hm
    · obtain ⟨_, _, s, hs, _, _, hlevel⟩ := hdeepest
      have hm : m < g.nodes.size := CostGraph.lt_of_mem_reachable hroot
        ((CostGraph.mem_reachable_iff hg root m).2 hbelow)
      exact mem_methods_of_deepest hg hroot hdepth hs hlevel hm

/-- **Call trees are sound, and leaving out small totals loses nothing.** Each
line of the tree of a method, at whatever level below the depth, is that of a
method so many calls away whose totals are worth it, and no method has two. With
as many levels as there are methods, the tree shows all such methods within
reach. Below a method that is not worth a line nothing is. So, unless trees have
no levels, a class with methods is reported exactly if one of its methods has a
line. -/
theorem call_trees_sound (s : ReportSettings) {c : ClassCost}
    (hg : c.graph.WellFormed) (hlinked : c.graph.link = c.graph) :
    (∀ root < c.graph.nodes.size,
      ofMethod s c root =
        (shown c.graph s.minCost s.printDepth root).map (Shown.text c.graph) ∧
        (∀ l ∈ shown c.graph s.minCost s.printDepth root,
          (∃ path, CallPath c.graph root path l.id ∧
            path.length = l.level + 1) ∧
            l.level < s.printDepth ∧
              (c.graph.node l.id).reaches s.minCost = true) ∧
        (methods c.graph s.minCost s.printDepth root).Nodup ∧
        (c.graph.nodes.size ≤ s.printDepth →
          ∀ m, m ∈ methods c.graph s.minCost s.printDepth root ↔
            c.graph.Reaches root m ∧
              (c.graph.node m).reaches s.minCost = true)) ∧
      (∀ m n, ¬ (c.graph.node m).reaches s.minCost = true →
        c.graph.Reaches m n →
        ¬ (c.graph.node n).reaches s.minCost = true) ∧
      (1 ≤ s.printDepth → c.methods ≠ [] → (s.isReported c = true ↔
        ∃ root ∈ c.methods, ∃ m ∈ c.methods,
          m ∈ methods c.graph s.minCost s.printDepth root)) := by
  refine ⟨?_, ?_, ?_⟩
  · intro root hroot
    refine ⟨ofMethod_eq_map s c root, ?_, nodup_methods _ _ _ _, ?_⟩
    · intro l hl
      exact ⟨exists_path_of_shown hl, level_lt hl, reaches_of_shown hl⟩
    · exact mem_methods_iff_reaches hg hlinked hroot
  · intro m n hcheap hbelow
    exact not_reaches_of_reaches hg hlinked hcheap hbelow
  · intro hdepth hmethods
    rw [s.isReported_iff hmethods]
    constructor
    · rintro ⟨m, hm, hreaches⟩
      exact ⟨m, hm, m, hm, root_mem_methods hdepth hreaches⟩
    · rintro ⟨root, _, m, hm, hshown⟩
      exact ⟨m, hm, ((mem_methods_iff m).1 hshown).1⟩

/-- A class with two of the methods of `CostGraph.tangle`, one of them on a
cycle. -/
def knot : ClassCost where
  name := "Knot"
  graph := CostGraph.tangle.link
  methods := [0, 3]
  missing := []

theorem knot_trees_sound :
    knot.graph.WellFormed ∧ knot.graph.link = knot.graph ∧
      methods knot.graph 10 5 0 = [0, 1, 2] ∧
      (∀ m, m ∈ methods knot.graph 10 5 0 ↔
        knot.graph.Reaches 0 m ∧ (knot.graph.node m).reaches 10 = true) ∧
      methods knot.graph 10 5 3 = [] ∧
      ReportSettings.isReported { printDepth := 5, minCost := 10 } knot = true ∧
      ReportSettings.isReported { printDepth := 5, minCost := 16 } knot =
        false := by
  have hg : knot.graph.WellFormed := by
    unfold CostGraph.WellFormed
    decide
  have hlinked : knot.graph.link = knot.graph := CostGraph.link_link _
  have hroot : methods knot.graph 10 5 0 = [0, 1, 2] := by cbv
  have hnone : methods knot.graph 16 5 0 = [] := by cbv
  have hnone' : methods knot.graph 16 5 3 = [] := by cbv
  have hsound := call_trees_sound { printDepth := 5, minCost := 10 } hg hlinked
  have hcostly := call_trees_sound { printDepth := 5, minCost := 16 } hg hlinked
  refine ⟨hg, hlinked, hroot, (hsound.1 0 (by decide)).2.2.2 (by decide),
    by cbv, ?_, ?_⟩
  · refine (hsound.2.2 (by decide) (by decide)).2
      ⟨0, by decide, 0, by decide, ?_⟩
    rw [hroot]
    decide
  · rw [Bool.eq_false_iff, ne_eq, hcostly.2.2 (by decide) (by decide)]
    rintro ⟨root, hmem, m, _, hm⟩
    rcases List.mem_pair.1 hmem with rfl | rfl
    · simp [hnone] at hm
    · simp [hnone'] at hm

end CallTree

end TestCost
