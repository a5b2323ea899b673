import Mathlib
import TestCost.Proofs.Report.CallTree

/-!
# The depth of call trees

A call tree is walked depth first and shows a method where it is met first. The
first meeting need not be the nearest to the root. Where a longer way is
followed before a shorter one, a method can get its line at the deepest level;
what it calls is then beyond the limit, and when the walk comes to the method
again, on the shorter way and with levels to spare, it passes over it. So a
method can lack a line although few calls lead to it
(`detour_hides_near_method`).

Nothing else hides a method. Totals do not grow along calls, so the methods on
the way to a method worth a line are worth one too, and each of them hands the
walk on to the next unless its line is at the deepest level.

## Main results

* `reaches_of_call` — a caller is worth a line when its callee is.
* `mem_methods_or_deepest` — along any path, lines go on to the end of it or to
  a line at the deepest level.
* `hidden_only_behind_deepest_line` — what the depth limit hides.
-/

namespace TestCost

namespace CallTree

variable {g : CostGraph} {minCost depth : Nat} {root : NodeId}

/-- In a linked graph, a caller is worth a line when its callee is. -/
theorem reaches_of_call (hg : g.WellFormed) (hlinked : g.link = g)
    {caller callee : NodeId} (hcall : callee ∈ g.callees caller)
    (hreaches : (g.node callee).reaches minCost = true) :
    (g.node caller).reaches minCost = true := by
  have htotals := CostGraph.totals_le_of_call (CostGraph.caller_lt hcall)
    (CostGraph.callee_lt hg hcall) hcall
  rw [hlinked] at htotals
  simp only [MethodCost.reaches, Bool.or_eq_true,
    decide_eq_true_eq] at hreaches ⊢
  omega

/-- Along a path to a method worth a line, lines go on to the method or to a
line at the deepest level. -/
theorem mem_methods_or_deepest
    (hg : g.WellFormed) (hlinked : g.link = g) (hdepth : 0 < depth)
    {path : List NodeId} {m : NodeId} (hpath : CallPath g root path m)
    (hreaches : (g.node m).reaches minCost = true) :
    m ∈ methods g minCost depth root ∨
      ∃ before after, ∃ s ∈ shown g minCost depth root,
        path = before ++ s.id :: after ∧ after ≠ [] ∧ s.level + 1 = depth := by
  induction hpath with
  | root => exact .inl (root_mem_methods hdepth hreaches)
  | @call path caller callee hpath hcall ih =>
      rcases ih (reaches_of_call hg hlinked hcall hreaches) with
        hshown | hdeepest
      · obtain ⟨s, hs, rfl⟩ := List.mem_map.1 hshown
        by_cases habove : s.level + 1 < depth
        · exact .inl (callee_mem_methods hs habove hcall hreaches)
        · have hlevel := level_lt hs
          obtain ⟨before, rfl⟩ := hpath.exists_append
          exact .inr ⟨before, [callee], s, hs, by simp, by simp, by omega⟩
      · obtain ⟨before, after, s, hs, rfl, _, hlevel⟩ := hdeepest
        exact .inr ⟨before, after ++ [callee], s, hs, by simp, by simp, hlevel⟩

/-- **What the depth limit hides.** A method has a line exactly if it is worth
one and is the root, or is called by a method with a line above the deepest
level. So on any way of fewer calls than the depth to a method worth a line,
either the method has its line, or a method before it on this way has its line
at the deepest level, further down than the way is long up to it. -/
theorem hidden_only_behind_deepest_line (s : ReportSettings)
    {c : ClassCost} (hg : c.graph.WellFormed) (hlinked : c.graph.link = c.graph)
    (root : NodeId) :
    ofMethod s c root =
      (shown c.graph s.minCost s.printDepth root).map (Shown.text c.graph) ∧
      (∀ m, m ∈ methods c.graph s.minCost s.printDepth root ↔
        (c.graph.node m).reaches s.minCost = true ∧
          ((m = root ∧ 0 < s.printDepth) ∨
          ∃ caller ∈ shown c.graph s.minCost s.printDepth root,
            caller.level + 1 < s.printDepth ∧ m ∈ c.graph.callees caller.id)) ∧
      ∀ path m, CallPath c.graph root path m → path.length ≤ s.printDepth →
        (c.graph.node m).reaches s.minCost = true →
        m ∈ methods c.graph s.minCost s.printDepth root ∨
          ∃ before after, ∃ deepest ∈ shown c.graph s.minCost s.printDepth root,
            path = before ++ deepest.id :: after ∧ after ≠ [] ∧
              deepest.level + 1 = s.printDepth ∧ before.length <
                deepest.level := by
  refine ⟨ofMethod_eq_map s c root, mem_methods_iff, ?_⟩
  intro path m hpath hlength hreaches
  have hdepth : 0 < s.printDepth := Nat.lt_of_lt_of_le hpath.length_pos hlength
  refine (mem_methods_or_deepest hg hlinked hdepth hpath hreaches).imp_right ?_
  rintro ⟨before, after, deepest, hdeepest, rfl, hafter, hlevel⟩
  have hrest := List.length_pos_iff.2 hafter
  rw [List.length_append, List.length_cons] at hlength
  exact ⟨before, after, deepest, hdeepest, rfl, hafter, hlevel, by omega⟩

/-- The first method calls the third one directly, and before that by way of the
second. The third calls the last. -/
def detour : ClassCost where
  name := "Detour"
  graph := CostGraph.link { nodes := #[
    method "run" [1, 2], method "prepare" [2], method "convert" [3],
      method "check" []] }
  methods := [0]
  missing := []
where
  method (signature : String) (callees : List NodeId) : MethodCost :=
    { owner := "Detour", signature, startingLine := 1, ownComplexity := 1
      calls := callees.map fun callee => { line := 2, callee } }

theorem detour_wellFormed : detour.graph.WellFormed := by
  unfold CostGraph.WellFormed
  decide

theorem detour_linked : detour.graph.link = detour.graph :=
  CostGraph.link_link _

theorem detour_path : CallPath detour.graph 0 [0, 2, 3] 3 := by
  have hconvert : CallPath detour.graph 0 [0, 2] 2 :=
    CallPath.root.call (by decide)
  exact hconvert.call (by decide)

theorem shown_detour :
    shown detour.graph 1 3 0 =
      [⟨0, none, 0⟩, ⟨1, some 2, 1⟩, ⟨2, some 2, 2⟩] := by
  cbv

theorem check_not_mem_methods : 3 ∉ methods detour.graph 1 3 0 := by
  rw [methods, shown_detour]
  decide

/-- Two calls lead to the last method, which is worth a line, and a tree of
three levels does not show it. -/
theorem detour_hides_near_method :
    detour.graph.WellFormed ∧ detour.graph.link = detour.graph ∧
      CallPath detour.graph 0 [0, 2, 3] 3 ∧ [0, 2, 3].length ≤ 3 ∧
      (detour.graph.node 3).reaches 1 = true ∧ 3 ∉ methods detour.graph 1 3 0 ∧
      ofMethod { printDepth := 3, minCost := 1 } detour 0 =
        [⟨0, none, 0⟩, ⟨1, some 2, 1⟩, ⟨2, some 2, 2⟩].map
          (Shown.text detour.graph) := by
  refine ⟨detour_wellFormed, detour_linked, detour_path, by decide, by cbv,
    check_not_mem_methods, ?_⟩
  rw [ofMethod_eq_map, ← shown_detour]

/-- The last method is missing behind the third one, whose line is two levels
below the root although one call leads to it. -/
theorem detour_hidden_behind_convert :
    detour.graph.WellFormed ∧ detour.graph.link = detour.graph ∧
      CallPath detour.graph 0 [0, 2, 3] 3 ∧
        (detour.graph.node 3).reaches 1 = true ∧
      (∃ before after, ∃ deepest ∈ shown detour.graph 1 3 0,
        [0, 2, 3] = before ++ deepest.id :: after ∧ after ≠ [] ∧
          deepest.level + 1 = 3 ∧ before.length < deepest.level) := by
  have hreaches : (detour.graph.node 3).reaches 1 = true := by cbv
  have hhidden := (hidden_only_behind_deepest_line
    { printDepth := 3, minCost := 1 } detour_wellFormed detour_linked 0).2.2
    [0, 2, 3] 3 detour_path (by decide) hreaches
  exact ⟨detour_wellFormed, detour_linked, detour_path, hreaches,
    hhidden.resolve_left check_not_mem_methods⟩

end CallTree

end TestCost
