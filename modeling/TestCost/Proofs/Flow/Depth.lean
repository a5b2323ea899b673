import Mathlib
import TestCost.Proofs.Flow.Run

/-!
# Depths of a flow graph

Symbolic execution refuses a graph for its stacks exactly when depths cannot
be given to its blocks. A labelling gives every reachable block a depth, such
that no operation takes more than there is and every forward edge carries
the right depth to its target; the handler of an exception starts at depth
zero. The depth inside a block follows from that at its start, since an
operation takes and puts back fixed numbers of slots.

Both directions go through the stacks of paths. Under a labelling the stacks
that come to a position all have the depth of the position, so no two of them
disagree and none is too short. Without a fault the stacks that come to a
block have one length, and these lengths are a labelling.

## Main results

* `DepthLabelling.length_eq` — the stacks at a position under a labelling.
* `exists_depthLabelling` — a run that succeeds has a labelling.
* `statements_iff_depths` — which graphs are refused for their stacks.
-/

namespace TestCost

namespace FlowGraph

/-- The depth at operation `i` of a block, from that at its start. -/
def depthAt (g : FlowGraph) (depth : BlockId → Nat) (b : BlockId) (i : Nat) :
    Nat :=
  ((g.block b).ops.take i).foldl
    (fun d op => d - op.operands + op.effect.produced) (depth b)

/-- The depths fit the operations of the reachable blocks and the forward
edges between them. -/
structure DepthLabelling (g : FlowGraph) (depth : BlockId → Nat) : Prop where
  entry_eq : depth entry = 0
  operands_le : ∀ b, g.Reachable b → ∀ i op, (g.block b).ops[i]? = some op →
    op.operands ≤ g.depthAt depth b i
  carried_eq : ∀ b, g.Reachable b →
    ∀ e ∈ (g.block b).successors, e.kind ≠ .exception →
    g.Before b e.target →
      depth e.target = g.depthAt depth b (g.block b).ops.length
  caught_eq : ∀ b, g.Reachable b →
    ∀ e ∈ (g.block b).successors, e.kind = .exception →
    g.Before b e.target → depth e.target = 0

variable {g : FlowGraph} {depth : BlockId → Nat}

theorem depthAt_succ {b : BlockId} {i : Nat} {op : StackOp}
    (hop : (g.block b).ops[i]? = some op) :
    g.depthAt depth b (i + 1) = g.depthAt depth b i - op.operands +
      op.effect.produced := by
  unfold depthAt
  rw [List.take_add_one, hop, List.foldl_append]
  rfl

/-! ## From a labelling to the paths -/

theorem DepthLabelling.length_eq (h : g.DepthLabelling depth) {b : BlockId}
    {i : Nat} {stack : List Variable} (hs : g.StackAt b i stack) :
    stack.length = g.depthAt depth b i := by
  induction hs with
  | start => exact h.entry_eq.symm
  | @run b i op lower upper _ hop hupper ih =>
      have hresults : (op.results upper).length = op.effect.produced :=
        op.effect.length_results hupper
      rw [List.length_append] at ih
      rw [depthAt_succ hop, ← ih, List.length_append, hresults]
      omega
  | @carry b e stack hend he hkind hbefore ih =>
      rw [ih]
      exact (h.carried_eq b hend.reachable e he hkind hbefore).symm
  | @restart b e stack hend he hkind hbefore _ =>
      exact (h.caught_eq b hend.reachable e he hkind hbefore).symm

/-- Under a labelling the only fault is a wide value that is not paired. -/
theorem DepthLabelling.eq_unpairedWide (h : g.DepthLabelling depth)
    (hvoid : g.MovesNoVoid) {fault : CodeFault} (hfault : g.Refused fault) :
    ∃ v, fault = .unpairedWide v := by
  cases fault with
  | stack why =>
      cases why with
      | underflow key requested =>
          obtain ⟨b, i, op, stack, hop, hstack, hlt⟩ := hfault
          have hle := h.operands_le b hstack.reachable i op hop
          rw [← h.length_eq hstack] at hle
          exact absurd hle (Nat.not_le_of_lt hlt)
      | unevenJoin keys depths =>
          obtain ⟨b, left, right, hleft, hright, hne⟩ := hfault
          exact absurd ((h.length_eq hleft).trans (h.length_eq hright).symm) hne
      | keyNotFound key => exact hfault.elim
      | unevenSplit key depths => exact hfault.elim
  | missingOperand line => exact absurd hvoid hfault
  | unpairedWide v => exact ⟨v, rfl⟩
  | _ => exact hfault.elim

/-! ## From a run to a labelling -/

/-- The stacks that come to a block have one length in a run that succeeds. -/
theorem exists_uniform_start (hg : g.WellFormed) {x : Execution}
    (hx : g.execute = .ok x) {b : BlockId} (hb : g.Reachable b) :
    ∃ n, Uniform {stack | g.StackAt b 0 stack} n := by
  obtain ⟨ran, rest, horder⟩ := List.append_of_mem ((g.mem_order_iff hg b).2 hb)
  obtain ⟨y, _, hinside⟩ := exists_upTo hx horder (Nat.zero_le _)
  obtain ⟨kept, _, htracks⟩ := hinside.here
  obtain ⟨n, _, hpaths⟩ := htracks.uniform
  exact ⟨n, hpaths⟩

/-- Lengths at the start of a block give those at its operations. -/
theorem uniform_depthAt (hg : g.WellFormed)
    {x : Execution} (hx : g.execute = .ok x) {b : BlockId} (hb : g.Reachable b)
    (hstart : Uniform {stack | g.StackAt b 0 stack} (depth b)) {i : Nat}
    (hi : i ≤ (g.block b).ops.length) :
    Uniform {stack | g.StackAt b i stack} (g.depthAt depth b i) := by
  obtain ⟨ran, rest, horder⟩ := List.append_of_mem ((g.mem_order_iff hg b).2 hb)
  induction i with
  | zero => exact hstart
  | succ i ih =>
      have hop : (g.block b).ops[i]? = some (g.block b).ops[i] :=
        List.getElem?_eq_getElem hi
      obtain ⟨_, _, _, _, hran⟩ := exists_ran hx horder hop
      obtain ⟨n, hn, hpaths⟩ := hran.depth
      have hdepth : n = g.depthAt depth b i :=
        hpaths.unique (ih (Nat.le_of_lt hi))
      rw [depthAt_succ hop, ← hdepth]
      exact uniform_stackAt_succ hop hpaths hn

theorem exists_depthLabelling (hg : g.WellFormed) {x : Execution}
    (hx : g.execute = .ok x) :
    ∃ depth, g.DepthLabelling depth := by
  have hexists : ∀ b, ∃ n,
      g.Reachable b → Uniform {stack | g.StackAt b 0 stack} n := by
    intro b
    by_cases hb : g.Reachable b
    · obtain ⟨n, hn⟩ := exists_uniform_start hg hx hb
      exact ⟨n, fun _ => hn⟩
    · exact ⟨0, fun h => absurd h hb⟩
  obtain ⟨depth, hdepth⟩ := Classical.skolem.1 hexists
  have hat : ∀ b, g.Reachable b → ∀ i, i ≤ (g.block b).ops.length →
      Uniform {stack | g.StackAt b i stack} (g.depthAt depth b i) :=
    fun b hb i hi => uniform_depthAt hg hx hb (hdepth b hb) hi
  have hlength : ∀ b stack, g.StackAt b 0 stack → stack.length = depth b :=
    fun b stack hstack => (hdepth b hstack.reachable).2 stack hstack
  refine ⟨depth, ?_, ?_, ?_, ?_⟩
  · exact (hlength entry [] .start).symm
  · intro b hb i op hop
    obtain ⟨ran, rest, horder⟩ :=
      List.append_of_mem ((g.mem_order_iff hg b).2 hb)
    obtain ⟨_, _, _, _, hran⟩ := exists_ran hx horder hop
    obtain ⟨n, hn, hpaths⟩ := hran.depth
    have hi : i < (g.block b).ops.length := (List.getElem?_eq_some_iff.1 hop).1
    rwa [hpaths.unique (hat b hb i (Nat.le_of_lt hi))] at hn
  · intro b hb e he hkind hbefore
    obtain ⟨stack, hstack⟩ := (hat b hb _ (Nat.le_refl _)).1
    have hend := (hat b hb _ (Nat.le_refl _)).2 stack hstack
    rw [← hend]
    exact (hlength e.target stack (.carry hstack he hkind hbefore)).symm
  · intro b hb e he hkind hbefore
    obtain ⟨stack, hstack⟩ := (hat b hb _ (Nat.le_refl _)).1
    exact (hlength e.target [] (.restart hstack he hkind hbefore)).symm

/-! ## Which graphs are refused -/

theorem refused_of_statements {fault : CodeFault}
    (h : g.statements = .error fault) :
    g.Refused fault := by
  unfold statements at h
  cases hx : g.execute with
  | ok x =>
      rw [hx] at h
      exact absurd h (by simp [Except.map])
  | error found =>
      rw [hx] at h
      obtain rfl := Except.error.inj h
      exact (yields_execute g).of_eq_error hx

/-- A fault of the stacks rules out every labelling. -/
theorem not_exists_depthLabelling (hvoid : g.MovesNoVoid)
    {why : StackFault Place} (h : g.statements = .error (.stack why)) :
    ¬ ∃ depth, g.DepthLabelling depth := by
  rintro ⟨depth, hdepth⟩
  obtain ⟨v, hv⟩ := hdepth.eq_unpairedWide hvoid (refused_of_statements h)
  exact absurd hv (by simp)

/-- **Symbolic execution refuses the graphs without depths.** No place is ever
missed. A graph with a labelling is run to its end, unless a wide value is not
paired; a graph that is run to its end has a labelling, and one that is
refused for a stack that is too short or for stacks that differ in depth has
none. At the end no place keeps stacks. -/
theorem statements_iff_depths (hg : g.WellFormed) (hvoid : g.MovesNoVoid) :
    (∀ key, g.statements ≠ .error (.stack (.keyNotFound key))) ∧
      ((∃ depth, g.DepthLabelling depth) →
        (∃ answer, g.statements = .ok answer) ∨
          ∃ v, g.statements = .error (.unpairedWide v)) ∧
      ((∃ answer, g.statements = .ok answer) →
        ∃ depth, g.DepthLabelling depth) ∧
      ((∃ key requested, g.statements =
        .error (.stack (.underflow key requested))) →
        ¬ ∃ depth, g.DepthLabelling depth) ∧
      ((∃ key depths, g.statements =
        .error (.stack (.unevenSplit key depths))) ∨
        (∃ keys depths, g.statements =
          .error (.stack (.unevenJoin keys depths))) →
        ¬ ∃ depth, g.DepthLabelling depth) ∧
      ∀ x, g.execute = .ok x → ∀ key, x.family.contains key = false := by
  refine ⟨?_, ?_, ?_, ?_, ?_, ?_⟩
  · intro key h
    exact refused_of_statements h
  · rintro ⟨depth, hdepth⟩
    cases h : g.statements with
    | ok answer => exact .inl ⟨answer, rfl⟩
    | error fault =>
        obtain ⟨v, rfl⟩ :=
          hdepth.eq_unpairedWide hvoid (refused_of_statements h)
        exact .inr ⟨v, rfl⟩
  · rintro ⟨answer, h⟩
    obtain ⟨x, hx, _⟩ := exists_execute h
    exact exists_depthLabelling hg hx
  · rintro ⟨key, requested, h⟩
    exact not_exists_depthLabelling hvoid h
  · rintro (⟨key, depths, h⟩ | ⟨keys, depths, h⟩)
    · exact not_exists_depthLabelling hvoid h
    · exact not_exists_depthLabelling hvoid h
  · intro x hx key
    have hnone := ((yields_execute g).of_eq_ok hx).view_eq_none hg key
    rw [StackFamily.contains, StackFamily.head?_of_view_none hnone]
    rfl

/-- A block that is followed and handled by one other: control comes there
with one value and with none. -/
def lopsided : FlowGraph where
  blocks := #[
    { ops := [⟨1, .load (.constant (.unknown .int))⟩]
      successors := [⟨1, .fallThrough⟩, ⟨1, .exception⟩] },
    {} ]

theorem lopsided_has_no_depths :
    lopsided.WellFormed ∧ lopsided.MovesNoVoid ∧
      lopsided.statements = .error (.stack (.unevenJoin
        [.edge 0 1 .fallThrough, .edge 0 1 .exception] [0, -1])) ∧
      ¬ ∃ depth, lopsided.DepthLabelling depth := by
  have hg : lopsided.WellFormed := by
    unfold WellFormed lopsided
    decide
  have hvoid : lopsided.MovesNoVoid := by
    intro b hb op hop
    simp only [lopsided, List.mem_toArray, List.mem_cons, List.not_mem_nil,
      or_false] at hb
    rcases hb with rfl | rfl
    · rw [List.mem_singleton.1 hop]
      trivial
    · simp at hop
  have h : lopsided.statements = .error (.stack (.unevenJoin
      [.edge 0 1 .fallThrough, .edge 0 1 .exception] [0, -1])) := by cbv
  exact ⟨hg, hvoid, h,
    (statements_iff_depths hg hvoid).2.2.2.2.1 (.inr ⟨_, _, h⟩)⟩

end FlowGraph

end TestCost
