import TestCost.Proofs.Flow.Success
import TestCost.Proofs.Splitting.Order

/-!
# Cutting a block, and the answer of execution

A graph and the graph with one block cut in two have the same stacks at the same
positions. The positions of the whole block are those of its halves, and the
place of the cut is there twice, at the end of the front and at the start of the
back (`Stands`).

The one way in which the graphs differ is the handlers. A path leaves the whole
block for a handler at its end, and the front of a cut block at the cut, so the
cut graph has paths into handlers that the other has not when no path comes
through the back. In a graph with an answer every path does.

Statements come out in the order of blocks, and the back may be put into that
order far behind the front. So the answers are the same up to their order.

## Main results

* `Cut.carried_of_stackAt`, `Cut.stackAt_iff` — stacks of the same positions.
* `Cut.exists_statements_iff` — both graphs have an answer or none has.
* `Cut.perm_statements` — the answers are permutations of each other.
-/

namespace TestCost

/-- What is left of the results of a traversal when those without a value are
dropped. -/
theorem filterMap_of_mapM {α β : Type} {f : α → Option (Option β)} {xs : List α}
    {found : List (Option β)} (h : xs.mapM f = some found) :
    found.filterMap id = xs.filterMap fun x => (f x).join := by
  induction xs generalizing found with
  | nil =>
      obtain rfl := Option.some.inj h
      rfl
  | cons x xs ih =>
      rw [List.mapM_cons] at h
      obtain ⟨first, hfirst, h⟩ := Option.bind_eq_some_iff.1 h
      obtain ⟨rest, hrest, h⟩ := Option.bind_eq_some_iff.1 h
      obtain rfl := Option.some.inj h
      rw [List.filterMap_cons, List.filterMap_cons, ih hrest, hfirst]
      cases first <;> rfl

namespace FlowGraph

/-- Position `i'` of block `b'` of the cut graph stands for position `i` of
block `b`. The start of the back stands for the end of the front. -/
inductive Stands (ρ : BlockId → BlockId) (cut : Option BlockId)
    (fresh : BlockId) (g' : FlowGraph) :
    BlockId → Nat → BlockId → Nat → Prop where
  | other {b : BlockId} {i : Nat} : cut ≠ some b →
      Stands ρ cut fresh g' b i (ρ b) i
  | front {c : BlockId} {i : Nat} : cut = some c →
      i ≤ (g'.block (ρ c)).ops.length →
      Stands ρ cut fresh g' c i (ρ c) i
  | back {c : BlockId} {j : Nat} : cut = some c →
      Stands ρ cut fresh g' c ((g'.block (ρ c)).ops.length + j) fresh j

variable {ρ : BlockId → BlockId} {cut : Option BlockId} {fresh b b' c : BlockId}
  {i i' : Nat}
  {g g' : FlowGraph} {op : StackOp} {stack : List Variable}

theorem stands_start (b : BlockId) : Stands ρ cut fresh g' b 0 (ρ b) 0 := by
  by_cases hb : cut = some b
  · exact .front hb (Nat.zero_le _)
  · exact .other hb

/-- The stack is there at every position that stands for the position; and if
that is behind the cut, a path has come to the cut. -/
structure Carried (ρ : BlockId → BlockId) (cut : Option BlockId)
    (fresh : BlockId) (g' : FlowGraph) (b : BlockId) (i : Nat)
    (stack : List Variable) : Prop where
  stands : ∀ b' i', Stands ρ cut fresh g' b i b' i' → g'.StackAt b' i' stack
  turned : cut = some b → (g'.block (ρ b)).ops.length ≤ i →
    ∃ last, g'.StackAt (ρ b) (g'.block (ρ b)).ops.length last

namespace Cut

/-! ## Positions -/

theorem length_ops (h : Cut ρ cut fresh g g') (hc : cut = some c) :
    (g.block c).ops.length = (g'.block (ρ c)).ops.length +
      (g'.block fresh).ops.length := by
  rw [(h.halves c hc).ops, List.length_append]

theorem ops_other (h : Cut ρ cut fresh g g') (hb : cut ≠ some b) :
    (g'.block (ρ b)).ops = (g.block b).ops := by
  rw [h.other b hb]
  rfl

theorem op_of_stands
    (h : Cut ρ cut fresh g g') (hstands : Stands ρ cut fresh g' b i b' i')
    (hop : (g'.block b').ops[i']? = some op) :
    (g.block b).ops[i]? = some op := by
  cases hstands with
  | other hb => rwa [← h.ops_other hb]
  | front hc _ =>
      rw [(h.halves _ hc).ops,
        List.getElem?_append_left (List.getElem?_eq_some_iff.1 hop).1]
      exact hop
  | back hc =>
      rw [(h.halves _ hc).ops, List.getElem?_append_right
        (Nat.le_add_right _ _), Nat.add_sub_cancel_left]
      exact hop

theorem exists_stands (h : Cut ρ cut fresh g g')
    (hop : (g.block b).ops[i]? = some op) :
    ∃ b' i',
      Stands ρ cut fresh g' b i b' i' ∧ (g'.block b').ops[i']? = some op := by
  by_cases hb : cut = some b
  · rw [(h.halves b hb).ops] at hop
    by_cases hi : i < (g'.block (ρ b)).ops.length
    · rw [List.getElem?_append_left hi] at hop
      exact ⟨_, _, .front hb (Nat.le_of_lt hi), hop⟩
    · have hle := Nat.not_lt.1 hi
      rw [List.getElem?_append_right hle] at hop
      obtain ⟨j, rfl⟩ := Nat.exists_eq_add_of_le hle
      rw [Nat.add_sub_cancel_left] at hop
      exact ⟨_, _, .back hb, hop⟩
  · exact ⟨_, _, .other hb, by rwa [h.ops_other hb]⟩

theorem stands_succ (hstands : Stands ρ cut fresh g' b i b' i')
    (hop : (g'.block b').ops[i']? = some op) :
    Stands ρ cut fresh g' b (i + 1) b' (i' + 1) := by
  cases hstands with
  | other hb => exact .other hb
  | front hc _ => exact .front hc (List.getElem?_eq_some_iff.1 hop).1
  | back hc =>
      rw [Nat.add_assoc]
      exact .back hc

/-- A position stands for one position only. -/
theorem stands_unique (h : Cut ρ cut fresh g g')
    {a : BlockId} {j : Nat} (hb : Stands ρ cut fresh g' b i b' i')
    (ha : Stands ρ cut fresh g' a j b' i') :
    a = b ∧ j = i := by
  generalize hb' : b' = d at ha
  generalize hi' : i' = e at ha
  cases hb with
  | other hb =>
      cases ha with
      | other _ => exact ⟨(h.injective hb').symm, hi'.symm⟩
      | front _ _ => exact ⟨(h.injective hb').symm, hi'.symm⟩
      | back hc => exact absurd hb' (h.fresh_ne _ hc _)
  | front hc _ =>
      cases ha with
      | other _ => exact ⟨(h.injective hb').symm, hi'.symm⟩
      | front _ _ => exact ⟨(h.injective hb').symm, hi'.symm⟩
      | back hc => exact absurd hb' (h.fresh_ne _ hc _)
  | back hc =>
      cases ha with
      | other _ => exact absurd hb'.symm (h.fresh_ne _ hc _)
      | front _ _ => exact absurd hb'.symm (h.fresh_ne _ hc _)
      | back ha =>
          obtain rfl := Option.some.inj (ha.symm.trans hc)
          exact ⟨rfl, by rw [hi']⟩

/-! ## From the graph to the cut graph -/

/-- A stack at the front of a block that control can reach is there at the start
of the back if the front ends there. -/
theorem stackAt_back (h : Cut ρ cut fresh g g')
    (hg : g.WellFormed) (hc : cut = some c) (hreach : g.Reachable c)
    (hstack : g'.StackAt (ρ c) (g'.block (ρ c)).ops.length stack) :
    g'.StackAt fresh 0 stack := by
  refine StackAt.carry hstack (e := ⟨fresh, .fallThrough⟩) ?_ (by simp)
    (h.before_front hg hc ((g.mem_order_iff hg c).2 hreach))
  rw [(h.halves c hc).kept]
  exact List.mem_append_right _ List.mem_cons_self

theorem carried_start (h : Cut ρ cut fresh g g') (hg : g.WellFormed)
    (hreach : g.Reachable b) (hstack : g'.StackAt (ρ b) 0 stack) :
    Carried ρ cut fresh g' b 0 stack where
  stands b' i' hstands := by
    generalize hzero : 0 = i at hstands
    cases hstands with
    | other _ => exact hzero ▸ hstack
    | front _ _ => exact hzero ▸ hstack
    | back hc =>
        obtain ⟨hlength, rfl⟩ := Nat.add_eq_zero_iff.1 hzero.symm
        exact h.stackAt_back hg hc hreach (hlength.symm ▸ hstack)
  turned _ hle := ⟨stack, Nat.le_zero.1 hle ▸ hstack⟩

/-- One operation further on; where the front ends, the back starts. -/
theorem carried_succ (h : Cut ρ cut fresh g g')
    (hg : g.WellFormed) (hreach : g.Reachable b) {lower upper : List Variable}
    (hstack : Carried ρ cut fresh g' b i (lower ++ upper))
    (hop : (g.block b).ops[i]? = some op)
    (hlength : upper.length = op.operands) :
    Carried ρ cut fresh g' b (i + 1) (lower ++ op.results upper) := by
  by_cases hb : cut = some b
  · rw [(h.halves b hb).ops] at hop
    by_cases hi : i < (g'.block (ρ b)).ops.length
    · rw [List.getElem?_append_left hi] at hop
      have hrun : g'.StackAt (ρ b) (i + 1) (lower ++ op.results upper) :=
        .run (hstack.stands _ _ (.front hb (Nat.le_of_lt hi))) hop hlength
      refine ⟨?_, ?_⟩
      · intro b' i' hstands
        generalize hnext : i + 1 = n at hstands
        cases hstands with
        | other hne => exact absurd hb hne
        | front _ _ => exact hnext ▸ hrun
        | back _ =>
            obtain rfl : i' = 0 := by omega
            have hend : i + 1 = (g'.block (ρ b)).ops.length := hnext
            exact h.stackAt_back hg hb hreach (hend ▸ hrun)
      · intro _ hle
        have hend : i + 1 = (g'.block (ρ b)).ops.length :=
          Nat.le_antisymm hi hle
        exact ⟨_, hend ▸ hrun⟩
    · have hle := Nat.not_lt.1 hi
      rw [List.getElem?_append_right hle] at hop
      obtain ⟨j, rfl⟩ := Nat.exists_eq_add_of_le hle
      rw [Nat.add_sub_cancel_left] at hop
      have hrun : g'.StackAt fresh (j + 1) (lower ++ op.results upper) :=
        .run (hstack.stands _ _ (.back hb)) hop hlength
      refine ⟨?_, fun _ _ => hstack.turned hb hle⟩
      intro b' i' hstands
      generalize hnext : (g'.block (ρ b)).ops.length + j + 1 = n at hstands
      cases hstands with
      | other hne => exact absurd hb hne
      | front _ hshort => omega
      | back _ =>
          obtain rfl : i' = j + 1 := by omega
          exact hrun
  · refine ⟨?_, fun hcut => absurd hcut hb⟩
    have hrun : g'.StackAt (ρ b) (i + 1) (lower ++ op.results upper) :=
      .run (hstack.stands _ _ (.other hb)) ((h.ops_other hb).symm ▸ hop) hlength
    intro b' i' hstands
    generalize hnext : i + 1 = n at hstands
    cases hstands with
    | other _ => exact hnext ▸ hrun
    | front hcut _ => exact absurd hcut hb
    | back hcut => exact absurd hcut hb

/-- A path takes its stack along the same edge of the cut graph. -/
theorem stackAt_carry (h : Cut ρ cut fresh g g') (hg : g.WellFormed) {e : Edge}
    (hstack : Carried ρ cut fresh g' b (g.block b).ops.length stack)
    (he : e ∈ (g.block b).successors) (hkind : e.kind ≠ .exception)
    (hbefore : g.Before b e.target) : g'.StackAt (ρ e.target) 0 stack := by
  by_cases hb : cut = some b
  · have hexit : e ∈ (g.block b).exits :=
      List.mem_filter.2 ⟨he, by simpa using hkind⟩
    have hend := hstack.stands fresh (g'.block fresh).ops.length
      (h.length_ops hb ▸ .back hb)
    refine StackAt.carry hend (e := e.rename ρ) ?_ hkind
      ((h.before_back_iff hg hb (List.mem_map_of_mem hexit)).2 hbefore)
    rw [(h.halves b hb).taken]
    exact List.mem_map_of_mem hexit
  · have hend := hstack.stands _ _ (.other hb)
    rw [← h.ops_other hb] at hend
    refine StackAt.carry hend (e := e.rename ρ) ?_ hkind
      ((h.before_iff hg _ _).2 hbefore)
    rw [h.other b hb]
    exact List.mem_map_of_mem he

/-- A path comes to the same handler of the cut graph. -/
theorem stackAt_restart (h : Cut ρ cut fresh g g') (hg : g.WellFormed)
    {e : Edge} (hstack : Carried ρ cut fresh g' b (g.block b).ops.length stack)
    (he : e ∈ (g.block b).successors) (hkind : e.kind = .exception)
    (hbefore : g.Before b e.target) : g'.StackAt (ρ e.target) 0 [] := by
  by_cases hb : cut = some b
  · obtain ⟨last, hlast⟩ :=
      hstack.turned hb (h.length_ops hb ▸ Nat.le_add_right _ _)
    refine StackAt.restart hlast (e := e.rename ρ) ?_ hkind
      ((h.before_iff hg _ _).2 hbefore)
    rw [(h.halves b hb).kept]
    exact List.mem_append_left _ (List.mem_map_of_mem
      (List.mem_filter.2 ⟨he, by simpa using hkind⟩))
  · have hend := hstack.stands _ _ (.other hb)
    rw [← h.ops_other hb] at hend
    refine StackAt.restart hend (e := e.rename ρ) ?_ hkind
      ((h.before_iff hg _ _).2 hbefore)
    rw [h.other b hb]
    exact List.mem_map_of_mem he

/-- Stacks of the graph are stacks of the cut graph. -/
theorem carried_of_stackAt (h : Cut ρ cut fresh g g') (hg : g.WellFormed)
    (hstack : g.StackAt b i stack) : Carried ρ cut fresh g' b i stack := by
  induction hstack with
  | start => exact h.carried_start hg .refl (h.entry.symm ▸ .start)
  | run hstack hop hlength ih =>
      exact h.carried_succ hg hstack.reachable ih hop hlength
  | carry hend he hkind hbefore ih =>
      exact h.carried_start hg (StackAt.carry hend he hkind hbefore).reachable
        (h.stackAt_carry hg ih he hkind hbefore)
  | restart hend he hkind hbefore ih =>
      exact h.carried_start hg (StackAt.restart hend he hkind hbefore).reachable
        (h.stackAt_restart hg ih he hkind hbefore)

/-! ## From the cut graph to the graph -/

/-- Paths that come to the cut go on to the end of the block. -/
def Through (ρ : BlockId → BlockId) (cut : Option BlockId) (g g' : FlowGraph) :
    Prop :=
  ∀ c stack, cut = some c → g.StackAt c (g'.block (ρ c)).ops.length stack →
    ∃ last, g.StackAt c (g.block c).ops.length last

theorem through (h : Cut ρ cut fresh g g') (hpassable : g.Passable) :
    Through ρ cut g g' := by
  intro c stack hc hstack
  exact hpassable.exists_later hstack (h.length_ops hc ▸ Nat.le_add_right _ _)
    (Nat.le_refl _)

/-- Stacks of the cut graph are stacks of the graph. A handler is left for at
the end of the whole block. -/
theorem exists_stackAt (h : Cut ρ cut fresh g g') (hg : g.WellFormed)
    (hthrough : Through ρ cut g g') (hstack : g'.StackAt b' i' stack) :
    ∃ b i, Stands ρ cut fresh g' b i b' i' ∧ g.StackAt b i stack := by
  induction hstack with
  | start =>
      have hstands : Stands ρ cut fresh g' FlowGraph.entry 0
          (ρ FlowGraph.entry) 0 := stands_start FlowGraph.entry
      rw [h.entry] at hstands
      exact ⟨_, 0, hstands, .start⟩
  | run _ hop hlength ih =>
      obtain ⟨b, i, hstands, hstack⟩ := ih
      exact ⟨b, i + 1, stands_succ hstands hop,
        .run hstack (h.op_of_stands hstands hop) hlength⟩
  | @carry b' e stack _ he hkind hbefore ih =>
      obtain ⟨b, i, hstands, hstack⟩ := ih
      generalize hend : (g'.block b').ops.length = n at hstands
      cases hstands with
      | other hb =>
          rw [h.other b hb] at he
          obtain ⟨e, hmem, rfl⟩ := List.mem_map.1 he
          rw [← hend, h.ops_other hb] at hstack
          exact ⟨_, 0, stands_start e.target,
            .carry hstack hmem hkind ((h.before_iff hg _ _).1 hbefore)⟩
      | front hc _ =>
          rw [(h.halves b hc).kept] at he
          rcases List.mem_append.1 he with hcaught | hback
          · obtain ⟨e, hmem, rfl⟩ := List.mem_map.1 hcaught
            have hcaught : e.kind = .exception := by
              simpa using (List.mem_filter.1 hmem).2
            exact absurd hcaught hkind
          · obtain rfl := List.mem_singleton.1 hback
            exact ⟨b, _, .back hc, hend ▸ hstack⟩
      | back hc =>
          rw [(h.halves b hc).taken] at he
          obtain ⟨e, hexit, rfl⟩ := List.mem_map.1 he
          rw [← hend, ← h.length_ops hc] at hstack
          exact ⟨_, 0, stands_start e.target,
            .carry hstack (List.mem_of_mem_filter hexit) hkind
            ((h.before_back_iff hg hc (List.mem_map_of_mem hexit)).1 hbefore)⟩
  | @restart b' e stack _ he hkind hbefore ih =>
      obtain ⟨b, i, hstands, hstack⟩ := ih
      generalize hend : (g'.block b').ops.length = n at hstands
      cases hstands with
      | other hb =>
          rw [h.other b hb] at he
          obtain ⟨e, hmem, rfl⟩ := List.mem_map.1 he
          rw [← hend, h.ops_other hb] at hstack
          exact ⟨_, 0, stands_start e.target,
            .restart hstack hmem hkind ((h.before_iff hg _ _).1 hbefore)⟩
      | front hc _ =>
          rw [(h.halves b hc).kept] at he
          rcases List.mem_append.1 he with hcaught | hback
          · obtain ⟨e, hmem, rfl⟩ := List.mem_map.1 hcaught
            obtain ⟨last, hlast⟩ := hthrough b _ hc (hend ▸ hstack)
            exact ⟨_, 0, stands_start e.target,
              .restart hlast (List.mem_of_mem_filter hmem) hkind
              ((h.before_iff hg _ _).1 hbefore)⟩
          · rw [List.mem_singleton.1 hback] at hkind
            cases hkind
      | back hc =>
          rw [(h.halves b hc).taken] at he
          obtain ⟨e, hmem, rfl⟩ := List.mem_map.1 he
          have hexit : e.kind ≠ .exception := by
            simpa using (List.mem_filter.1 hmem).2
          exact absurd hkind hexit

/-- The same stacks are at the same positions. -/
theorem stackAt_iff (h : Cut ρ cut fresh g g')
    (hg : g.WellFormed) (hthrough : Through ρ cut g g')
    (hstands : Stands ρ cut fresh g' b i b' i') :
    g'.StackAt b' i' stack ↔ g.StackAt b i stack := by
  constructor
  · intro hstack
    obtain ⟨a, j, ha, hstack⟩ := h.exists_stackAt hg hthrough hstack
    obtain ⟨rfl, rfl⟩ := h.stands_unique hstands ha
    exact hstack
  · intro hstack
    exact (h.carried_of_stackAt hg hstack).stands b' i' hstands

/-! ## Answers -/

/-- A path of one graph is turned down if one of the other is. -/
theorem passable_iff (h : Cut ρ cut fresh g g') (hg : g.WellFormed) :
    g'.Passable ↔ g.Passable := by
  constructor
  · intro hpassable
    refine ⟨?_, ?_, ?_⟩
    · intro b i op stack hop hstack
      obtain ⟨b', i', hstands, hop'⟩ := h.exists_stands hop
      exact hpassable.operands b' i' op stack hop'
        ((h.carried_of_stackAt hg hstack).stands b' i' hstands)
    · intro b left right hleft hright
      exact hpassable.even (ρ b) left right
        ((h.carried_of_stackAt hg hleft).stands _ _ (stands_start b))
        ((h.carried_of_stackAt hg hright).stands _ _ (stands_start b))
    · intro b i op lower upper hop hstack hlength
      obtain ⟨b', i', hstands, hop'⟩ := h.exists_stands hop
      exact hpassable.emits b' i' op lower upper hop'
        ((h.carried_of_stackAt hg hstack).stands b' i' hstands) hlength
  · intro hpassable
    have hthrough := h.through hpassable
    refine ⟨?_, ?_, ?_⟩
    · intro b' i' op stack hop hstack
      obtain ⟨b, i, hstands, hstack⟩ := h.exists_stackAt hg hthrough hstack
      exact hpassable.operands b i op stack (h.op_of_stands hstands hop) hstack
    · intro b' left right hleft hright
      obtain ⟨b, i, hstands, hleft⟩ := h.exists_stackAt hg hthrough hleft
      exact hpassable.uniform hleft
        ((h.stackAt_iff hg hthrough hstands).1 hright)
    · intro b' i' op lower upper hop hstack hlength
      obtain ⟨b, i, hstands, hstack⟩ := h.exists_stackAt hg hthrough hstack
      exact hpassable.emits b i op lower upper (h.op_of_stands hstands hop)
        hstack hlength

/-- Either both graphs have an answer or none has. -/
theorem exists_statements_iff (h : Cut ρ cut fresh g g')
    (hg : g.WellFormed) (hg' : g'.WellFormed) (hfields : g.FieldsAgree)
    (hfields' : g'.FieldsAgree) :
    (∃ answer, g.statements = .ok answer) ↔ ∃ answer,
      g'.statements = .ok answer := by
  rw [FlowGraph.exists_statements_iff hg hfields,
    FlowGraph.exists_statements_iff hg' hfields']
  exact (h.passable_iff hg).symm

/-- What is added to the answer at the same positions. -/
theorem perm_emittedAt (h : Cut ρ cut fresh g g') (hg : g.WellFormed)
    (hthrough : Through ρ cut g g') (hfields : g.FieldsAgree)
    (hfields' : g'.FieldsAgree) {x x' : Execution} (hx : g.execute = .ok x)
    (hx' : g'.execute = .ok x') (hb : b ∈ g.order) (hb' : b' ∈ g'.order)
    (hstands : Stands ρ cut fresh g' b i b' i')
    (hop' : (g'.block b').ops[i']? = some op) :
    (g.emittedAt b i).Perm (g'.emittedAt b' i') := by
  obtain ⟨ran, rest, horder⟩ := List.append_of_mem hb
  obtain ⟨ran', rest', horder'⟩ := List.append_of_mem hb'
  obtain ⟨_, tops, found, htops, hfound, hemitted⟩ :=
    emittedAt_of_ran hx horder hfields (h.op_of_stands hstands hop')
  obtain ⟨_, tops', found', htops', hfound', hemitted'⟩ :=
    emittedAt_of_ran hx' horder' hfields' hop'
  have hperm : tops.Perm tops' := by
    rw [List.perm_ext_iff_of_nodup htops.nodup htops'.nodup]
    intro top
    rw [htops.mem_iff, htops'.mem_iff]
    exact and_congr_right' (exists_congr fun lower =>
      (h.stackAt_iff hg hthrough hstands).symm)
  rw [hemitted, hemitted', filterMap_of_mapM hfound, filterMap_of_mapM hfound']
  exact hperm.filterMap _

theorem mem_order (h : Cut ρ cut fresh g g') (hg : g.WellFormed)
    (hb : b ∈ g.order) :
    ρ b ∈ g'.order := by
  rcases h.order hg with ⟨horder, _⟩ |
    ⟨_, _, ahead, behind, _, horder, horder', _⟩
  · rw [horder]
    exact List.mem_map_of_mem hb
  · rw [horder, List.mem_append] at hb
    rw [horder', List.mem_append, List.mem_cons]
    exact hb.imp List.mem_map_of_mem fun hbehind =>
      .inr (List.mem_map_of_mem hbehind)

section Emitted

variable {x x' : Execution}

/-- What a block that is not cut adds to the answer. -/
theorem perm_emittedBy_other (h : Cut ρ cut fresh g g') (hg : g.WellFormed)
    (hthrough : Through ρ cut g g') (hfields : g.FieldsAgree)
    (hfields' : g'.FieldsAgree) (hx : g.execute = .ok x)
    (hx' : g'.execute = .ok x') (hb : b ∈ g.order) (hcut : cut ≠ some b) :
    (g.emittedBy b).Perm (g'.emittedBy (ρ b)) := by
  rw [emittedBy, emittedBy, h.ops_other hcut]
  refine List.Perm.flatMap_left _ fun i hi => ?_
  have hlt : i < (g'.block (ρ b)).ops.length :=
    h.ops_other hcut ▸ List.mem_range.1 hi
  exact h.perm_emittedAt hg hthrough hfields hfields' hx hx' hb
    (h.mem_order hg hb) (.other hcut) (List.getElem?_eq_getElem hlt)

/-- What the block that is cut adds to the answer, its halves add. -/
theorem perm_emittedBy_cut (h : Cut ρ cut fresh g g') (hg : g.WellFormed)
    (hthrough : Through ρ cut g g') (hfields : g.FieldsAgree)
    (hfields' : g'.FieldsAgree) (hx : g.execute = .ok x)
    (hx' : g'.execute = .ok x') (hc : cut = some c) (hmem : c ∈ g.order) :
    (g.emittedBy c).Perm (g'.emittedBy (ρ c) ++ g'.emittedBy fresh) := by
  have hfresh : fresh ∈ g'.order := (h.before_front hg hc hmem).subset (by simp)
  rw [emittedBy, h.length_ops hc, List.range_add, List.flatMap_append,
    List.flatMap_map]
  refine List.Perm.append ?_ ?_
  · refine List.Perm.flatMap_left _ fun i hi => ?_
    have hlt := List.mem_range.1 hi
    exact h.perm_emittedAt hg hthrough hfields hfields' hx hx' hmem
      (h.mem_order hg hmem) (.front hc (Nat.le_of_lt hlt))
      (List.getElem?_eq_getElem hlt)
  · refine List.Perm.flatMap_left _ fun j hj => ?_
    exact h.perm_emittedAt hg hthrough hfields hfields' hx hx' hmem hfresh
      (.back hc) (List.getElem?_eq_getElem (List.mem_range.1 hj))

/-- **Cutting a block permutes the answer.** What the back adds moves behind the
blocks that are ahead of it. -/
theorem perm_statements (h : Cut ρ cut fresh g g')
    (hg : g.WellFormed) (hfields : g.FieldsAgree) (hfields' : g'.FieldsAgree)
    {answer answer' : List Statement} (hanswer : g.statements = .ok answer)
    (hanswer' : g'.statements = .ok answer') :
    answer.Perm answer' := by
  obtain ⟨x, hx, rfl⟩ := exists_execute hanswer
  obtain ⟨x', hx', rfl⟩ := exists_execute hanswer'
  have hthrough := h.through (passable_of_execute hg hfields hx)
  have hothers : ∀ ids : List BlockId, (∀ b ∈ ids, b ∈ g.order ∧ cut ≠ some b) →
      (ids.flatMap g.emittedBy).Perm ((ids.map ρ).flatMap g'.emittedBy) := by
    intro ids hids
    rw [List.flatMap_map]
    exact List.Perm.flatMap_left _ fun b hb =>
      h.perm_emittedBy_other hg hthrough hfields hfields' hx hx' (hids b hb).1
        (hids b hb).2
  rw [statements_eq_flatMap hx, statements_eq_flatMap hx']
  rcases h.order hg with ⟨horder, hnone⟩ |
    ⟨c, hc, ahead, behind, outer, horder, horder', hsub, _⟩
  · rw [horder]
    exact hothers _ fun b hb => ⟨hb, fun hcut => hnone b hcut hb⟩
  · have hnodup : (ahead ++ behind).Nodup := horder ▸ g.nodup_order
    have hahead : c ∈ ahead := mem_ahead hnodup (horder ▸ hsub) (.inr rfl)
    obtain ⟨first, second, rfl⟩ := List.append_of_mem hahead
    rw [List.append_assoc, List.cons_append] at horder hnodup
    have hne : ∀ b, b ∈ first ∨ b ∈ second ++ behind → cut ≠ some b := by
      intro b hb hcut
      obtain rfl := Option.some.inj (hcut.symm.trans hc)
      obtain ⟨_, hrest, hdisjoint⟩ := List.nodup_append.1 hnodup
      rcases hb with hfirst | hlater
      · exact hdisjoint b hfirst b List.mem_cons_self rfl
      · exact (List.nodup_cons.1 hrest).1 hlater
    have hfirst := hothers first fun b hb =>
      ⟨by simp [horder, hb], hne b (.inl hb)⟩
    have hsecond := hothers second fun b hb =>
      ⟨by simp [horder, hb], hne b (.inr (by simp [hb]))⟩
    have hbehind := hothers behind fun b hb =>
      ⟨by simp [horder, hb], hne b (.inr (by simp [hb]))⟩
    have hcut := h.perm_emittedBy_cut hg hthrough hfields hfields' hx hx' hc
      (by simp [horder])
    rw [horder, horder']
    simp only [List.map_append, List.map_cons, List.flatMap_append,
      List.flatMap_cons, List.append_assoc]
    refine (hfirst.append (hcut.append (hsecond.append hbehind))).trans ?_
    rw [List.append_assoc]
    exact ((List.perm_append_comm_assoc _ _ _).append_left _).append_left _

end Emitted

end Cut

end FlowGraph

end TestCost
