import TestCost.Proofs.Except
import TestCost.Proofs.Flow.Transfer

/-!
# Runs

The steps of symbolic execution put together: a run of a first part of the
order of blocks keeps the invariant, so a run of the whole order does.

A run that succeeds has passed every position of every block in the order.
The state at a position is had by running up to it (`upTo`), and what the
operation there tells of the paths (`Ran`) is known.

## Main results

* `yields_ran`, `yields_execute` — the invariant along a run.
* `Between.view_eq_none` — no stacks are left at the end.
* `exists_ran` — every operation of a block in the order has run.
-/

namespace TestCost

namespace FlowGraph

/-- The execution when operation `i` of block `b` comes next. -/
def upTo (g : FlowGraph) (b : BlockId) (i : Nat) :
    Except CodeFault Execution := do
  let x ← (g.order.takeWhile (· != b)).foldlM
    (Execution.runBlock g) Execution.start
  let x ← x.enter b
  ((g.block b).ops.take i).foldlM (Execution.runOp (.block b)) x

variable {g : FlowGraph}

/-! ## Blocks in order -/

theorem between_start : g.Between [] Execution.start where
  done_iff := by simp [Execution.start]
  sound := StackFamily.sound_empty.init _
  pushed := by
    intro v hv
    exact absurd ((StackFamily.holds_init _ _ v).1 hv)
      (StackFamily.not_holds_empty v)
  pending_iff := by
    intro p
    simp [Execution.start, Waiting]
  waiting := by
    rintro a target kind ⟨_, ha, _⟩
    simp at ha
  live := by
    intro p hp
    by_cases hentry : p = .block entry
    · exact .inr ⟨rfl, hentry⟩
    · rw [Execution.start, StackFamily.view_init_ne _ hentry] at hp
      exact absurd rfl hp
  first := fun _ => StackFamily.view_init_self _ _

theorem Between.runBlock {ran rest : List BlockId} {b : BlockId} {x : Execution}
    (h : g.Between ran x) (horder : g.order = ran ++ b :: rest) :
    Yields (x.runBlock g b) (g.Between (ran ++ [b])) g.Refused := by
  refine (h.enter horder).bind fun y hy => ?_
  have hops := hy.runOps (Nat.le_refl _)
  rw [List.take_length] at hops
  exact hops.bind fun z hz => hz.leave horder

/-- The run of a first part of the order. -/
theorem yields_ran {ran rest : List BlockId} (horder : g.order = ran ++ rest) :
    Yields (ran.foldlM (Execution.runBlock g) Execution.start)
      (g.Between ran) g.Refused := by
  refine Yields.foldlM g.Between ran ?_ between_start
  intro before b after x hran hx
  have hnext : g.order = before ++ b :: (after ++ rest) := by
    rw [horder, hran, List.append_assoc, List.cons_append]
  exact hx.runBlock hnext

theorem yields_execute (g : FlowGraph) :
    Yields g.execute (g.Between g.order) g.Refused :=
  yields_ran (List.append_nil _).symm

/-- When every block has run, no edge leads to one that has not. -/
theorem not_waiting_order (hg : g.WellFormed) (p : Place) :
    ¬ g.Waiting g.order g.order p := by
  rintro ⟨a, ha, e, he, htarget, _⟩
  exact htarget (g.target_mem_order hg ha (List.mem_map_of_mem he))

/-- When every block has run, no place keeps stacks. -/
theorem Between.view_eq_none {x : Execution} (h : g.Between g.order x)
    (hg : g.WellFormed) (p : Place) : x.family.view p = none := by
  by_contra hlive
  rcases h.live p hlive with hwaiting | ⟨hnil, _⟩
  · exact not_waiting_order hg p hwaiting
  · exact absurd hnil (List.ne_nil_of_mem g.entry_mem_order)

/-! ## Computations that succeed -/

/-- A fold that succeeds has succeeded on every first part. -/
theorem exists_of_foldlM_append_ok {σ ι : Type} {f : σ → ι → Except CodeFault σ}
    {items more : List ι} {x y : σ} (h : (items ++ more).foldlM f x = .ok y) :
    ∃ z, items.foldlM f x = .ok z ∧ more.foldlM f z = .ok y := by
  rw [List.foldlM_append] at h
  exact exists_of_bind_eq_ok h

theorem exists_execute {answer : List Statement}
    (h : g.statements = .ok answer) :
    ∃ x, g.execute = .ok x ∧ answer = x.statements.toList := by
  unfold statements at h
  cases hx : g.execute with
  | error fault =>
      rw [hx] at h
      exact absurd h (by simp [Except.map])
  | ok x =>
      rw [hx] at h
      exact ⟨x, rfl, (Except.ok.inj h).symm⟩

theorem takeWhile_ne_append {ids : List BlockId} {b : BlockId} (h : b ∉ ids)
    (rest : List BlockId) :
    (ids ++ rest).takeWhile (· != b) = ids ++ rest.takeWhile (· != b) := by
  apply List.takeWhile_append_of_pos
  intro a ha
  have hne : a ≠ b := by
    rintro rfl
    exact h ha
  simpa using hne

theorem takeWhile_order {ran rest : List BlockId} {b : BlockId}
    (horder : g.order = ran ++ b :: rest) :
    g.order.takeWhile (· != b) = ran := by
  rw [horder, takeWhile_ne_append (not_mem_ran horder)]
  simp

/-! ## The state at a position -/

/-- The states that the run of a block goes through. -/
theorem exists_of_runBlock_ok {x y : Execution} {b : BlockId}
    (h : x.runBlock g b = .ok y) :
    ∃ u v, x.enter b = .ok u ∧
      (g.block b).ops.foldlM (Execution.runOp (.block b)) u = .ok v ∧
      v.leave b (g.block b).successors = .ok y := by
  obtain ⟨u, hu, hrest⟩ := exists_of_bind_eq_ok h
  obtain ⟨v, hv, hy⟩ := exists_of_bind_eq_ok hrest
  exact ⟨u, v, hu, hv, hy⟩

theorem upTo_eq {ran : List BlockId}
    {b : BlockId} (hran : g.order.takeWhile (· != b) = ran) {x y : Execution}
    (hx : ran.foldlM (Execution.runBlock g) Execution.start = .ok x)
    (hy : x.enter b = .ok y) (i : Nat) :
    g.upTo b i = ((g.block b).ops.take i).foldlM
      (Execution.runOp (.block b)) y := by
  unfold upTo
  rw [hran, hx]
  show (x.enter b >>= _) = _
  rw [hy]
  rfl

/-- A run that succeeds comes to every position of every block in the order. -/
theorem exists_upTo {ran rest : List BlockId} {b : BlockId} {x : Execution}
    (hx : g.execute = .ok x) (horder : g.order = ran ++ b :: rest) {i : Nat}
    (hi : i ≤ (g.block b).ops.length) :
    ∃ y, g.upTo b i = .ok y ∧ g.Inside ran b i y := by
  unfold execute at hx
  rw [horder] at hx
  obtain ⟨u, hu, hrest⟩ := exists_of_foldlM_append_ok hx
  obtain ⟨v, hv, _⟩ := exists_of_bind_eq_ok hrest
  obtain ⟨first, last, hfirst, hlast, _⟩ := exists_of_runBlock_ok hv
  rw [← List.take_append_drop i (g.block b).ops] at hlast
  obtain ⟨y, hy, _⟩ := exists_of_foldlM_append_ok hlast
  have hinside :=
    (((yields_ran horder).of_eq_ok hu).enter horder).of_eq_ok hfirst
  rw [upTo_eq (takeWhile_order horder) hu hfirst]
  exact ⟨y, hy, (hinside.runOps hi).of_eq_ok hy⟩

theorem upTo_succ {b : BlockId} {i : Nat}
    {op : StackOp} (hop : (g.block b).ops[i]? = some op) {y : Execution}
    (hy : g.upTo b i = .ok y) :
    g.upTo b (i + 1) = y.runOp (.block b) op := by
  unfold upTo at hy ⊢
  obtain ⟨u, hu, hrest⟩ := exists_of_bind_eq_ok hy
  obtain ⟨v, hv, hrest⟩ := exists_of_bind_eq_ok hrest
  rw [hu]
  show (u.enter b >>= _) = _
  rw [hv]
  show ((g.block b).ops.take (i + 1)).foldlM (Execution.runOp (.block b)) v = _
  rw [List.take_add_one, hop, List.foldlM_append, hrest]
  show [op].foldlM (Execution.runOp (.block b)) y = _
  rw [List.foldlM_cons]
  cases y.runOp (.block b) op with
  | error fault => rfl
  | ok z => rfl

theorem exists_ran {ran rest : List BlockId} {b : BlockId} {x : Execution}
    (hx : g.execute = .ok x) (horder : g.order = ran ++ b :: rest) {i : Nat}
    {op : StackOp} (hop : (g.block b).ops[i]? = some op) :
    ∃ y z,
      g.upTo b i = .ok y ∧ g.upTo b (i + 1) = .ok z ∧ g.Ran b i op y z := by
  have hi : i < (g.block b).ops.length := (List.getElem?_eq_some_iff.1 hop).1
  obtain ⟨y, hy, hinside⟩ := exists_upTo hx horder (Nat.le_of_lt hi)
  obtain ⟨z, hz, _⟩ := exists_upTo hx horder hi
  rw [upTo_succ hop hy] at hz
  exact ⟨y, z, hy, by rw [upTo_succ hop hy, hz],
    ((hinside.runOp hop).of_eq_ok hz).2⟩

end FlowGraph

end TestCost
