import TestCost.Proofs.Flow.Depth
import TestCost.Proofs.Flow.Statements

/-!
# When execution succeeds

Whether symbolic execution answers at all, read off the paths of a graph. A
path can be turned down at an operation, because its stack is too short or
because the operation stands for nothing on its operands, and two paths can be
at odds about the depth at the start of a block. A graph without such paths is
`Passable`, and those are the graphs with an answer.

The faults of execution tell less than that. A run that stops on operands names
a line or a variable and not the path, so the operation that failed is found
again from the run itself.

## Main results

* `Inside.of_runOp_error` — the path to blame for an operation that fails.
* `exists_statements_iff` — execution answers exactly for passable graphs.
* `Passable.uniform` — in a passable graph the stacks of every position have one
  length, and paths go on to the end of their block.
-/

namespace TestCost

namespace FlowGraph

/-- No path is turned down: each brings the operands that operations take, and
operands that operations stand for something on, and paths come to a block with
one depth. -/
structure Passable (g : FlowGraph) : Prop where
  operands : ∀ b i op stack, (g.block b).ops[i]? = some op →
    g.StackAt b i stack →
    op.operands ≤ stack.length
  even : ∀ b left right, g.StackAt b 0 left → g.StackAt b 0 right →
    left.length = right.length
  emits : ∀ b i op lower upper, (g.block b).ops[i]? = some op →
    g.StackAt b i (lower ++ upper) →
    upper.length = op.operands → ∃ s, Execution.emit op upper = .ok s

variable {g : FlowGraph}

/-! ## From a run to the paths -/

/-- Operands that a path brings to an operation that succeeds stand for
something. -/
theorem Inside.exists_emit {ran : List BlockId} {b : BlockId}
    {i : Nat} {op : StackOp} {x y : Execution} (h : g.Inside ran b i x)
    (hfields : g.FieldsAgree) (hy : x.runOp (.block b) op = .ok y)
    {lower upper : List Variable} (hstack : g.StackAt b i (lower ++ upper))
    (hlength : upper.length = op.operands) :
    ∃ s, Execution.emit op upper = .ok s := by
  obtain ⟨kept, hview, htracks⟩ := h.here
  obtain ⟨n, hkept, hpaths⟩ := htracks.uniform
  have hn : op.operands ≤ n := by
    rw [← hpaths.2 _ hstack, ← hlength, List.length_append]
    exact Nat.le_add_left _ _
  obtain ⟨taken, t, after, hpop, hpopped⟩ :=
    StackFamily.popped_pop h.sound hview hkept hn op.results
  have htaken : upper ∈ taken := by
    rw [hpopped.mem_taken (hfields.faithful h.pushed) upper, htracks.eq hfields]
    exact ⟨hlength, lower, hstack⟩
  rw [runOp_eq hpop] at hy
  obtain ⟨found, hfound, _⟩ := map_eq_ok_iff.1 hy
  exact exists_of_mapM_of_mem hfound htaken

theorem passable_of_execute (hg : g.WellFormed) (hfields : g.FieldsAgree)
    {x : Execution} (hx : g.execute = .ok x) : g.Passable where
  operands b i op stack hop hstack := by
    obtain ⟨ran, rest, horder⟩ :=
      List.append_of_mem ((g.mem_order_iff hg b).2 hstack.reachable)
    exact (emittedAt_of_ran hx horder hfields hop).1 stack hstack
  even b left right hleft hright := by
    obtain ⟨n, hn⟩ := exists_uniform_start hg hx hleft.reachable
    rw [hn.2 left hleft, hn.2 right hright]
  emits b i op lower upper hop hstack hlength := by
    obtain ⟨ran, rest, horder⟩ :=
      List.append_of_mem ((g.mem_order_iff hg b).2 hstack.reachable)
    have hi : i < (g.block b).ops.length := (List.getElem?_eq_some_iff.1 hop).1
    obtain ⟨y, hy, hinside⟩ := exists_upTo hx horder (Nat.le_of_lt hi)
    obtain ⟨z, hz, _⟩ := exists_upTo hx horder hi
    rw [upTo_succ hop hy] at hz
    exact hinside.exists_emit hfields hz hstack hlength

/-! ## From a fault to the paths -/

theorem stack_of_enter_error {x : Execution} {b : BlockId} {fault : CodeFault}
    (h : x.enter b = .error fault) : ∃ why, fault = .stack why := by
  simp only [Execution.enter, List.partition_eq_filter_filter] at h
  split at h
  · cases h
  · rcases eq_error_of_bind_eq_error h with hjoin | ⟨_, hdone⟩
    · obtain ⟨why, _, hstack⟩ := mapError_eq_error_iff.1 hjoin
      exact ⟨why, hstack.symm⟩
    · cases hdone

theorem stack_of_leave_error
    {x : Execution} {b : BlockId} {successors : List Edge} {fault : CodeFault}
    (h : x.leave b successors = .error fault) : ∃ why, fault = .stack why := by
  simp only [Execution.leave, List.partition_eq_filter_filter] at h
  split at h
  · rcases eq_error_of_bind_eq_error h with hremove | ⟨_, hdone⟩
    · obtain ⟨why, _, hstack⟩ := mapError_eq_error_iff.1 hremove
      exact ⟨why, hstack.symm⟩
    · cases hdone
  · split at h
    · cases h
    · next why _ => exact ⟨why, (Except.error.inj h).symm⟩

/-- An operation fails because paths are too short for it, or because of the
operands that one of them brings. -/
theorem Inside.of_runOp_error {ran : List BlockId}
    {b : BlockId} {i : Nat} {op : StackOp} {x : Execution}
    (h : g.Inside ran b i x) (hfields : g.FieldsAgree) {fault : CodeFault}
    (hfault : x.runOp (.block b) op = .error fault) :
    (∃ stack, g.StackAt b i stack ∧ stack.length < op.operands) ∨
      ∃ lower upper, g.StackAt b i (lower ++ upper) ∧
        upper.length = op.operands ∧
        Execution.emit op upper = .error fault := by
  obtain ⟨kept, hview, htracks⟩ := h.here
  obtain ⟨n, hkept, hpaths⟩ := htracks.uniform
  by_cases hn : op.operands ≤ n
  · obtain ⟨taken, t, after, hpop, hpopped⟩ :=
      StackFamily.popped_pop h.sound hview hkept hn op.results
    rw [runOp_eq hpop] at hfault
    cases hemitted : taken.mapM (Execution.emit op) with
    | ok found =>
        rw [hemitted] at hfault
        cases hfault
    | error found =>
        rw [hemitted] at hfault
        obtain rfl := Except.error.inj hfault
        obtain ⟨upper, hmem, hemit⟩ := mapM_emit_error hemitted
        rw [hpopped.mem_taken (hfields.faithful h.pushed) upper,
          htracks.eq hfields] at hmem
        obtain ⟨hlength, lower, hstack⟩ := hmem
        exact .inr ⟨lower, upper, hstack, hlength, hemit⟩
  · obtain ⟨stack, hstack⟩ := hpaths.1
    exact .inl
      ⟨stack, hstack, by rw [hpaths.2 stack hstack]; exact Nat.lt_of_not_le hn⟩

/-- A fault about stacks is the fault of some path. -/
theorem Passable.not_refused_stack (h : g.Passable) (why : StackFault Place) :
    ¬ g.Refused (.stack why) := by
  intro hrefused
  cases why with
  | underflow _ _ =>
      obtain ⟨b, i, op, stack, hop, hstack, hshort⟩ := hrefused
      exact Nat.not_lt.2 (h.operands b i op stack hop hstack) hshort
  | unevenJoin _ _ =>
      obtain ⟨b, left, right, hleft, hright, hne⟩ := hrefused
      exact hne (h.even b left right hleft hright)
  | keyNotFound _ => exact hrefused
  | unevenSplit _ _ => exact hrefused

/-- The operations of a block run to its end in a passable graph. -/
theorem Passable.runOps_ne_error (h : g.Passable) (hfields : g.FieldsAgree)
    {ran : List BlockId} {b : BlockId} {x : Execution} (hx : g.Inside ran b 0 x)
    (fault : CodeFault) :
    (g.block b).ops.foldlM (Execution.runOp (.block b)) x ≠ .error fault := by
  intro hfault
  obtain ⟨before, op, after, y, hops, hy, hfail⟩ :=
    exists_split_of_foldlM_eq_error hfault
  have hle : before.length ≤ (g.block b).ops.length := by
    rw [hops, List.length_append]
    exact Nat.le_add_right _ _
  have htake : (g.block b).ops.take before.length = before := by
    rw [hops, List.take_left]
  have hop : (g.block b).ops[before.length]? = some op := by
    rw [hops, List.getElem?_append_right (Nat.le_refl _), Nat.sub_self]
    rfl
  have hyields := hx.runOps hle
  rw [htake] at hyields
  rcases (hyields.of_eq_ok hy).of_runOp_error hfields hfail with
    ⟨stack, hstack, hshort⟩ | ⟨lower, upper, hstack, hlength, hemit⟩
  · exact Nat.not_lt.2 (h.operands b _ op stack hop hstack) hshort
  · obtain ⟨s, hs⟩ := h.emits b _ op lower upper hop hstack hlength
    rw [hs] at hemit
    cases hemit

theorem Passable.exists_execute (h : g.Passable) (hfields : g.FieldsAgree) :
    ∃ x, g.execute = .ok x := by
  cases hx : g.execute with
  | ok x => exact ⟨x, rfl⟩
  | error fault =>
      exfalso
      obtain ⟨ran, b, rest, x, horder, hran, hblock⟩ :=
        exists_split_of_foldlM_eq_error hx
      have hbetween := (yields_ran horder).of_eq_ok hran
      rcases bind_eq_error_iff.1 hblock with henter | ⟨y, hy, hrest⟩
      · obtain ⟨why, rfl⟩ := stack_of_enter_error henter
        exact h.not_refused_stack why
          ((hbetween.enter horder).of_eq_error henter)
      · have hinside := (hbetween.enter horder).of_eq_ok hy
        rcases bind_eq_error_iff.1 hrest with hops | ⟨z, hz, hleave⟩
        · exact h.runOps_ne_error hfields hinside fault hops
        · have hops := hinside.runOps (Nat.le_refl _)
          rw [List.take_length] at hops
          obtain ⟨why, rfl⟩ := stack_of_leave_error hleave
          exact h.not_refused_stack why
            (((hops.of_eq_ok hz).leave horder).of_eq_error hleave)

/-- **Which graphs have an answer.** Symbolic execution answers exactly if no
path is turned down. -/
theorem exists_statements_iff (hg : g.WellFormed) (hfields : g.FieldsAgree) :
    (∃ answer, g.statements = .ok answer) ↔ g.Passable := by
  constructor
  · rintro ⟨answer, hanswer⟩
    obtain ⟨x, hx, _⟩ := TestCost.FlowGraph.exists_execute hanswer
    exact passable_of_execute hg hfields hx
  · intro h
    obtain ⟨x, hx⟩ := h.exists_execute hfields
    exact ⟨_, by rw [statements, hx]; rfl⟩

/-! ## Passable graphs -/

/-- Stacks of one position have one length. -/
theorem Passable.uniform (h : g.Passable) {b : BlockId}
    {i : Nat} {left right : List Variable} (hleft : g.StackAt b i left)
    (hright : g.StackAt b i right) : left.length = right.length := by
  induction i generalizing left right with
  | zero => exact h.even b left right hleft hright
  | succ i ih =>
      cases hleft with
      | @run _ _ op lower upper hbefore hop hlength =>
          obtain ⟨lower', upper', hbefore', hlength', rfl⟩ :=
            (stackAt_succ_iff hop right).1 hright
          have hsame := ih hbefore hbefore'
          have hresults : (op.results upper).length = op.effect.produced :=
            op.effect.length_results hlength
          have hresults' : (op.results upper').length = op.effect.produced :=
            op.effect.length_results hlength'
          rw [List.length_append] at hsame ⊢
          rw [List.length_append] at hsame ⊢
          omega

/-- A path goes on to every later operation of its block. -/
theorem Passable.exists_later (h : g.Passable) {b : BlockId} {i j : Nat}
    {stack : List Variable} (hstack : g.StackAt b i stack) (hij : i ≤ j)
    (hj : j ≤ (g.block b).ops.length) :
    ∃ later, g.StackAt b j later := by
  induction j, hij using Nat.le_induction with
  | base => exact ⟨stack, hstack⟩
  | succ j _ ih =>
      obtain ⟨later, hlater⟩ := ih (Nat.le_of_succ_le hj)
      have hop : (g.block b).ops[j]? = some (g.block b).ops[j] :=
        List.getElem?_eq_getElem hj
      have hoperands := h.operands b j _ later hop hlater
      have hsplit :=
        List.take_append_drop (later.length - (g.block b).ops[j].operands) later
      refine ⟨_, .run (hsplit.symm ▸ hlater) hop ?_⟩
      rw [List.length_drop]
      omega

end FlowGraph

end TestCost
