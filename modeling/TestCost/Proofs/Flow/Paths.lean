import TestCost.Proofs.Flow.Order
import TestCost.Proofs.StackEffect
import TestCost.Proofs.StackFamily.View

/-!
# Stacks along paths

What symbolic execution is measured against: one plain operand stack, run
along a path from the entry that only follows edges forwards in the order
of blocks. `StackAt g b i stack` says that some such path comes to
operation `i` of block `b` with that stack. A path that leaves a block by an
exception starts over with the empty stack.

A path may take any number of turns, so a position may have exponentially
many stacks. Their set is what the lemmas here describe: that of a position
from that of the position before it, and that of the start of a block from
those of the blocks that lead to it.

## Main results

* `stackAt_succ_iff` — the stacks after an operation.
* `stackAt_entry_iff`, `stackAt_start_iff` — the stacks at the start of a
  block.
* `uniform_stackAt_succ` — stacks of one length stay so.
-/

namespace TestCost

namespace FlowGraph

/-- Some forward path from the entry comes to operation `i` of block `b` with
this stack; `i` is the number of operations when the path comes to the end of
the block. -/
inductive StackAt (g : FlowGraph) : BlockId → Nat → List Variable → Prop where
  | start : StackAt g entry 0 []
  | run {b : BlockId} {i : Nat} {op : StackOp} {lower upper : List Variable} :
      StackAt g b i (lower ++ upper) → (g.block b).ops[i]? = some op →
      upper.length = op.operands →
        StackAt g b (i + 1) (lower ++ op.results upper)
  | carry {b : BlockId} {e : Edge} {stack : List Variable} :
      StackAt g b (g.block b).ops.length stack → e ∈ (g.block b).successors →
      e.kind ≠ .exception → g.Before b e.target → StackAt g e.target 0 stack
  | restart {b : BlockId} {e : Edge} {stack : List Variable} :
      StackAt g b (g.block b).ops.length stack → e ∈ (g.block b).successors →
      e.kind = .exception → g.Before b e.target → StackAt g e.target 0 []

/-- Some forward path leaves the block with this stack by an edge of this
kind. -/
def LeftOn (g : FlowGraph) (b : BlockId) (kind : EdgeKind)
    (stack : List Variable) : Prop :=
  if kind = .exception then stack = [] ∧
    ∃ last, g.StackAt b (g.block b).ops.length last
  else g.StackAt b (g.block b).ops.length stack

/-- Some operation of the graph puts the variable on the stack. -/
def Pushes (g : FlowGraph) (v : Variable) : Prop :=
  ∃ b ∈ g.blocks, ∃ op ∈ b.ops, v ∈ op.effect.pushed

/-- Fields that the graph puts on the stack are told apart by owner and
name. -/
def FieldsAgree (g : FlowGraph) : Prop :=
  ∀ f f', g.Pushes (.field f) → g.Pushes (.field f') →
    f.owner = f'.owner → f.name = f'.name → f = f'

/-- No operation of the graph stores a void value or passes one on. -/
def MovesNoVoid (g : FlowGraph) : Prop :=
  ∀ b ∈ g.blocks, ∀ op ∈ b.ops, op.effect.MovesNoVoid

variable {g : FlowGraph}

theorem exists_block_of_op {b : BlockId} {i : Nat} {op : StackOp}
    (h : (g.block b).ops[i]? = some op) :
    ∃ block ∈ g.blocks, op ∈ block.ops := by
  rcases g.block_mem_or_eq b with hblock | hempty
  · exact ⟨_, hblock, List.mem_of_getElem? h⟩
  · simp [hempty] at h

/-! ## The order of blocks, seen from one of them -/

theorem before_iff {ran rest : List BlockId} {a b : BlockId}
    (h : g.order = ran ++ b :: rest) :
    g.Before a b ↔ a ∈ ran := by
  rw [Before, h]
  constructor
  · exact mem_of_sublist_pair (h ▸ g.nodup_order)
  · intro ha
    exact (List.singleton_sublist.2 ha).append
      (List.singleton_sublist.2 List.mem_cons_self)

theorem not_mem_ran {ran rest : List BlockId} {b : BlockId}
    (h : g.order = ran ++ b :: rest) :
    b ∉ ran := by
  intro hmem
  have hnodup := g.nodup_order
  rw [h, List.nodup_append] at hnodup
  exact hnodup.2.2 b hmem b List.mem_cons_self rfl

/-- Only the entry has no block before it. -/
theorem ran_eq_nil_iff {ran rest : List BlockId} {b : BlockId}
    (h : g.order = ran ++ b :: rest) :
    ran = [] ↔ b = entry := by
  have hhead := g.head?_order
  constructor
  · rintro rfl
    rw [h] at hhead
    exact Option.some.inj hhead
  · intro hb
    cases ran with
    | nil => rfl
    | cons first ran =>
        rw [h] at hhead
        have hfirst : first = entry := Option.some.inj hhead
        exact absurd (by rw [hb, hfirst]; exact List.mem_cons_self)
          (not_mem_ran h)

/-! ## Stacks of one position from those of others -/

theorem stackAt_succ_iff {b : BlockId} {i : Nat} {op : StackOp}
    (hop : (g.block b).ops[i]? = some op) (stack : List Variable) :
    g.StackAt b (i + 1) stack ↔ ∃ lower upper, g.StackAt b i (lower ++ upper) ∧
      upper.length = op.operands ∧ stack = lower ++ op.results upper := by
  constructor
  · intro h
    cases h with
    | run hstack hop' hlength =>
        obtain rfl := Option.some.inj (hop.symm.trans hop')
        exact ⟨_, _, hstack, hlength, rfl⟩
  · rintro ⟨lower, upper, hstack, hlength, rfl⟩
    exact .run hstack hop hlength

/-- A block starts with nothing, or with what a path leaves on an edge to it. -/
theorem stackAt_zero_iff (b : BlockId) (stack : List Variable) :
    g.StackAt b 0 stack ↔ (b = entry ∧ stack = []) ∨
      ∃ a, g.Before a b ∧ ∃ e ∈ (g.block a).successors,
        e.target = b ∧ g.LeftOn a e.kind stack := by
  constructor
  · intro h
    cases h with
    | start => exact .inl ⟨rfl, rfl⟩
    | carry hend he hkind hbefore =>
        exact .inr ⟨_, hbefore, _, he, rfl, by rwa [LeftOn, if_neg hkind]⟩
    | restart hend he hkind hbefore =>
        exact .inr ⟨_, hbefore, _, he, rfl,
          by rw [LeftOn, if_pos hkind]; exact ⟨rfl, _, hend⟩⟩
  · rintro (⟨rfl, rfl⟩ | ⟨a, hbefore, e, he, rfl, hleft⟩)
    · exact .start
    · rw [LeftOn] at hleft
      split at hleft
      · next hkind =>
        obtain ⟨rfl, last, hlast⟩ := hleft
        exact .restart hlast he hkind hbefore
      · next hkind => exact .carry hleft he hkind hbefore

/-- No edge leads forwards to the entry. -/
theorem stackAt_entry_iff (stack : List Variable) :
    g.StackAt entry 0 stack ↔ stack = [] := by
  obtain ⟨rest, horder⟩ : ∃ rest, g.order = [] ++ entry :: rest := by
    obtain ⟨rest, hrest⟩ := List.head?_eq_some_iff.1 g.head?_order
    exact ⟨rest, hrest⟩
  rw [stackAt_zero_iff]
  constructor
  · rintro (⟨_, hstack⟩ | ⟨a, hbefore, _⟩)
    · exact hstack
    · simp [before_iff horder] at hbefore
  · intro hstack
    exact .inl ⟨rfl, hstack⟩

theorem stackAt_start_iff {ran rest : List BlockId} {b : BlockId}
    (h : g.order = ran ++ b :: rest) (hb : b ≠ entry) (stack : List Variable) :
    g.StackAt b 0 stack ↔ ∃ a ∈ ran, ∃ e ∈ (g.block a).successors,
      e.target = b ∧
      g.LeftOn a e.kind stack := by
  simp only [stackAt_zero_iff, hb, false_and, false_or, before_iff h]

theorem StackAt.reachable {b : BlockId} {i : Nat} {stack : List Variable}
    (h : g.StackAt b i stack) : g.Reachable b := by
  induction h with
  | start => exact .refl
  | run _ _ _ ih => exact ih
  | carry _ he _ _ ih => exact ih.tail (List.mem_map_of_mem he)
  | restart _ he _ _ ih => exact ih.tail (List.mem_map_of_mem he)

/-! ## Lengths -/

/-- Stacks of one length have one length after an operation that finds its
operands. -/
theorem uniform_stackAt_succ {b : BlockId}
    {i n : Nat} {op : StackOp} (hop : (g.block b).ops[i]? = some op)
    (h : Uniform {stack | g.StackAt b i stack} n) (hn : op.operands ≤ n) :
    Uniform {stack | g.StackAt b (i + 1) stack}
      (n - op.operands + op.effect.produced) := by
  constructor
  · obtain ⟨stack, hstack⟩ := h.1
    have hlength := h.2 stack hstack
    have hsplit : stack.take (n - op.operands) ++ stack.drop (n - op.operands) =
        stack := List.take_append_drop _ _
    refine ⟨_, (stackAt_succ_iff hop _).2 ⟨stack.take (n - op.operands),
      stack.drop (n - op.operands), ?_, ?_, rfl⟩⟩
    · rw [hsplit]
      exact hstack
    · rw [List.length_drop, hlength]
      omega
  · intro stack hstack
    obtain ⟨lower, upper, hbefore, hupper, rfl⟩ :=
      (stackAt_succ_iff hop stack).1 hstack
    have hlength := h.2 _ hbefore
    have hresults : (op.results upper).length = op.effect.produced :=
      op.effect.length_results hupper
    rw [List.length_append] at hlength ⊢
    omega

/-! ## Variables on the stack -/

/-- When fields agree, `==` tells apart the variables on the stack. -/
theorem FieldsAgree.eq_of_beq (h : g.FieldsAgree) {v w : Variable}
    (hv : g.Pushes v) (hw : g.Pushes w) (heq : (v == w) = true) : v = w := by
  rw [Variable.beq_iff] at heq
  cases v with
  | field f =>
      cases w with
      | field f' =>
          have hidentity : f.identity = f'.identity := Variable.field.inj heq
          simp only [Field.identity, Field.mk.injEq] at hidentity
          rw [h f f' hv hw hidentity.1 hidentity.2.1]
      | parameter _ | localVar _ | constant _ => simp [Variable.identity] at heq
  | parameter _ | localVar _ | constant _ =>
      cases w with
      | field f' => simp [Variable.identity] at heq
      | parameter _ | localVar _ | constant _ => exact heq

end FlowGraph

end TestCost
