import TestCost.Proofs.Flow.Statements

/-!
# Chains of field reads

Symbolic execution keeps no trace of how a value was come by: reading a field
of a value leaves the field on the stack, whatever the value was. To say which
values were read through a static field, a path is run with a stack that
remembers it. `Reading` is a value with the fields it was read through, and
`ReadAt` runs such a stack along forward paths, as `StackAt` runs a plain one.
Locals pass on what was stored in them.

## Main results

* `ReadAt.stackAt` — without the chains this is the plain stack.
* `ReadAt.ends` — a value that was read through a chain is the last field of
  the chain, or a variable that it was stored in.
-/

namespace TestCost

/-- A value on the operand stack. If reading it began with a static field,
`chain` lists the fields that it was read through, that one first; it is empty
for any other value. -/
structure Reading where
  value : Variable
  chain : List Field

/-- Variables that values were stored in, with the chains of these values, the
last one first. -/
abbrev Stores := List (Variable × List Field)

/-- The chain of a field that is read from a value with this chain. -/
def Field.chainFrom (f : Field) (chain : List Field) : List Field :=
  if f.isStatic then [f] else if chain.isEmpty then [] else chain ++ [f]

namespace StackEffect

/-- The values put back, with their chains. -/
def readings (effect : StackEffect) (stored : Stores) (input : List Reading) :
    List Reading :=
  match effect with
  | load v => v.onStack.map fun value =>
    ⟨value, ((stored.find? fun entry => entry.1 == v).map Prod.snd).getD []⟩
  | getField f => (Variable.field f).onStack.map fun value =>
    ⟨value, f.chainFrom ((input.head?.map Reading.chain).getD [])⟩
  | duplicate _ => input.drop (input.length - 1) ++ input
  | duplicatePair _ => input.drop (input.length - 2) ++ input
  | swap => input.reverse
  | _ => (effect.results (input.map Reading.value)).map fun value => ⟨value, []⟩

/-- What has been stored after the effect. -/
def storedAfter (effect : StackEffect) (stored : Stores)
    (input : List Reading) : Stores :=
  match effect with
  | store v => (input.head?.map fun r => (v, r.chain)).toList ++ stored
  | _ => stored

variable {stored : Stores} {input : List Reading}

/-- Chains do not change which values come back. -/
theorem map_value_readings (effect : StackEffect) :
    (effect.readings stored input).map Reading.value =
      effect.results (input.map Reading.value) := by
  cases effect <;> simp [readings, results, Function.comp_def, List.map_drop]

theorem subset_storedAfter (effect : StackEffect) (stored : Stores)
    (input : List Reading) :
    stored ⊆ effect.storedAfter stored input := by
  cases effect with
  | store v => exact List.subset_append_right _ _
  | load | transform | getField | putField | arrayLoad | arrayStore | invoke
  | duplicate
  | duplicatePair | swap | pop | leave | raise => exact List.Subset.refl _

/-- A value that comes back with a chain was loaded, was read from a field or
was there before. -/
theorem mem_readings {effect : StackEffect} {r : Reading}
    (h : r ∈ effect.readings stored input) :
    r.chain = [] ∨ r ∈ input ∨
      (∃ v, (v, r.chain) ∈ stored ∧ (v == r.value) = true) ∨
      ∃ f, r.value = .field f ∧
        r.chain = f.chainFrom ((input.head?.map Reading.chain).getD []) := by
  cases effect with
  | load v =>
      obtain ⟨value, hvalue, rfl⟩ := List.mem_map.1 h
      obtain rfl := Variable.eq_of_mem_onStack hvalue
      cases hfound : stored.find? fun entry => entry.1 == value with
      | none => exact .inl rfl
      | some entry =>
          have hvalue := List.find?_some hfound
          exact .inr
            (.inr (.inl ⟨entry.1, List.mem_of_find?_eq_some hfound, hvalue⟩))
  | getField f =>
      obtain ⟨value, hvalue, rfl⟩ := List.mem_map.1 h
      exact .inr (.inr (.inr ⟨f, Variable.eq_of_mem_onStack hvalue, rfl⟩))
  | duplicate skipped | duplicatePair skipped =>
      rcases List.mem_append.1 h with h | h
      · exact .inr (.inl (List.mem_of_mem_drop h))
      · exact .inr (.inl h)
  | swap => exact .inr (.inl (List.mem_reverse.1 h))
  | store | transform | putField | arrayLoad | arrayStore | invoke | pop | leave
  | raise =>
      obtain ⟨value, _, rfl⟩ := List.mem_map.1 h
      exact .inl rfl

theorem mem_storedAfter {effect : StackEffect} {entry : Variable × List Field}
    (h : entry ∈ effect.storedAfter stored input) :
    entry ∈ stored ∨ ∃ r,
      effect = .store entry.1 ∧ input.head? = some r ∧ r.chain = entry.2 := by
  cases effect with
  | store v =>
      rcases List.mem_append.1 h with h | h
      · obtain ⟨r, hr, rfl⟩ := Option.map_eq_some_iff.1 (Option.mem_toList.1 h)
        exact .inr ⟨r, rfl, hr, rfl⟩
      · exact .inl h
  | load | transform | getField | putField | arrayLoad | arrayStore | invoke
  | duplicate
  | duplicatePair | swap | pop | leave | raise => exact .inl h

end StackEffect

theorem Field.getLast?_chainFrom {f : Field} {chain : List Field}
    (h : f.chainFrom chain ≠ []) :
    (f.chainFrom chain).getLast? = some f := by
  unfold chainFrom at h ⊢
  split
  · rfl
  · split
    · next hstatic hempty => simp [hstatic, hempty] at h
    · simp

/-- The chain is a static field by itself. -/
theorem Field.isStatic_of_chainFrom {f : Field} {chain : List Field}
    (h : (f.chainFrom chain).length = 1) : f.isStatic = true := by
  unfold chainFrom at h
  split at h
  · assumption
  · split at h
    · simp at h
    · next hempty =>
      rw [List.length_append, List.length_singleton] at h
      exact absurd (List.isEmpty_iff_length_eq_zero.2 (by omega)) hempty

/-- The value is the last field of its chain, or a variable that a value with
this chain was stored in. -/
def Reading.Ends (stored : Stores) (r : Reading) : Prop :=
  (∃ f, r.chain.getLast? = some f ∧ r.value = .field f) ∨
    ∃ v, (v, r.chain) ∈ stored ∧ (v == r.value) = true

namespace FlowGraph

/-- Some forward path from the entry comes to operation `i` of block `b` with
this stack, after it has stored these values in variables. An exception may be
raised anywhere in a block, so what is stored in the block is not known after
it. -/
inductive ReadAt (g : FlowGraph) :
    BlockId → Nat → List Reading → Stores → Prop where
  | start : ReadAt g entry 0 [] []
  | run {b : BlockId} {i : Nat} {op : StackOp} {lower upper : List Reading}
      {stored : Stores} :
      ReadAt g b i (lower ++ upper) stored → (g.block b).ops[i]? = some op →
      upper.length = op.operands →
      ReadAt g b (i + 1) (lower ++ op.effect.readings stored upper)
        (op.effect.storedAfter stored upper)
  | carry {b : BlockId} {e : Edge} {stack : List Reading} {stored : Stores} :
      ReadAt g b (g.block b).ops.length stack stored →
        e ∈ (g.block b).successors →
      e.kind ≠ .exception → g.Before b e.target →
        ReadAt g e.target 0 stack stored
  | restart {b : BlockId} {e : Edge} {stack : List Reading} {stored : Stores} :
      ReadAt g b (g.block b).ops.length stack stored →
        e ∈ (g.block b).successors →
      e.kind = .exception → g.Before b e.target → ReadAt g e.target 0 [] []

variable {g : FlowGraph} {b : BlockId} {i : Nat} {stack : List Reading}
  {stored : Stores}

theorem ReadAt.stackAt (h : g.ReadAt b i stack stored) :
    g.StackAt b i (stack.map Reading.value) := by
  induction h with
  | start => exact .start
  | run _ hop hlength ih =>
      rw [List.map_append] at ih
      rw [List.map_append, StackEffect.map_value_readings]
      exact .run ih hop (by rw [List.length_map, hlength])
  | carry _ he hkind hbefore ih => exact .carry ih he hkind hbefore
  | restart _ he hkind hbefore ih => exact .restart ih he hkind hbefore

theorem ReadAt.mem_order (h : g.ReadAt b i stack stored) (hg : g.WellFormed) :
    b ∈ g.order :=
  (g.mem_order_iff hg b).2 h.stackAt.reachable

theorem ReadAt.ends (h : g.ReadAt b i stack stored) :
    ∀ r ∈ stack, r.chain ≠ [] → r.Ends stored := by
  induction h with
  | start => simp
  | @run b i op lower upper stored _ hop hlength ih =>
      have hsub := op.effect.subset_storedAfter stored upper
      have hold : ∀ r ∈ lower ++ upper, r.chain ≠ [] →
          r.Ends (op.effect.storedAfter stored upper) := by
        intro r hr hchain
        rcases ih r hr hchain with hfield | ⟨v, hv, heq⟩
        · exact .inl hfield
        · exact .inr ⟨v, hsub hv, heq⟩
      intro r hr hchain
      rcases List.mem_append.1 hr with hr | hr
      · exact hold r (List.mem_append_left _ hr) hchain
      · rcases StackEffect.mem_readings hr with
          hempty | hinput | ⟨v, hv, heq⟩ | ⟨f, hvalue, hread⟩
        · exact absurd hempty hchain
        · exact hold r (List.mem_append_right _ hinput) hchain
        · exact .inr ⟨v, hsub hv, heq⟩
        · rw [hread] at hchain
          exact .inl ⟨f, by rw [hread, Field.getLast?_chainFrom hchain], hvalue⟩
  | carry _ _ _ _ ih => exact ih
  | restart _ _ _ _ _ => simp

end FlowGraph

end TestCost
