import TestCost.Flow.Execution
import TestCost.Proofs.Flow.Paths
import TestCost.Proofs.StackFamily.Operations

/-!
# Symbolic execution follows the paths

Symbolic execution keeps, for every place of a flow graph, a set of stacks.
This module says what they are: the set kept on a block that runs is the set
of stacks with which paths come to the operation it is at, and the set kept
on an edge is the set of stacks with which paths leave by it.

Two strengths of that are carried along together (`Tracks`). Both sets have
stacks, all of one length and of the same length in both; that needs nothing
of the graph, and is what faults are about. And the sets are equal, provided
that fields on the stack are told apart by owner and name: otherwise a pop
takes two different fields for one.

The invariant has two forms, one between two blocks (`Between`) and one
inside a block (`Inside`). A step keeps it, or fails with a fault for which
paths are to blame (`Refused`). The step here is that of one operation.

## Main results

* `Yields.foldlM` — from the steps of a fold to the fold.
* `Inside.runOp` — one operation keeps the invariant and adds the statements
  for the operands that paths bring.
* `Inside.runOps` — so do the first operations of a block.
-/

namespace TestCost

/-! ## Computations that may fail -/

/-- The computation gives a result with `post`, or a fault with `fault`. -/
def Yields {α : Type} (r : Except CodeFault α) (post : α → Prop)
    (fault : CodeFault → Prop) :
    Prop :=
  match r with
  | .ok a => post a
  | .error e => fault e

namespace Yields

variable {α β σ ι : Type} {fault : CodeFault → Prop}

theorem bind {r : Except CodeFault α} {f : α → Except CodeFault β}
    {mid : α → Prop} {post : β → Prop} (h : Yields r mid fault)
    (hf : ∀ a, mid a → Yields (f a) post fault) :
    Yields (r >>= f) post fault := by
  cases r with
  | error e => exact h
  | ok a => exact hf a h

theorem mono {r : Except CodeFault α} {post post' : α → Prop}
    (h : Yields r post fault) (hpost : ∀ a, post a → post' a) :
    Yields r post' fault := by
  cases r with
  | error e => exact h
  | ok a => exact hpost a h

theorem of_eq_ok {r : Except CodeFault α} {post : α → Prop}
    (h : Yields r post fault) {a : α} (hr : r = .ok a) : post a := by
  rw [hr] at h
  exact h

theorem of_eq_error {r : Except CodeFault α} {post : α → Prop}
    (h : Yields r post fault) {e : CodeFault} (hr : r = .error e) :
    fault e := by
  rw [hr] at h
  exact h

/-- What each step of a fold keeps, the whole fold keeps. The invariant may
speak of the items that are done. -/
theorem foldlM {f : σ → ι → Except CodeFault σ} (inv : List ι → σ → Prop)
    (items : List ι) (step : ∀ ran i rest x, items = ran ++ i :: rest →
      inv ran x → Yields (f x i) (inv (ran ++ [i])) fault) {x : σ}
    (h : inv [] x) :
    Yields (items.foldlM f x) (inv items) fault := by
  suffices hrest : ∀ rest ran x, items = ran ++ rest → inv ran x →
      Yields (rest.foldlM f x) (inv items) fault from hrest items [] x rfl h
  intro rest
  induction rest with
  | nil =>
      intro ran x hitems hinv
      rw [List.append_nil] at hitems
      rw [hitems]
      exact hinv
  | cons i rest ih =>
      intro ran x hitems hinv
      rw [List.foldlM_cons]
      refine (step ran i rest x hitems hinv).bind fun y hy =>
        ih (ran ++ [i]) y ?_ hy
      rw [hitems, List.append_assoc, List.singleton_append]

end Yields

namespace FlowGraph

/-- The stacks kept for a place stand for the stacks of paths. -/
structure Tracks (g : FlowGraph) (kept paths : Set (List Variable)) : Prop where
  uniform : ∃ n, Uniform kept n ∧ Uniform paths n
  eq : g.FieldsAgree → kept = paths

/-- The edge is one that stacks wait on when the blocks `ran` have handed out
theirs and the blocks `done` have taken theirs over. -/
def Waiting (g : FlowGraph) (ran done : List BlockId) (p : Place) : Prop :=
  ∃ a ∈ ran, ∃ e ∈ (g.block a).successors, e.target ∉ done ∧
    p = .edge a e.target e.kind

/-- What the paths of a graph have to do with a fault: one is too short for an
operation, or two come to a block with different depths. An operation that
moves void values may miss an operand, and any may meet a wide value that is
not paired. No other fault arises. -/
def Refused (g : FlowGraph) : CodeFault → Prop
  | .stack (.underflow _ _) => ∃ b i op stack, (g.block b).ops[i]? = some op ∧
      g.StackAt b i stack ∧ stack.length < op.operands
  | .stack (.unevenJoin _ _) =>
    ∃ b left right, g.StackAt b 0 left ∧ g.StackAt b 0 right ∧
      left.length ≠ right.length
  | .missingOperand _ => ¬ g.MovesNoVoid
  | .unpairedWide _ => True
  | _ => False

/-- What holds of an execution when the blocks `ran` have handed out their
stacks and the blocks `done` have taken theirs over. -/
structure Holding (g : FlowGraph) (ran done : List BlockId) (x : Execution) :
    Prop where
  done_iff : ∀ b, b ∈ x.done ↔ b ∈ done
  sound : x.family.Sound
  pushed : ∀ v, x.family.Holds v → g.Pushes v
  pending_iff : ∀ p, p ∈ x.pending ↔ g.Waiting ran done p
  waiting : ∀ a target kind, g.Waiting ran done (.edge a target kind) →
    ∃ kept, x.family.view (.edge a target kind) = some kept ∧
      g.Tracks kept {stack | g.LeftOn a kind stack}

/-- What holds of an execution when the blocks `ran` have run. -/
structure Between (g : FlowGraph) (ran : List BlockId) (x : Execution) : Prop
    extends g.Holding ran ran x where
  live : ∀ p, x.family.view p ≠ none →
    g.Waiting ran ran p ∨ (ran = [] ∧ p = .block entry)
  first : ran = [] → x.family.view (.block entry) = some {[]}

/-- What holds of an execution at operation `i` of block `b`, when the blocks
`ran` have run. -/
structure Inside (g : FlowGraph) (ran : List BlockId) (b : BlockId) (i : Nat)
    (x : Execution) :
    Prop extends g.Holding ran (ran ++ [b]) x where
  live : ∀ p, x.family.view p ≠ none → g.Waiting ran (ran ++ [b]) p ∨
    p = .block b
  here : ∃ kept, x.family.view (.block b) = some kept ∧
    g.Tracks kept {stack | g.StackAt b i stack}

variable {g : FlowGraph}

theorem FieldsAgree.faithful (h : g.FieldsAgree)
    {s : StackFamily Place Variable} (hs : ∀ v, s.Holds v → g.Pushes v) :
    s.Faithful := by
  intro v w hv hw heq
  exact h.eq_of_beq (hs v hv) (hs w hw) heq

/-! ## One operation -/

/-- The distinct lists of operands that paths bring to an operation, each
once. -/
structure OperandLists (g : FlowGraph) (b : BlockId) (i : Nat) (op : StackOp)
    (tops : List (List Variable)) : Prop where
  nodup : tops.Nodup
  mem_iff : ∀ top, top ∈ tops ↔ top.length = op.operands ∧ ∃ lower,
    g.StackAt b i (lower ++ top)

/-- What is known once an operation has taken the execution from `x` to `y`:
every path brought its operands, which operations of the graph had put on the
stack, and the statements for them were added. -/
structure Ran (g : FlowGraph) (b : BlockId) (i : Nat) (op : StackOp)
    (x y : Execution) :
    Prop where
  depth : ∃ n, op.operands ≤ n ∧ Uniform {stack | g.StackAt b i stack} n
  statements : ∃ tops found, tops.mapM op.statement? = some found ∧
    y.statements.toList = x.statements.toList ++ found.filterMap id ∧
    (g.FieldsAgree → g.OperandLists b i op tops) ∧ tops ≠ [] ∧
    ∀ top ∈ tops, ∀ v ∈ top, g.Pushes v

theorem statement_of_emit {op : StackOp} {input : List Variable}
    {s : Option Statement} (h : Execution.emit op input = .ok s) :
    op.statement? input = some s := by
  unfold Execution.emit at h
  cases hs : op.statement? input with
  | none => simp [hs] at h
  | some found =>
      rw [hs] at h
      cases hwide : unpairedWide? (op.results input) with
      | none => simpa [hwide] using h
      | some v => simp [hwide] at h

theorem emit_error {op : StackOp} {input : List Variable} {fault : CodeFault}
    (h : Execution.emit op input = .error fault) :
    (op.statement? input = none ∧ fault = .missingOperand op.line) ∨
      ∃ v, fault = .unpairedWide v := by
  unfold Execution.emit at h
  cases hs : op.statement? input with
  | none =>
      rw [hs] at h
      exact .inl ⟨rfl, (Except.error.inj h).symm⟩
  | some found =>
      rw [hs] at h
      cases hwide : unpairedWide? (op.results input) with
      | none => simp [hwide] at h
      | some v =>
          rw [hwide] at h
          exact .inr ⟨v, (Except.error.inj h).symm⟩

theorem mapM_statement_of_emit {op : StackOp}
    {tops : List (List Variable)} {found : List (Option Statement)}
    (h : tops.mapM (Execution.emit op) = .ok found) :
    tops.mapM op.statement? = some found := by
  induction tops generalizing found with
  | nil =>
      obtain rfl := Except.ok.inj h
      rfl
  | cons top tops ih =>
      rw [List.mapM_cons] at h ⊢
      cases htop : Execution.emit op top with
      | error fault =>
          rw [htop] at h
          exact absurd h (by simp [bind, Except.bind])
      | ok first =>
          cases hrest : tops.mapM (Execution.emit op) with
          | error fault =>
              rw [htop, hrest] at h
              exact absurd h (by simp [bind, Except.bind])
          | ok rest =>
              rw [htop, hrest] at h
              obtain rfl := Except.ok.inj h
              rw [statement_of_emit htop, ih hrest]
              rfl

theorem mapM_emit_error {op : StackOp} {tops : List (List Variable)}
    {fault : CodeFault} (h : tops.mapM (Execution.emit op) = .error fault) :
    ∃ top ∈ tops, Execution.emit op top = .error fault := by
  induction tops with
  | nil => exact absurd h (by simp [pure, Except.pure])
  | cons top tops ih =>
      rw [List.mapM_cons] at h
      cases htop : Execution.emit op top with
      | error e =>
          rw [htop] at h
          obtain rfl := Except.error.inj h
          exact ⟨top, List.mem_cons_self, htop⟩
      | ok first =>
          cases hrest : tops.mapM (Execution.emit op) with
          | error e =>
              rw [htop, hrest] at h
              obtain rfl := Except.error.inj h
              obtain ⟨found, hmem, hfound⟩ := ih hrest
              exact ⟨found, List.mem_cons_of_mem _ hmem, hfound⟩
          | ok rest =>
              rw [htop, hrest] at h
              exact absurd h (by simp [bind, Except.bind, pure, Except.pure])

theorem runOp_eq {x : Execution} {p : Place} {op : StackOp}
    {taken : List (List Variable)} {t : StackFamily Place Variable}
    (h : x.family.pop p op.operands op.results = .ok (taken, t)) :
    x.runOp p op = (taken.mapM (Execution.emit op)).map fun emitted =>
      { x with
        family := t, statements := x.statements ++ emitted.filterMap id } := by
  unfold Execution.runOp
  rw [h]
  show (taken.mapM (Execution.emit op) >>= _) = _
  cases taken.mapM (Execution.emit op) with
  | error fault => rfl
  | ok emitted => rfl

theorem runOp_error
    {x : Execution} {p : Place} {op : StackOp} {fault : StackFault Place}
    (h : x.family.pop p op.operands op.results = .error fault) :
    x.runOp p op = .error (.stack fault) := by
  unfold Execution.runOp
  rw [h]
  rfl

/-- An operation whose operands are all there misses one only if it moves a
void value. -/
theorem refused_of_emit {b : BlockId} {i : Nat} {op : StackOp}
    (hop : (g.block b).ops[i]? = some op) {taken : List (List Variable)}
    (htaken : ∀ top ∈ taken, top.length = op.operands) {fault : CodeFault}
    (h : taken.mapM (Execution.emit op) = .error fault) : g.Refused fault := by
  obtain ⟨top, hmem, hemit⟩ := mapM_emit_error h
  rcases emit_error hemit with ⟨hnone, rfl⟩ | ⟨v, rfl⟩
  · intro hvoid
    obtain ⟨block, hblock, hmemOp⟩ := exists_block_of_op hop
    have hsome := op.effect.statement?_isSome (hvoid block hblock op hmemOp)
      op.line (htaken top hmem)
    rw [StackOp.statement?] at hnone
    simp [hnone] at hsome
  · trivial

/-- The stacks kept after an operation stand for those of paths after it. -/
theorem Tracks.popped {b : BlockId}
    {i n : Nat} {op : StackOp} (hop : (g.block b).ops[i]? = some op)
    {s t : StackFamily Place Variable} {p : Place}
    {kept after : Set (List Variable)} {taken : List (List Variable)}
    (h : g.Tracks kept {stack | g.StackAt b i stack})
    (hpaths : Uniform {stack | g.StackAt b i stack} n)
    (hn : op.operands ≤ n) (hpushed : ∀ v, s.Holds v → g.Pushes v)
    (hpopped : s.Popped p op.operands op.results kept n taken t after) :
    g.Tracks after {stack | g.StackAt b (i + 1) stack} where
  uniform := by
    refine ⟨n - op.operands + op.effect.produced, hpopped.uniform _ ?_,
      uniform_stackAt_succ hop hpaths hn⟩
    intro w hw
    exact op.effect.length_results (hpopped.length_eq w hw)
  eq := by
    intro hfields
    rw [hpopped.after_eq (hfields.faithful hpushed), h.eq hfields]
    ext stack
    exact (stackAt_succ_iff hop stack).symm

theorem Inside.popped {ran : List BlockId} {b : BlockId}
    {i n : Nat} {op : StackOp} {x : Execution} (h : g.Inside ran b i x)
    (hop : (g.block b).ops[i]? = some op) {kept after : Set (List Variable)}
    {t : StackFamily Place Variable} {taken : List (List Variable)}
    (htracks : g.Tracks kept {stack | g.StackAt b i stack})
    (hpaths : Uniform {stack | g.StackAt b i stack} n) (hn : op.operands ≤ n)
    (hpopped : x.family.Popped (.block b) op.operands op.results kept n taken t
      after) (statements : Array Statement) :
    g.Inside ran b (i + 1)
      { x with family := t, statements := statements } where
  done_iff := h.done_iff
  sound := hpopped.sound op.effect.produced fun w hw =>
    op.effect.length_results (hpopped.length_eq w hw)
  pushed := by
    intro v hv
    rcases hpopped.holds v hv with hold | ⟨w, hw, hresult⟩
    · exact h.pushed v hold
    · rcases op.effect.mem_results hresult with hinput | hown
      · exact h.pushed v (hpopped.taken_holds w hw v hinput)
      · obtain ⟨block, hblock, hmem⟩ := exists_block_of_op hop
        exact ⟨block, hblock, op, hmem, hown⟩
  pending_iff := h.pending_iff
  waiting := by
    intro a target kind hwaiting
    rw [hpopped.view_ne _ (by simp)]
    exact h.waiting a target kind hwaiting
  live := by
    intro p hp
    by_cases hblock : p = .block b
    · exact .inr hblock
    · rw [hpopped.view_ne p hblock] at hp
      exact h.live p hp
  here :=
    ⟨after, hpopped.view_self, htracks.popped hop hpaths hn h.pushed hpopped⟩

theorem Inside.runOp {ran : List BlockId} {b : BlockId}
    {i : Nat} {op : StackOp} {x : Execution} (h : g.Inside ran b i x)
    (hop : (g.block b).ops[i]? = some op) :
    Yields (x.runOp (.block b) op) (fun y => g.Inside ran b (i + 1) y ∧
      g.Ran b i op x y)
      g.Refused := by
  obtain ⟨kept, hview, htracks⟩ := h.here
  obtain ⟨n, hkept, hpaths⟩ := htracks.uniform
  by_cases hn : op.operands ≤ n
  · obtain ⟨taken, t, after, hpop, hpopped⟩ :=
      StackFamily.popped_pop h.sound hview hkept hn op.results
    rw [runOp_eq hpop]
    cases hemitted : taken.mapM (Execution.emit op) with
    | error fault => exact refused_of_emit hop hpopped.length_eq hemitted
    | ok found =>
        refine ⟨h.popped hop htracks hpaths hn hpopped _, ⟨n, hn, hpaths⟩,
          taken, found, mapM_statement_of_emit hemitted, by simp, ?_,
          hpopped.taken_ne_nil, ?_⟩
        · intro hfields
          refine ⟨hpopped.nodup, ?_⟩
          intro top
          rw [hpopped.mem_taken (hfields.faithful h.pushed) top,
            htracks.eq hfields]
          rfl
        · exact fun top htop v hv =>
            h.pushed v (hpopped.taken_holds top htop v hv)
  · obtain ⟨requested, hpop⟩ := StackFamily.pop_underflow h.sound hview hkept
      (Nat.lt_of_not_le hn) op.results
    rw [runOp_error hpop]
    obtain ⟨stack, hstack⟩ := hpaths.1
    refine ⟨b, i, op, stack, hop, hstack, ?_⟩
    rw [hpaths.2 stack hstack]
    exact Nat.lt_of_not_le hn

/-- The first operations of a block. -/
theorem Inside.runOps {ran : List BlockId} {b : BlockId} {x : Execution}
    (h : g.Inside ran b 0 x) {i : Nat} (hi : i ≤ (g.block b).ops.length) :
    Yields (((g.block b).ops.take i).foldlM (Execution.runOp (.block b)) x)
      (g.Inside ran b i)
      g.Refused := by
  have hlength : ((g.block b).ops.take i).length = i :=
    List.length_take_of_le hi
  have hfold :
      Yields (((g.block b).ops.take i).foldlM (Execution.runOp (.block b)) x)
      (g.Inside ran b ((g.block b).ops.take i).length) g.Refused := by
    refine Yields.foldlM (fun ops y => g.Inside ran b ops.length y) _ ?_ h
    intro done op rest y htake hy
    have hop : ((g.block b).ops.take i)[done.length]? = some op := by
      rw [htake, List.getElem?_append_right (Nat.le_refl _), Nat.sub_self]
      rfl
    have hlt : done.length < i := by
      rw [← hlength, htake, List.length_append, List.length_cons]
      omega
    rw [List.getElem?_take_of_lt hlt] at hop
    rw [List.length_append, List.length_singleton]
    exact (hy.runOp hop).mono fun z hz => hz.1
  rwa [hlength] at hfold

end FlowGraph

end TestCost
