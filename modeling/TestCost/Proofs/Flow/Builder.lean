import TestCost.Proofs.Flow.Order
import TestCost.Flow.Event

/-!
# Graphs that are built from events

A flow graph is built event by event, and blocks are made before their code is
met. Two things hold of every builder on the way, and so of every graph that
is built: blocks are named only once they exist, so every edge leads to a block
of the graph; and an operation is in a block only because an event put it
there, so whatever holds of the operations of the events holds of those of the
graph.

## Main results

* `FlowBuilder.Sound.step` — what an event keeps.
* `FlowGraph.wellFormed_ofEvents` — graphs of events are well formed.
* `FlowGraph.ops_ofEvents` — where their operations come from.
-/

namespace TestCost

/-- The operations that an event puts into a block. -/
def FlowEvent.ops : FlowEvent → List StackOp
  | .op o => [o]
  | .subroutine _ returnAddress => [returnAddress]
  | .protect _ _ exception => [exception]
  | .branch _ | .jump _ | .switch _ _ | .label _ => []

namespace FlowBuilder

variable {P : StackOp → Prop} {b : FlowBuilder}

/-- Every block that is named is there and has its position for a name, and
every operation has the property. -/
structure Sound (P : StackOp → Prop) (b : FlowBuilder) : Prop where
  current : ∀ id, b.current = some id → id < b.blocks.size
  labelled : ∀ entry ∈ b.labelled, entry.2 < b.blocks.size
  edges : ∀ block ∈ b.blocks, ∀ e ∈ block.successors, e.target < b.blocks.size
  ops : ∀ block ∈ b.blocks, ∀ op ∈ block.ops, P op
  named : ∀ (c : BlockId) block, b.blocks[c]? = some block → block.id = c

theorem sound_start (P : StackOp → Prop) : Sound P start where
  current := by simp [start, FlowGraph.entry]
  labelled := by simp [start]
  edges := by simp [start]
  ops := by simp [start]
  named c block h := by
    obtain ⟨rfl, rfl⟩ : c = 0 ∧ block = { id := FlowGraph.entry } := by
      simpa [start, List.getElem?_singleton, eq_comm] using h
    rfl

/-! ## Changes of a builder -/

theorem mem_modify {α : Type} {xs : Array α} {i : Nat} {f : α → α} {y : α}
    (h : y ∈ xs.modify i f) : y ∈ xs ∨ ∃ x ∈ xs, y = f x := by
  obtain ⟨j, hj⟩ := Array.mem_iff_getElem?.1 h
  rw [Array.getElem?_modify] at hj
  split at hj
  · obtain ⟨x, hx, rfl⟩ := Option.map_eq_some_iff.1 hj
    exact .inr ⟨x, Array.mem_of_getElem? hx, rfl⟩
  · exact .inl (Array.mem_of_getElem? hj)

/-- A block may take an edge to a block that is there, and an operation that
has the property. It keeps its name. -/
theorem Sound.modify (h : Sound P b) (id : BlockId) {f : Block → Block}
    (hedges : ∀ block, ∀ e ∈ (f block).successors,
      e ∈ block.successors ∨ e.target < b.blocks.size)
    (hops : ∀ block, ∀ op ∈ (f block).ops, op ∈ block.ops ∨ P op)
    (hid : ∀ block, (f block).id = block.id) :
    Sound P { b with blocks := b.blocks.modify id f } where
  current := by simpa using h.current
  labelled := by simpa using h.labelled
  edges block hblock e he := by
    rw [Array.size_modify]
    rcases mem_modify hblock with hold | ⟨old, hold, rfl⟩
    · exact h.edges block hold e he
    · rcases hedges old e he with he | he
      · exact h.edges old hold e he
      · exact he
  ops block hblock op hop := by
    rcases mem_modify hblock with hold | ⟨old, hold, rfl⟩
    · exact h.ops block hold op hop
    · rcases hops old op hop with hop | hop
      · exact h.ops old hold op hop
      · exact hop
  named c block hblock := by
    rw [Array.getElem?_modify] at hblock
    split at hblock
    · obtain ⟨old, hold, rfl⟩ := Option.map_eq_some_iff.1 hblock
      rw [hid]
      exact h.named c old hold
    · exact h.named c block hblock

theorem Sound.addEdge (h : Sound P b) (source : BlockId) {e : Edge}
    (htarget : e.target < b.blocks.size) : Sound P (b.addEdge source e) := by
  apply h.modify source
  · intro block e' he'
    split at he'
    · exact .inl he'
    · rcases List.mem_append.1 he' with he' | he'
      · exact .inl he'
      · rw [List.mem_singleton.1 he']
        exact .inr htarget
  · intro block op hop
    split at hop
    · exact .inl hop
    · exact .inl hop
  · intro block
    split <;> rfl

@[simp] theorem size_addEdge (b : FlowBuilder) (source : BlockId) (e : Edge) :
    (b.addEdge source e).blocks.size = b.blocks.size := Array.size_modify

@[simp] theorem size_addBlock (b : FlowBuilder) :
    b.addBlock.1.blocks.size = b.blocks.size + 1 := Array.size_push _

theorem Sound.addBlock (h : Sound P b) : Sound P b.addBlock.1 where
  current id hid := by
    rw [size_addBlock]
    exact Nat.lt_succ_of_lt (h.current id hid)
  labelled entry hentry := by
    rw [size_addBlock]
    exact Nat.lt_succ_of_lt (h.labelled entry hentry)
  edges block hblock e he := by
    rw [size_addBlock]
    rcases Array.mem_push.1 hblock with hold | rfl
    · exact Nat.lt_succ_of_lt (h.edges block hold e he)
    · cases he
  ops block hblock op hop := by
    rcases Array.mem_push.1 hblock with hold | rfl
    · exact h.ops block hold op hop
    · cases hop
  named c block hblock := by
    change (b.blocks.push { id := b.blocks.size })[c]? = some block at hblock
    rw [Array.getElem?_push] at hblock
    split at hblock
    · next hc =>
      obtain rfl := Option.some.inj hblock
      exact hc.symm
    · exact h.named c block hblock

theorem Sound.withCurrent (h : Sound P b) {current : Option BlockId}
    (hcurrent : ∀ id, current = some id → id < b.blocks.size) :
    Sound P { b with current := current } :=
  ⟨hcurrent, h.labelled, h.edges, h.ops, h.named⟩

/-- A builder that is sound, grown from `b`, with one of its blocks. -/
structure Reached (P : StackOp → Prop) (b : FlowBuilder)
    (next : FlowBuilder × BlockId) :
    Prop where
  sound : Sound P next.1
  grown : b.blocks.size ≤ next.1.blocks.size
  lt : next.2 < next.1.blocks.size

theorem Sound.ensureCurrent (h : Sound P b) : Reached P b b.ensureCurrent := by
  unfold FlowBuilder.ensureCurrent
  split
  · next id hid => exact ⟨h, Nat.le_refl _, h.current id hid⟩
  · have hsize := b.size_addBlock
    refine ⟨h.addBlock.withCurrent ?_, ?_, ?_⟩
    · rintro _ ⟨⟩
      rw [hsize]
      exact Nat.lt_succ_self _
    · show b.blocks.size ≤ b.addBlock.1.blocks.size
      omega
    · show b.blocks.size < b.addBlock.1.blocks.size
      omega

theorem Sound.blockAt (h : Sound P b) (label : Label) :
    Reached P b (b.blockAt label) := by
  have hsize := b.size_addBlock
  unfold FlowBuilder.blockAt
  split
  · next id hid =>
    obtain ⟨before, after, heq, _⟩ := List.lookup_eq_some_iff.1 hid
    exact ⟨h, Nat.le_refl _, h.labelled (label, id) (by simp [heq])⟩
  · refine ⟨⟨h.addBlock.current, ?_, h.addBlock.edges, h.addBlock.ops,
      h.addBlock.named⟩, ?_, ?_⟩
    · intro entry hentry
      rcases List.mem_cons.1 hentry with rfl | hentry
      · show b.blocks.size < b.addBlock.1.blocks.size
        omega
      · exact h.addBlock.labelled entry hentry
    · show b.blocks.size ≤ b.addBlock.1.blocks.size
      omega
    · show b.blocks.size < b.addBlock.1.blocks.size
      omega

theorem Sound.seed (h : Sound P b) (label : Label) {op : StackOp} (hop : P op) :
    Reached P b (b.seed label op) := by
  have hat := h.blockAt label
  unfold FlowBuilder.seed
  dsimp only
  split
  · exact hat
  · have hseeded := hat.sound.modify (b.blockAt label).2 (f := fun block =>
      { block with ops := op :: block.ops }) (fun block e he => .inl he)
      (fun block op' hop' => by
        rcases List.mem_cons.1 hop' with rfl | hop'
        · exact .inr hop
        · exact .inl hop')
      (fun _ => rfl)
    refine ⟨⟨hseeded.current, hseeded.labelled, hseeded.edges, hseeded.ops,
      hseeded.named⟩, ?_, ?_⟩
    · rw [Array.size_modify]
      exact hat.grown
    · rw [Array.size_modify]
      exact hat.lt

theorem Sound.addOp (h : Sound P b) {op : StackOp} (hop : P op) :
    Sound P (b.addOp op) := by
  have hensured := h.ensureCurrent
  unfold FlowBuilder.addOp
  have hadded := hensured.sound.modify b.ensureCurrent.2
    (f := fun block => { block with
      ops := block.ops ++ [op], isTerminal :=
        block.isTerminal || op.isTerminal })
    (fun block e he => .inl he)
    (fun block op' hop' => by
      rcases List.mem_append.1 hop' with hop' | hop'
      · exact .inl hop'
      · rw [List.mem_singleton.1 hop']
        exact .inr hop)
    (fun _ => rfl)
  apply hadded.withCurrent
  intro id hid
  split at hid
  · cases hid
  · exact hadded.current id hid

theorem Sound.fork (h : Sound P b) (source : BlockId) {target : BlockId}
    (htarget : target < b.blocks.size) : Sound P (b.fork source target) := by
  have hsize := b.size_addBlock
  have hnext : b.addBlock.2 < b.addBlock.1.blocks.size := by
    rw [hsize]
    exact Nat.lt_succ_self _
  have hfirst := h.addBlock.addEdge source
    (e := { target := b.addBlock.2, kind := .fallThrough }) hnext
  have hsecond := hfirst.addEdge source (e := { target, kind := .branch }) (by
    rw [size_addEdge, hsize]
    exact Nat.lt_succ_of_lt htarget)
  apply hsecond.withCurrent
  rintro _ ⟨⟩
  rw [size_addEdge, size_addEdge]
  exact hnext

theorem Sound.branchTo (h : Sound P b) (source : BlockId) (label : Label) :
    Sound P (branchTo source b label) :=
  (h.blockAt label).sound.addEdge source (h.blockAt label).lt

/-! ## One event, all events -/

theorem Sound.step (h : Sound P b) (event : FlowEvent)
    (hops : ∀ op ∈ event.ops, P op) :
    Sound P (b.step event) := by
  cases event with
  | op op => exact h.addOp (hops op List.mem_cons_self)
  | branch target =>
      have hat := h.ensureCurrent.sound.blockAt target
      exact hat.sound.fork _ hat.lt
  | jump target =>
      exact (h.ensureCurrent.sound.branchTo _ target).withCurrent (by simp)
  | subroutine target returnAddress =>
      have hat := h.ensureCurrent.sound.seed target
        (hops returnAddress List.mem_cons_self)
      exact hat.sound.fork _ hat.lt
  | switch default cases =>
      have hbranches :
          ∀ (labels : List Label) {b : FlowBuilder} (source : BlockId),
          Sound P b →
          Sound P (labels.foldl (FlowBuilder.branchTo source) b) := by
        intro labels
        induction labels with
        | nil => exact fun _ hb => hb
        | cons label labels ih =>
            exact fun source hb => ih source (hb.branchTo source label)
      exact (hbranches _ _ h.ensureCurrent.sound).withCurrent (by simp)
  | label label =>
      have hat := h.blockAt label
      unfold FlowBuilder.step
      dsimp only
      split
      · split
        · apply hat.sound.withCurrent
          rintro _ ⟨⟩
          exact hat.lt
        · apply (hat.sound.addEdge _ hat.lt).withCurrent
          rintro _ ⟨⟩
          rw [size_addEdge]
          exact hat.lt
      · apply hat.sound.withCurrent
        rintro _ ⟨⟩
        exact hat.lt
  | protect start handler exception =>
      have hat :=
        (h.blockAt start).sound.seed handler (hops exception List.mem_cons_self)
      exact hat.sound.addEdge _ hat.lt

theorem Sound.run (h : Sound P b) {events : List FlowEvent}
    (hops : ∀ event ∈ events, ∀ op ∈ event.ops, P op) :
    Sound P (b.run events) := by
  induction events generalizing b with
  | nil => exact h
  | cons event events ih =>
      rw [run_cons]
      exact ih (h.step event (hops event List.mem_cons_self))
        fun e he => hops e (List.mem_cons_of_mem _ he)

end FlowBuilder

namespace FlowGraph

theorem wellFormed_ofEvents (events : List FlowEvent) :
    (ofEvents events).WellFormed := by
  have hsound :
      FlowBuilder.Sound (fun _ => True) (FlowBuilder.start.run events) :=
    (FlowBuilder.sound_start fun _ => True).run fun _ _ _ _ => trivial
  exact hsound.edges

theorem ops_ofEvents {P : StackOp → Prop} {events : List FlowEvent}
    (h : ∀ event ∈ events, ∀ op ∈ event.ops, P op) {id : BlockId} {op : StackOp}
    (hop : op ∈ ((ofEvents events).block id).ops) : P op := by
  rcases (ofEvents events).block_mem_or_eq id with hblock | hblock
  · exact ((FlowBuilder.sound_start P).run h).ops _ hblock op hop
  · rw [hblock] at hop
    cases hop

end FlowGraph

end TestCost
