import Mathlib
import TestCost.Proofs.Flow.Description

/-!
# How much a graph branches

Where control can go on in more than one way there is a choice, and a block with
`n` ways out stands for `n - 1` choices. Handlers do not count: no block is left
for one by choice. This module counts the choices of a graph from the events it
is built from.

The count is kept event by event. An event gives ways out to the current block
only, and under `Ready` that block has none before, so the choices that an event
adds are those of one block alone. Sums over blocks are written over positions.
A position behind the last block stands for an empty one, so new blocks change
nothing, and neither does the order in which they are made.

Several cases of a switch may lead to one label, and the graph has one edge for
them. As labels own different blocks, a switch adds as many choices as there are
labels among its cases other than the default.

## Main results

* `FlowBuilder.extraWays_of_others` — a change of one block changes the sum by
  what the block gets.
* `FlowBuilder.length_exits_foldl` — the edges of a switch.
* `FlowBuilder.Ready.extraWays_step` — what an event adds.
* `FlowGraph.extraWays_ofEvents` — the choices of a graph are those of its
  events.
-/

namespace TestCost

/-- The edges by which control leaves the block other than by an exception. -/
def Block.exits (d : Block) : List Edge :=
  d.successors.filter fun e => e.kind ≠ .exception

/-- The ways out of the block besides the first. -/
def Block.extraWays (d : Block) : Nat := d.exits.length - 1

/-- The ways out of all blocks besides the first of each. -/
def FlowGraph.extraWays (g : FlowGraph) : Nat :=
  ∑ c ∈ Finset.range g.blocks.size, (g.block c).extraWays

/-- The ways that an event adds besides going on; cases that lead to the
default, or to a label that another case leads to, add none. -/
def FlowEvent.extraWays : FlowEvent → Nat
  | .branch _ | .subroutine _ _ => 1
  | .switch default cases => (cases.filter (· ≠ default)).dedup.length
  | .op _ | .jump _ | .label _ | .protect _ _ _ => 0

/-! ## Ways out of a block -/

namespace Block

variable {d : Block} {e : Edge}

theorem exits_of_unlinked (h : ∀ t, ¬ d.Exits t) : d.exits = [] := by
  rw [exits, List.filter_eq_nil_iff]
  intro e he hkind
  exact h e.target ⟨e, he, by simpa using hkind, rfl⟩

theorem mem_map_target_exits {t : BlockId} :
    t ∈ d.exits.map Edge.target ↔ d.Exits t := by
  simp [exits, Exits, and_assoc]

theorem exits_withEdge_exception (hkind : e.kind = .exception) :
    (d.withEdge e).exits = d.exits := by
  unfold withEdge
  split
  · rfl
  · simp [exits, hkind]

/-- An edge that the block does not have is one more way out. -/
theorem exits_withEdge_of_ne (h : d.isTerminal = false)
    (hkind : e.kind ≠ .exception) :
    (d.withEdge e).exits = if e ∈ d.exits then d.exits else d.exits ++ [e] := by
  have hmem : e ∈ d.exits ↔ e ∈ d.successors := by simp [exits, hkind]
  unfold withEdge
  rw [h, Bool.false_or]
  by_cases he : e ∈ d.successors
  · rw [if_pos (List.contains_iff_mem.2 he), if_pos (hmem.2 he)]
  · rw [if_neg (by simpa using he), if_neg (mt hmem.1 he)]
    simp [exits, hkind]

end Block

namespace FlowBuilder

variable {done ahead : List FlowEvent} {b b' : FlowBuilder} {c source : BlockId}

/-! ## Sums over blocks -/

theorem extraWays_eq_sum {n : Nat} (h : b.blocks.size ≤ n) :
    b.graph.extraWays = ∑ c ∈ Finset.range n, (b.block c).extraWays := by
  apply Finset.sum_subset
  · exact Finset.range_subset_range.2 h
  · intro c _ hc
    rw [Finset.mem_range, Nat.not_lt] at hc
    show (b.block c).extraWays = 0
    rw [block_of_le hc]
    rfl

theorem extraWays_of_exits (h : ∀ c, (b'.block c).exits = (b.block c).exits) :
    b'.graph.extraWays = b.graph.extraWays := by
  rw [extraWays_eq_sum (Nat.le_max_left _ b.blocks.size),
    extraWays_eq_sum (Nat.le_max_right b'.blocks.size _)]
  apply Finset.sum_congr rfl
  intro c _
  rw [Block.extraWays, Block.extraWays, h]

/-- A block without ways out gets some, and the others stay as they are. -/
theorem extraWays_of_others (hsource : (b.block source).exits = [])
    (hothers : ∀ c, c ≠ source → (b'.block c).exits = (b.block c).exits) :
    b'.graph.extraWays = b.graph.extraWays + (b'.block source).extraWays := by
  let n := max (max b.blocks.size b'.blocks.size) (source + 1)
  have hmem : source ∈ Finset.range n := by
    rw [Finset.mem_range]
    omega
  have hbefore : (b.block source).extraWays = 0 := by
    rw [Block.extraWays, hsource]
    rfl
  have hrest : ∑ c ∈ (Finset.range n).erase source, (b'.block c).extraWays =
      ∑ c ∈ (Finset.range n).erase source, (b.block c).extraWays := by
    apply Finset.sum_congr rfl
    intro c hc
    rw [Block.extraWays, Block.extraWays, hothers c (Finset.ne_of_mem_erase hc)]
  rw [extraWays_eq_sum (n := n) (by omega),
    extraWays_eq_sum (n := n) (by omega), ← Finset.add_sum_erase _ _ hmem,
    ← Finset.add_sum_erase _ _ hmem, hbefore, hrest, Nat.zero_add, Nat.add_comm]

/-! ## Jumps -/

theorem exits_seed {P : StackOp → Prop} (h : Sound P b) (label : Label)
    (op : StackOp) (c : BlockId) :
    ((b.seed label op).1.block c).exits = (b.block c).exits := by
  obtain ⟨ops, hblock⟩ := exists_block_seed h label op c
  rw [hblock]
  rfl

/-- A jump that may be passed is one way besides going on. -/
theorem exits_fork_self {target : BlockId} (hsource : source < b.blocks.size)
    (hopen : b.Open source) :
    ((b.fork source target).block source).exits =
      [{ target := b.blocks.size, kind := .fallThrough },
        { target, kind := .branch }] := by
  have hnone := Block.exits_of_unlinked hopen.unlinked
  rw [block_fork_self hsource, Block.exits_withEdge_of_ne
    (by rw [Block.isTerminal_withEdge, hopen.running]) (by simp),
    Block.exits_withEdge_of_ne hopen.running (by simp), hnone]
  simp

/-- What is left of the fork of an open block is two ways out. -/
theorem extraWays_fork {target : BlockId} (hsource : source < b.blocks.size)
    (hopen : b.Open source) :
    (b.fork source target).graph.extraWays = b.graph.extraWays + 1 := by
  rw [extraWays_of_others (Block.exits_of_unlinked hopen.unlinked) fun c hc =>
    congrArg Block.exits (block_fork_of_ne target hsource hc), Block.extraWays,
    exits_fork_self hsource hopen]
  rfl

/-- The ways out are jumps to different blocks. -/
structure Fanned (d : Block) : Prop where
  running : d.isTerminal = false
  nodup : d.exits.Nodup
  branches : ∀ e ∈ d.exits, e.kind = .branch

theorem Fanned.withEdge {d : Block} (h : Fanned d) (target : BlockId) :
    Fanned (d.withEdge { target, kind := .branch }) := by
  have hexits := Block.exits_withEdge_of_ne (e := { target, kind := .branch })
    h.running (by simp)
  refine ⟨by rw [Block.isTerminal_withEdge, h.running], ?_, ?_⟩
  · rw [hexits]
    split
    · exact h.nodup
    · next hmem =>
      rw [List.nodup_append_comm]
      exact List.nodup_cons.2 ⟨hmem, h.nodup⟩
  · rw [hexits]
    split
    · exact h.branches
    · intro e he
      rcases List.mem_append.1 he with he | he
      · exact h.branches e he
      · rw [List.mem_singleton.1 he]

theorem block_branchTo_self {P : StackOp → Prop} (h : Sound P b)
    (hsource : source < b.blocks.size) (label : Label) :
    (branchTo source b label).block source =
      (b.block source).withEdge
        { target := (b.blockAt label).2, kind := .branch } := by
  have hlt : source < (b.blockAt label).1.blocks.size :=
    Nat.lt_of_lt_of_le hsource (h.grown_blockAt label).size_le
  rw [branchTo, block_addEdge hlt, if_pos rfl, block_blockAt]

theorem fanned_foldl {P : StackOp → Prop} (labels : List Label) (h : Sound P b)
    (hsource : source < b.blocks.size) (hfanned : Fanned (b.block source)) :
    Fanned ((labels.foldl (branchTo source) b).block source) := by
  induction labels generalizing b with
  | nil => exact hfanned
  | cons label labels ih =>
      have hgrown := (h.branched_branchTo hsource label).grown
      apply ih (h.branchTo source label)
        (Nat.lt_of_lt_of_le hsource hgrown.size_le)
      rw [block_branchTo_self h hsource]
      exact hfanned.withEdge _

/-- A block that is left for some labels has a way out for each of them. -/
theorem length_exits_foldl {P : StackOp → Prop} (labels : List Label)
    (h : Sound P b) (hdistinct : b.Distinct) (hsource : source < b.blocks.size)
    (hopen : b.Open source) :
    ((labels.foldl (branchTo source) b).block source).exits.length =
      labels.dedup.length := by
  have hbranched := h.branched_foldl labels hsource
  have hnone := Block.exits_of_unlinked hopen.unlinked
  have hfanned : Fanned ((labels.foldl (branchTo source) b).block source) := by
    apply fanned_foldl labels h hsource
    exact ⟨hopen.running, by simp [hnone], by simp [hnone]⟩
  generalize labels.foldl (branchTo source) b = b' at hbranched hfanned
  let owned : Label → BlockId := fun l => (b'.labelled.lookup l).getD 0
  have howned : ∀ l ∈ labels, b'.labelled.lookup l = some (owned l) := by
    intro l hl
    obtain ⟨t, ht⟩ := hbranched.named l hl
    simp [owned, ht]
  have htargets : ((b'.block source).exits.map Edge.target).Nodup := by
    apply hfanned.nodup.map_on
    rintro ⟨t, kind⟩ he ⟨t', kind'⟩ he' rfl
    rw [show kind = .branch from hfanned.branches _ he,
      show kind' = .branch from hfanned.branches _ he']
  have hblocks : (labels.dedup.map owned).Nodup := by
    apply labels.nodup_dedup.map_on
    intro l hl l' hl' heq
    have hl := howned l (List.mem_dedup.1 hl)
    have hl' := howned l' (List.mem_dedup.1 hl')
    exact hbranched.grown.distinct hdistinct l l' _ hl (heq ▸ hl')
  have hperm : ((b'.block source).exits.map Edge.target).Perm
      (labels.dedup.map owned) := by
    rw [List.perm_ext_iff_of_nodup htargets hblocks]
    intro t
    rw [Block.mem_map_target_exits, hbranched.exits hopen.running,
      or_iff_right (hopen.unlinked t), List.mem_map]
    constructor
    · rintro ⟨l, hl, ht⟩
      exact ⟨l, List.mem_dedup.2 hl,
        Option.some.inj ((howned l hl).symm.trans ht)⟩
    · rintro ⟨l, hl, rfl⟩
      exact ⟨l, List.mem_dedup.1 hl, howned l (List.mem_dedup.1 hl)⟩
  simpa using hperm.length_eq

theorem length_dedup_append (cases : List Label) (default : Label) :
    (cases ++ [default]).dedup.length =
      (cases.filter (· ≠ default)).dedup.length + 1 := by
  have hset : (cases ++ [default]).toFinset =
      insert default (cases.filter (· ≠ default)).toFinset := by
    ext l
    by_cases hl : l = default <;> simp [hl]
  rw [← List.card_toFinset, ← List.card_toFinset, hset,
    Finset.card_insert_of_notMem (by simp)]

/-! ## Events -/

/-- A block that is left for some labels adds a way for each but one of them. -/
theorem extraWays_foldl {P : StackOp → Prop} (labels : List Label)
    (h : Sound P b) (hdistinct : b.Distinct) (hsource : source < b.blocks.size)
    (hopen : b.Open source) :
    (labels.foldl (branchTo source) b).graph.extraWays =
      b.graph.extraWays + (labels.dedup.length - 1) := by
  have hothers := (h.branched_foldl labels hsource).others
  rw [extraWays_of_others (Block.exits_of_unlinked hopen.unlinked)
    fun c hc => congrArg Block.exits (hothers c hc), Block.extraWays,
    length_exits_foldl labels h hdistinct hsource hopen]

/-- One way out of an open block is no choice. -/
theorem extraWays_addEdge (hsource : source < b.blocks.size)
    (hopen : b.Open source) {e : Edge} (hkind : e.kind ≠ .exception) :
    (b.addEdge source e).graph.extraWays = b.graph.extraWays := by
  have hnone := Block.exits_of_unlinked hopen.unlinked
  have hself : ((b.addEdge source e).block source).exits = [e] := by
    rw [block_addEdge hsource, if_pos rfl,
      Block.exits_withEdge_of_ne hopen.running hkind, hnone]
    rfl
  rw [extraWays_of_others hnone fun c hc => congrArg Block.exits
    (block_addEdge_of_ne hsource hc e), Block.extraWays, hself]
  rfl

theorem extraWays_blockAt (b : FlowBuilder) (l : Label) :
    (b.blockAt l).1.graph.extraWays = b.graph.extraWays :=
  extraWays_of_exits fun _ => congrArg Block.exits (b.block_blockAt l)

theorem Open.blockAt (h : b.Open c) (l : Label) : (b.blockAt l).1.Open c :=
  h.of_widened (.of_eq (b.block_blockAt l))

theorem Ready.extraWays_label (h : Ready done ahead b) (l : Label) :
    (b.step (.label l)).graph.extraWays = b.graph.extraWays := by
  cases hcurrent : b.current with
  | none =>
      rw [step_label_of_none hcurrent]
      exact b.extraWays_blockAt l
  | some source =>
      by_cases heq : source = (b.blockAt l).2
      · unfold FlowBuilder.step
        dsimp only
        rw [current_blockAt, hcurrent]
        dsimp only
        rw [if_pos heq]
        exact b.extraWays_blockAt l
      · have hlt := Nat.lt_of_lt_of_le (h.sound.current source hcurrent)
          (h.sound.grown_blockAt l).size_le
        rw [step_label_of_some hcurrent heq, ← b.extraWays_blockAt l]
        exact extraWays_addEdge hlt ((h.current source hcurrent).1.blockAt l)
          (by simp)

theorem Ready.extraWays_protect (h : Ready done ahead b) (start handler : Label)
    (exception : StackOp) :
    (b.step (.protect start handler exception)).graph.extraWays =
      b.graph.extraWays := by
  have hat := h.sound.blockAt start
  have hlt : (b.blockAt start).2 <
      ((b.blockAt start).1.seed handler exception).1.blocks.size :=
    Nat.lt_of_lt_of_le hat.lt (hat.sound.grown_seed handler exception).size_le
  apply extraWays_of_exits
  intro c
  have hseed := exits_seed hat.sound handler exception c
  rw [block_blockAt] at hseed
  rw [← hseed]
  show (FlowBuilder.block (((b.blockAt start).1.seed handler
    exception).1.addEdge (b.blockAt start).2 _) c).exits = _
  rw [block_addEdge hlt]
  split
  · exact Block.exits_withEdge_exception rfl
  · rfl

/-- One event, with a current block if it needs one. -/
theorem Ready.extraWays_step_of_current {e : FlowEvent} (h : Ready done ahead b)
    (hacts : e.acts = true → b.current ≠ none) :
    (b.step e).graph.extraWays = b.graph.extraWays + e.extraWays := by
  cases e with
  | op o =>
      obtain ⟨source, hsource⟩ := Option.ne_none_iff_exists'.1 (hacts rfl)
      apply extraWays_of_exits
      intro c
      show ((b.addOp o).block c).exits = _
      rw [block_addOp hsource (h.sound.current source hsource)]
      split <;> rfl
  | branch target =>
      obtain ⟨source, hsource⟩ := Option.ne_none_iff_exists'.1 (hacts rfl)
      have hlt := Nat.lt_of_lt_of_le (h.sound.current source hsource)
        (h.sound.grown_blockAt target).size_le
      unfold FlowBuilder.step
      rw [ensureCurrent_of_some hsource, ← b.extraWays_blockAt target]
      exact extraWays_fork hlt ((h.current source hsource).1.blockAt target)
  | jump target =>
      obtain ⟨source, hsource⟩ := Option.ne_none_iff_exists'.1 (hacts rfl)
      unfold FlowBuilder.step
      rw [ensureCurrent_of_some hsource]
      exact extraWays_foldl [target] h.sound h.distinct
        (h.sound.current source hsource) (h.current source hsource).1
  | subroutine target returnAddress =>
      obtain ⟨source, hsource⟩ := Option.ne_none_iff_exists'.1 (hacts rfl)
      have hlt := Nat.lt_of_lt_of_le (h.sound.current source hsource)
        (h.sound.grown_seed target returnAddress).size_le
      have hseed := exits_seed h.sound target returnAddress
      have hopen : (b.seed target returnAddress).1.Open source := by
        obtain ⟨ops, hblock⟩ :=
          exists_block_seed h.sound target returnAddress source
        have hbefore := (h.current source hsource).1
        exact ⟨by rw [hblock]; exact hbefore.running,
          by rw [hblock]; exact hbefore.unlinked⟩
      unfold FlowBuilder.step
      rw [ensureCurrent_of_some hsource, ← extraWays_of_exits hseed]
      exact extraWays_fork hlt hopen
  | switch default cases =>
      obtain ⟨source, hsource⟩ := Option.ne_none_iff_exists'.1 (hacts rfl)
      have hfold := extraWays_foldl (cases ++ [default]) h.sound h.distinct
        (h.sound.current source hsource) (h.current source hsource).1
      rw [length_dedup_append, Nat.add_sub_cancel] at hfold
      unfold FlowBuilder.step
      rw [ensureCurrent_of_some hsource]
      exact hfold
  | label l => exact h.extraWays_label l
  | protect start handler exception =>
      exact h.extraWays_protect start handler exception

/-- An event adds its ways to those of the graph. -/
theorem Ready.extraWays_step (h : Ready done ahead b) (e : FlowEvent) :
    (b.step e).graph.extraWays = b.graph.extraWays + e.extraWays := by
  by_cases hacts : e.acts = true
  · have hensured : b.ensureCurrent.1.graph.extraWays = b.graph.extraWays :=
      extraWays_of_exits fun _ => congrArg Block.exits b.block_ensureCurrent
    rw [← b.step_ensureCurrent hacts, ← hensured]
    apply h.ensureCurrent.extraWays_step_of_current
    rw [current_ensureCurrent]
    simp
  · exact h.extraWays_step_of_current fun h => absurd h hacts

theorem Ready.extraWays_run (h : Ready done ahead b)
    (honce : FlowEvent.PlacedOnce ahead) :
    (b.run ahead).graph.extraWays =
      b.graph.extraWays + total (ahead.map FlowEvent.extraWays) := by
  induction ahead generalizing done b with
  | nil => rfl
  | cons e ahead ih =>
      rw [run_cons, ih (h.step honce) honce.tail, h.extraWays_step e,
        List.map_cons, total_cons, Nat.add_assoc]

end FlowBuilder

/-- The choices of a graph are those of its events. -/
theorem FlowGraph.extraWays_ofEvents {events : List FlowEvent}
    (h : FlowEvent.PlacedOnce events) :
    (ofEvents events).extraWays = total (events.map FlowEvent.extraWays) := by
  have hrun := (FlowBuilder.ready_start events).extraWays_run h
  have hstart : FlowBuilder.start.graph.extraWays = 0 := by
    rw [FlowGraph.extraWays]
    rfl
  rw [hstart, Nat.zero_add] at hrun
  exact hrun

end TestCost
