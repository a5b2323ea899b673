import TestCost.Proofs.Flow.Builder

/-!
# How a graph under construction grows

An event works on the current block and on the blocks of the labels that it
names. This module says what an event does to one block of a builder, seen
through three things: the operations of the block, the blocks that control can
leave it for other than by an exception, and whether it has left the method.

Only the current block takes operations at its end, and only it takes ways
out. A block that a label owns can also take an operation at its front, the
first seed of the label, and it can do so at any time, even long after its own
code is complete. So whatever is said about a block later in the run leaves
room for that one operation (`seedFrom`).

Code after a jump that cannot be passed has no current block. Such code starts
with a block of its own, and `step_ensureCurrent` lets every later statement
assume that this block is there.

## Main results

* `Sound.step_widened` — an event leaves every block but the current one as it
  is, its seed apart.
* `Sound.grown_run` — labels keep their blocks.
* `Sound.seedFrom_cons` — the seed of a label over several events.
-/

namespace TestCost

/-- Control can leave the block for the other one, not by an exception. -/
def Block.Exits (d : Block) (target : BlockId) : Prop :=
  ∃ e ∈ d.successors, e.kind ≠ .exception ∧ e.target = target

/-- The first block became the second by operations at its front and at its
end, and maybe by handlers. -/
structure Block.Widened (front back : List StackOp) (d d' : Block) : Prop where
  ops : d'.ops = front ++ d.ops ++ back
  exits : ∀ t, d'.Exits t ↔ d.Exits t
  terminal : d'.isTerminal = d.isTerminal

theorem Block.Widened.refl (d : Block) : Block.Widened [] [] d d :=
  ⟨by simp, fun _ => Iff.rfl, rfl⟩

theorem Block.Widened.of_eq {d d' : Block} (h : d' = d) :
    Block.Widened [] [] d d' :=
  h ▸ Block.Widened.refl d

theorem Block.Widened.trans {front front' back back' : List StackOp}
    {d d' d'' : Block} (h : Block.Widened front back d d')
    (h' : Block.Widened front' back' d' d'') :
    Block.Widened (front' ++ front) (back ++ back') d d'' where
  ops := by rw [h'.ops, h.ops]; simp
  exits t := (h'.exits t).trans (h.exits t)
  terminal := h'.terminal.trans h.terminal

/-- The block with one more edge, as `FlowBuilder.addEdge` gives it. -/
def Block.withEdge (d : Block) (e : Edge) : Block :=
  if d.isTerminal || d.successors.contains e then d
  else { d with successors := d.successors ++ [e] }

@[simp] theorem Block.ops_withEdge (d : Block) (e : Edge) :
    (d.withEdge e).ops = d.ops := by
  unfold withEdge
  split <;> rfl

@[simp] theorem Block.isTerminal_withEdge (d : Block) (e : Edge) :
    (d.withEdge e).isTerminal = d.isTerminal := by
  unfold withEdge
  split <;> rfl

theorem Block.mem_successors_withEdge {d : Block} (h : d.isTerminal = false)
    (e e' : Edge) :
    e' ∈ (d.withEdge e).successors ↔ e' ∈ d.successors ∨ e' = e := by
  unfold withEdge
  by_cases hmem : e ∈ d.successors
  · have hcontains : d.successors.contains e = true :=
      List.contains_iff_mem.2 hmem
    rw [h, hcontains, Bool.false_or, if_pos rfl]
    constructor
    · exact .inl
    · rintro (he' | rfl)
      · exact he'
      · exact hmem
  · simp [h, hmem]

theorem Block.exits_withEdge {d : Block} (h : d.isTerminal = false) {e : Edge}
    (hkind : e.kind ≠ .exception) (t : BlockId) :
    (d.withEdge e).Exits t ↔ d.Exits t ∨ t = e.target := by
  simp only [Exits, mem_successors_withEdge h]
  constructor
  · rintro ⟨e', he' | rfl, hexit⟩
    · exact .inl ⟨e', he', hexit⟩
    · exact .inr hexit.2.symm
  · rintro (⟨e', he', hexit⟩ | rfl)
    · exact ⟨e', .inl he', hexit⟩
    · exact ⟨e, .inr rfl, hkind, rfl⟩

/-- An edge for exceptions is no way out. -/
theorem Block.widened_withEdge (d : Block) {e : Edge}
    (hkind : e.kind = .exception) :
    Block.Widened [] [] d (d.withEdge e) where
  ops := by simp
  terminal := by simp
  exits t := by
    by_cases h : d.isTerminal = false
    · simp only [Exits, mem_successors_withEdge h]
      constructor
      · rintro ⟨e', he' | rfl, hexit⟩
        · exact ⟨e', he', hexit⟩
        · exact absurd hkind hexit.1
      · rintro ⟨e', he', hexit⟩
        exact ⟨e', .inl he', hexit⟩
    · rw [withEdge, eq_true_of_ne_false h, Bool.true_or, if_pos rfl]

/-- The label and the operation that the code at the label is to start with. -/
def FlowEvent.seed? : FlowEvent → Option (Label × StackOp)
  | .subroutine target returnAddress => some (target, returnAddress)
  | .protect _ handler exception => some (handler, exception)
  | .op _ | .branch _ | .jump _ | .switch _ _ | .label _ => none

/-- The first seed that events give to a label. -/
def FlowEvent.firstSeed (events : List FlowEvent) (label : Label) :
    Option StackOp :=
  (events.filterMap FlowEvent.seed?).lookup label

theorem FlowEvent.firstSeed_append (first second : List FlowEvent)
    (label : Label) :
    firstSeed (first ++ second) label =
      (firstSeed first label).or (firstSeed second label) := by
  rw [firstSeed, List.filterMap_append, List.lookup_append]
  rfl

theorem FlowEvent.firstSeed_singleton (e : FlowEvent) (label : Label) :
    firstSeed [e] label = e.seed?.bind fun s => if label = s.1 then some s.2
      else none := by
  cases h : e.seed? with
  | none => simp [firstSeed, h]
  | some s =>
      obtain ⟨owner, op⟩ := s
      simp only [firstSeed, List.filterMap_cons, h, List.filterMap_nil,
        Option.bind_some]
      by_cases hl : label = owner
      · simp [hl]
      · simp [hl, List.lookup_cons, beq_false_of_ne hl]

/-- The event works on the current block, and on a new one if there is none. -/
def FlowEvent.acts : FlowEvent → Bool
  | .label _ | .protect _ _ _ => false
  | .op _ | .branch _ | .jump _ | .subroutine _ _ | .switch _ _ => true

namespace FlowBuilder

variable {P : StackOp → Prop} {b : FlowBuilder} {c : BlockId}

/-- The block of that position, as it stands. -/
def block (b : FlowBuilder) (c : BlockId) : Block := b.graph.block c

/-- The seed that events still bring to a block with this label. -/
def seedFrom (b : FlowBuilder) (events : List FlowEvent) :
    Option Label → List StackOp
  | none => []
  | some label =>
    if label ∈ b.seeded then [] else (FlowEvent.firstSeed events label).toList

/-! ## Parts of a step, seen from one block -/

theorem block_of_le (h : b.blocks.size ≤ c) : b.block c = { id := c } := by
  simp [block, graph, FlowGraph.block, Array.getD, Nat.not_lt.2 h]

/-- A block has its position for a name. -/
theorem Sound.id_block (h : Sound P b) (c : BlockId) : (b.block c).id = c := by
  by_cases hc : c < b.blocks.size
  · have hblock : b.blocks[c]? = some (b.block c) := by
      simp [block, graph, FlowGraph.block, Array.getD, hc]
    exact h.named c _ hblock
  · rw [block_of_le (Nat.le_of_not_lt hc)]

theorem block_congr {b' : FlowBuilder} (h : b'.blocks = b.blocks) :
    b'.block c = b.block c := by
  simp only [block, graph, h]

theorem block_modify {b' : FlowBuilder} {id : BlockId} {f : Block → Block}
    (h : b'.blocks = b.blocks.modify id f) (hid : id < b.blocks.size) :
    b'.block c = if c = id then f (b.block c) else b.block c := by
  simp only [block, graph, FlowGraph.block, h, Array.getD_eq_getD_getElem?,
    Array.getElem?_modify]
  by_cases heq : c = id
  · subst heq
    simp [hid]
  · simp [heq, Ne.symm heq]

@[simp] theorem block_addBlock (b : FlowBuilder) :
    b.addBlock.1.block c = b.block c := by
  simp only [block, graph, FlowGraph.block, addBlock]
  rw [Array.getD_eq_getD_getElem?, Array.getD_eq_getD_getElem?,
    Array.getElem?_push]
  split
  · next h => simp [h]
  · rfl

@[simp] theorem block_ensureCurrent (b : FlowBuilder) :
    b.ensureCurrent.1.block c = b.block c := by
  unfold ensureCurrent
  split
  · rfl
  · exact b.block_addBlock

@[simp] theorem block_blockAt (b : FlowBuilder) (label : Label) :
    (b.blockAt label).1.block c = b.block c := by
  unfold blockAt
  split
  · rfl
  · exact b.block_addBlock

theorem block_addEdge {source : BlockId} (hsource : source < b.blocks.size)
    (e : Edge) :
    (b.addEdge source e).block c =
      if c = source then (b.block c).withEdge e else b.block c :=
  block_modify (f := fun d => d.withEdge e) rfl hsource

theorem block_addEdge_of_ne {source : BlockId}
    (hsource : source < b.blocks.size) (hc : c ≠ source) (e : Edge) :
    (b.addEdge source e).block c = b.block c := by
  rw [block_addEdge hsource, if_neg hc]

/-! ## Labels and seeds -/

/-- Different labels own different blocks. -/
def Distinct (b : FlowBuilder) : Prop :=
  ∀ l l' c, b.labelled.lookup l = some c →
    b.labelled.lookup l' = some c → l = l'

/-- Labels keep their blocks, and a new label gets a new block. -/
structure Grown (b b' : FlowBuilder) : Prop where
  size_le : b.blocks.size ≤ b'.blocks.size
  kept : ∀ l c, b.labelled.lookup l = some c → b'.labelled.lookup l = some c
  fresh : ∀ l c, b'.labelled.lookup l = some c →
    b.labelled.lookup l = some c ∨ b.blocks.size ≤ c
  distinct : b.Distinct → b'.Distinct

theorem Grown.of_labelled {b' : FlowBuilder}
    (hsize : b.blocks.size ≤ b'.blocks.size) (h : b'.labelled = b.labelled) :
    Grown b b' where
  size_le := hsize
  kept l c hl := h ▸ hl
  fresh l c hl := .inl (h ▸ hl)
  distinct hb := by
    intro l l' c hl hl'
    rw [h] at hl hl'
    exact hb l l' c hl hl'

theorem Grown.trans {b' b'' : FlowBuilder} (h : Grown b b')
    (h' : Grown b' b'') : Grown b b'' where
  size_le := Nat.le_trans h.size_le h'.size_le
  kept l c hl := h'.kept l c (h.kept l c hl)
  fresh l c hl := by
    rcases h'.fresh l c hl with hl | hc
    · exact h.fresh l c hl
    · exact .inr (Nat.le_trans h.size_le hc)
  distinct hb := h'.distinct (h.distinct hb)

theorem Sound.lookup_lt (h : Sound P b) {l : Label}
    (hl : b.labelled.lookup l = some c) :
    c < b.blocks.size := by
  obtain ⟨before, after, heq, _⟩ := List.lookup_eq_some_iff.1 hl
  exact h.labelled (l, c) (by simp [heq])

theorem lookup_blockAt_self (b : FlowBuilder) (label : Label) :
    (b.blockAt label).1.labelled.lookup label = some (b.blockAt label).2 := by
  unfold blockAt
  split
  · next h => exact h
  · simp

@[simp] theorem current_blockAt (b : FlowBuilder) (label : Label) :
    (b.blockAt label).1.current = b.current := by
  unfold blockAt
  split <;> rfl

@[simp] theorem seeded_blockAt (b : FlowBuilder) (label : Label) :
    (b.blockAt label).1.seeded = b.seeded := by
  unfold blockAt
  split <;> rfl

theorem Sound.grown_blockAt (h : Sound P b) (label : Label) :
    Grown b (b.blockAt label).1 := by
  unfold FlowBuilder.blockAt
  split
  · exact .of_labelled (Nat.le_refl _) rfl
  · next hnone =>
    have hlookup : ∀ l, l ≠ label →
        ((label, b.blocks.size) :: b.labelled).lookup l =
          b.labelled.lookup l := by
      intro l hl
      rw [List.lookup_cons, beq_false_of_ne hl]
    have hself : ((label, b.blocks.size) :: b.labelled).lookup label =
        some b.blocks.size := by
      rw [List.lookup_cons, beq_self_eq_true]
    refine ⟨?_, ?_, ?_, ?_⟩
    · exact Nat.le_of_lt (b.size_addBlock ▸ Nat.lt_succ_self _)
    · intro l c hl
      have hne : l ≠ label := by
        rintro rfl
        rw [hnone] at hl
        cases hl
      exact (hlookup l hne).trans hl
    · intro l c hl
      by_cases hne : l = label
      · subst hne
        exact .inr (Nat.le_of_eq (Option.some.inj (hself.symm.trans hl)))
      · exact .inl ((hlookup l hne).symm.trans hl)
    · intro hb l l' c hl hl'
      by_cases hne : l = label
      · by_cases hne' : l' = label
        · rw [hne, hne']
        · subst hne
          have hc : b.blocks.size = c := Option.some.inj (hself.symm.trans hl)
          exact absurd (h.lookup_lt ((hlookup l' hne').symm.trans hl'))
            (hc ▸ Nat.lt_irrefl _)
      · by_cases hne' : l' = label
        · subst hne'
          have hc : b.blocks.size = c := Option.some.inj (hself.symm.trans hl')
          exact absurd (h.lookup_lt ((hlookup l hne).symm.trans hl))
            (hc ▸ Nat.lt_irrefl _)
        · exact hb l l' c ((hlookup l hne).symm.trans hl)
            ((hlookup l' hne').symm.trans hl')

theorem seed_of_mem {label : Label} (h : label ∈ b.seeded) (op : StackOp) :
    b.seed label op = b.blockAt label := by
  have hcontains : (b.blockAt label).1.seeded.contains label = true := by
    rw [seeded_blockAt]
    exact List.contains_iff_mem.2 h
  unfold seed
  dsimp only
  rw [if_pos hcontains]

theorem seed_of_not_mem {label : Label} (h : label ∉ b.seeded) (op : StackOp) :
    b.seed label op =
      ({ (b.blockAt label).1 with
          blocks :=
            (b.blockAt label).1.blocks.modify (b.blockAt label).2 fun block =>
            { block with ops := op :: block.ops }
          seeded := label :: b.seeded }, (b.blockAt label).2) := by
  have hcontains : ¬ (b.blockAt label).1.seeded.contains label = true := by
    rw [seeded_blockAt]
    simpa using h
  unfold seed
  dsimp only
  rw [if_neg hcontains, seeded_blockAt]

@[simp] theorem seed_snd (b : FlowBuilder) (label : Label) (op : StackOp) :
    (b.seed label op).2 = (b.blockAt label).2 := by
  by_cases h : label ∈ b.seeded
  · rw [seed_of_mem h]
  · rw [seed_of_not_mem h]

@[simp] theorem labelled_seed (b : FlowBuilder) (label : Label) (op : StackOp) :
    (b.seed label op).1.labelled = (b.blockAt label).1.labelled := by
  by_cases h : label ∈ b.seeded
  · rw [seed_of_mem h]
  · rw [seed_of_not_mem h]

theorem lookup_seed_self (b : FlowBuilder) (label : Label) (op : StackOp) :
    (b.seed label op).1.labelled.lookup label = some (b.seed label op).2 := by
  rw [labelled_seed, lookup_blockAt_self, seed_snd]

@[simp] theorem current_seed (b : FlowBuilder) (label : Label) (op : StackOp) :
    (b.seed label op).1.current = b.current := by
  by_cases h : label ∈ b.seeded
  · rw [seed_of_mem h, current_blockAt]
  · rw [seed_of_not_mem h, current_blockAt]

theorem mem_seeded_seed (b : FlowBuilder) (label l : Label) (op : StackOp) :
    l ∈ (b.seed label op).1.seeded ↔ l ∈ b.seeded ∨ l = label := by
  by_cases h : label ∈ b.seeded
  · rw [seed_of_mem h, seeded_blockAt]
    constructor
    · exact .inl
    · rintro (hl | rfl)
      · exact hl
      · exact h
  · rw [seed_of_not_mem h, List.mem_cons, or_comm]

theorem Sound.grown_seed (h : Sound P b) (label : Label) (op : StackOp) :
    Grown b (b.seed label op).1 := by
  have hat := h.grown_blockAt label
  by_cases hmem : label ∈ b.seeded
  · rw [seed_of_mem hmem]
    exact hat
  · rw [seed_of_not_mem hmem]
    exact hat.trans
      (.of_labelled (Nat.le_of_eq (by rw [Array.size_modify])) rfl)

/-- A seed goes to the front of the block of its label, once. -/
theorem Sound.widened_seed (h : Sound P b)
    (label : Label) (op : StackOp) {own : Option Label} (hown : ∀ l,
      (b.seed label op).1.labelled.lookup l = some c ↔ own = some l) :
    Block.Widened (if own = some label ∧ label ∉ b.seeded then [op] else [])
      [] (b.block c)
      ((b.seed label op).1.block c) := by
  have hself :
      (b.seed label op).1.labelled.lookup label = some (b.blockAt label).2 := by
    rw [labelled_seed, lookup_blockAt_self]
  by_cases hmem : label ∈ b.seeded
  · rw [seed_of_mem hmem, if_neg fun hboth => hboth.2 hmem, block_blockAt]
    exact .refl _
  · rw [seed_of_not_mem hmem]
    have hblock : FlowBuilder.block { (b.blockAt label).1 with
        blocks :=
          (b.blockAt label).1.blocks.modify (b.blockAt label).2 fun block =>
          { block with ops := op :: block.ops }
        seeded := label :: b.seeded } c = _ :=
      block_modify (f := fun block => { block with ops := op :: block.ops }) rfl
        (h.blockAt label).lt
    rw [hblock, block_blockAt]
    by_cases hc : c = (b.blockAt label).2
    · have hlabel : own = some label := (hown label).1 (hc ▸ hself)
      rw [if_pos hc, if_pos ⟨hlabel, hmem⟩]
      exact ⟨by simp, fun _ => Iff.rfl, rfl⟩
    · have hlabel : own ≠ some label := fun heq =>
        hc (Option.some.inj (((hown label).2 heq).symm.trans hself))
      rw [if_neg hc, if_neg fun hboth => hlabel hboth.1]
      exact .refl _

/-- A seed changes no more than operations. -/
theorem exists_block_seed (h : Sound P b) (label : Label) (op : StackOp)
    (c : BlockId) :
    ∃ ops, (b.seed label op).1.block c = { b.block c with ops := ops } := by
  by_cases hmem : label ∈ b.seeded
  · rw [seed_of_mem hmem, block_blockAt]
    exact ⟨_, rfl⟩
  · rw [seed_of_not_mem hmem]
    have hblock : FlowBuilder.block { (b.blockAt label).1 with
        blocks :=
          (b.blockAt label).1.blocks.modify (b.blockAt label).2 fun block =>
          { block with ops := op :: block.ops }
        seeded := label :: b.seeded } c = _ :=
      block_modify (f := fun block => { block with ops := op :: block.ops }) rfl
        (h.blockAt label).lt
    rw [hblock, block_blockAt]
    split
    · exact ⟨_, rfl⟩
    · exact ⟨_, rfl⟩

/-! ## Ways out -/

/-- What a jump to some labels does: the source gets ways out to their blocks,
and other blocks are as they were. -/
structure Branched (source : BlockId) (labels : List Label)
    (b b' : FlowBuilder) : Prop where
  grown : Grown b b'
  current : b'.current = b.current
  seeded : b'.seeded = b.seeded
  others : ∀ c, c ≠ source → b'.block c = b.block c
  ops : (b'.block source).ops = (b.block source).ops
  terminal : (b'.block source).isTerminal = (b.block source).isTerminal
  exits : (b.block source).isTerminal = false → ∀ t, (b'.block source).Exits t ↔
    (b.block source).Exits t ∨ ∃ l ∈ labels, b'.labelled.lookup l = some t
  named : ∀ l ∈ labels, ∃ t, b'.labelled.lookup l = some t

theorem Sound.branched_branchTo (h : Sound P b) {source : BlockId}
    (hsource : source < b.blocks.size) (label : Label) :
    Branched source [label] b (FlowBuilder.branchTo source b label) := by
  have hat := h.grown_blockAt label
  have hlt : source < (b.blockAt label).1.blocks.size :=
    Nat.lt_of_lt_of_le hsource hat.size_le
  have hblock : ∀ c, (FlowBuilder.branchTo source b label).block c =
      if c = source then
        (b.block c).withEdge { target := (b.blockAt label).2, kind := .branch }
      else b.block c := by
    intro c
    rw [← block_blockAt b label]
    exact block_addEdge hlt _
  have hlookup : (FlowBuilder.branchTo source b label).labelled.lookup label =
      some (b.blockAt label).2 := b.lookup_blockAt_self label
  refine ⟨?_, ?_, ?_, ?_, ?_, ?_, ?_, ?_⟩
  · refine hat.trans (.of_labelled (Nat.le_of_eq ?_) rfl)
    rw [FlowBuilder.branchTo, size_addEdge]
  · exact b.current_blockAt label
  · exact b.seeded_blockAt label
  · intro c hc
    rw [hblock, if_neg hc]
  · rw [hblock, if_pos rfl, Block.ops_withEdge]
  · rw [hblock, if_pos rfl, Block.isTerminal_withEdge]
  · intro hopen t
    rw [hblock, if_pos rfl, Block.exits_withEdge hopen (by simp)]
    simp only [List.mem_singleton, exists_eq_left, hlookup, Option.some.injEq]
    rw [eq_comm (a := t)]
  · intro l hl
    rw [List.mem_singleton.1 hl]
    exact ⟨_, hlookup⟩

theorem Sound.branched_foldl (labels : List Label) (h : Sound P b)
    {source : BlockId} (hsource : source < b.blocks.size) :
    Branched source labels b
      (labels.foldl (FlowBuilder.branchTo source) b) := by
  induction labels generalizing b with
  | nil =>
      refine ⟨.of_labelled (Nat.le_refl _) rfl, rfl, rfl, fun _ _ => rfl, rfl,
        rfl, ?_, ?_⟩
      · intro _ t
        simp
      · intro l hl
        cases hl
  | cons label labels ih =>
      have hfirst := h.branched_branchTo hsource label
      have hrest := ih (h.branchTo source label)
        (Nat.lt_of_lt_of_le hsource hfirst.grown.size_le)
      refine ⟨hfirst.grown.trans hrest.grown,
        hrest.current.trans hfirst.current, hrest.seeded.trans hfirst.seeded,
        ?_, hrest.ops.trans hfirst.ops,
        hrest.terminal.trans hfirst.terminal, ?_, ?_⟩
      · intro c hc
        exact (hrest.others c hc).trans (hfirst.others c hc)
      · intro hopen t
        have hlabel : (FlowBuilder.branchTo source b label).labelled.lookup
            label = some (b.blockAt label).2 := b.lookup_blockAt_self label
        have hlabel' := hrest.grown.kept label _ hlabel
        rw [List.foldl_cons, hrest.exits (hfirst.terminal.trans hopen),
          hfirst.exits hopen, or_assoc]
        simp [hlabel, hlabel']
      · intro l hl
        rcases List.mem_cons.1 hl with rfl | hl
        · exact ⟨_, hrest.grown.kept l _ (b.lookup_blockAt_self l)⟩
        · exact hrest.named l hl

theorem block_fork_of_ne {source : BlockId} (target : BlockId)
    (hsource : source < b.blocks.size) (hc : c ≠ source) :
    (b.fork source target).block c = b.block c := by
  have hlt : source < b.addBlock.1.blocks.size :=
    b.size_addBlock ▸ Nat.lt_succ_of_lt hsource
  have hlt' : source < (b.addBlock.1.addEdge source
      { target := b.addBlock.2, kind := .fallThrough }).blocks.size := by
    rw [size_addEdge]
    exact hlt
  calc (b.fork source target).block c
      = (b.addBlock.1.addEdge source
          { target := b.addBlock.2, kind := .fallThrough }).block c :=
        block_addEdge_of_ne hlt' hc _
    _ = b.addBlock.1.block c := block_addEdge_of_ne hlt hc _
    _ = b.block c := b.block_addBlock

/-- A jump that may be passed: the source gets two ways out, to the target and
to a new block. -/
theorem block_fork_self {source target : BlockId}
    (hsource : source < b.blocks.size) :
    (b.fork source target).block source =
      ((b.block source).withEdge
        { target := b.blocks.size, kind := .fallThrough }).withEdge
        { target, kind := .branch } := by
  have hlt : source < b.addBlock.1.blocks.size :=
    b.size_addBlock ▸ Nat.lt_succ_of_lt hsource
  have hlt' : source < (b.addBlock.1.addEdge source
      { target := b.addBlock.2, kind := .fallThrough }).blocks.size := by
    rw [size_addEdge]
    exact hlt
  show ((b.addBlock.1.addEdge source
    { target := b.addBlock.2, kind := .fallThrough }).addEdge source
    { target, kind := .branch }).block source = _
  rw [block_addEdge hlt', if_pos rfl, block_addEdge hlt, if_pos rfl,
    block_addBlock]
  rfl

theorem exits_fork {source target : BlockId} (hsource : source < b.blocks.size)
    (hopen : (b.block source).isTerminal = false) (t : BlockId) :
    ((b.fork source target).block source).Exits t ↔
      (b.block source).Exits t ∨ t = b.blocks.size ∨ t = target := by
  rw [block_fork_self hsource, Block.exits_withEdge
    (by rw [Block.isTerminal_withEdge]; exact hopen) (by simp),
    Block.exits_withEdge hopen (by simp), or_assoc]

theorem size_fork (b : FlowBuilder) (source target : BlockId) :
    (b.fork source target).blocks.size = b.blocks.size + 1 := by
  show ((b.addBlock.1.addEdge source _).addEdge source _).blocks.size = _
  rw [size_addEdge, size_addEdge, size_addBlock]

theorem grown_fork (b : FlowBuilder) (source target : BlockId) :
    Grown b (b.fork source target) :=
  .of_labelled (by rw [size_fork]; exact Nat.le_succ _) rfl

/-! ## The current block -/

theorem ensureCurrent_of_some (h : b.current = some c) :
    b.ensureCurrent = (b, c) := by
  unfold ensureCurrent
  rw [h]

theorem ensureCurrent_of_none (h : b.current = none) :
    b.ensureCurrent = ({ b.addBlock.1 with current := some b.blocks.size },
      b.blocks.size) := by
  unfold ensureCurrent
  rw [h]
  rfl

theorem current_ensureCurrent (b : FlowBuilder) :
    b.ensureCurrent.1.current = some b.ensureCurrent.2 := by
  cases h : b.current with
  | some c => rw [ensureCurrent_of_some h, h]
  | none => rw [ensureCurrent_of_none h]

@[simp] theorem labelled_ensureCurrent (b : FlowBuilder) :
    b.ensureCurrent.1.labelled = b.labelled := by
  cases h : b.current with
  | some c => rw [ensureCurrent_of_some h]
  | none =>
      rw [ensureCurrent_of_none h]
      rfl

@[simp] theorem seeded_ensureCurrent (b : FlowBuilder) :
    b.ensureCurrent.1.seeded = b.seeded := by
  cases h : b.current with
  | some c => rw [ensureCurrent_of_some h]
  | none =>
      rw [ensureCurrent_of_none h]
      rfl

/-- An event that works on the current block makes one first. -/
theorem step_ensureCurrent (b : FlowBuilder) {e : FlowEvent}
    (he : e.acts = true) :
    b.ensureCurrent.1.step e = b.step e := by
  have htwice : b.ensureCurrent.1.ensureCurrent = b.ensureCurrent :=
    ensureCurrent_of_some b.current_ensureCurrent
  cases e with
  | op o =>
      show b.ensureCurrent.1.addOp o = b.addOp o
      unfold addOp
      rw [htwice]
  | label _ => cases he
  | protect _ _ _ => cases he
  | branch _ | jump _ | subroutine _ _ | switch _ _ =>
      unfold step
      rw [htwice]

theorem block_addOp (h : b.current = some c) (hc : c < b.blocks.size)
    (o : StackOp) (c' : BlockId) :
    (b.addOp o).block c' =
      if c' = c then
        { b.block c' with
          ops := (b.block c').ops ++ [o], isTerminal :=
            (b.block c').isTerminal || o.isTerminal }
      else b.block c' := by
  unfold addOp
  rw [ensureCurrent_of_some h]
  exact block_modify (f := fun block =>
    { block with ops := block.ops ++ [o],
                 isTerminal := block.isTerminal || o.isTerminal }) rfl hc

theorem current_addOp (h : b.current = some c) (o : StackOp) :
    (b.addOp o).current = if o.isTerminal then none else some c := by
  unfold addOp
  rw [ensureCurrent_of_some h]
  show (if o.isTerminal then none else b.current) = _
  rw [h]

/-- A label that is placed when nothing leads to it. -/
theorem step_label_of_none (h : b.current = none) (l : Label) :
    b.step (.label l) =
      { (b.blockAt l).1 with current := some (b.blockAt l).2 } := by
  unfold step
  dsimp only
  rw [current_blockAt, h]

/-- A label that is placed where code before it can come to. -/
theorem step_label_of_some (h : b.current = some c) {l : Label}
    (hne : c ≠ (b.blockAt l).2) :
    b.step (.label l) =
      { (b.blockAt l).1.addEdge c
          { target := (b.blockAt l).2, kind := .fallThrough } with
        current := some (b.blockAt l).2 } := by
  unfold step
  dsimp only
  rw [current_blockAt, h]
  dsimp only
  rw [if_neg hne]

/-! ## One event -/

@[simp] theorem seedFrom_nil (b : FlowBuilder) (own : Option Label) :
    b.seedFrom [] own = [] := by
  cases own with
  | none => rfl
  | some l => simp [seedFrom, FlowEvent.firstSeed]

theorem seedFrom_of_seed?_eq_none {e : FlowEvent} (he : e.seed? = none)
    (own : Option Label) :
    b.seedFrom [e] own = [] := by
  cases own with
  | none => rfl
  | some l => simp [seedFrom, FlowEvent.firstSeed_singleton, he]

theorem seedFrom_of_seed? {e : FlowEvent} (label : Label) (op : StackOp)
    (he : e.seed? = some (label, op)) (own : Option Label) :
    b.seedFrom [e] own = if own = some label ∧ label ∉ b.seeded then [op]
      else [] := by
  cases own with
  | none => simp [seedFrom]
  | some l =>
      rw [seedFrom, FlowEvent.firstSeed_singleton, he]
      by_cases hl : l = label
      · subst hl
        by_cases hmem : l ∈ b.seeded
        · simp [hmem]
        · simp [hmem]
      · simp [hl]

theorem Sound.grown_ensureCurrent (h : Sound P b) : Grown b b.ensureCurrent.1 :=
  .of_labelled h.ensureCurrent.grown b.labelled_ensureCurrent

theorem Sound.grown_step (h : Sound P b) (e : FlowEvent) :
    Grown b (b.step e) := by
  have hfirst := h.grown_ensureCurrent
  have hsound := h.ensureCurrent.sound
  cases e with
  | op o =>
      refine hfirst.trans (.of_labelled (Nat.le_of_eq ?_) rfl)
      show b.ensureCurrent.1.blocks.size =
        (b.ensureCurrent.1.blocks.modify _ _).size
      rw [Array.size_modify]
  | branch t =>
      exact (hfirst.trans (hsound.grown_blockAt t)).trans (grown_fork _ _ _)
  | jump t =>
      exact (hfirst.trans (hsound.branched_branchTo h.ensureCurrent.lt
        t).grown).trans (.of_labelled (Nat.le_refl _) rfl)
  | subroutine t r =>
      exact (hfirst.trans (hsound.grown_seed t r)).trans (grown_fork _ _ _)
  | switch d cases =>
      exact (hfirst.trans (hsound.branched_foldl (cases ++
        [d]) h.ensureCurrent.lt).grown).trans (.of_labelled (Nat.le_refl _) rfl)
  | label l =>
      have hat := h.grown_blockAt l
      unfold FlowBuilder.step
      dsimp only
      split
      · split
        · exact hat.trans (.of_labelled (Nat.le_refl _) rfl)
        · exact hat.trans
            (.of_labelled (Nat.le_of_eq (size_addEdge _ _ _).symm) rfl)
      · exact hat.trans (.of_labelled (Nat.le_refl _) rfl)
  | protect start handler exception =>
      have hat := h.grown_blockAt start
      have hseed := (h.blockAt start).sound.grown_seed handler exception
      exact (hat.trans hseed).trans
        (.of_labelled (Nat.le_of_eq (size_addEdge _ _ _).symm) rfl)

theorem Sound.mem_seeded_step (h : Sound P b) (e : FlowEvent) (l : Label) :
    l ∈ (b.step e).seeded ↔
      l ∈ b.seeded ∨ (FlowEvent.firstSeed [e] l).isSome := by
  have hnone : e.seed? = none → (FlowEvent.firstSeed [e] l).isSome = false := by
    intro he
    simp [FlowEvent.firstSeed_singleton, he]
  have hsome : ∀ label op, e.seed? = some (label, op) →
      ((FlowEvent.firstSeed [e] l).isSome ↔ l = label) := by
    intro label op he
    by_cases hl : l = label <;> simp [FlowEvent.firstSeed_singleton, he, hl]
  cases e with
  | op o =>
      have hseeded : (b.step (.op o)).seeded = b.seeded :=
        b.seeded_ensureCurrent
      simp [hseeded, hnone rfl]
  | branch t =>
      have hseeded : (b.step (.branch t)).seeded = b.seeded :=
        (b.ensureCurrent.1.seeded_blockAt t).trans b.seeded_ensureCurrent
      simp [hseeded, hnone rfl]
  | jump t =>
      have hseeded : (b.step (.jump t)).seeded = b.seeded :=
        (h.ensureCurrent.sound.branched_branchTo h.ensureCurrent.lt
        t).seeded.trans b.seeded_ensureCurrent
      simp [hseeded, hnone rfl]
  | subroutine t r =>
      rw [hsome t r rfl, ← b.seeded_ensureCurrent]
      exact b.ensureCurrent.1.mem_seeded_seed t l r
  | switch d cases =>
      have hseeded : (b.step (.switch d cases)).seeded = b.seeded :=
        (h.ensureCurrent.sound.branched_foldl (cases ++
        [d]) h.ensureCurrent.lt).seeded.trans b.seeded_ensureCurrent
      simp [hseeded, hnone rfl]
  | label label =>
      have hseeded : (b.step (.label label)).seeded = b.seeded := by
        unfold FlowBuilder.step
        dsimp only
        split
        · split
          · exact b.seeded_blockAt label
          · exact b.seeded_blockAt label
        · exact b.seeded_blockAt label
      simp [hseeded, hnone rfl]
  | protect start handler exception =>
      rw [hsome handler exception rfl, ← b.seeded_blockAt start]
      exact (b.blockAt start).1.mem_seeded_seed handler l exception

/-- A protected range leaves every block as it is, its seed and its handlers
apart. -/
theorem Sound.protect_widened (h : Sound P b)
    {start handler : Label} {exception : StackOp} {own : Option Label}
    (hown : ∀ l, (b.step (.protect start handler exception)).labelled.lookup l =
      some c ↔ own = some l) :
    Block.Widened (b.seedFrom [.protect start handler exception] own)
      [] (b.block c)
      ((b.step (.protect start handler exception)).block c) := by
  have hat := h.blockAt start
  have hseed := hat.sound.widened_seed handler exception hown
  rw [b.block_blockAt start, b.seeded_blockAt start] at hseed
  rw [seedFrom_of_seed? handler exception rfl]
  have hlt : (b.blockAt start).2 <
      ((b.blockAt start).1.seed handler exception).1.blocks.size :=
    Nat.lt_of_lt_of_le hat.lt (hat.sound.grown_seed handler exception).size_le
  have hedge : Block.Widened []
      [] (((b.blockAt start).1.seed handler exception).1.block c)
      ((b.step (.protect start handler exception)).block c) := by
    show Block.Widened [] [] _ ((((b.blockAt start).1.seed handler
      exception).1.addEdge (b.blockAt start).2 _).block c)
    rw [block_addEdge hlt]
    split
    · exact Block.widened_withEdge _ rfl
    · exact .refl _
  simpa using hseed.trans hedge

/-- An event leaves a block that is not current as it is, its seed apart. -/
theorem Sound.step_widened
    (h : Sound P b) {e : FlowEvent} (hacts : e.acts = true → b.current ≠ none)
    (hc : b.current ≠ some c) {own : Option Label}
    (hown : ∀ l, (b.step e).labelled.lookup l = some c ↔ own = some l) :
    Block.Widened (b.seedFrom [e] own) [] (b.block c) ((b.step e).block c) := by
  cases e with
  | op o =>
      obtain ⟨source, hsource⟩ := Option.ne_none_iff_exists'.1 (hacts rfl)
      have hne : c ≠ source := fun heq => hc (heq ▸ hsource)
      rw [seedFrom_of_seed?_eq_none rfl]
      apply Block.Widened.of_eq
      show (b.addOp o).block c = _
      rw [block_addOp hsource (h.current source hsource), if_neg hne]
  | branch t =>
      obtain ⟨source, hsource⟩ := Option.ne_none_iff_exists'.1 (hacts rfl)
      have hne : c ≠ source := fun heq => hc (heq ▸ hsource)
      have hlt := Nat.lt_of_lt_of_le (h.current source hsource)
        (h.grown_blockAt t).size_le
      rw [seedFrom_of_seed?_eq_none rfl]
      apply Block.Widened.of_eq
      unfold FlowBuilder.step
      rw [ensureCurrent_of_some hsource]
      exact (block_fork_of_ne _ hlt hne).trans (b.block_blockAt t)
  | jump t =>
      obtain ⟨source, hsource⟩ := Option.ne_none_iff_exists'.1 (hacts rfl)
      have hne : c ≠ source := fun heq => hc (heq ▸ hsource)
      rw [seedFrom_of_seed?_eq_none rfl]
      apply Block.Widened.of_eq
      unfold FlowBuilder.step
      rw [ensureCurrent_of_some hsource]
      exact (h.branched_branchTo (h.current source hsource) t).others c hne
  | subroutine t r =>
      obtain ⟨source, hsource⟩ := Option.ne_none_iff_exists'.1 (hacts rfl)
      have hne : c ≠ source := fun heq => hc (heq ▸ hsource)
      have hlt :=
        Nat.lt_of_lt_of_le (h.current source hsource) (h.grown_seed t r).size_le
      unfold FlowBuilder.step at hown ⊢
      rw [ensureCurrent_of_some hsource] at hown ⊢
      rw [seedFrom_of_seed? t r rfl]
      have hseed := h.widened_seed t r hown
      have hfork := Block.Widened.of_eq
        (block_fork_of_ne (b.seed t r).2 hlt hne)
      simpa using hseed.trans hfork
  | switch d cases =>
      obtain ⟨source, hsource⟩ := Option.ne_none_iff_exists'.1 (hacts rfl)
      have hne : c ≠ source := fun heq => hc (heq ▸ hsource)
      rw [seedFrom_of_seed?_eq_none rfl]
      apply Block.Widened.of_eq
      unfold FlowBuilder.step
      rw [ensureCurrent_of_some hsource]
      exact (h.branched_foldl (cases ++ [d]) (h.current source hsource)).others
        c hne
  | label l =>
      rw [seedFrom_of_seed?_eq_none rfl]
      apply Block.Widened.of_eq
      cases hcurrent : b.current with
      | none =>
          rw [step_label_of_none hcurrent]
          exact b.block_blockAt l
      | some source =>
          have hne : c ≠ source := fun heq => hc (heq ▸ hcurrent)
          have hlt := Nat.lt_of_lt_of_le (h.current source hcurrent)
            (h.grown_blockAt l).size_le
          unfold FlowBuilder.step
          dsimp only
          rw [current_blockAt, hcurrent]
          dsimp only
          split
          · exact b.block_blockAt l
          · exact (block_addEdge_of_ne hlt hne _).trans (b.block_blockAt l)
  | protect start handler exception => exact h.protect_widened hown

/-- A block that is there and not current: it does not matter whether there is
a current block. -/
theorem Sound.step_widened_of_lt (h : Sound P b) (e : FlowEvent)
    (hlt : c < b.blocks.size) (hc : b.current ≠ some c) {own : Option Label}
    (hown : ∀ l, (b.step e).labelled.lookup l = some c ↔ own = some l) :
    Block.Widened (b.seedFrom [e] own) [] (b.block c) ((b.step e).block c) := by
  by_cases hacts : e.acts = true
  · cases hcurrent : b.current with
    | some source => exact h.step_widened (by simp [hcurrent]) hc hown
    | none =>
        have hne : b.ensureCurrent.1.current ≠ some c := by
          rw [ensureCurrent_of_none hcurrent]
          exact fun heq => Nat.lt_irrefl c (Option.some.inj heq ▸ hlt)
        rw [← b.step_ensureCurrent hacts] at hown ⊢
        have hwidened := h.ensureCurrent.sound.step_widened
          (by simp [b.current_ensureCurrent]) hne hown
        rw [b.block_ensureCurrent] at hwidened
        have hseed :
            b.ensureCurrent.1.seedFrom [e] own = b.seedFrom [e] own := by
          cases own with
          | none => rfl
          | some l => simp only [seedFrom, seeded_ensureCurrent]
        rwa [hseed] at hwidened
  · exact h.step_widened (fun h => absurd h hacts) hc hown

theorem lookup_step_label (b : FlowBuilder) (l : Label) :
    (b.step (.label l)).labelled.lookup l = some (b.blockAt l).2 := by
  unfold step
  dsimp only
  split
  · split <;> exact b.lookup_blockAt_self l
  · exact b.lookup_blockAt_self l

theorem current_step_protect (b : FlowBuilder) (start handler : Label)
    (exception : StackOp) :
    (b.step (.protect start handler exception)).current = b.current :=
  ((b.blockAt start).1.current_seed handler exception).trans
    (b.current_blockAt start)

/-- What the next event makes current is current already, or is new, or is the
block of a label. -/
theorem Sound.current_step (h : Sound P b) {e : FlowEvent}
    (hc : (b.step e).current = some c) :
    b.current = some c ∨ b.blocks.size ≤ c ∨
      ∃ l, e = .label l ∧ (b.step e).labelled.lookup l = some c := by
  have hgrown := h.grown_ensureCurrent.size_le
  have hsound := h.ensureCurrent.sound
  cases e with
  | op o =>
      by_cases hterminal : o.isTerminal = true
      · rw [← b.step_ensureCurrent rfl] at hc
        have hnone := current_addOp b.current_ensureCurrent o
        rw [if_pos hterminal] at hnone
        exact absurd (hnone.symm.trans hc) (by simp)
      · rw [← b.step_ensureCurrent rfl] at hc
        have hsome := current_addOp b.current_ensureCurrent o
        rw [if_neg hterminal] at hsome
        obtain rfl := Option.some.inj (hsome.symm.trans hc)
        cases hcurrent : b.current with
        | some source => exact .inl (by rw [ensureCurrent_of_some hcurrent])
        | none =>
            rw [ensureCurrent_of_none hcurrent]
            exact .inr (.inl (Nat.le_refl _))
  | branch t =>
      obtain rfl := Option.some.inj hc
      exact .inr (.inl (Nat.le_trans hgrown (hsound.grown_blockAt t).size_le))
  | subroutine t r =>
      obtain rfl := Option.some.inj hc
      exact .inr (.inl (Nat.le_trans hgrown (hsound.grown_seed t r).size_le))
  | jump _ | switch _ _ => cases hc
  | label l =>
      obtain rfl := Option.some.inj hc
      exact .inr (.inr ⟨l, rfl, b.lookup_step_label l⟩)
  | protect start handler exception =>
      exact .inl
        ((b.current_step_protect start handler exception).symm.trans hc)

theorem lookup_step_of_seed {e : FlowEvent} {l : Label} {op : StackOp}
    (he : e.seed? = some (l, op)) : ((b.step e).labelled.lookup l).isSome := by
  cases e with
  | subroutine target r =>
      obtain ⟨rfl, _⟩ := Prod.mk.inj (Option.some.inj he)
      show (((b.ensureCurrent.1.seed target r).1).labelled.lookup target).isSome
      rw [labelled_seed, lookup_blockAt_self]
      rfl
  | protect start handler exception =>
      obtain ⟨rfl, _⟩ := Prod.mk.inj (Option.some.inj he)
      show ((((b.blockAt start).1.seed handler exception).1).labelled.lookup
        handler).isSome
      rw [labelled_seed, lookup_blockAt_self]
      rfl
  | op _ | branch _ | jump _ | switch _ _ | label _ => cases he

/-- The seed of a label over several events is the first of them, unless it
has one. -/
theorem Sound.seedFrom_cons (h : Sound P b) (e : FlowEvent)
    (events : List FlowEvent) (own : Option Label) :
    b.seedFrom (e :: events) own = (b.step e).seedFrom events own ++
      b.seedFrom [e] own := by
  cases own with
  | none => rfl
  | some l =>
      have happend := FlowEvent.firstSeed_append [e] events l
      rw [List.singleton_append] at happend
      simp only [seedFrom, h.mem_seeded_step, happend]
      by_cases hmem : l ∈ b.seeded
      · simp [hmem]
      · cases hseed : FlowEvent.firstSeed [e] l with
        | none => simp [hmem]
        | some op => simp [hmem]

theorem Sound.grown_run (h : Sound (fun _ => True) b)
    (events : List FlowEvent) :
    Grown b (b.run events) := by
  induction events generalizing b with
  | nil => exact .of_labelled (Nat.le_refl _) rfl
  | cons e events ih =>
      rw [run_cons]
      exact (h.grown_step e).trans (ih (h.step e fun _ _ => trivial))

end FlowBuilder

end TestCost
