import TestCost.Proofs.Flow.Description

/-!
# The builder at every point of its run

What a graph under construction looks like can be said without knowing which
events are still to come. Blocks are named by position and edges lead to blocks
that are there, but never back to the entry. A block leaves the method by its
last operation or not at all, and once it has left, it takes neither edges nor
operations at its end. Each operation that an event gives goes to the block that
is current then (`placements`), so blocks hold the operations of the run, each
once and in order, behind the seed of their label.

All this follows from one description of a step (`Sound.step_block`): an event
gives a block operations at its front and at its end, and edges to blocks that
are new or that labels own.

## Main results

* `Sound.step_block` — what an event does to a block, in full.
* `Kept.step`, `Kept.run` — what events keep.
* `Ready.stopped` — a block that has left the method stays as it is.
* `orderly_run` — the builder after every event.
-/

namespace TestCost

/-- The operation that the event gives to the current block. -/
def FlowEvent.op? : FlowEvent → Option StackOp
  | .op o => some o
  | .branch _ | .jump _ | .subroutine _ _ | .switch _ _ | .label _
  | .protect _ _ _ => none

/-- Control goes on after every seed. -/
def FlowEvent.SeedsGoOn (events : List FlowEvent) : Prop :=
  ∀ s ∈ events.filterMap FlowEvent.seed?, s.2.isTerminal = false

/-! ## Blocks with more operations and edges -/

namespace Block

variable {d : Block} {edges : List Edge}

/-- The block with operations at both ends, and with the edges that it did not
have and could take. -/
def extend (d : Block) (front back : List StackOp) (edges : List Edge) :
    Block :=
  { edges.foldl withEdge d with
    ops := front ++ d.ops ++ back
    isTerminal := d.isTerminal || back.any StackOp.isTerminal }

theorem withEdge_of_terminal (h : d.isTerminal = true) (e : Edge) :
    d.withEdge e = d := by
  rw [withEdge, h, Bool.true_or, if_pos rfl]

theorem foldl_withEdge_of_terminal (h : d.isTerminal = true)
    (edges : List Edge) :
    edges.foldl withEdge d = d := by
  induction edges with
  | nil => rfl
  | cons e edges ih => rw [List.foldl_cons, withEdge_of_terminal h, ih]

theorem ops_foldl_withEdge (d : Block) (edges : List Edge) :
    (edges.foldl withEdge d).ops = d.ops := by
  induction edges generalizing d with
  | nil => rfl
  | cons e edges ih => rw [List.foldl_cons, ih, ops_withEdge]

theorem isTerminal_foldl_withEdge (d : Block) (edges : List Edge) :
    (edges.foldl withEdge d).isTerminal = d.isTerminal := by
  induction edges generalizing d with
  | nil => rfl
  | cons e edges ih => rw [List.foldl_cons, ih, isTerminal_withEdge]

theorem extend_edges (d : Block) (edges : List Edge) :
    d.extend [] [] edges = edges.foldl withEdge d := by
  have hops := ops_foldl_withEdge d edges
  have hterminal := isTerminal_foldl_withEdge d edges
  rw [extend]
  generalize edges.foldl withEdge d = d' at hops hterminal
  cases d'
  simp_all

theorem extend_nil (d : Block) : d.extend [] [] [] = d := d.extend_edges []

theorem withEdge_extend (d : Block) (front : List StackOp) (edges : List Edge)
    (e : Edge) :
    (d.extend front [] edges).withEdge e =
      d.extend front [] (edges ++ [e]) := by
  have hterminal := isTerminal_foldl_withEdge d edges
  simp only [extend, withEdge, List.foldl_append, List.foldl_cons,
    List.foldl_nil, hterminal, List.any_nil, Bool.or_false]
  split <;> rfl

theorem mem_successors_foldl {e : Edge}
    (h : e ∈ (edges.foldl withEdge d).successors) :
    e ∈ d.successors ∨ e ∈ edges := by
  induction edges generalizing d with
  | nil => exact .inl h
  | cons e' edges ih =>
      rcases ih h with hd | hedges
      · by_cases hrunning : d.isTerminal = false
        · rcases (mem_successors_withEdge hrunning e' e).1 hd with hd | rfl
          · exact .inl hd
          · exact .inr List.mem_cons_self
        · rw [withEdge_of_terminal (eq_true_of_ne_false hrunning)] at hd
          exact .inl hd
      · exact .inr (List.mem_cons_of_mem _ hedges)

theorem nodup_withEdge (h : d.successors.Nodup) (e : Edge) :
    (d.withEdge e).successors.Nodup := by
  unfold withEdge
  split
  · exact h
  · next hnew =>
    have hmem : e ∉ d.successors := by
      intro he
      exact hnew (by simp [he])
    show (d.successors ++ [e]).Nodup
    rw [List.nodup_append]
    refine ⟨h, List.pairwise_singleton _ e, ?_⟩
    rintro a ha b hb rfl
    exact hmem (List.mem_singleton.1 hb ▸ ha)

theorem nodup_foldl_withEdge (h : d.successors.Nodup) (edges : List Edge) :
    (edges.foldl withEdge d).successors.Nodup := by
  induction edges generalizing d with
  | nil => exact h
  | cons e edges ih => exact ih (nodup_withEdge h e)

/-- No operation but the last leaves the method, and the block is marked if the
last one does. -/
structure EndsOnce (d : Block) : Prop where
  before : ∀ op ∈ d.ops.dropLast, op.isTerminal = false
  marked : d.isTerminal = d.ops.any StackOp.isTerminal

theorem EndsOnce.running (h : d.EndsOnce) (hd : d.isTerminal = false) :
    ∀ op ∈ d.ops, op.isTerminal = false := by
  rw [h.marked, List.any_eq_false] at hd
  exact fun op hop => eq_false_of_ne_true (hd op hop)

/-- A block takes seeds that go on, and takes an operation at its end only if it
has not left the method. -/
theorem EndsOnce.extend (h : d.EndsOnce) {front : List StackOp}
    {back : Option StackOp} (hfront : ∀ op ∈ front, op.isTerminal = false)
    (hback : back ≠ none → d.isTerminal = false) (edges : List Edge) :
    (d.extend front back.toList edges).EndsOnce := by
  have hany : front.any StackOp.isTerminal = false :=
    List.any_eq_false.2 fun op hop => ne_true_of_eq_false (hfront op hop)
  refine ⟨?_, ?_⟩
  · intro op hop
    have hop' : op ∈ (front ++ d.ops ++ back.toList).dropLast := hop
    cases back with
    | none =>
        rw [Option.toList_none, List.append_nil] at hop'
        by_cases hempty : d.ops = []
        · rw [hempty, List.append_nil] at hop'
          exact hfront op (List.dropLast_subset front hop')
        · rw [List.dropLast_append_of_ne_nil hempty] at hop'
          rcases List.mem_append.1 hop' with hop' | hop'
          · exact hfront op hop'
          · exact h.before op hop'
    | some last =>
        rw [Option.toList_some, List.dropLast_concat] at hop'
        rcases List.mem_append.1 hop' with hop' | hop'
        · exact hfront op hop'
        · exact h.running (hback (by simp)) op hop'
  · show (d.isTerminal || back.toList.any _) =
      (front ++ d.ops ++ back.toList).any _
    rw [List.any_append, List.any_append, hany, Bool.false_or, h.marked]

/-- A block has left the method exactly when its last operation does, and no
earlier one does. -/
theorem EndsOnce.isTerminal_iff (h : d.EndsOnce) :
    d.isTerminal = true ↔
      ∃ before last, d.ops = before ++ [last] ∧ last.isTerminal = true ∧
      ∀ op ∈ before, op.isTerminal = false := by
  constructor
  · intro hd
    rw [h.marked] at hd
    obtain ⟨op, hop, hterminal⟩ := List.any_eq_true.1 hd
    have hne : d.ops ≠ [] := List.ne_nil_of_mem hop
    have hsplit := List.dropLast_concat_getLast hne
    refine ⟨d.ops.dropLast, d.ops.getLast hne, hsplit.symm, ?_, h.before⟩
    rw [← hsplit] at hop
    rcases List.mem_append.1 hop with hop | hop
    · rw [h.before op hop] at hterminal
      cases hterminal
    · rw [← List.mem_singleton.1 hop]
      exact hterminal
  · rintro ⟨before, last, hops, hlast, _⟩
    rw [h.marked, hops]
    simp [hlast]

end Block

namespace FlowBuilder

variable {P : StackOp → Prop} {done ahead : List FlowEvent} {b b' : FlowBuilder}
  {c : BlockId}
  {e : FlowEvent}

/-! ## One event, seen from one block -/

/-- Block `c` of the first builder became that of the second by operations, and
by edges to blocks that are new or that labels own. -/
def Extended (front back : List StackOp) (b b' : FlowBuilder) (c : BlockId) :
    Prop :=
  ∃ edges : List Edge, b'.block c = (b.block c).extend front back edges ∧
    ∀ edge ∈ edges, (∃ l, b'.labelled.lookup l = some edge.target) ∨
      b.blocks.size ≤ edge.target

theorem Extended.of_eq (h : b'.block c = b.block c) : Extended [] [] b b' c :=
  ⟨[], by rw [h, Block.extend_nil], by simp⟩

theorem Sound.block_seed_of_own (h : Sound P b)
    (label : Label) (op : StackOp) {own : Option Label} (hown : ∀ l,
      (b.seed label op).1.labelled.lookup l = some c ↔ own = some l) :
    (b.seed label op).1.block c =
      (b.block c).extend (if own = some label ∧ label ∉ b.seeded then [op]
        else []) [] [] := by
  obtain ⟨ops, hblock⟩ := exists_block_seed h label op c
  have hops := (h.widened_seed label op hown).ops
  rw [hblock] at hops ⊢
  rw [show ops = _ from hops]
  simp [Block.extend]

theorem Sound.extended_foldl (labels : List Label) (h : Sound P b)
    {source : BlockId} (hsource : source < b.blocks.size) (c : BlockId) :
    Extended [] [] b (labels.foldl (FlowBuilder.branchTo source) b) c := by
  by_cases hc : c = source
  · subst hc
    induction labels generalizing b with
    | nil => exact .of_eq rfl
    | cons label labels ih =>
        have hat := h.grown_blockAt label
        have hlt : c < (b.blockAt label).1.blocks.size :=
          Nat.lt_of_lt_of_le hsource hat.size_le
        have hfirst := (h.branched_branchTo hsource label).grown
        have hsource' := Nat.lt_of_lt_of_le hsource hfirst.size_le
        have hblock : (FlowBuilder.branchTo c b label).block c =
            (b.block c).withEdge
              { target := (b.blockAt label).2, kind := .branch } := by
          rw [FlowBuilder.branchTo, block_addEdge hlt, if_pos rfl,
            block_blockAt]
        have hrest :=
          ((h.branchTo c label).branched_foldl labels hsource').grown
        obtain ⟨edges, hedges, htargets⟩ := ih (h.branchTo c label) hsource'
        refine ⟨{ target := (b.blockAt label).2, kind := .branch } :: edges, ?_,
          ?_⟩
        · rw [List.foldl_cons, hedges, hblock, Block.extend_edges,
            Block.extend_edges, List.foldl_cons]
        · intro edge hedge
          rcases List.mem_cons.1 hedge with rfl | hedge
          · exact .inl ⟨label, hrest.kept label _ (b.lookup_blockAt_self label)⟩
          · rcases htargets edge hedge with hlabel | hle
            · exact .inl hlabel
            · exact .inr (Nat.le_trans hfirst.size_le hle)
  · exact .of_eq ((h.branched_foldl labels hsource).others c hc)

/-- A block that is left by a jump that may be passed. -/
theorem extended_fork {front : List StackOp} {source target : BlockId}
    (hgrown : Grown b b') (hblock : b'.block c = (b.block c).extend front [] [])
    (hsource : source < b'.blocks.size)
    (htarget : ∃ l, b'.labelled.lookup l = some target) :
    Extended front [] b (b'.fork source target) c := by
  by_cases hc : c = source
  · subst hc
    refine ⟨[{ target := b'.blocks.size, kind := .fallThrough },
      { target, kind := .branch }], ?_, ?_⟩
    · rw [block_fork_self hsource, hblock, Block.withEdge_extend,
        Block.withEdge_extend]
      rfl
    · intro edge hedge
      rcases List.mem_cons.1 hedge with rfl | hedge
      · exact .inr hgrown.size_le
      · rw [List.mem_singleton.1 hedge]
        exact .inl htarget
  · exact ⟨[], by rw [block_fork_of_ne target hsource hc, hblock], by simp⟩

/-- A block that may get an edge to the block of a label. -/
theorem extended_addEdge {front : List StackOp} {source : BlockId} {edge : Edge}
    (hblock : b'.block c = (b.block c).extend front [] [])
    (hsource : source < b'.blocks.size)
    (htarget : ∃ l, b'.labelled.lookup l = some edge.target) :
    Extended front [] b (b'.addEdge source edge) c := by
  by_cases hc : c = source
  · refine ⟨[edge], ?_, ?_⟩
    · rw [block_addEdge hsource, if_pos hc, hblock, Block.withEdge_extend]
      rfl
    · intro e he
      rw [List.mem_singleton.1 he]
      exact .inl htarget
  · exact ⟨[], (block_addEdge_of_ne hsource hc _).trans hblock, by simp⟩

/-- What an event does to a block: it takes a seed if its label gets its first
one, it takes the operation of the event if it is current, and it takes edges.
-/
theorem Sound.step_block (h : Sound P b)
    (hacts : e.acts = true → b.current ≠ none) {own : Option Label}
    (hown : ∀ l, (b.step e).labelled.lookup l = some c ↔ own = some l) :
    Extended (b.seedFrom [e] own) (if b.current = some c then e.op?
      else none).toList
      b (b.step e) c := by
  have hnone : (if b.current = some c then (none : Option StackOp) else none) =
      none := ite_self _
  cases e with
  | op o =>
      obtain ⟨source, hsource⟩ := Option.ne_none_iff_exists'.1 (hacts rfl)
      have hblock : (b.step (.op o)).block c = _ :=
        block_addOp hsource (h.current source hsource) o c
      rw [seedFrom_of_seed?_eq_none rfl, hsource]
      refine ⟨[], ?_, by simp⟩
      rw [hblock]
      by_cases hc : c = source
      · rw [if_pos hc, if_pos (congrArg some hc.symm)]
        simp [Block.extend, FlowEvent.op?]
      · rw [if_neg hc, if_neg fun heq => hc (Option.some.inj heq).symm,
          Option.toList_none, Block.extend_nil]
  | branch t =>
      obtain ⟨source, hsource⟩ := Option.ne_none_iff_exists'.1 (hacts rfl)
      have hgrown := h.grown_blockAt t
      have hblock : (b.blockAt t).1.block c = (b.block c).extend [] [] [] := by
        rw [block_blockAt, Block.extend_nil]
      rw [seedFrom_of_seed?_eq_none rfl, FlowEvent.op?, hnone]
      unfold FlowBuilder.step
      rw [ensureCurrent_of_some hsource]
      exact extended_fork hgrown hblock
        (Nat.lt_of_lt_of_le (h.current source hsource) hgrown.size_le)
        ⟨t, b.lookup_blockAt_self t⟩
  | jump t =>
      obtain ⟨source, hsource⟩ := Option.ne_none_iff_exists'.1 (hacts rfl)
      rw [seedFrom_of_seed?_eq_none rfl, FlowEvent.op?, hnone]
      unfold FlowBuilder.step
      rw [ensureCurrent_of_some hsource]
      exact h.extended_foldl [t] (h.current source hsource) c
  | subroutine t r =>
      obtain ⟨source, hsource⟩ := Option.ne_none_iff_exists'.1 (hacts rfl)
      have hgrown := h.grown_seed t r
      unfold FlowBuilder.step at hown ⊢
      rw [ensureCurrent_of_some hsource] at hown ⊢
      rw [seedFrom_of_seed? t r rfl, FlowEvent.op?, hnone]
      exact extended_fork hgrown (h.block_seed_of_own t r hown)
        (Nat.lt_of_lt_of_le (h.current source hsource) hgrown.size_le)
        ⟨t, b.lookup_seed_self t r⟩
  | switch d cases =>
      obtain ⟨source, hsource⟩ := Option.ne_none_iff_exists'.1 (hacts rfl)
      rw [seedFrom_of_seed?_eq_none rfl, FlowEvent.op?, hnone]
      unfold FlowBuilder.step
      rw [ensureCurrent_of_some hsource]
      exact h.extended_foldl (cases ++ [d]) (h.current source hsource) c
  | label l =>
      rw [seedFrom_of_seed?_eq_none rfl, FlowEvent.op?, hnone]
      cases hcurrent : b.current with
      | none =>
          rw [step_label_of_none hcurrent]
          exact .of_eq (b.block_blockAt l)
      | some source =>
          have hlt := Nat.lt_of_lt_of_le (h.current source hcurrent)
            (h.grown_blockAt l).size_le
          by_cases hsame : source = (b.blockAt l).2
          · unfold FlowBuilder.step
            dsimp only
            rw [current_blockAt, hcurrent]
            dsimp only
            rw [if_pos hsame]
            exact .of_eq (b.block_blockAt l)
          · rw [step_label_of_some hcurrent hsame]
            have hblock :
                (b.blockAt l).1.block c = (b.block c).extend [] [] [] := by
              rw [block_blockAt, Block.extend_nil]
            exact extended_addEdge hblock hlt ⟨l, b.lookup_blockAt_self l⟩
  | protect start handler exception =>
      have hat := h.blockAt start
      have hgrown := hat.sound.grown_seed handler exception
      have hblock := hat.sound.block_seed_of_own handler exception hown
      have hlt := Nat.lt_of_lt_of_le hat.lt hgrown.size_le
      rw [b.block_blockAt start, b.seeded_blockAt start] at hblock
      rw [seedFrom_of_seed? handler exception rfl, FlowEvent.op?, hnone]
      exact extended_addEdge hblock hlt
        ⟨handler, (b.blockAt start).1.lookup_seed_self handler exception⟩

/-! ## Where operations go -/

/-- The operations that events give, each with the block that is current then.
-/
def placements (b : FlowBuilder) : List FlowEvent → List (StackOp × BlockId)
  | [] => []
  | e :: events =>
    e.op?.toList.map (fun o => (o, b.ensureCurrent.2)) ++
      (b.step e).placements events

/-- The operations that are placed in one block, in order. -/
def placedIn (placed : List (StackOp × BlockId)) (c : BlockId) : List StackOp :=
  (placed.filter fun p => p.2 = c).map Prod.fst

theorem placedIn_append (first second : List (StackOp × BlockId))
    (c : BlockId) :
    placedIn (first ++ second) c = placedIn first c ++ placedIn second c := by
  rw [placedIn, List.filter_append, List.map_append]
  rfl

theorem map_fst_placements (b : FlowBuilder) (events : List FlowEvent) :
    (b.placements events).map Prod.fst = events.filterMap FlowEvent.op? := by
  induction events generalizing b with
  | nil => rfl
  | cons e events ih =>
      rw [placements, List.map_append, ih, List.filterMap_cons]
      cases e.op? <;> rfl

/-! ## What events keep -/

/-- What holds of a builder with the events `done` behind it, whose operations
were placed in blocks as `placed` says. -/
structure Kept (done : List FlowEvent) (placed : List (StackOp × BlockId))
    (b : FlowBuilder) :
    Prop where
  nonempty : 0 < b.blocks.size
  unlabelled : ∀ l, b.labelled.lookup l ≠ some FlowGraph.entry
  entry : ∀ c, ∀ edge ∈ (b.block c).successors, edge.target ≠ FlowGraph.entry
  nodup : ∀ c, (b.block c).successors.Nodup
  ends : ∀ c, (b.block c).EndsOnce
  placed_lt : ∀ p ∈ placed, p.2 < b.blocks.size
  ops : ∀ c (own : Option Label),
    (∀ l, b.labelled.lookup l = some c ↔ own = some l) →
    (b.block c).ops = (own.bind (FlowEvent.firstSeed done)).toList ++
      placedIn placed c

variable {placed : List (StackOp × BlockId)}

theorem kept_start : Kept [] [] start := by
  have hblock : ∀ c, start.block c = { id := c } := by
    intro c
    cases c with
    | zero => rfl
    | succ c => exact block_of_le (Nat.succ_le_succ (Nat.zero_le c))
  refine ⟨Nat.zero_lt_one, ?_, ?_, ?_, ?_, ?_, ?_⟩
  · rintro l ⟨⟩
  · intro c edge hedge
    rw [hblock] at hedge
    cases hedge
  · intro c
    rw [hblock]
    exact List.Pairwise.nil
  · intro c
    rw [hblock]
    exact ⟨by simp, rfl⟩
  · rintro p ⟨⟩
  · intro c own _
    rw [hblock]
    cases own <;> rfl

theorem Kept.ensureCurrent (h : Kept done placed b) (hsound : Sound P b) :
    Kept done placed b.ensureCurrent.1 := by
  have hsize := hsound.ensureCurrent.grown
  refine ⟨Nat.lt_of_lt_of_le h.nonempty hsize, ?_, ?_, ?_, ?_, ?_, ?_⟩
  · simpa using h.unlabelled
  · simpa using h.entry
  · simpa using h.nodup
  · simpa using h.ends
  · exact fun p hp => Nat.lt_of_lt_of_le (h.placed_lt p hp) hsize
  · simpa using h.ops

/-- A label owns its block also before the event that names it first: nothing is
in the block then. -/
theorem Kept.ops_of_step (h : Kept done placed b)
    (hready : Ready done (e :: ahead) b) {own : Option Label}
    (hown : ∀ l, (b.step e).labelled.lookup l = some c ↔ own = some l) :
    (b.block c).ops = (own.bind (FlowEvent.firstSeed done)).toList ++
      placedIn placed c := by
  by_cases hc : c < b.blocks.size
  · exact h.ops c own fun l => (hready.lookup_step_iff hc l).symm.trans (hown l)
  · have hle := Nat.le_of_not_lt hc
    have hempty : placedIn placed c = [] := by
      rw [placedIn, List.map_eq_nil_iff, List.filter_eq_nil_iff]
      intro p hp heq
      exact hc (of_decide_eq_true heq ▸ h.placed_lt p hp)
    rw [hempty, List.append_nil]
    cases own with
    | none => rw [block_of_le hle]; rfl
    | some l =>
        have hnone : b.labelled.lookup l = none := by
          cases hlookup : b.labelled.lookup l with
          | none => rfl
          | some c' =>
              have hkept := (hready.sound.grown_step e).kept l c' hlookup
              obtain rfl := Option.some.inj (hkept.symm.trans ((hown l).2 rfl))
              exact absurd (hready.sound.lookup_lt hlookup) hc
        exact (hready.waiting_of_le hnone hle).2

theorem goesOn_of_mem_seedFrom (hseeds : FlowEvent.SeedsGoOn [e])
    {own : Option Label} {op : StackOp} (hop : op ∈ b.seedFrom [e] own) :
    op.isTerminal = false := by
  cases hseed : e.seed? with
  | none =>
      rw [seedFrom_of_seed?_eq_none hseed] at hop
      cases hop
  | some s =>
      obtain ⟨label, seed⟩ := s
      rw [seedFrom_of_seed? label seed hseed] at hop
      split at hop
      · rw [List.mem_singleton.1 hop]
        exact hseeds (label, seed) (by simp [hseed])
      · cases hop

/-- One event, with a current block if it needs one. -/
theorem Kept.step_of_current (h : Kept done placed b)
    (hready : Ready done (e :: ahead) b) (hseeds : FlowEvent.SeedsGoOn [e])
    (hacts : e.acts = true → b.current ≠ none) :
    Kept (done ++ [e]) (placed ++ e.op?.toList.map fun o =>
      (o, b.ensureCurrent.2)) (b.step e) := by
  have hgrown := hready.sound.grown_step e
  have hblock : ∀ c, ∃ own : Option Label,
      (∀ l, (b.step e).labelled.lookup l = some c ↔ own = some l) ∧
      Extended (b.seedFrom [e] own) (if b.current = some c then e.op?
        else none).toList
        b (b.step e) c := by
    intro c
    obtain ⟨own, hown⟩ := (hgrown.distinct hready.distinct).exists_own c
    exact ⟨own, hown, hready.sound.step_block hacts hown⟩
  have hunlabelled : ∀ l,
      (b.step e).labelled.lookup l ≠ some FlowGraph.entry := by
    intro l hl
    rcases hgrown.fresh l _ hl with hold | hle
    · exact h.unlabelled l hold
    · exact Nat.not_lt_zero _ (Nat.lt_of_lt_of_le h.nonempty hle)
  have htaker : ∀ o ∈ e.op?, b.current = some b.ensureCurrent.2 := by
    intro o ho
    have he : e.acts = true := by
      cases e <;> first | rfl | cases ho
    obtain ⟨source, hsource⟩ := Option.ne_none_iff_exists'.1 (hacts he)
    rw [ensureCurrent_of_some hsource, hsource]
  refine ⟨Nat.lt_of_lt_of_le h.nonempty hgrown.size_le, hunlabelled, ?_,
    ?_, ?_, ?_, ?_⟩
  · intro c edge hedge
    obtain ⟨own, _, edges, heq, htargets⟩ := hblock c
    rw [heq] at hedge
    rcases Block.mem_successors_foldl hedge with hold | hnew
    · exact h.entry c edge hold
    · intro hentry
      rcases htargets edge hnew with ⟨l, hl⟩ | hle
      · exact hunlabelled l (hentry ▸ hl)
      · rw [hentry] at hle
        exact Nat.not_lt_zero _ (Nat.lt_of_lt_of_le h.nonempty hle)
  · intro c
    obtain ⟨own, _, edges, heq, _⟩ := hblock c
    rw [heq]
    exact Block.nodup_foldl_withEdge (h.nodup c) edges
  · intro c
    obtain ⟨own, _, edges, heq, _⟩ := hblock c
    rw [heq]
    refine (h.ends c).extend
      (fun op hop => goesOn_of_mem_seedFrom hseeds hop) ?_ edges
    intro hsome
    have hcurrent : b.current = some c := Decidable.of_not_not fun hne =>
      hsome (if_neg hne)
    exact (hready.current c hcurrent).1.running
  · intro p hp
    rcases List.mem_append.1 hp with hp | hp
    · exact Nat.lt_of_lt_of_le (h.placed_lt p hp) hgrown.size_le
    · obtain ⟨o, ho, rfl⟩ := List.mem_map.1 hp
      have hlt := hready.sound.current _ (htaker o (Option.mem_toList.1 ho))
      exact Nat.lt_of_lt_of_le hlt hgrown.size_le
  · intro c own hown
    obtain ⟨edges, heq, _⟩ := hready.sound.step_block hacts hown
    have hbefore := h.ops_of_step hready hown
    have hback : placedIn (e.op?.toList.map fun o => (o, b.ensureCurrent.2)) c =
        (if b.current = some c then e.op? else none).toList := by
      cases hop : e.op? with
      | none => simp [placedIn]
      | some o => simp [placedIn, htaker o hop, List.filter_cons, apply_ite]
    have hfront :
        b.seedFrom [e] own ++ (own.bind (FlowEvent.firstSeed done)).toList =
        (own.bind (FlowEvent.firstSeed (done ++ [e]))).toList := by
      cases own with
      | none => rfl
      | some l => exact hready.seedFrom_append [e] l
    rw [heq, placedIn_append, hback]
    show b.seedFrom [e] own ++ (b.block c).ops ++ _ = _
    rw [hbefore, ← hfront]
    simp only [List.append_assoc]

theorem Kept.step (h : Kept done placed b) (hready : Ready done (e :: ahead) b)
    (hseeds : FlowEvent.SeedsGoOn [e]) :
    Kept (done ++ [e]) (placed ++ e.op?.toList.map fun o =>
      (o, b.ensureCurrent.2)) (b.step e) := by
  by_cases hacts : e.acts = true
  · have hcurrent := b.current_ensureCurrent
    have htwice := ensureCurrent_of_some hcurrent
    rw [← b.step_ensureCurrent hacts]
    have hstep := (h.ensureCurrent hready.sound).step_of_current
      hready.ensureCurrent hseeds fun _ => by
      simp [hcurrent]
    rwa [htwice] at hstep
  · exact h.step_of_current hready hseeds fun he => absurd he hacts

theorem Kept.run {events : List FlowEvent}
    (h : Kept done placed b) (hready : Ready done (events ++ ahead) b)
    (honce : FlowEvent.PlacedOnce (events ++ ahead))
    (hseeds : FlowEvent.SeedsGoOn events) :
    Kept (done ++ events) (placed ++ b.placements events) (b.run events) := by
  induction events generalizing done placed b with
  | nil =>
      rw [placements, List.append_nil, List.append_nil]
      exact h
  | cons e events ih =>
      have hsplit : FlowEvent.SeedsGoOn ([e] ++ events) := hseeds
      rw [FlowEvent.SeedsGoOn, List.filterMap_append] at hsplit
      have hfirst := h.step hready fun s hs =>
        hsplit s (List.mem_append_left _ hs)
      have hrest := ih hfirst (hready.step honce) honce.tail
        fun s hs => hsplit s (List.mem_append_right _ hs)
      rwa [List.append_assoc, List.append_assoc] at hrest

/-! ## Blocks that have left the method -/

/-- The block has left the method, and got at most a seed since it was the first
one. -/
structure Stopped (d d' : Block) : Prop where
  terminal : d'.isTerminal = true
  successors : d'.successors = d.successors
  ops : d.ops <:+ d'.ops

theorem Stopped.trans {d d' d'' : Block} (h : Stopped d d')
    (h' : Stopped d' d'') :
    Stopped d d'' where
  terminal := h'.terminal
  successors := h'.successors.trans h.successors
  ops := h.ops.trans h'.ops

theorem Ready.stopped_of_current
    (h : Ready done (e :: ahead) b) (hacts : e.acts = true → b.current ≠ none)
    (hc : (b.block c).isTerminal = true) :
    Stopped (b.block c) ((b.step e).block c) := by
  obtain ⟨own, hown⟩ :=
    ((h.sound.grown_step e).distinct h.distinct).exists_own c
  obtain ⟨edges, heq, _⟩ := h.sound.step_block hacts hown
  have hcurrent : b.current ≠ some c := by
    intro hcurrent
    rw [(h.current c hcurrent).1.running] at hc
    cases hc
  rw [heq, if_neg hcurrent]
  refine ⟨?_, ?_, ?_⟩
  · simp [Block.extend, hc]
  · simp [Block.extend, Block.foldl_withEdge_of_terminal hc]
  · exact ⟨b.seedFrom [e] own, by simp [Block.extend]⟩

theorem Ready.stopped_step (h : Ready done (e :: ahead) b)
    (hc : (b.block c).isTerminal = true) :
    Stopped (b.block c) ((b.step e).block c) := by
  by_cases hacts : e.acts = true
  · rw [← b.step_ensureCurrent hacts, ← b.block_ensureCurrent]
    apply h.ensureCurrent.stopped_of_current
    · simp [current_ensureCurrent]
    · rw [block_ensureCurrent, hc]
  · exact h.stopped_of_current (fun he => absurd he hacts) hc

/-- The events ahead leave a block that has left the method as it is, its seed
apart. -/
theorem Ready.stopped (h : Ready done ahead b)
    (honce : FlowEvent.PlacedOnce ahead) (hc : (b.block c).isTerminal = true) :
    Stopped (b.block c) ((b.run ahead).block c) := by
  induction ahead generalizing done b with
  | nil => exact ⟨hc, rfl, List.suffix_refl _⟩
  | cons e ahead ih =>
      have hfirst := h.stopped_step hc
      exact hfirst.trans (ih (h.step honce) honce.tail hfirst.terminal)

/-! ## The builder after every event -/

/-- What holds of a builder after some events. -/
structure Orderly (events : List FlowEvent) (b : FlowBuilder) : Prop where
  /-- Blocks are named by their positions. -/
  named : ∀ (c : BlockId) d, b.blocks[c]? = some d → d.id = c
  /-- Edges lead to blocks that are there, and not to the entry. -/
  targets : ∀ c, ∀ edge ∈ (b.block c).successors,
    edge.target < b.blocks.size ∧ edge.target ≠ FlowGraph.entry
  /-- No block has an edge twice. -/
  nodup : ∀ c, (b.block c).successors.Nodup
  /-- The current block is there and has not left the method. -/
  current : ∀ c, b.current = some c →
    c < b.blocks.size ∧ (b.block c).isTerminal = false
  /-- Labels own blocks that are there, -/
  owned : ∀ l c, b.labelled.lookup l = some c → c < b.blocks.size
  /-- and different labels own different ones. -/
  distinct : b.Distinct
  /-- A block has left the method exactly when its last operation does, and no
  earlier one does. -/
  terminal : ∀ c, (b.block c).isTerminal = true ↔
    ∃ before last, (b.block c).ops = before ++ [last] ∧ last.isTerminal = true ∧
      ∀ op ∈ before, op.isTerminal = false
  /-- The operations of the events are placed one after the other, -/
  placed : (start.placements events).map Prod.fst =
    events.filterMap FlowEvent.op?
  /-- each in a block that is there, -/
  placed_lt : ∀ p ∈ start.placements events, p.2 < b.blocks.size
  /-- and a block holds those that are placed in it, in order, behind at most
  one seed: the first that its label got. -/
  ops : ∀ c, ∃ seed : Option StackOp,
    (b.block c).ops = seed.toList ++ placedIn (start.placements events) c ∧
      (∀ l, b.labelled.lookup l = some c →
        seed = FlowEvent.firstSeed events l) ∧
      ((∀ l, b.labelled.lookup l ≠ some c) → seed = none)

theorem Kept.orderly
    {events : List FlowEvent} (h : Kept events (start.placements events) b)
    (hready : Ready events ahead b) : b.Orderly events where
  named := hready.sound.named
  targets c edge hedge := by
    refine ⟨?_, h.entry c edge hedge⟩
    rcases b.graph.block_mem_or_eq c with hmem | hnone
    · exact hready.sound.edges _ hmem edge hedge
    · rw [show b.block c = _ from hnone] at hedge
      cases hedge
  nodup := h.nodup
  current c hc := ⟨hready.sound.current c hc, (hready.current c hc).1.running⟩
  owned _ _ hl := hready.sound.lookup_lt hl
  distinct := hready.distinct
  terminal c := (h.ends c).isTerminal_iff
  placed := start.map_fst_placements events
  placed_lt := h.placed_lt
  ops c := by
    obtain ⟨own, hown⟩ := hready.distinct.exists_own c
    refine ⟨own.bind (FlowEvent.firstSeed events), h.ops c own hown, ?_, ?_⟩
    · intro l hl
      rw [(hown l).1 hl, Option.bind_some]
    · intro hnone
      cases own with
      | none => rfl
      | some l => exact absurd ((hown l).2 rfl) (hnone l)

/-- Let no label be placed twice and let control go on after every seed. Then
the builder is orderly at every point of its run, and a block that has left the
method at some point gets no edge and no operation at its end from there on. -/
theorem orderly_run {first later : List FlowEvent}
    (honce : FlowEvent.PlacedOnce (first ++ later))
    (hseeds : FlowEvent.SeedsGoOn (first ++ later)) :
    (start.run first).Orderly first ∧
      ∀ c, ((start.run first).block c).isTerminal = true →
        Stopped ((start.run first).block c)
          ((start.run (first ++ later)).block c) := by
  rw [FlowEvent.SeedsGoOn, List.filterMap_append] at hseeds
  have hready := (ready_start (first ++ later)).run honce
  have hkept := kept_start.run (ready_start (first ++ later)) honce
    fun s hs => hseeds s (List.mem_append_left _ hs)
  refine ⟨hkept.orderly hready, ?_⟩
  intro c hc
  rw [run_append]
  exact hready.stopped honce.of_append hc

/-- Code that returns or throws, up to the place where its handler is met. -/
def beforeHandler : List FlowEvent :=
  [.op ⟨1, .load (.constant (.unknown .int))⟩, .branch 7,
    .op ⟨2, .leave .void⟩, .label 7,
    .op ⟨3, .raise⟩]

/-- The code at label 7 handles exceptions, and starts with one. -/
def withHandler : List FlowEvent :=
  [.protect 0 7 ⟨0, .load (.constant (.unknown .int))⟩]

/-- The handler has left the method when it gets its seed. -/
theorem orderly_withHandler :
    ((start.run beforeHandler).block 1).isTerminal = true ∧
      ((start.run beforeHandler).Orderly beforeHandler ∧
        ∀ c, ((start.run beforeHandler).block c).isTerminal = true →
          Stopped ((start.run beforeHandler).block c)
            ((start.run (beforeHandler ++ withHandler)).block c)) ∧
      ((start.run (beforeHandler ++ withHandler)).block 1).ops.map
        StackOp.line = [0, 3] := by
  have honce : FlowEvent.PlacedOnce (beforeHandler ++ withHandler) := by
    unfold FlowEvent.PlacedOnce
    decide
  have hseeds : FlowEvent.SeedsGoOn (beforeHandler ++ withHandler) := by
    unfold FlowEvent.SeedsGoOn
    decide
  exact ⟨rfl, orderly_run honce hseeds, rfl⟩

end FlowBuilder

end TestCost
