import TestCost.Proofs.Splitting.Order

/-!
# A label that nothing names

Placing a label that no jump and no handler names cuts the graph of a method
body, and does nothing else: the graph with the label is a cut of the graph
without it (`FlowGraph.Cut`).

The two builders run side by side from the place of the label on. Where code can
come to the label, the label ends the current block and goes on in a new one,
and from then on whatever goes into the current block of one builder goes into
the new block of the other. Seeds apart: a seed goes to the front of the block
that the label owns, even long after the cut, and the front of the cut block is
that front. Handlers are no matter, since they are all given before the code.

Where no code can come to the label, it starts a block that nothing leads to.
The code behind it would have started the same block, and another label would
have started no such block; either way nothing is cut.

## Main results

* `FlowBuilder.Cut.step` — one event keeps the cut.
* `FlowBuilder.Cut.run` — so do all events.
* `FlowGraph.exists_cut_ofEvents` — the graph with the label is a cut of the
  graph without it.
-/

namespace TestCost

/-! ## Blocks -/

theorem Edge.rename_injective {ρ : BlockId → BlockId}
    (hinj : Function.Injective ρ) :
    Function.Injective (Edge.rename ρ) := by
  intro e e' heq
  obtain ⟨target, kind⟩ := e
  obtain ⟨target', kind'⟩ := e'
  simp only [Edge.rename, Edge.mk.injEq] at heq
  rw [hinj heq.1, heq.2]

namespace Block

variable {ρ : BlockId → BlockId} {fresh : BlockId}
  {d whole front back : Block} {e : Edge}

theorem rename_withEdge (hinj : Function.Injective ρ) (d : Block) (e : Edge) :
    (d.rename ρ).withEdge (e.rename ρ) = (d.withEdge e).rename ρ := by
  have hmem : (d.successors.map (Edge.rename ρ)).contains (e.rename ρ) =
      d.successors.contains e := by
    rw [Bool.eq_iff_iff, List.contains_iff_mem, List.contains_iff_mem,
      List.mem_map_of_injective (Edge.rename_injective hinj)]
  unfold withEdge
  simp only [rename, hmem]
  split
  · rfl
  · simp

/-- Where the block keeps its name, and every edge leads to a block below `n`,
which keeps its own, nothing is renamed. -/
theorem rename_of_lt {n : Nat} (hρ : ∀ c < n, ρ c = c) (hid : ρ d.id = d.id)
    (hd : ∀ e ∈ d.successors, e.target < n) : d.rename ρ = d := by
  have hmap : d.successors.map (Edge.rename ρ) = d.successors := by
    rw [List.map_congr_left (g := fun e => e), List.map_id']
    intro e he
    rw [Edge.rename, hρ e.target (hd e he)]
  rw [rename, hid, hmap]

namespace Halves

/-- A way out of the whole block is one of its back. -/
theorem withEdge (h : Halves ρ fresh whole front back)
    (hinj : Function.Injective ρ) (hkind : e.kind ≠ .exception) :
    Halves ρ fresh (whole.withEdge e) front (back.withEdge (e.rename ρ)) := by
  have hexit : e ∈ whole.successors ↔ e ∈ whole.exits := by simp [exits, hkind]
  have hmem :
      back.successors.contains (e.rename ρ) = whole.successors.contains e := by
    rw [Bool.eq_iff_iff, List.contains_iff_mem, List.contains_iff_mem, h.taken,
      hexit, List.mem_map_of_injective (Edge.rename_injective hinj)]
  unfold Block.withEdge
  rw [hmem, h.terminal]
  split
  · exact h
  · have hcaught :
        ({ whole with successors := whole.successors ++ [e] } : Block).caught =
        whole.caught := by
      simp [caught, hkind]
    have hexits :
        ({ whole with successors := whole.successors ++ [e] } : Block).exits =
        whole.exits ++ [e] := by
      simp [exits, hkind]
    refine ⟨h.ops, ?_, ?_, ?_, rfl⟩
    · rw [hcaught, hexits, ← List.append_assoc, ← h.sorted]
    · rw [hcaught, h.kept]
    · rw [hexits, List.map_append, ← h.taken]
      rfl

/-- An operation at the end of the whole block is one at the end of its back. -/
theorem addOp (h : Halves ρ fresh whole front back) (o : StackOp) :
    Halves ρ fresh
      { whole with ops := whole.ops ++ [o],
                   isTerminal := whole.isTerminal || o.isTerminal } front
      { back with ops := back.ops ++ [o],
                  isTerminal := back.isTerminal || o.isTerminal } where
  ops := by rw [h.ops, List.append_assoc]
  sorted := h.sorted
  kept := h.kept
  taken := h.taken
  terminal := by rw [h.terminal]

/-- An operation at the start of the whole block is one at the start of its
front. -/
theorem seed (h : Halves ρ fresh whole front back) (o : StackOp) :
    Halves ρ fresh { whole with ops := o :: whole.ops }
      { front with ops := o :: front.ops }
      back where
  ops := by rw [h.ops, List.cons_append]
  sorted := h.sorted
  kept := h.kept
  taken := h.taken
  terminal := h.terminal

end Halves

end Block

/-- The labels that the event names. -/
def FlowEvent.labels : FlowEvent → List Label
  | .op _ => []
  | .branch target | .jump target | .subroutine target _ => [target]
  | .switch default cases => cases ++ [default]
  | .label l => [l]
  | .protect start handler _ => [start, handler]

/-- The event protects code. -/
def FlowEvent.isProtect : FlowEvent → Bool
  | .protect _ _ _ => true
  | .op _ | .branch _ | .jump _ | .subroutine _ _ | .switch _ _ | .label _ =>
    false

namespace FlowBuilder

theorem size_seed (b : FlowBuilder) (l : Label) (op : StackOp) :
    (b.seed l op).1.blocks.size = (b.blockAt l).1.blocks.size := by
  by_cases hmem : l ∈ b.seeded
  · rw [seed_of_mem hmem]
  · rw [seed_of_not_mem hmem, Array.size_modify]

theorem Sound.block_seed {P : StackOp → Prop} {b : FlowBuilder} (h : Sound P b)
    {l : Label} (hmem : l ∉ b.seeded) (op : StackOp) (c : BlockId) :
    (b.seed l op).1.block c =
      if c = (b.blockAt l).2 then
        { b.block c with ops := op :: (b.block c).ops }
      else b.block c := by
  rw [← b.block_blockAt l, seed_of_not_mem hmem]
  exact block_modify (f := fun d => { d with ops := op :: d.ops }) rfl
    (h.blockAt l).lt

/-- A label that is placed in the block that it owns. -/
theorem step_label_of_eq {b : FlowBuilder} {l : Label}
    (h : b.current = some (b.blockAt l).2) :
    b.step (.label l) =
      { (b.blockAt l).1 with current := some (b.blockAt l).2 } := by
  unfold step
  dsimp only
  rw [current_blockAt, h]
  dsimp only
  rw [if_pos rfl]

/-- The block that takes what would go into block `c`. -/
def heir (ρ : BlockId → BlockId) (cut : Option BlockId) (fresh c : BlockId) :
    BlockId :=
  if cut = some c then fresh else ρ c

/-- The second builder is the first with block `cut` cut in two, blocks renamed
by `ρ`, and the label `unused` owning some block. What would go to the end of
the block that is cut goes to the end of block `fresh`. -/
structure Cut (ρ : BlockId → BlockId) (cut : Option BlockId) (fresh : BlockId)
    (unused : Label) (b b' : FlowBuilder) : Prop where
  sound : Sound (fun _ => True) b
  sound' : Sound (fun _ => True) b'
  mono : StrictMono ρ
  size : b'.blocks.size = ρ b.blocks.size
  succ : ∀ n, b.blocks.size ≤ n → ρ (n + 1) = ρ n + 1
  cut_lt : ∀ c, cut = some c → c < b.blocks.size
  fresh_ne : ∀ c, cut = some c → ∀ d, ρ d ≠ fresh
  fresh_lt : ∀ c, cut = some c → fresh < b'.blocks.size
  labelled : ∀ l, l ≠ unused →
    b'.labelled.lookup l = (b.labelled.lookup l).map ρ
  seeded : b'.seeded = b.seeded
  current : b'.current = b.current.map (heir ρ cut fresh)
  other : ∀ c, cut ≠ some c → b'.block (ρ c) = (b.block c).rename ρ
  halves : ∀ c, cut = some c →
    Block.Halves ρ fresh (b.block c) (b'.block (ρ c)) (b'.block fresh)

namespace Cut

variable {ρ : BlockId → BlockId} {cut : Option BlockId} {fresh s t : BlockId}
  {unused l : Label}
  {b b' : FlowBuilder}

theorem lt (h : Cut ρ cut fresh unused b b') (hs : s < b.blocks.size) :
    ρ s < b'.blocks.size :=
  h.size ▸ h.mono hs

theorem heir_lt (h : Cut ρ cut fresh unused b b') (hs : s < b.blocks.size) :
    heir ρ cut fresh s < b'.blocks.size := by
  unfold heir
  split
  · next hcut => exact h.fresh_lt s hcut
  · exact h.lt hs

theorem current_none (h : Cut ρ cut fresh unused b b') (hs : b.current = none) :
    b'.current = none := by
  rw [h.current, hs]
  rfl

theorem current_some (h : Cut ρ cut fresh unused b b')
    (hs : b.current = some s) :
    b'.current = some (heir ρ cut fresh s) := by
  rw [h.current, hs]
  rfl

/-- A new block is not the one that is cut. -/
theorem heir_size (h : Cut ρ cut fresh unused b b') :
    heir ρ cut fresh b.blocks.size = b'.blocks.size := by
  rw [heir, if_neg fun hcut => Nat.lt_irrefl _ (h.cut_lt _ hcut), h.size]

/-! ## Parts of a step -/

theorem withCurrent (h : Cut ρ cut fresh unused b b') (current : Option BlockId)
    (hcurrent : ∀ id, current = some id → id < b.blocks.size) :
    Cut ρ cut fresh unused { b with current := current }
      { b' with current := current.map (heir ρ cut fresh) } where
  sound := h.sound.withCurrent hcurrent
  sound' := h.sound'.withCurrent fun id hid => by
    obtain ⟨c, hc, rfl⟩ := Option.map_eq_some_iff.1 hid
    exact h.heir_lt (hcurrent c hc)
  mono := h.mono
  size := h.size
  succ := h.succ
  cut_lt := h.cut_lt
  fresh_ne := h.fresh_ne
  fresh_lt := h.fresh_lt
  labelled := h.labelled
  seeded := h.seeded
  current := rfl
  other := h.other
  halves := h.halves

theorem addBlock (h : Cut ρ cut fresh unused b b') :
    Cut ρ cut fresh unused b.addBlock.1 b'.addBlock.1 where
  sound := h.sound.addBlock
  sound' := h.sound'.addBlock
  mono := h.mono
  size := by rw [size_addBlock, size_addBlock, h.succ _ (Nat.le_refl _), h.size]
  succ n hn := by
    rw [size_addBlock] at hn
    exact h.succ n (Nat.le_of_succ_le hn)
  cut_lt c hc := b.size_addBlock ▸ Nat.lt_succ_of_lt (h.cut_lt c hc)
  fresh_ne := h.fresh_ne
  fresh_lt c hc := b'.size_addBlock ▸ Nat.lt_succ_of_lt (h.fresh_lt c hc)
  labelled := h.labelled
  seeded := h.seeded
  current := h.current
  other c hc := by rw [block_addBlock, block_addBlock, h.other c hc]
  halves c hc := by
    rw [block_addBlock, block_addBlock, block_addBlock]
    exact h.halves c hc

theorem ensureCurrent (h : Cut ρ cut fresh unused b b') :
    Cut ρ cut fresh unused b.ensureCurrent.1 b'.ensureCurrent.1 := by
  cases hcurrent : b.current with
  | some c =>
      rw [ensureCurrent_of_some hcurrent,
        ensureCurrent_of_some (h.current_some hcurrent)]
      exact h
  | none =>
      have hnew := h.addBlock.withCurrent (some b.blocks.size) ?_
      · rw [Option.map_some, h.heir_size] at hnew
        rw [ensureCurrent_of_none hcurrent,
          ensureCurrent_of_none (h.current_none hcurrent)]
        exact hnew
      · rintro _ ⟨⟩
        rw [size_addBlock]
        exact Nat.lt_succ_self _

theorem blockAt (h : Cut ρ cut fresh unused b b') (hl : l ≠ unused) :
    Cut ρ cut fresh unused (b.blockAt l).1 (b'.blockAt l).1 ∧
      (b'.blockAt l).2 = ρ (b.blockAt l).2 := by
  have hat := h.sound.blockAt l
  have hat' := h.sound'.blockAt l
  have hlabelled := h.labelled l hl
  unfold FlowBuilder.blockAt at hat hat' ⊢
  cases hlookup : b.labelled.lookup l with
  | some c =>
      rw [hlookup] at hlabelled
      rw [hlabelled]
      exact ⟨h, rfl⟩
  | none =>
      rw [hlookup] at hlabelled hat
      rw [hlabelled] at hat' ⊢
      have hadded := h.addBlock
      refine ⟨⟨hat.sound, hat'.sound, hadded.mono, hadded.size, hadded.succ,
        hadded.cut_lt, hadded.fresh_ne, hadded.fresh_lt, ?_, hadded.seeded,
        hadded.current, hadded.other, hadded.halves⟩, h.size⟩
      intro k hk
      show ((l, b'.blocks.size) :: b'.labelled).lookup k =
        (((l, b.blocks.size) :: b.labelled).lookup k).map ρ
      rw [List.lookup_cons, List.lookup_cons]
      by_cases hkl : k = l
      · rw [hkl, beq_self_eq_true, Option.map_some, h.size]
      · rw [beq_false_of_ne hkl]
        exact h.labelled k hk

/-- A change at the end of a block. -/
theorem modify_heir (h : Cut ρ cut fresh unused b b')
    (hs : s < b.blocks.size) {f f' : Block → Block}
    (hsound : Sound (fun _ => True) { b with blocks := b.blocks.modify s f })
    (hsound' : Sound (fun _ =>
      True) { b' with blocks := b'.blocks.modify (heir ρ cut fresh s) f' })
    (hother : ∀ d : Block, f' (d.rename ρ) = (f d).rename ρ)
    (hhalves : ∀ whole front back, Block.Halves ρ fresh whole front back →
      Block.Halves ρ fresh (f whole) front (f' back)) :
    Cut ρ cut fresh unused { b with blocks := b.blocks.modify s f }
      { b' with blocks := b'.blocks.modify (heir ρ cut fresh s) f' } where
  sound := hsound
  sound' := hsound'
  mono := h.mono
  size := by
    rw [Array.size_modify, Array.size_modify]
    exact h.size
  succ := by
    rw [Array.size_modify]
    exact h.succ
  cut_lt := by
    rw [Array.size_modify]
    exact h.cut_lt
  fresh_ne := h.fresh_ne
  fresh_lt := by
    rw [Array.size_modify]
    exact h.fresh_lt
  labelled := h.labelled
  seeded := h.seeded
  current := h.current
  other c hc := by
    have hblock : FlowBuilder.block { b with blocks := b.blocks.modify s f } c =
        _ := block_modify rfl hs
    have hblock' : FlowBuilder.block
        { b' with blocks := b'.blocks.modify (heir ρ cut fresh s) f' } (ρ c) =
        _ := block_modify rfl (h.heir_lt hs)
    rw [hblock, hblock', heir]
    by_cases hcut : cut = some s
    · have hne : c ≠ s := fun heq => hc (heq ▸ hcut)
      rw [if_pos hcut, if_neg (h.fresh_ne s hcut c), if_neg hne, h.other c hc]
    · rw [if_neg hcut]
      by_cases heq : c = s
      · rw [if_pos heq, if_pos (congrArg ρ heq), h.other c hc, hother]
      · rw [if_neg heq, if_neg fun hρ => heq (h.mono.injective hρ),
          h.other c hc]
  halves c hc := by
    have hblock : FlowBuilder.block { b with blocks := b.blocks.modify s f } c =
        _ := block_modify rfl hs
    have hblock' : ∀ d, FlowBuilder.block
        { b' with blocks := b'.blocks.modify (heir ρ cut fresh s) f' } d = _ :=
      fun d => block_modify rfl (h.heir_lt hs)
    rw [hblock, hblock', hblock', heir]
    by_cases heq : c = s
    · subst heq
      rw [if_pos hc, if_neg (h.fresh_ne c hc c), if_pos rfl, if_pos rfl]
      exact hhalves _ _ _ (h.halves c hc)
    · have hcut : cut ≠ some s :=
        fun hcut => heq (Option.some.inj (hc.symm.trans hcut))
      rw [if_neg hcut, if_neg fun hρ => heq (h.mono.injective hρ),
        if_neg (h.fresh_ne c hc s).symm, if_neg heq]
      exact h.halves c hc

theorem addEdge (h : Cut ρ cut fresh unused b b') (hs : s < b.blocks.size)
    {e : Edge} (ht : e.target < b.blocks.size) (hkind : e.kind ≠ .exception) :
    Cut ρ cut fresh unused (b.addEdge s e)
      (b'.addEdge (heir ρ cut fresh s) (e.rename ρ)) := by
  have hinj := h.mono.injective
  exact h.modify_heir hs (h.sound.addEdge s ht)
    (h.sound'.addEdge (heir ρ cut fresh s) (h.lt ht))
    (fun d => Block.rename_withEdge hinj d e)
    (fun _ _ _ hhalves => hhalves.withEdge hinj hkind)

/-- A seed goes to the front of a block, which the cut leaves in its place. -/
theorem seed (h : Cut ρ cut fresh unused b b') (hl : l ≠ unused)
    (op : StackOp) :
    Cut ρ cut fresh unused (b.seed l op).1 (b'.seed l op).1 := by
  obtain ⟨hat, htarget⟩ := h.blockAt hl
  have hreached : Reached (fun _ => True) b (b.seed l op) :=
    h.sound.seed l trivial
  have hreached' : Reached (fun _ => True) b' (b'.seed l op) :=
    h.sound'.seed l trivial
  by_cases hmem : l ∈ b.seeded
  · rw [seed_of_mem hmem, seed_of_mem (h.seeded ▸ hmem)]
    exact hat
  · have hmem' : l ∉ b'.seeded := h.seeded ▸ hmem
    refine ⟨hreached.sound, hreached'.sound, h.mono, ?_, ?_, ?_, h.fresh_ne, ?_,
      ?_, ?_, ?_, ?_, ?_⟩
    · rw [size_seed, size_seed]
      exact hat.size
    · rw [size_seed]
      exact hat.succ
    · rw [size_seed]
      exact hat.cut_lt
    · rw [size_seed]
      exact hat.fresh_lt
    · rw [labelled_seed, labelled_seed]
      exact hat.labelled
    · rw [seed_of_not_mem hmem, seed_of_not_mem hmem', h.seeded]
    · rw [current_seed, current_seed]
      exact h.current
    · intro c hc
      rw [h.sound.block_seed hmem, h.sound'.block_seed hmem', htarget,
        h.other c hc]
      by_cases heq : c = (b.blockAt l).2
      · rw [if_pos heq, if_pos (congrArg ρ heq)]
        rfl
      · rw [if_neg heq, if_neg fun hρ => heq (h.mono.injective hρ)]
    · intro c hc
      rw [h.sound.block_seed hmem, h.sound'.block_seed hmem',
        h.sound'.block_seed hmem', htarget, if_neg (h.fresh_ne c hc _).symm]
      by_cases heq : c = (b.blockAt l).2
      · rw [if_pos heq, if_pos (congrArg ρ heq)]
        exact (h.halves c hc).seed op
      · rw [if_neg heq, if_neg fun hρ => heq (h.mono.injective hρ)]
        exact h.halves c hc

theorem addOp (h : Cut ρ cut fresh unused b b') (hs : b.current = some s)
    (o : StackOp) :
    Cut ρ cut fresh unused (b.addOp o) (b'.addOp o) := by
  have hlt := h.sound.current s hs
  have hs' := h.current_some hs
  have hadded := h.modify_heir hlt
    (h.sound.modify s (f := fun d =>
        { d with
          ops := d.ops ++ [o], isTerminal := d.isTerminal || o.isTerminal })
      (fun _ _ he => .inl he) (fun _ _ _ => .inr trivial) fun _ => rfl)
    (h.sound'.modify (heir ρ cut fresh s) (f := fun d =>
        { d with
          ops := d.ops ++ [o], isTerminal := d.isTerminal || o.isTerminal })
      (fun _ _ he => .inl he) (fun _ _ _ => .inr trivial) fun _ => rfl)
    (fun d => rfl) (fun _ _ _ hhalves => hhalves.addOp o)
  unfold FlowBuilder.addOp
  rw [ensureCurrent_of_some hs, ensureCurrent_of_some hs']
  dsimp only
  rw [hs, hs']
  by_cases ho : o.isTerminal = true
  · rw [if_pos ho, if_pos ho]
    exact hadded.withCurrent none (by simp)
  · rw [if_neg ho, if_neg ho]
    refine hadded.withCurrent (some s) ?_
    rintro _ ⟨⟩
    rw [Array.size_modify]
    exact hlt

theorem fork (h : Cut ρ cut fresh unused b b') (hs : s < b.blocks.size)
    (ht : t < b.blocks.size) :
    Cut ρ cut fresh unused (b.fork s t)
      (b'.fork (heir ρ cut fresh s) (ρ t)) := by
  have hlt : b.blocks.size < b.addBlock.1.blocks.size := by
    rw [size_addBlock]
    exact Nat.lt_succ_self _
  have hfirst := h.addBlock.addEdge (e := ⟨b.blocks.size, .fallThrough⟩)
    (Nat.lt_trans hs hlt) hlt (by simp)
  have hsecond := hfirst.addEdge (s := s) (e := ⟨t, .branch⟩)
    (by rw [size_addEdge]; exact Nat.lt_trans hs hlt)
    (by rw [size_addEdge]; exact Nat.lt_trans ht hlt) (by simp)
  have hnext := hsecond.withCurrent (some b.blocks.size) ?_
  · rw [Option.map_some, h.heir_size] at hnext
    unfold FlowBuilder.fork
    have hedge : Edge.rename ρ ⟨b.blocks.size, .fallThrough⟩ =
        ⟨b'.blocks.size, .fallThrough⟩ := by
      rw [Edge.rename, h.size]
    rw [hedge] at hnext
    exact hnext
  · rintro _ ⟨⟩
    rw [size_addEdge, size_addEdge]
    exact hlt

theorem branchTo (h : Cut ρ cut fresh unused b b') (hs : s < b.blocks.size)
    (hl : l ≠ unused) :
    Cut ρ cut fresh unused (FlowBuilder.branchTo s b l)
      (FlowBuilder.branchTo (heir ρ cut fresh s) b' l) := by
  obtain ⟨hat, htarget⟩ := h.blockAt hl
  have hreached := h.sound.blockAt l
  have hedge := hat.addEdge (e := ⟨(b.blockAt l).2, .branch⟩)
    (Nat.lt_of_lt_of_le hs hreached.grown) hreached.lt (by simp)
  unfold FlowBuilder.branchTo
  dsimp only
  rw [htarget]
  exact hedge

theorem foldl_branchTo (labels : List Label) (h : Cut ρ cut fresh unused b b')
    (hs : s < b.blocks.size) (hlabels : ∀ l ∈ labels, l ≠ unused) :
    Cut ρ cut fresh unused (labels.foldl (FlowBuilder.branchTo s) b)
      (labels.foldl (FlowBuilder.branchTo (heir ρ cut fresh s)) b') := by
  induction labels generalizing b b' with
  | nil => exact h
  | cons l labels ih =>
      have hgrown := (h.sound.branched_branchTo hs l).grown.size_le
      exact ih (h.branchTo hs (hlabels l List.mem_cons_self))
        (Nat.lt_of_lt_of_le hs hgrown) fun k hk =>
        hlabels k (List.mem_cons_of_mem _ hk)

/-- A label that is placed: not the unused one, and not that of the block that
is cut. Whatever else happens, the block of the label is current at the end. -/
theorem label (h : Cut ρ cut fresh unused b b') (hl : l ≠ unused)
    (hcut : ∀ c, cut = some c → b.labelled.lookup l ≠ some c) :
    Cut ρ cut fresh unused (b.step (.label l)) (b'.step (.label l)) := by
  obtain ⟨hat, htarget⟩ := h.blockAt hl
  have hreached := h.sound.blockAt l
  have hne : cut ≠ some (b.blockAt l).2 := by
    intro hc
    rcases (h.sound.grown_blockAt l).fresh l _ (b.lookup_blockAt_self l) with
      hold | hnew
    · exact hcut _ hc hold
    · exact Nat.not_lt.2 hnew (h.cut_lt _ hc)
  have hheir : heir ρ cut fresh (b.blockAt l).2 = (b'.blockAt l).2 := by
    rw [heir, if_neg hne, htarget]
  have hcurrent : ∀ {next next' : FlowBuilder},
      Cut ρ cut fresh unused next next' →
      (b.blockAt l).2 < next.blocks.size →
      Cut ρ cut fresh unused { next with current := some (b.blockAt l).2 }
        { next' with current := some (b'.blockAt l).2 } := by
    intro next next' hnext hlt
    rw [← hheir]
    refine hnext.withCurrent (some (b.blockAt l).2) ?_
    rintro _ ⟨⟩
    exact hlt
  cases hs : b.current with
  | none =>
      rw [step_label_of_none hs, step_label_of_none (h.current_none hs)]
      exact hcurrent hat hreached.lt
  | some s =>
      have hs' := h.current_some hs
      by_cases heq : s = (b.blockAt l).2
      · have heq' : heir ρ cut fresh s = (b'.blockAt l).2 := by rw [heq, hheir]
        rw [step_label_of_eq (heq ▸ hs), step_label_of_eq (heq' ▸ hs')]
        exact hcurrent hat hreached.lt
      · have heq' : heir ρ cut fresh s ≠ (b'.blockAt l).2 := by
          rw [heir, htarget]
          split
          · next hc => exact (h.fresh_ne s hc _).symm
          · exact fun hρ => heq (h.mono.injective hρ)
        have hlt := Nat.lt_of_lt_of_le (h.sound.current s hs) hreached.grown
        have hedge := hat.addEdge (e := ⟨(b.blockAt l).2, .fallThrough⟩) hlt
          hreached.lt (by simp)
        rw [Edge.rename, ← htarget] at hedge
        rw [step_label_of_some hs heq, step_label_of_some hs' heq']
        exact hcurrent hedge (by rw [size_addEdge]; exact hreached.lt)

/-! ## One event, all events -/

theorem step_of_current (h : Cut ρ cut fresh unused b b')
    (hs : b.current = some s) {e : FlowEvent} (hacts : e.acts = true)
    (hlabels : unused ∉ e.labels) :
    Cut ρ cut fresh unused (b.step e) (b'.step e) := by
  have hlt := h.sound.current s hs
  have hensured := ensureCurrent_of_some hs
  have hensured' := ensureCurrent_of_some (h.current_some hs)
  have hne : ∀ l ∈ e.labels, l ≠ unused := fun l hl heq => hlabels (heq ▸ hl)
  cases e with
  | op o => exact h.addOp hs o
  | label _ => cases hacts
  | protect _ _ _ => cases hacts
  | branch target =>
      obtain ⟨hat, htarget⟩ := h.blockAt (hne target List.mem_cons_self)
      have hreached := h.sound.blockAt target
      unfold FlowBuilder.step
      rw [hensured, hensured']
      dsimp only
      rw [htarget]
      exact hat.fork (Nat.lt_of_lt_of_le hlt hreached.grown) hreached.lt
  | jump target =>
      have hbranch := h.branchTo hlt (hne target List.mem_cons_self)
      unfold FlowBuilder.step
      rw [hensured, hensured']
      exact hbranch.withCurrent none (by simp)
  | subroutine target r =>
      have htarget := hne target List.mem_cons_self
      have hreached : Reached (fun _ => True) b (b.seed target r) :=
        h.sound.seed target trivial
      unfold FlowBuilder.step
      rw [hensured, hensured']
      dsimp only
      rw [seed_snd b', (h.blockAt htarget).2, ← b.seed_snd target r]
      exact (h.seed htarget r).fork
        (Nat.lt_of_lt_of_le hlt hreached.grown) hreached.lt
  | switch default cases =>
      have hbranches := h.foldl_branchTo (cases ++ [default]) hlt hne
      unfold FlowBuilder.step
      rw [hensured, hensured']
      exact hbranches.withCurrent none (by simp)

theorem step (h : Cut ρ cut fresh unused b b') {e : FlowEvent}
    (hlabels : unused ∉ e.labels) (hprotect : e.isProtect = false)
    (hcut : ∀ l c, e = .label l → cut = some c → b.labelled.lookup l ≠ some c) :
    Cut ρ cut fresh unused (b.step e) (b'.step e) := by
  by_cases hacts : e.acts = true
  · rw [← b.step_ensureCurrent hacts, ← b'.step_ensureCurrent hacts]
    exact h.ensureCurrent.step_of_current b.current_ensureCurrent hacts hlabels
  · cases e with
    | label l =>
        have hne : l ≠ unused := fun heq => hlabels (heq ▸ List.mem_cons_self)
        exact h.label hne fun c hc => hcut l c rfl hc
    | protect _ _ _ => cases hprotect
    | op _ | branch _ | jump _ | subroutine _ _ | switch _ _ =>
        exact absurd rfl hacts

theorem run {events : List FlowEvent} (h : Cut ρ cut fresh unused b b')
    (hevents : ∀ e ∈ events, unused ∉ e.labels ∧ e.isProtect = false)
    (hcut : ∀ l c, .label l ∈ events → cut = some c →
      b.labelled.lookup l ≠ some c) :
    Cut ρ cut fresh unused (b.run events) (b'.run events) := by
  induction events generalizing b b' with
  | nil => exact h
  | cons e events ih =>
      obtain ⟨hlabels, hprotect⟩ := hevents e List.mem_cons_self
      rw [run_cons, run_cons]
      refine ih (h.step hlabels hprotect ?_)
        (fun e' he' => hevents e' (List.mem_cons_of_mem _ he')) ?_
      · rintro l c rfl hc
        exact hcut l c List.mem_cons_self hc
      · intro l c hl hc hlookup
        rcases (h.sound.grown_step e).fresh l c hlookup with hold | hnew
        · exact hcut l c (List.mem_cons_of_mem _ hl) hc hold
        · exact Nat.not_lt.2 hnew (h.cut_lt c hc)

/-- What is cut on the way is cut in the graphs. -/
theorem graph (h : Cut ρ cut fresh unused b b')
    (hentry : ρ FlowGraph.entry = FlowGraph.entry) :
    FlowGraph.Cut ρ cut fresh b.graph b'.graph where
  injective := h.mono.injective
  entry := hentry
  size c := by
    show ρ c < b'.blocks.size ↔ c < b.blocks.size
    rw [h.size]
    exact h.mono.lt_iff_lt
  cut_lt := h.cut_lt
  other := h.other
  halves := h.halves
  fresh_ne := h.fresh_ne
  fresh_lt := h.fresh_lt

end Cut

/-! ## The label itself -/

/-- The names of blocks when one is put in as block `n`. -/
def shift (n c : Nat) : Nat := if c < n then c else c + 1

theorem shift_of_lt {n c : Nat} (h : c < n) : shift n c = c := if_pos h

theorem shift_of_le {n c : Nat} (h : n ≤ c) : shift n c = c + 1 :=
  if_neg (Nat.not_lt.2 h)

theorem shift_ne (n c : Nat) : shift n c ≠ n := by
  unfold shift
  split <;> omega

theorem strictMono_shift (n : Nat) : StrictMono (shift n) := by
  intro c d hcd
  unfold shift
  split <;> split <;> omega

variable {done ahead : List FlowEvent} {b : FlowBuilder}
  {c : BlockId} {l : Label}

theorem blockAt_of_none (h : b.labelled.lookup l = none) :
    b.blockAt l =
      ({ b.addBlock.1 with labelled := (l, b.blocks.size) :: b.labelled },
      b.blocks.size) := by
  unfold blockAt
  rw [h]
  rfl

theorem Sound.target_lt {P : StackOp → Prop} (h : Sound P b) {e : Edge}
    (he : e ∈ (b.block c).successors) : e.target < b.blocks.size := by
  rcases b.graph.block_mem_or_eq c with hblock | hempty
  · exact h.edges _ hblock e he
  · rw [block, hempty] at he
    cases he

/-- A block that is put in behind all others renames nothing that is there. -/
theorem Sound.rename_block {P : StackOp → Prop} (h : Sound P b)
    (hc : c < b.blocks.size) :
    (b.block c).rename (shift b.blocks.size) = b.block c := by
  refine Block.rename_of_lt (fun _ => shift_of_lt) ?_ fun _ => h.target_lt
  rw [h.id_block c, shift_of_lt hc]

theorem Sound.block_shift {P : StackOp → Prop} (h : Sound P b) (c : BlockId) :
    b.block (shift b.blocks.size c) =
      (b.block c).rename (shift b.blocks.size) := by
  by_cases hc : c < b.blocks.size
  · rw [h.rename_block hc, shift_of_lt hc]
  · have hle := Nat.not_lt.1 hc
    rw [block_of_le hle, shift_of_le hle, block_of_le (Nat.le_succ_of_le hle),
      Block.rename, shift_of_le hle]
    rfl

theorem Sound.lookup_shift {P : StackOp → Prop} (h : Sound P b) {k : Label}
    (hk : k ≠ l) :
    ((l, b.blocks.size) :: b.labelled).lookup k =
      (b.labelled.lookup k).map (shift b.blocks.size) := by
  rw [List.lookup_cons, beq_false_of_ne hk]
  cases hlookup : b.labelled.lookup k with
  | none => rfl
  | some c => rw [Option.map_some, shift_of_lt (h.lookup_lt hlookup)]

/-- An open block, cut at its end: the back is empty. -/
theorem Open.halves {P : StackOp → Prop} (h : b.Open c) (hsound : Sound P b)
    (hc : c < b.blocks.size) :
    Block.Halves (shift b.blocks.size) b.blocks.size (b.block c)
      ((b.block c).withEdge ⟨b.blocks.size, .fallThrough⟩)
        { id := b.blocks.size } := by
  have hexits := Block.exits_of_unlinked h.unlinked
  have hcaught : (b.block c).caught = (b.block c).successors := by
    rw [Block.caught, List.filter_eq_self]
    intro e he
    by_contra hkind
    exact h.unlinked e.target ⟨e, he, by simpa using hkind, rfl⟩
  have hnew : ¬ (b.block c).successors.contains ⟨b.blocks.size, .fallThrough⟩ =
      true := by
    rw [List.contains_iff_mem]
    exact fun he => Nat.lt_irrefl _ (hsound.target_lt he)
  have hsame : (b.block c).successors.map (Edge.rename (shift b.blocks.size)) =
      (b.block c).successors :=
    congrArg Block.successors (hsound.rename_block hc)
  refine ⟨by simp, ?_, ?_, ?_, h.running.symm⟩
  · rw [hexits, hcaught, List.append_nil]
  · rw [hcaught, hsame, Block.withEdge, h.running, Bool.false_or, if_neg hnew]
  · rw [hexits]
    rfl

/-- A label that code can come to cuts the current block. -/
theorem Ready.cut_label (h : Ready done ahead b) (hc : b.current = some c)
    (hl : b.labelled.lookup l = none) :
    Cut (shift b.blocks.size) (some c) b.blocks.size l b
      (b.step (.label l)) := by
  obtain ⟨hopen, _⟩ := h.current c hc
  have hlt := h.sound.current c hc
  have hat := blockAt_of_none hl
  have hne : c ≠ (b.blockAt l).2 := by
    rw [hat]
    exact Nat.ne_of_lt hlt
  have hblock : ∀ d, (b.step (.label l)).block d =
      if d = c then (b.block d).withEdge ⟨b.blocks.size, .fallThrough⟩
      else b.block d := by
    intro d
    rw [step_label_of_some hc hne, ← b.block_blockAt l, hat]
    exact block_addEdge (Nat.lt_trans hlt (by simp)) _
  have hsize : (b.step (.label l)).blocks.size = b.blocks.size + 1 := by
    rw [step_label_of_some hc hne, hat]
    exact (size_addEdge _ _ _).trans b.size_addBlock
  refine ⟨h.sound, h.sound.step _ fun _ _ => trivial, strictMono_shift _, ?_,
    ?_, ?_, ?_, ?_, ?_, ?_, ?_, ?_, ?_⟩
  · rw [hsize, shift_of_le (Nat.le_refl _)]
  · intro n hn
    rw [shift_of_le hn, shift_of_le (Nat.le_succ_of_le hn)]
  · rintro _ ⟨⟩
    exact hlt
  · intro _ _ d
    exact shift_ne _ d
  · intro _ _
    rw [hsize]
    exact Nat.lt_succ_self _
  · intro k hk
    rw [step_label_of_some hc hne, hat]
    exact h.sound.lookup_shift hk
  · rw [step_label_of_some hc hne, hat]
    rfl
  · rw [step_label_of_some hc hne, hat, hc, Option.map_some, heir, if_pos rfl]
  · intro d hd
    have hne' : shift b.blocks.size d ≠ c := by
      intro heq
      rw [← shift_of_lt hlt] at heq
      exact hd (congrArg some ((strictMono_shift _).injective heq).symm)
    rw [hblock, if_neg hne', h.sound.block_shift]
  · rintro _ ⟨⟩
    rw [hblock, hblock, shift_of_lt hlt, if_pos rfl, if_neg (Nat.ne_of_gt hlt),
      block_of_le (Nat.le_refl _)]
    exact hopen.halves h.sound hlt

/-- A label that no code can come to makes a block that nothing leads to. -/
theorem Sound.cut_blockAt (h : Sound (fun _ => True) b) (hc : b.current = none)
    (hl : b.labelled.lookup l = none) :
    Cut (shift b.blocks.size) none b.blocks.size l b (b.blockAt l).1 := by
  have hat := blockAt_of_none hl
  refine ⟨h, (h.blockAt l).sound, strictMono_shift _, ?_, ?_, ?_, ?_, ?_, ?_,
    ?_, ?_, ?_, ?_⟩
  · rw [hat, shift_of_le (Nat.le_refl _)]
    exact b.size_addBlock
  · intro n hn
    rw [shift_of_le hn, shift_of_le (Nat.le_succ_of_le hn)]
  · simp
  · simp
  · simp
  · intro k hk
    rw [hat]
    exact h.lookup_shift hk
  · rw [seeded_blockAt]
  · rw [current_blockAt, hc]
    rfl
  · intro d _
    rw [block_blockAt, h.block_shift]
  · simp

/-- Code behind such a label goes into the block that it would have started
itself. -/
theorem Sound.cut_ensureCurrent (h : Sound (fun _ => True) b)
    (hc : b.current = none) (hl : b.labelled.lookup l = none) :
    Cut id none b.blocks.size l b.ensureCurrent.1 (b.step (.label l)) := by
  have hat := blockAt_of_none hl
  have hstep := step_label_of_none hc l
  rw [hat] at hstep
  have hensured := ensureCurrent_of_none hc
  refine ⟨h.ensureCurrent.sound, h.step _ fun _ _ => trivial, strictMono_id, ?_,
    ?_, ?_, ?_, ?_, ?_, ?_, ?_, ?_, ?_⟩
  · rw [hstep, hensured]
    rfl
  · intro n _
    rfl
  · simp
  · simp
  · simp
  · intro k hk
    rw [hstep, labelled_ensureCurrent, Option.map_id]
    show ((l, b.blocks.size) :: b.labelled).lookup k = _
    rw [List.lookup_cons, beq_false_of_ne hk]
    rfl
  · rw [hstep, seeded_ensureCurrent]
    rfl
  · rw [hstep, hensured]
    rfl
  · intro d _
    have hrename : (b.block d).rename id = b.block d :=
      Block.rename_of_lt (fun _ _ => rfl) rfl fun _ => h.target_lt
    rw [block_ensureCurrent, hrename, step_label_of_none hc]
    exact b.block_blockAt l
  · simp

/-- An edge from a block that stands for none changes no cut. -/
theorem Cut.addEdge_spare {ρ : BlockId → BlockId} {fresh s : BlockId}
    {unused : Label} {b b' : FlowBuilder} (h : Cut ρ none fresh unused b b')
    (hs : ∀ d, ρ d ≠ s) (hlt : s < b'.blocks.size) {e : Edge}
    (he : e.target < b'.blocks.size) :
    Cut ρ none fresh unused b (b'.addEdge s e) where
  sound := h.sound
  sound' := h.sound'.addEdge s he
  mono := h.mono
  size := (size_addEdge b' s e).trans h.size
  succ := h.succ
  cut_lt := h.cut_lt
  fresh_ne := h.fresh_ne
  fresh_lt := by simp
  labelled := h.labelled
  seeded := h.seeded
  current := h.current
  other d hd := by rw [block_addEdge hlt, if_neg (hs d), h.other d hd]
  halves := by simp

theorem blockAt_withCurrent (b : FlowBuilder) (current : Option BlockId)
    (k : Label) :
    FlowBuilder.blockAt { b with current := current } k =
      ({ (b.blockAt k).1 with current := current }, (b.blockAt k).2) := by
  unfold blockAt
  dsimp only
  split <;> rfl

/-- A second label right behind such a label. Only the new block has an edge
more than if the first label were not there. -/
theorem Sound.cut_label_label (h : Sound (fun _ => True) b)
    (hc : b.current = none) (hl : b.labelled.lookup l = none) {k : Label}
    (hk : k ≠ l) :
    Cut (shift b.blocks.size) none b.blocks.size l (b.step (.label k))
      ((b.step (.label l)).step (.label k)) := by
  have hat := h.cut_blockAt hc hl
  have hnone : (b.blockAt l).1.current = none := by rw [current_blockAt, hc]
  have hlabel := hat.label hk (by simp)
  have htarget := (hat.blockAt hk).2
  have hsecond := hat.sound'.blockAt k
  have hfirst : b.step (.label l) =
      { (b.blockAt l).1 with current := some b.blocks.size } := by
    rw [step_label_of_none hc, blockAt_of_none hl]
  have hne : b.blocks.size ≠ ((b.step (.label l)).blockAt k).2 := by
    rw [hfirst, blockAt_withCurrent]
    show b.blocks.size ≠ ((b.blockAt l).1.blockAt k).2
    rw [htarget]
    exact (shift_ne _ _).symm
  have hedge : (b.step (.label l)).step (.label k) =
      ((b.blockAt l).1.step (.label k)).addEdge b.blocks.size
        ⟨((b.blockAt l).1.blockAt k).2, .fallThrough⟩ := by
    rw [step_label_of_some (by rw [hfirst]) hne, step_label_of_none hnone,
      hfirst, blockAt_withCurrent]
    rfl
  have hgrown := (hat.sound'.grown_step (.label k)).size_le
  have hlt : b.blocks.size < (b.blockAt l).1.blocks.size := by
    rw [blockAt_of_none hl]
    exact b.size_addBlock ▸ Nat.lt_succ_self _
  rw [hedge]
  refine hlabel.addEdge_spare (shift_ne _) (Nat.lt_of_lt_of_le hlt hgrown) ?_
  rw [step_label_of_none hnone]
  exact hsecond.lt

/-- **A label that nothing names cuts the graph.** -/
theorem Ready.exists_cut (h : Ready done ahead b)
    (hsize : 0 < b.blocks.size) (hl : b.labelled.lookup l = none)
    (hahead : ∀ e ∈ ahead, l ∉ e.labels ∧ e.isProtect = false) :
    ∃ ρ cut fresh, FlowGraph.Cut ρ cut fresh (b.run ahead).graph
      ((b.step (.label l)).run ahead).graph := by
  have hentry : shift b.blocks.size FlowGraph.entry = FlowGraph.entry :=
    shift_of_lt hsize
  cases hc : b.current with
  | some c =>
      have hcut := (h.cut_label hc hl).run hahead fun k d hk hd =>
        Option.some.inj hd ▸ (h.current c hc).2 k hk
      exact ⟨_, _, _, hcut.graph hentry⟩
  | none =>
      cases ahead with
      | nil =>
          have hcut := (h.sound.cut_blockAt hc hl).graph hentry
          rw [run_nil, run_nil, step_label_of_none hc]
          exact ⟨_, _, _, hcut⟩
      | cons e ahead =>
          by_cases hacts : e.acts = true
          · have hcut := (h.sound.cut_ensureCurrent hc hl).run hahead (by simp)
            rw [run_cons, b.step_ensureCurrent hacts] at hcut
            exact ⟨_, _, _, hcut.graph rfl⟩
          · obtain ⟨hlabels, hprotect⟩ := hahead e List.mem_cons_self
            cases e with
            | label k =>
                have hk : k ≠ l := fun heq => hlabels (heq ▸ List.mem_cons_self)
                have hcut :=
                  (h.sound.cut_label_label hc hl hk).run (fun e' he' =>
                  hahead e' (List.mem_cons_of_mem _ he')) (by simp)
                exact ⟨_, _, _, hcut.graph hentry⟩
            | protect _ _ _ => cases hprotect
            | op _ | branch _ | jump _ | subroutine _ _ | switch _ _ =>
                exact absurd rfl hacts

/-! ## Labels that are not named -/

theorem lookup_blockAt_of_ne (b : FlowBuilder) {k l : Label} (hk : k ≠ l) :
    (b.blockAt l).1.labelled.lookup k = b.labelled.lookup k := by
  cases hl : b.labelled.lookup l with
  | some c =>
      unfold blockAt
      rw [hl]
  | none =>
      rw [blockAt_of_none hl]
      show ((l, b.blocks.size) :: b.labelled).lookup k = _
      rw [List.lookup_cons, beq_false_of_ne hk]

theorem lookup_foldl_branchTo (labels : List Label) (b : FlowBuilder)
    (s : BlockId) {k : Label} (hk : k ∉ labels) :
    (labels.foldl (branchTo s) b).labelled.lookup k = b.labelled.lookup k := by
  induction labels generalizing b with
  | nil => rfl
  | cons l labels ih =>
      rw [List.mem_cons, not_or] at hk
      rw [List.foldl_cons, ih _ hk.2]
      exact b.lookup_blockAt_of_ne hk.1

/-- An event gives blocks to the labels that it names only. -/
theorem lookup_step_of_not_mem (b : FlowBuilder) {e : FlowEvent} {k : Label}
    (hk : k ∉ e.labels) :
    (b.step e).labelled.lookup k = b.labelled.lookup k := by
  cases e with
  | op o =>
      show b.ensureCurrent.1.labelled.lookup k = _
      rw [labelled_ensureCurrent]
  | branch target =>
      have hne : k ≠ target := by simpa [FlowEvent.labels] using hk
      show (b.ensureCurrent.1.blockAt target).1.labelled.lookup k = _
      rw [lookup_blockAt_of_ne _ hne, labelled_ensureCurrent]
  | jump target =>
      have hne : k ≠ target := by simpa [FlowEvent.labels] using hk
      show (b.ensureCurrent.1.blockAt target).1.labelled.lookup k = _
      rw [lookup_blockAt_of_ne _ hne, labelled_ensureCurrent]
  | subroutine target r =>
      have hne : k ≠ target := by simpa [FlowEvent.labels] using hk
      show (b.ensureCurrent.1.seed target r).1.labelled.lookup k = _
      rw [labelled_seed, lookup_blockAt_of_ne _ hne, labelled_ensureCurrent]
  | switch default cases =>
      rw [← b.labelled_ensureCurrent]
      exact lookup_foldl_branchTo (cases ++ [default]) b.ensureCurrent.1 _ hk
  | label l =>
      have hne : k ≠ l := by simpa [FlowEvent.labels] using hk
      rw [← b.lookup_blockAt_of_ne hne]
      unfold step
      dsimp only
      split
      · split <;> rfl
      · rfl
  | protect start handler exception =>
      have hne : k ≠ start ∧ k ≠ handler := by simpa [FlowEvent.labels] using hk
      show ((b.blockAt start).1.seed handler exception).1.labelled.lookup k = _
      rw [labelled_seed, lookup_blockAt_of_ne _ hne.2,
        lookup_blockAt_of_ne _ hne.1]

theorem lookup_run_of_not_mem (events : List FlowEvent) (b : FlowBuilder)
    {k : Label} (hk : ∀ e ∈ events, k ∉ e.labels) :
    (b.run events).labelled.lookup k = b.labelled.lookup k := by
  induction events generalizing b with
  | nil => rfl
  | cons e events ih =>
      rw [run_cons, ih _ fun e' he' => hk e' (List.mem_cons_of_mem _ he')]
      exact b.lookup_step_of_not_mem (hk e List.mem_cons_self)

end FlowBuilder

/-- Placing a label that nothing names, behind all protected ranges, cuts the
graph of the events. -/
theorem FlowGraph.exists_cut_ofEvents {before after : List FlowEvent}
    {l : Label} (honce : FlowEvent.PlacedOnce (before ++ after))
    (hunused : ∀ e ∈ before ++ after, l ∉ e.labels)
    (hprotect : ∀ e ∈ after, e.isProtect = false) :
    ∃ ρ cut fresh, Cut ρ cut fresh (ofEvents (before ++ after))
      (ofEvents (before ++ .label l :: after)) := by
  have hready := (FlowBuilder.ready_start (before ++ after)).run honce
  have hlookup : (FlowBuilder.start.run before).labelled.lookup l = none :=
    FlowBuilder.lookup_run_of_not_mem before _ fun e he =>
    hunused e (List.mem_append_left _ he)
  have hsize :=
    ((FlowBuilder.sound_start fun _ => True).grown_run before).size_le
  have hcut := hready.exists_cut hsize hlookup fun e he =>
    ⟨hunused e (List.mem_append_right _ he), hprotect e he⟩
  rw [ofEvents, ofEvents, FlowBuilder.run_append, FlowBuilder.run_append,
    FlowBuilder.run_cons]
  exact hcut

end TestCost
