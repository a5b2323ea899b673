import TestCost.Proofs.Flow.Growth

/-!
# What events say about the finished graph

The builder makes blocks before their code is met, closes them by jumps of
several kinds, and puts seeds in front of them at any time. This module gives
the outcome without the builder: what is left of a block from some point on is
what the events from some position on say (`Follows`).

A block goes through three states. It waits while it is owned by a label that
is still ahead, and holds at most a seed then. It is current while the builder
comes through its code. After that it is closed, and takes nothing more but a
seed and handlers. `Ready` says this of a builder with some events done and some
ahead; it needs that no label is placed twice, since a second placing would
open a closed block again.

## Main results

* `Ready.step` — one event keeps the states of all blocks.
* `Ready.closed` — closed blocks stay as they are.
* `Ready.ending`, `Ready.forking` — events that end the current block, and
  events that fork there.
* `Ready.follows` — the events ahead complete the current block.
* `described_run` — a finished graph is what its events say.
-/

namespace TestCost

/-- The label that is placed by the event. -/
def FlowEvent.placed? : FlowEvent → Option Label
  | .label l => some l
  | .op _ | .branch _ | .jump _ | .subroutine _ _ | .switch _ _
  | .protect _ _ _ => none

/-- No label is placed twice. -/
def FlowEvent.PlacedOnce (events : List FlowEvent) : Prop :=
  (events.filterMap FlowEvent.placed?).Nodup

theorem FlowEvent.PlacedOnce.tail {e : FlowEvent} {events : List FlowEvent}
    (h : PlacedOnce (e :: events)) : PlacedOnce events :=
  h.sublist ((List.sublist_cons_self e events).filterMap _)

theorem FlowEvent.PlacedOnce.not_mem {l : Label} {events : List FlowEvent}
    (h : PlacedOnce (.label l :: events)) : .label l ∉ events := by
  intro hmem
  have hcons : (l :: events.filterMap placed?).Nodup := h
  exact (List.nodup_cons.1 hcons).1 (List.mem_filterMap.2 ⟨_, hmem, rfl⟩)

theorem FlowEvent.PlacedOnce.of_append {first second : List FlowEvent}
    (h : PlacedOnce (first ++ second)) : PlacedOnce second :=
  h.sublist ((List.sublist_append_right first second).filterMap _)

namespace FlowBuilder

/-- What is left of block `c`, the operations `left` and the ways out, is what
the events say. -/
def Follows (b : FlowBuilder) (c : BlockId) (left : List StackOp) :
    List FlowEvent → Prop
  | [] => left = [] ∧ ∀ t, ¬ (b.block c).Exits t
  | .op o :: ahead =>
    if o.isTerminal then left = [o] ∧ ∀ t, ¬ (b.block c).Exits t
    else ∃ left', left = o :: left' ∧ b.Follows c left' ahead
  | .branch target :: ahead | .subroutine target _ :: ahead =>
    left = [] ∧ ∃ next,
      (∀ t, (b.block c).Exits t ↔
        t = next ∨ b.labelled.lookup target = some t) ∧
      b.Follows next (b.block next).ops ahead
  | .jump target :: _ =>
    left = [] ∧ ∀ t, (b.block c).Exits t ↔ b.labelled.lookup target = some t
  | .switch default cases :: _ =>
    left = [] ∧ ∀ t, (b.block c).Exits t ↔
      ∃ label ∈ cases ++ [default], b.labelled.lookup label = some t
  | .label label :: _ =>
    left = [] ∧ ∀ t, (b.block c).Exits t ↔ b.labelled.lookup label = some t
  | .protect _ _ _ :: ahead => b.Follows c left ahead

/-- The graph is what the events say, from the entry and from every label on. -/
structure Described (events : List FlowEvent) (b : FlowBuilder) : Prop where
  entry : b.Follows FlowGraph.entry (b.block FlowGraph.entry).ops events
  label : ∀ before label after, events = before ++ .label label :: after →
    ∃ c left, b.labelled.lookup label = some c ∧
      (b.block c).ops = (FlowEvent.firstSeed events label).toList ++ left ∧
        b.Follows c left after

/-! ## States of blocks -/

/-- Control does not leave the block yet. -/
structure Open (b : FlowBuilder) (c : BlockId) : Prop where
  running : (b.block c).isTerminal = false
  unlinked : ∀ t, ¬ (b.block c).Exits t

/-- What holds of a builder with the events `done` behind it and the events
`ahead` to come. -/
structure Ready (done ahead : List FlowEvent) (b : FlowBuilder) : Prop where
  sound : Sound (fun _ => True) b
  distinct : b.Distinct
  seeded : ∀ l, l ∈ b.seeded ↔ (FlowEvent.firstSeed done l).isSome
  named : ∀ l ∈ b.seeded, (b.labelled.lookup l).isSome
  current : ∀ c, b.current = some c →
    b.Open c ∧ ∀ l, .label l ∈ ahead → b.labelled.lookup l ≠ some c
  waiting : ∀ l c, .label l ∈ ahead → b.labelled.lookup l = some c →
    b.Open c ∧ (b.block c).ops = (FlowEvent.firstSeed done l).toList

variable {done ahead : List FlowEvent} {b : FlowBuilder} {c : BlockId}
  {e : FlowEvent}

theorem Open.of_widened
    {b' : FlowBuilder} {front back : List StackOp} (h : b.Open c)
    (hwidened : Block.Widened front back (b.block c) (b'.block c)) :
    b'.Open c where
  running := hwidened.terminal.trans h.running
  unlinked t ht := h.unlinked t ((hwidened.exits t).1 ht)

theorem open_of_le (h : b.blocks.size ≤ c) : b.Open c := by
  refine ⟨?_, ?_⟩
  · rw [block_of_le h]
  · rw [block_of_le h]
    rintro t ⟨e, he, _⟩
    cases he

theorem Distinct.exists_own (h : b.Distinct) (c : BlockId) :
    ∃ own : Option Label, ∀ l, b.labelled.lookup l = some c ↔ own = some l := by
  by_cases hexists : ∃ l, b.labelled.lookup l = some c
  · obtain ⟨l, hl⟩ := hexists
    refine ⟨some l, fun l' => ⟨fun hl' => congrArg some (h l l' c hl hl'), ?_⟩⟩
    rintro ⟨⟩
    exact hl
  · refine ⟨none, fun l => ⟨fun hl => absurd ⟨l, hl⟩ hexists, ?_⟩⟩
    rintro ⟨⟩

theorem ready_start (events : List FlowEvent) : Ready [] events start where
  sound := sound_start _
  distinct := by
    intro l l' c hl
    cases hl
  seeded l := by simp [start, FlowEvent.firstSeed]
  named l hl := by cases hl
  current c hc := by
    obtain rfl := Option.some.inj hc
    refine ⟨⟨rfl, ?_⟩, ?_⟩
    · rintro t ⟨e, he, _⟩
      cases he
    · intro l _ hl
      cases hl
  waiting l c _ hl := by cases hl

theorem Ready.ensureCurrent (h : Ready done ahead b) :
    Ready done ahead b.ensureCurrent.1 := by
  cases hcurrent : b.current with
  | some c =>
      rw [ensureCurrent_of_some hcurrent]
      exact h
  | none =>
      have hopen : ∀ c, b.Open c → b.ensureCurrent.1.Open c := fun c hc =>
        hc.of_widened (.of_eq b.block_ensureCurrent)
      refine ⟨h.sound.ensureCurrent.sound, ?_, ?_, ?_, ?_, ?_⟩
      · exact h.sound.grown_ensureCurrent.distinct h.distinct
      · simpa using h.seeded
      · simpa using h.named
      · intro c hc
        rw [ensureCurrent_of_none hcurrent] at hc
        obtain rfl := Option.some.inj hc
        refine ⟨hopen _ (open_of_le (Nat.le_refl _)), ?_⟩
        intro l _ hl
        rw [labelled_ensureCurrent] at hl
        exact Nat.lt_irrefl _ (h.sound.lookup_lt hl)
      · intro l c hl hc
        rw [labelled_ensureCurrent] at hc
        obtain ⟨hwait, hops⟩ := h.waiting l c hl hc
        exact ⟨hopen c hwait, by rw [block_ensureCurrent, hops]⟩

/-- A label that is ahead waits even if no event has named it. -/
theorem Ready.waiting_of_le (h : Ready done ahead b) {l : Label}
    (hl : b.labelled.lookup l = none) (hc : b.blocks.size ≤ c) :
    b.Open c ∧ (b.block c).ops = (FlowEvent.firstSeed done l).toList := by
  have hseed : FlowEvent.firstSeed done l = none := by
    rw [← Option.not_isSome_iff_eq_none, ← h.seeded]
    intro hmem
    have := h.named l hmem
    rw [hl] at this
    cases this
  refine ⟨open_of_le hc, ?_⟩
  rw [block_of_le hc, hseed]
  rfl

/-- The block after a jump that may be passed is open, and no label owns it. -/
theorem Ready.open_fork (h : Ready done (e :: ahead) b) {source : BlockId}
    {next : FlowBuilder × BlockId} (hnext : Reached (fun _ => True) b next)
    (hsource : b.current = some source) (hc : next.1.blocks.size = c) :
    (next.1.fork source next.2).Open c ∧ ∀ l, .label l ∈ ahead →
      (next.1.fork source next.2).labelled.lookup l ≠ some c := by
  subst hc
  have hlt : source < next.1.blocks.size :=
    Nat.lt_of_lt_of_le (h.sound.current source hsource) hnext.grown
  have hblock := block_fork_of_ne next.2 hlt (Nat.ne_of_lt hlt).symm
  refine ⟨(open_of_le (Nat.le_refl _)).of_widened (.of_eq hblock), ?_⟩
  intro l _ hl
  exact Nat.lt_irrefl _ (hnext.sound.lookup_lt hl)

/-- An operation that code goes on after leaves the current block open. -/
theorem Open.addOp (hopen : b.Open c) (hc : b.current = some c)
    (hlt : c < b.blocks.size) {o : StackOp} (hterminal : ¬o.isTerminal = true) :
    (b.addOp o).Open c := by
  have hblock := block_addOp hc hlt o c
  rw [if_pos rfl] at hblock
  constructor
  · rw [hblock, hopen.running, Bool.false_or]
    exact eq_false_of_ne_true hterminal
  · intro t ht
    rw [hblock] at ht
    exact hopen.unlinked t ht

/-- A label that is not behind: its block waits when the next event comes, also
if the block is made by that event. -/
theorem Ready.waiting_of_step (h : Ready done (e :: ahead) b) {l : Label}
    (hl : .label l ∈ e :: ahead) (hc : (b.step e).labelled.lookup l = some c) :
    b.current ≠ some c ∧ b.Open c ∧ (b.block c).ops =
      (FlowEvent.firstSeed done l).toList := by
  have hgrown := h.sound.grown_step e
  rcases hgrown.fresh l c hc with hold | hle
  · exact ⟨fun hcurrent => (h.current c hcurrent).2 l hl hold,
      h.waiting l c hl hold⟩
  · have hnone : b.labelled.lookup l = none := by
      cases hlookup : b.labelled.lookup l with
      | none => rfl
      | some c' =>
          obtain rfl :=
            Option.some.inj ((hgrown.kept l c' hlookup).symm.trans hc)
          exact absurd (h.sound.lookup_lt hlookup) (Nat.not_lt.2 hle)
    refine ⟨?_, h.waiting_of_le hnone hle⟩
    intro hcurrent
    exact Nat.lt_irrefl _ (Nat.lt_of_lt_of_le (h.sound.current c hcurrent) hle)

/-- The seed of a label so far, and the one that events still bring. -/
theorem Ready.seedFrom_append (h : Ready done ahead b) (events : List FlowEvent)
    (l : Label) :
    b.seedFrom events (some l) ++ (FlowEvent.firstSeed done l).toList =
      (FlowEvent.firstSeed (done ++ events) l).toList := by
  rw [FlowEvent.firstSeed_append, seedFrom]
  cases hseed : FlowEvent.firstSeed done l with
  | none =>
      have hmem : l ∉ b.seeded := by simp [h.seeded, hseed]
      simp [hmem]
  | some op =>
      have hmem : l ∈ b.seeded := by simp [h.seeded, hseed]
      simp [hmem]

theorem Ready.eq_some_iff (h : Ready done (e :: ahead) b) {l : Label}
    (hl : (b.step e).labelled.lookup l = some c) (l' : Label) :
    (b.step e).labelled.lookup l' = some c ↔ some l = some l' := by
  constructor
  · intro hl'
    exact congrArg
      some ((h.sound.grown_step e).distinct h.distinct l l' c hl hl')
  · intro heq
    rw [← Option.some.inj heq]
    exact hl

/-- The block that an event makes current is open. -/
theorem Ready.current_of_step (h : Ready done (e :: ahead) b)
    (honce : FlowEvent.PlacedOnce (e :: ahead))
    (hacts : e.acts = true → b.current ≠ none)
    (hc : (b.step e).current = some c) :
    (b.step e).Open c ∧ ∀ l,
      .label l ∈ ahead → (b.step e).labelled.lookup l ≠ some c := by
  cases e with
  | op o =>
      obtain ⟨source, hsource⟩ := Option.ne_none_iff_exists'.1 (hacts rfl)
      obtain ⟨hopen, hwait⟩ := h.current source hsource
      have hcurrent := current_addOp hsource o
      by_cases hterminal : o.isTerminal = true
      · rw [if_pos hterminal] at hcurrent
        exact absurd (hcurrent.symm.trans hc) (by simp)
      · rw [if_neg hterminal] at hcurrent
        obtain rfl := Option.some.inj (hcurrent.symm.trans hc)
        have hlt := h.sound.current source hsource
        refine ⟨hopen.addOp hsource hlt hterminal, ?_⟩
        intro l hl
        have hlabelled : (b.step (.op o)).labelled = b.labelled :=
          b.labelled_ensureCurrent
        rw [hlabelled]
        exact hwait l (List.mem_cons_of_mem _ hl)
  | branch target =>
      obtain ⟨source, hsource⟩ := Option.ne_none_iff_exists'.1 (hacts rfl)
      unfold FlowBuilder.step at hc ⊢
      rw [ensureCurrent_of_some hsource] at hc ⊢
      exact h.open_fork (h.sound.blockAt target) hsource (Option.some.inj hc)
  | subroutine target r =>
      obtain ⟨source, hsource⟩ := Option.ne_none_iff_exists'.1 (hacts rfl)
      unfold FlowBuilder.step at hc ⊢
      rw [ensureCurrent_of_some hsource] at hc ⊢
      exact h.open_fork (h.sound.seed target trivial) hsource
        (Option.some.inj hc)
  | jump _ | switch _ _ => cases hc
  | label l =>
      have hl : (b.step (.label l)).labelled.lookup l = some c := by
        obtain rfl := Option.some.inj hc
        exact b.lookup_step_label l
      obtain ⟨hne, hopen, _⟩ := h.waiting_of_step List.mem_cons_self hl
      refine ⟨hopen.of_widened
        (h.sound.step_widened hacts hne (h.eq_some_iff hl)), ?_⟩
      intro l' hl' heq
      obtain rfl := Option.some.inj ((h.eq_some_iff hl l').1 heq)
      exact honce.not_mem hl'
  | protect start handler exception =>
      have hcurrent : b.current = some c :=
        (current_step_protect b start handler exception) ▸ hc
      obtain ⟨hopen, hwait⟩ := h.current c hcurrent
      have hgrown := h.sound.grown_step (.protect start handler exception)
      obtain ⟨own, hown⟩ := (hgrown.distinct h.distinct).exists_own c
      refine ⟨hopen.of_widened (h.sound.protect_widened hown), ?_⟩
      intro l hl heq
      rcases hgrown.fresh l c heq with hold | hle
      · exact hwait l (List.mem_cons_of_mem _ hl) hold
      · exact Nat.lt_irrefl _
          (Nat.lt_of_lt_of_le (h.sound.current c hcurrent) hle)

/-- One event, with a current block if it needs one. -/
theorem Ready.step_of_current (h : Ready done (e :: ahead) b)
    (honce : FlowEvent.PlacedOnce (e :: ahead))
    (hacts : e.acts = true → b.current ≠ none) :
    Ready (done ++ [e]) ahead (b.step e) where
  sound := h.sound.step e fun _ _ => trivial
  distinct := (h.sound.grown_step e).distinct h.distinct
  seeded l := by
    rw [h.sound.mem_seeded_step, h.seeded, FlowEvent.firstSeed_append,
      Option.isSome_or]
    simp
  named l hl := by
    rcases (h.sound.mem_seeded_step e l).1 hl with hl | hseed
    · obtain ⟨c, hc⟩ := Option.isSome_iff_exists.1 (h.named l hl)
      rw [(h.sound.grown_step e).kept l c hc]
      rfl
    · rw [FlowEvent.firstSeed_singleton] at hseed
      obtain ⟨op, hop⟩ := Option.isSome_iff_exists.1 hseed
      obtain ⟨⟨l', op'⟩, hs, hif⟩ := Option.bind_eq_some_iff.1 hop
      split at hif
      · next hl =>
        subst hl
        exact lookup_step_of_seed hs
      · cases hif
  current c hc := h.current_of_step honce hacts hc
  waiting l c hl hc := by
    obtain ⟨hne, hopen, hops⟩ :=
      h.waiting_of_step (List.mem_cons_of_mem _ hl) hc
    have hwidened := h.sound.step_widened hacts hne (h.eq_some_iff hc)
    refine ⟨hopen.of_widened hwidened, ?_⟩
    rw [hwidened.ops, List.append_nil, hops]
    exact h.seedFrom_append [e] l

theorem Ready.step (h : Ready done (e :: ahead) b)
    (honce : FlowEvent.PlacedOnce (e :: ahead)) :
    Ready (done ++ [e]) ahead (b.step e) := by
  by_cases hacts : e.acts = true
  · rw [← b.step_ensureCurrent hacts]
    apply h.ensureCurrent.step_of_current honce
    rw [current_ensureCurrent]
    simp
  · exact h.step_of_current honce fun h => absurd h hacts

theorem Ready.run {events : List FlowEvent} (h : Ready done (events ++ ahead) b)
    (honce : FlowEvent.PlacedOnce (events ++ ahead)) :
    Ready (done ++ events) ahead (b.run events) := by
  induction events generalizing done b with
  | nil =>
      rw [List.append_nil]
      exact h
  | cons e events ih =>
      have hrest := ih (h.step honce) honce.tail
      rwa [List.append_assoc] at hrest

/-! ## Blocks that are closed -/

/-- A block that is not current and that no label ahead will make current. -/
structure Closed (ahead : List FlowEvent) (b : FlowBuilder) (c : BlockId) :
    Prop where
  lt : c < b.blocks.size
  not_current : b.current ≠ some c
  not_ahead : ∀ l, .label l ∈ ahead → b.labelled.lookup l ≠ some c

theorem Ready.lookup_step_iff (h : Ready done (e :: ahead) b)
    (hlt : c < b.blocks.size) (l : Label) :
    (b.step e).labelled.lookup l = some c ↔ b.labelled.lookup l = some c := by
  have hgrown := h.sound.grown_step e
  constructor
  · intro hl
    rcases hgrown.fresh l c hl with hold | hle
    · exact hold
    · exact absurd hlt (Nat.not_lt.2 hle)
  · exact hgrown.kept l c

theorem Closed.step (hclosed : Closed (e :: ahead) b c)
    (h : Ready done (e :: ahead) b) :
    Closed ahead (b.step e) c where
  lt := Nat.lt_of_lt_of_le hclosed.lt (h.sound.grown_step e).size_le
  not_current hc := by
    rcases h.sound.current_step hc with hold | hle | ⟨l, rfl, hl⟩
    · exact hclosed.not_current hold
    · exact absurd hclosed.lt (Nat.not_lt.2 hle)
    · exact hclosed.not_ahead l List.mem_cons_self
        ((h.lookup_step_iff hclosed.lt l).1 hl)
  not_ahead l hl heq := hclosed.not_ahead l (List.mem_cons_of_mem _ hl)
    ((h.lookup_step_iff hclosed.lt l).1 heq)

/-- The events ahead leave a closed block as it is, its seed apart. -/
theorem Ready.closed
    (h : Ready done ahead b) (honce : FlowEvent.PlacedOnce ahead)
    (hclosed : Closed ahead b c) {own : Option Label}
    (hown : ∀ l, b.labelled.lookup l = some c ↔ own = some l) :
    Block.Widened (b.seedFrom ahead own) [] (b.block c)
      ((b.run ahead).block c) := by
  induction ahead generalizing done b with
  | nil =>
      rw [seedFrom_nil]
      exact .refl _
  | cons e ahead ih =>
      have hown' : ∀ l, (b.step e).labelled.lookup l = some c ↔ own = some l :=
        fun l => (h.lookup_step_iff hclosed.lt l).trans (hown l)
      have hfirst :=
        h.sound.step_widened_of_lt e hclosed.lt hclosed.not_current hown'
      have hrest := ih (h.step honce) honce.tail (hclosed.step h) hown'
      rw [h.sound.seedFrom_cons, run_cons]
      exact hfirst.trans hrest

/-! ## The current block -/

/-- A label that the next event names has its block for good. -/
theorem Ready.lookup_run_iff (h : Ready done (e :: ahead) b) {l : Label}
    {t : BlockId} (hl : (b.step e).labelled.lookup l = some t) (t' : BlockId) :
    (b.run (e :: ahead)).labelled.lookup l = some t' ↔ t' = t := by
  have hkept :=
    ((h.sound.step e fun _ _ => trivial).grown_run ahead).kept l t hl
  rw [run_cons, hkept, Option.some.injEq, eq_comm]

/-- The next event ends the current block: the block takes what the event
brings, and is closed then. -/
theorem Ready.closing
    (h : Ready done (e :: ahead) b) (honce : FlowEvent.PlacedOnce (e :: ahead))
    (hc : b.current = some c) {own : Option Label}
    (hown : ∀ l, b.labelled.lookup l = some c ↔ own = some l)
    (back : List StackOp)
    (hcurrent : (b.step e).current ≠ some c) (hops : ((b.step e).block c).ops =
      b.seedFrom [e] own ++ (b.block c).ops ++ back) :
    ((b.run (e :: ahead)).block c).ops =
        b.seedFrom (e :: ahead) own ++ (b.block c).ops ++ back ∧
      ∀ t, ((b.run (e :: ahead)).block c).Exits t ↔
        ((b.step e).block c).Exits t := by
  have hlt := h.sound.current c hc
  have hlookup := h.lookup_step_iff hlt
  have hclosed : Closed ahead (b.step e) c := by
    refine ⟨Nat.lt_of_lt_of_le hlt (h.sound.grown_step e).size_le, hcurrent, ?_⟩
    intro l hl heq
    exact (h.current c hc).2 l (List.mem_cons_of_mem _ hl) ((hlookup l).1 heq)
  have hwidened := (h.step honce).closed honce.tail hclosed fun l =>
    (hlookup l).trans (hown l)
  refine ⟨?_, hwidened.exits⟩
  rw [run_cons, hwidened.ops, hops, h.sound.seedFrom_cons e ahead own]
  simp

/-- The current block at a jump that may be passed. -/
theorem Open.exits_fork (hopen : b.Open c) {b' : FlowBuilder}
    {front : List StackOp}
    (hwidened : Block.Widened front [] (b.block c) (b'.block c))
    (hlt : c < b'.blocks.size) (target : BlockId) :
    ((b'.fork c target).block c).ops = front ++ (b.block c).ops ∧
      ∀ t, ((b'.fork c target).block c).Exits t ↔
        t = b'.blocks.size ∨ t = target := by
  have hopen' : b'.Open c := hopen.of_widened hwidened
  refine ⟨?_, ?_⟩
  · rw [block_fork_self hlt, Block.ops_withEdge, Block.ops_withEdge,
      hwidened.ops, List.append_nil]
  · intro t
    rw [FlowBuilder.exits_fork hlt hopen'.running]
    constructor
    · rintro (ht | ht)
      · exact absurd ht (hopen'.unlinked t)
      · exact ht
    · exact .inr

/-- The events complete block `c`, whose label is `own` if it has one: besides
the seed they bring what they say. -/
def Completes (b : FlowBuilder) (c : BlockId) (own : Option Label)
    (ahead : List FlowEvent) : Prop :=
  ∃ left, ((b.run ahead).block c).ops =
      b.seedFrom ahead own ++ (b.block c).ops ++ left ∧
    (b.run ahead).Follows c left ahead

/-- The next event leaves the block current, and those behind it complete it. -/
theorem Ready.continuing (h : Ready done (e :: ahead) b) {own : Option Label}
    {back : List StackOp}
    (hops : ((b.step e).block c).ops =
      b.seedFrom [e] own ++ (b.block c).ops ++ back)
    (hrest : (b.step e).Completes c own ahead) :
    ∃ left, ((b.run (e :: ahead)).block c).ops =
        b.seedFrom (e :: ahead) own ++ (b.block c).ops ++ (back ++ left) ∧
      (b.run (e :: ahead)).Follows c left ahead := by
  obtain ⟨left, hleft, hfollows⟩ := hrest
  refine ⟨left, ?_, hfollows⟩
  rw [run_cons, hleft, hops, h.sound.seedFrom_cons e ahead own]
  simp

/-- The event ends the current block `c`: it brings the operations `back`, and
control goes on at `labels`. -/
structure Ends (b : FlowBuilder) (e : FlowEvent) (c : BlockId)
    (back : List StackOp) (labels : List Label) : Prop where
  unseeded : e.seed? = none
  current : (b.step e).current ≠ some c
  ops : ((b.step e).block c).ops = (b.block c).ops ++ back
  exits : ∀ t, ((b.step e).block c).Exits t ↔
    ∃ l ∈ labels, (b.step e).labelled.lookup l = some t
  named : ∀ l ∈ labels, ∃ t, (b.step e).labelled.lookup l = some t

theorem Ready.ending (h : Ready done (e :: ahead) b)
    (honce : FlowEvent.PlacedOnce (e :: ahead)) (hc : b.current = some c)
    {own : Option Label}
    (hown : ∀ l, b.labelled.lookup l = some c ↔ own = some l)
    {back : List StackOp} {labels : List Label}
    (hends : Ends b e c back labels) :
    ((b.run (e :: ahead)).block c).ops =
        b.seedFrom (e :: ahead) own ++ (b.block c).ops ++ back ∧
      ∀ t, ((b.run (e :: ahead)).block c).Exits t ↔
        ∃ l ∈ labels, (b.run (e :: ahead)).labelled.lookup l = some t := by
  have hstep : ((b.step e).block c).ops =
      b.seedFrom [e] own ++ (b.block c).ops ++ back := by
    rw [hends.ops, seedFrom_of_seed?_eq_none hends.unseeded, List.nil_append]
  obtain ⟨hops, hexits⟩ := h.closing honce hc hown back hends.current hstep
  refine ⟨hops, ?_⟩
  intro t
  rw [hexits, hends.exits]
  constructor
  · rintro ⟨l, hl, ht⟩
    exact ⟨l, hl, (h.lookup_run_iff ht t).2 rfl⟩
  · rintro ⟨l, hl, ht⟩
    obtain ⟨t', ht'⟩ := hends.named l hl
    obtain rfl := (h.lookup_run_iff ht' t).1 ht
    exact ⟨l, hl, ht'⟩

theorem Open.ends_op (hopen : b.Open c) (hc : b.current = some c)
    (hlt : c < b.blocks.size) {o : StackOp} (hterminal : o.isTerminal = true) :
    Ends b (.op o) c [o] [] := by
  have hblock : (b.step (.op o)).block c = _ := block_addOp hc hlt o c
  rw [if_pos rfl] at hblock
  have hcurrent : (b.step (.op o)).current = _ := current_addOp hc o
  rw [if_pos hterminal] at hcurrent
  refine ⟨rfl, by simp [hcurrent], by rw [hblock], ?_, by simp⟩
  intro t
  rw [hblock]
  exact iff_of_false (hopen.unlinked t) (by simp)

/-- A jump that cannot be passed. -/
theorem Open.ends_branched (hopen : b.Open c) {b' : FlowBuilder}
    {labels : List Label} (hseed : e.seed? = none)
    (hstep : b.step e = { b' with current := none })
    (hbranched : Branched c labels b b') : Ends b e c [] labels := by
  have hblock : (b.step e).block c = b'.block c := block_congr (by rw [hstep])
  have hlabelled : (b.step e).labelled = b'.labelled := by rw [hstep]
  refine ⟨hseed, by simp [hstep], ?_, ?_, ?_⟩
  · rw [hblock, hbranched.ops, List.append_nil]
  · intro t
    rw [hblock, hlabelled, hbranched.exits hopen.running,
      or_iff_right (hopen.unlinked t)]
  · rw [hlabelled]
    exact hbranched.named

theorem Ready.ends_label {l : Label} (h : Ready done (.label l :: ahead) b)
    (hc : b.current = some c) : Ends b (.label l) c [] [l] := by
  obtain ⟨hopen, _⟩ := h.current c hc
  have hlookup := b.lookup_step_label l
  obtain ⟨hnot, _⟩ := h.waiting_of_step List.mem_cons_self hlookup
  have hne : c ≠ (b.blockAt l).2 := fun heq => hnot (heq ▸ hc)
  have hstep := step_label_of_some hc hne
  have hlt : c < (b.blockAt l).1.blocks.size :=
    Nat.lt_of_lt_of_le (h.sound.current c hc) (h.sound.grown_blockAt l).size_le
  have hblock : (b.step (.label l)).block c = _ :=
    (block_congr (by rw [hstep])).trans (block_addEdge (c := c) hlt _)
  rw [if_pos rfl, block_blockAt] at hblock
  refine ⟨rfl, ?_, ?_, ?_, by simp [hlookup]⟩
  · rw [hstep]
    exact fun heq => hne (Option.some.inj heq).symm
  · rw [hblock, Block.ops_withEdge, List.append_nil]
  · intro t
    rw [hblock, Block.exits_withEdge hopen.running (by simp),
      or_iff_right (hopen.unlinked t)]
    simp [hlookup, eq_comm]

/-- The event forks at the current block `c`: control goes on at the label, or
in a new block behind those of `b'`. -/
structure Forks (b : FlowBuilder) (e : FlowEvent) (c : BlockId)
    (own : Option Label) (label : Label) (b' : FlowBuilder)
    (target : BlockId) : Prop where
  step : b.step e = b'.fork c target
  widened : Block.Widened (b.seedFrom [e] own) [] (b.block c) (b'.block c)
  sound : Sound (fun _ => True) b'
  lt : c < b'.blocks.size
  named : b'.labelled.lookup label = some target

/-- The current block is closed by a fork, and code goes on in the new block,
which the events behind the fork complete. -/
theorem Ready.forking (h : Ready done (e :: ahead) b)
    (honce : FlowEvent.PlacedOnce (e :: ahead)) (hc : b.current = some c)
    {own : Option Label}
    (hown : ∀ l, b.labelled.lookup l = some c ↔ own = some l) {label : Label}
    {b' : FlowBuilder} {target : BlockId}
    (hforks : Forks b e c own label b' target)
    (hrest : ∀ {next}, (b.step e).current = some next → ∀ {own},
      (∀ l, (b.step e).labelled.lookup l = some next ↔ own = some l) →
      (b.step e).Completes next own ahead) :
    ((b.run (e :: ahead)).block c).ops =
        b.seedFrom (e :: ahead) own ++ (b.block c).ops ++ [] ∧
      ∃ next, (∀ t, ((b.run (e :: ahead)).block c).Exits t ↔
          t = next ∨ (b.run (e :: ahead)).labelled.lookup label = some t) ∧
        (b.run (e :: ahead)).Follows next
          ((b.run (e :: ahead)).block next).ops ahead := by
  obtain ⟨hstep, hwidened, hsound, hlt, hlabel⟩ := hforks
  have hne : b'.blocks.size ≠ c := (Nat.ne_of_lt hlt).symm
  obtain ⟨hforkOps, hforkExits⟩ :=
    (h.current c hc).1.exits_fork hwidened hlt target
  have hcurrent : (b.step e).current = some b'.blocks.size := by rw [hstep]; rfl
  have hlabelled : (b.step e).labelled = b'.labelled := by rw [hstep]; rfl
  have hunowned : ∀ l,
      (b.step e).labelled.lookup l = some b'.blocks.size ↔ none = some l := by
    intro l
    rw [hlabelled]
    constructor
    · intro hl
      exact absurd (hsound.lookup_lt hl) (Nat.lt_irrefl _)
    · rintro ⟨⟩
  have hempty : ((b.step e).block b'.blocks.size).ops = [] := by
    rw [hstep, block_fork_of_ne _ hlt hne, block_of_le (Nat.le_refl _)]
  obtain ⟨hops, hexits⟩ := h.closing honce hc hown []
    (by rw [hcurrent]; exact fun heq => hne (Option.some.inj heq))
    (by rw [hstep, hforkOps, List.append_nil])
  obtain ⟨left, hleft, hfollows⟩ := hrest hcurrent hunowned
  refine ⟨hops, b'.blocks.size, ?_, ?_⟩
  · intro t
    have htarget : (b.step e).labelled.lookup label = some target := by
      rw [hlabelled, hlabel]
    rw [hexits, hstep, hforkExits, h.lookup_run_iff htarget]
  · rw [hempty] at hleft
    rw [run_cons, hleft]
    exact hfollows

theorem Ready.forks_branch {target : Label}
    (h : Ready done (.branch target :: ahead) b) (hc : b.current = some c)
    (own : Option Label) :
    Forks b (.branch target) c own target (b.blockAt target).1
      (b.blockAt target).2 := by
  have hat := h.sound.blockAt target
  refine ⟨?_, ?_, hat.sound, ?_, b.lookup_blockAt_self target⟩
  · unfold FlowBuilder.step
    rw [ensureCurrent_of_some hc]
  · rw [seedFrom_of_seed?_eq_none rfl]
    exact .of_eq (b.block_blockAt target)
  · exact Nat.lt_of_lt_of_le (h.sound.current c hc) hat.grown

theorem Ready.forks_subroutine {target : Label} {r : StackOp}
    (h : Ready done (.subroutine target r :: ahead) b)
    (hc : b.current = some c) {own : Option Label}
    (hown : ∀ l, b.labelled.lookup l = some c ↔ own = some l) :
    Forks b (.subroutine target r) c own target (b.seed target r).1
      (b.seed target r).2 := by
  have hlt := h.sound.current c hc
  have hat : Reached (fun _ => True) b (b.seed target r) :=
    h.sound.seed target trivial
  have hstep : b.step (.subroutine target r) =
      (b.seed target r).1.fork c (b.seed target r).2 := by
    unfold FlowBuilder.step
    rw [ensureCurrent_of_some hc]
  refine ⟨hstep, ?_, hat.sound, Nat.lt_of_lt_of_le hlt hat.grown,
    b.lookup_seed_self target r⟩
  rw [seedFrom_of_seed? target r rfl]
  apply h.sound.widened_seed target r
  intro l
  have hlookup := (h.lookup_step_iff hlt l).trans (hown l)
  rwa [hstep] at hlookup

/-- The events ahead complete the current block as they say. An operation that
goes on and a protected range leave the block current, and the induction
hypothesis is about the same block. After a fork it is about the new block. All
other events end the block, and later ones add no more than its seed. -/
theorem Ready.follows (h : Ready done ahead b)
    (honce : FlowEvent.PlacedOnce ahead) (hc : b.current = some c)
    {own : Option Label}
    (hown : ∀ l, b.labelled.lookup l = some c ↔ own = some l) :
    b.Completes c own ahead := by
  induction ahead generalizing done b c own with
  | nil =>
      exact ⟨[], by simp, rfl, (h.current c hc).1.unlinked⟩
  | cons e ahead ih =>
      obtain ⟨hopen, _⟩ := h.current c hc
      have hlt := h.sound.current c hc
      have hown' : ∀ l, (b.step e).labelled.lookup l = some c ↔ own = some l :=
        fun l => (h.lookup_step_iff hlt l).trans (hown l)
      cases e with
      | op o =>
          by_cases hterminal : o.isTerminal = true
          · obtain ⟨hops, hexits⟩ :=
              h.ending honce hc hown (hopen.ends_op hc hlt hterminal)
            refine ⟨[o], hops, ?_⟩
            rw [Follows, if_pos hterminal]
            exact ⟨rfl, by simpa using hexits⟩
          · have hcurrent : (b.step (.op o)).current = _ := current_addOp hc o
            rw [if_neg hterminal] at hcurrent
            have hblock : (b.step (.op o)).block c = _ := block_addOp hc hlt o c
            rw [if_pos rfl] at hblock
            have hops : ((b.step (.op o)).block c).ops =
                b.seedFrom [.op o] own ++ (b.block c).ops ++ [o] := by
              rw [hblock, seedFrom_of_seed?_eq_none rfl, List.nil_append]
            obtain ⟨left, hleft, hfollows⟩ := h.continuing hops
              (ih (h.step honce) honce.tail hcurrent hown')
            refine ⟨o :: left, hleft, ?_⟩
            rw [Follows, if_neg hterminal]
            exact ⟨left, rfl, hfollows⟩
      | branch target =>
          obtain ⟨hops, hfork⟩ := h.forking honce hc hown
            (h.forks_branch hc own) (ih (h.step honce) honce.tail)
          exact ⟨[], hops, rfl, hfork⟩
      | subroutine target r =>
          obtain ⟨hops, hfork⟩ := h.forking honce hc hown
            (h.forks_subroutine hc hown) (ih (h.step honce) honce.tail)
          exact ⟨[], hops, rfl, hfork⟩
      | jump target =>
          have hstep : b.step (.jump target) =
              { FlowBuilder.branchTo c b target with current := none } := by
            unfold FlowBuilder.step
            rw [ensureCurrent_of_some hc]
          obtain ⟨hops, hexits⟩ := h.ending honce hc hown
            (hopen.ends_branched rfl hstep
              (h.sound.branched_branchTo hlt target))
          exact ⟨[], hops, rfl, by simpa using hexits⟩
      | switch default cases =>
          have hstep : b.step (.switch default cases) =
              { (cases ++ [default]).foldl (FlowBuilder.branchTo c) b with
                current := none } := by
            unfold FlowBuilder.step
            rw [ensureCurrent_of_some hc]
          obtain ⟨hops, hexits⟩ := h.ending honce hc hown
            (hopen.ends_branched rfl hstep (h.sound.branched_foldl _ hlt))
          exact ⟨[], hops, rfl, hexits⟩
      | label l =>
          obtain ⟨hops, hexits⟩ := h.ending honce hc hown (h.ends_label hc)
          exact ⟨[], hops, rfl, by simpa using hexits⟩
      | protect start handler exception =>
          have hwidened := h.sound.protect_widened hown'
          have hcurrent :=
            (b.current_step_protect start handler exception).trans hc
          exact h.continuing hwidened.ops
            (ih (h.step honce) honce.tail hcurrent hown')

/-- The graph that is built from events is what the events say, if they place no
label twice. -/
theorem described_run {events : List FlowEvent}
    (honce : FlowEvent.PlacedOnce events) :
    (start.run events).Described events where
  entry := by
    have hown : ∀ l, start.labelled.lookup l = some FlowGraph.entry ↔
        none = some l := by
      intro l
      constructor <;> rintro ⟨⟩
    obtain ⟨left, hops, hfollows⟩ := (ready_start events).follows honce rfl hown
    rw [hops]
    exact hfollows
  label := by
    rintro before l after rfl
    have hready := (ready_start (before ++ .label l :: after)).run honce
    have hlookup := (start.run before).lookup_step_label l
    have honce' := honce.of_append
    obtain ⟨hne, _, hempty⟩ := hready.waiting_of_step List.mem_cons_self hlookup
    have hblock := (hready.sound.step_widened (by simp [FlowEvent.acts]) hne
      (hready.eq_some_iff hlookup)).ops
    have hcurrent : ((start.run before).step (.label l)).current =
        some ((start.run before).blockAt l).2 := rfl
    obtain ⟨left, hops, hfollows⟩ := (hready.step honce').follows honce'.tail
      hcurrent (hready.eq_some_iff hlookup)
    rw [← run_cons, ← run_append] at hops hfollows
    refine ⟨_, left, ?_, ?_, hfollows⟩
    · rw [run_append, hready.lookup_run_iff hlookup]
    · have hseed := hready.seedFrom_append (.label l :: after) l
      rw [hready.sound.seedFrom_cons (.label l) after, seedFrom_of_seed?_eq_none
        rfl, List.append_nil, List.nil_append] at hseed
      rw [hops, hblock, hempty, seedFrom_of_seed?_eq_none rfl, List.nil_append,
        List.append_nil, List.nil_append, hseed]

end FlowBuilder

end TestCost
