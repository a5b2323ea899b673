import TestCost.Proofs.Flow.Description

/-!
# The graph and the stream of events

A flow graph is measured against the list of events that it is built from. A
machine runs that list in program order: it performs operations, passes labels
and jumps that may be passed, goes to labels that it is sent to, and stops
when it leaves the method (`FlowEvent.Runs`). A position of the machine is the
list of events that are still ahead of it. On the other side stand the walks
through the graph along edges that are not for exceptions (`FlowGraph.Walks`).

The machine may stop anywhere, and a walk too, so both give sets of sequences
of operations that have the beginnings of their members. The sets are equal.

The two are compared through what events say about a finished graph
(`FlowBuilder.Described`), so the builder does not occur here. A walk and the
machine are abreast when what is left of the walk's block is what the events
ahead of the machine say. Each keeps abreast of the other: where a walk takes
one step, the machine may first have to pass protected ranges, and where the
machine goes to a label or passes one, the walk takes an edge.

## Main results

* `FlowBuilder.Described.walks_of_runs` — walks keep abreast of the machine.
* `FlowBuilder.Described.runs_of_walks` — the machine keeps abreast of walks.
* `FlowGraph.performs_iff_runs` — the graph has exactly the paths of its events.
-/

namespace TestCost

/-! ## The two machines -/

namespace FlowEvent

/-- Labels that the event can send control to. -/
def targets : FlowEvent → List Label
  | .branch target | .jump target | .subroutine target _ => [target]
  | .switch default cases => cases ++ [default]
  | .op _ | .label _ | .protect _ _ _ => []

/-- Control can go on with the next event. -/
def passes : FlowEvent → Bool
  | .op o => !o.isTerminal
  | .jump _ | .switch _ _ => false
  | .branch _ | .subroutine _ _ | .label _ | .protect _ _ _ => true

/-- What is performed when control passes the event, which is one of `events`:
an operation, or the first seed of a label. -/
def performed (events : List FlowEvent) : FlowEvent → List StackOp
  | .op o => [o]
  | .label l => (firstSeed events l).toList
  | .branch _ | .jump _ | .subroutine _ _ | .switch _ _ | .protect _ _ _ => []

/-- The machine that runs `events` can perform these operations, one after the
other, when the second list of events is ahead of it. -/
inductive Runs (events : List FlowEvent) :
    List FlowEvent → List StackOp → Prop where
  | stop (ahead : List FlowEvent) : Runs events ahead []
  | next {e : FlowEvent} {ahead : List FlowEvent} {ops : List StackOp} :
      e.passes = true → Runs events ahead ops →
        Runs events (e :: ahead) (e.performed events ++ ops)
  | leave {o : StackOp} {ahead : List FlowEvent} :
      o.isTerminal = true → Runs events (.op o :: ahead) [o]
  | goto {e : FlowEvent} {l : Label} {ahead after : List FlowEvent}
      {ops : List StackOp} :
      l ∈ e.targets → .label l :: after <:+ events →
        Runs events (.label l :: after) ops →
      Runs events (e :: ahead) ops

theorem Runs.pass_label {events after : List FlowEvent} {ops : List StackOp}
    (l : Label) (h : Runs events after ops) :
    Runs events (.label l :: after) ((firstSeed events l).toList ++ ops) :=
  .next (e := .label l) rfl h

end FlowEvent

namespace FlowGraph

/-- A walk through the graph can perform these operations, one after the other,
when it is in block `b` and the operations `left` of the block are ahead. It
follows edges other than those for exceptions. -/
inductive Walks (g : FlowGraph) :
    BlockId → List StackOp → List StackOp → Prop where
  | stop (b : BlockId) (left : List StackOp) : Walks g b left []
  | op {b : BlockId} {o : StackOp} {left ops : List StackOp} :
      Walks g b left ops → Walks g b (o :: left) (o :: ops)
  | edge {b : BlockId} {e : Edge} {ops : List StackOp} :
      e ∈ (g.block b).successors → e.kind ≠ .exception →
      Walks g e.target (g.block e.target).ops ops → Walks g b [] ops

/-- Walks from the entry can perform these operations. -/
def Performs (g : FlowGraph) (ops : List StackOp) : Prop :=
  g.Walks entry (g.block entry).ops ops

theorem Walks.exit {g : FlowGraph} {b t : BlockId} {ops : List StackOp}
    (hexit : (g.block b).Exits t) (h : g.Walks t (g.block t).ops ops) :
    g.Walks b [] ops := by
  obtain ⟨e, he, hkind, rfl⟩ := hexit
  exact .edge he hkind h

theorem Walks.append {g : FlowGraph} {b : BlockId} {left ops : List StackOp}
    (first : List StackOp) (h : g.Walks b left ops) :
    g.Walks b (first ++ left) (first ++ ops) := by
  induction first with
  | nil => exact h
  | cons o first ih => exact .op ih

end FlowGraph

/-! ## From the description to the walks -/

namespace FlowBuilder

variable {events : List FlowEvent} {b : FlowBuilder}

/-- The walk that is in block `c` with `left` ahead is where the machine is
with `ahead` ahead: inside a block, or at the start of the block of a label
that the machine has not passed. -/
def Abreast (b : FlowBuilder) (c : BlockId) (left : List StackOp)
    (ahead : List FlowEvent) :
    Prop :=
  b.Follows c left ahead ∨
    ∃ label after, ahead = .label label :: after ∧
      b.labelled.lookup label = some c ∧
      left = (b.block c).ops

/-- At the end of a block the machine may be sent to a label, and so may the
walk. -/
theorem Follows.exit_of_mem_targets {c : BlockId} {left : List StackOp}
    {e : FlowEvent} {ahead : List FlowEvent} (h : b.Follows c left (e :: ahead))
    {label : Label} (hlabel : label ∈ e.targets) {t : BlockId}
    (ht : b.labelled.lookup label = some t) :
    left = [] ∧ (b.block c).Exits t := by
  cases e with
  | op _ | label _ | protect _ _ _ => simp [FlowEvent.targets] at hlabel
  | branch target | subroutine target _ =>
      obtain ⟨hleft, next, hexits, _⟩ := h
      rw [List.mem_singleton.1 hlabel] at ht
      exact ⟨hleft, (hexits t).2 (.inr ht)⟩
  | jump target =>
      obtain ⟨hleft, hexits⟩ := h
      rw [List.mem_singleton.1 hlabel] at ht
      exact ⟨hleft, (hexits t).2 ht⟩
  | switch default cases =>
      obtain ⟨hleft, hexits⟩ := h
      exact ⟨hleft, (hexits t).2 ⟨label, hlabel, ht⟩⟩

/-- The machine at a label and the walk at the start of its block: both perform
the seed, if there is one, and are abreast again. -/
theorem Described.walks_label
    (h : b.Described events) {before after : List FlowEvent} {label : Label}
    {c : BlockId} (hevents : events = before ++ .label label :: after)
    (hc : b.labelled.lookup label = some c) {ops : List StackOp}
    (hwalk : ∀ left, b.Follows c left after → b.graph.Walks c left ops) :
    b.graph.Walks c (b.block c).ops
      ((FlowEvent.firstSeed events label).toList ++ ops) := by
  obtain ⟨c', left, hc', hops, hfollows⟩ := h.label before label after hevents
  obtain rfl := Option.some.inj (hc.symm.trans hc')
  rw [hops]
  exact (hwalk left hfollows).append _

/-- A block that ends at a label has an edge to the block of the label, which
starts with the seed. -/
theorem Described.walks_of_runs
    (h : b.Described events) {ahead : List FlowEvent} {ops : List StackOp}
    (hrun : FlowEvent.Runs events ahead ops) (hsuffix : ahead <:+ events)
    {c : BlockId} {left : List StackOp} (habreast : b.Abreast c left ahead) :
    b.graph.Walks c left ops := by
  induction hrun generalizing c left with
  | stop ahead => exact .stop c left
  | leave hterminal =>
      rcases habreast with hfollows | ⟨_, _, heq, _⟩
      · rw [Follows, if_pos hterminal] at hfollows
        rw [hfollows.1]
        exact .op (.stop _ _)
      · cases heq
  | @next e ahead ops hpasses _ ih =>
      have hrest : ∀ {c left},
          b.Abreast c left ahead → b.graph.Walks c left ops :=
        ih ((List.suffix_cons e ahead).trans hsuffix)
      rcases habreast with hfollows | ⟨label, after, heq, hlabel, rfl⟩
      · cases e with
        | op o =>
            have hterminal : ¬ o.isTerminal = true := by
              simpa [FlowEvent.passes] using hpasses
            rw [Follows, if_neg hterminal] at hfollows
            obtain ⟨left', rfl, hfollows⟩ := hfollows
            exact .op (hrest (.inl hfollows))
        | branch target | subroutine target _ =>
            obtain ⟨rfl, next, hexits, hfollows⟩ := hfollows
            exact .exit ((hexits next).2 (.inl rfl)) (hrest (.inl hfollows))
        | jump _ | switch _ _ => cases hpasses
        | label l =>
            obtain ⟨rfl, hexits⟩ := hfollows
            obtain ⟨before, hbefore⟩ := hsuffix
            obtain ⟨c', _, hc', _⟩ := h.label before l ahead hbefore.symm
            exact .exit ((hexits c').2 hc') (h.walks_label hbefore.symm hc'
              fun left hleft => hrest (.inl hleft))
        | protect _ _ _ => exact hrest (.inl hfollows)
      · obtain ⟨rfl, rfl⟩ := List.cons.inj heq
        obtain ⟨before, hbefore⟩ := hsuffix
        exact h.walks_label hbefore.symm hlabel fun left hleft =>
          hrest (.inl hleft)
  | @goto e l ahead after ops hl hplaced _ ih =>
      obtain ⟨before, hbefore⟩ := hplaced
      obtain ⟨t, _, ht, _⟩ := h.label before l after hbefore.symm
      have htarget := ih ⟨before, hbefore⟩ (.inr ⟨l, after, rfl, ht, rfl⟩)
      rcases habreast with hfollows | ⟨_, _, heq, _⟩
      · obtain ⟨rfl, hexit⟩ := hfollows.exit_of_mem_targets hl ht
        exact .exit hexit htarget
      · obtain ⟨rfl, _⟩ := List.cons.inj heq
        simp [FlowEvent.targets] at hl

/-- The walk performs an operation of its block. The machine may have to pass
handlers before it comes to the operation. -/
theorem Follows.runs_op {c : BlockId}
    {o : StackOp} {left ops : List StackOp} (hrest : ∀ ahead, ahead <:+ events →
      b.Follows c left ahead → FlowEvent.Runs events ahead ops)
    (hend : left = [] → (∀ t, ¬ (b.block c).Exits t) → ops = [])
    {ahead : List FlowEvent} (hsuffix : ahead <:+ events)
    (h : b.Follows c (o :: left) ahead) :
    FlowEvent.Runs events ahead (o :: ops) := by
  induction ahead with
  | nil => cases h.1
  | cons e ahead ih =>
      have hsuffix' := (List.suffix_cons e ahead).trans hsuffix
      cases e with
      | op o' =>
          by_cases hterminal : o'.isTerminal = true
          · rw [Follows, if_pos hterminal] at h
            obtain ⟨rfl, hleft⟩ := List.cons.inj h.1
            rw [hend hleft h.2]
            exact .leave hterminal
          · rw [Follows, if_neg hterminal] at h
            obtain ⟨left', heq, hfollows⟩ := h
            obtain ⟨rfl, rfl⟩ := List.cons.inj heq
            exact .next
              (e := .op o) (by simpa [FlowEvent.passes] using hterminal)
              (hrest ahead hsuffix' hfollows)
      | branch _ | subroutine _ _ | jump _ | switch _ _ | label _ => cases h.1
      | protect start handler exception =>
          exact .next (e := .protect start handler exception) rfl
            (ih hsuffix' h)

/-- The walk leaves its block. The machine may have to pass handlers before it
comes to the event that ends the block. -/
theorem Follows.runs_exit
    (hplaced : ∀ e ∈ events, ∀ label ∈ e.targets, .label label ∈ events)
    {c t : BlockId} {ops : List StackOp} (hexit : (b.block c).Exits t)
    (hrest : ∀ ahead, ahead <:+ events → b.Abreast t (b.block t).ops ahead →
      FlowEvent.Runs events ahead ops) {ahead : List FlowEvent}
    (hsuffix : ahead <:+ events) (h : b.Follows c [] ahead) :
    FlowEvent.Runs events ahead ops := by
  have hgoto : ∀ e ahead label, (e :: ahead) <:+ events → label ∈ e.targets →
      b.labelled.lookup label = some t →
        FlowEvent.Runs events (e :: ahead) ops := by
    intro e ahead label hsuffix hlabel ht
    have hmem := hplaced e (hsuffix.subset List.mem_cons_self) label hlabel
    obtain ⟨before, after, hevents⟩ := List.append_of_mem hmem
    have hafter : .label label :: after <:+ events := ⟨before, hevents.symm⟩
    exact .goto hlabel hafter
      (hrest _ hafter (.inr ⟨label, after, rfl, ht, rfl⟩))
  induction ahead with
  | nil => exact absurd hexit (h.2 t)
  | cons e ahead ih =>
      have hsuffix' := (List.suffix_cons e ahead).trans hsuffix
      cases e with
      | op o =>
          by_cases hterminal : o.isTerminal = true
          · rw [Follows, if_pos hterminal] at h
            cases h.1
          · rw [Follows, if_neg hterminal] at h
            obtain ⟨_, heq, _⟩ := h
            cases heq
      | branch target =>
          obtain ⟨_, next, hexits, hfollows⟩ := h
          rcases (hexits t).1 hexit with rfl | ht
          · exact .next (e := .branch target) rfl
              (hrest ahead hsuffix' (.inl hfollows))
          · exact hgoto _ _ target hsuffix List.mem_cons_self ht
      | subroutine target returnAddress =>
          obtain ⟨_, next, hexits, hfollows⟩ := h
          rcases (hexits t).1 hexit with rfl | ht
          · exact .next (e := .subroutine target returnAddress) rfl
              (hrest ahead hsuffix' (.inl hfollows))
          · exact hgoto _ _ target hsuffix List.mem_cons_self ht
      | jump target =>
          exact hgoto _ _ target hsuffix List.mem_cons_self ((h.2 t).1 hexit)
      | switch default cases =>
          obtain ⟨label, hlabel, ht⟩ := (h.2 t).1 hexit
          exact hgoto _ _ label hsuffix hlabel ht
      | label label =>
          exact hrest _ hsuffix (.inr ⟨label, ahead, rfl, (h.2 t).1 hexit, rfl⟩)
      | protect start handler exception =>
          exact .next (e := .protect start handler exception) rfl
            (ih hsuffix' h)

/-- At a label, an operation comes behind it, or it is the seed, which the
machine performs at the label itself. -/
theorem Described.runs_of_walks (h : b.Described events)
    (hplaced : ∀ e ∈ events, ∀ label ∈ e.targets, .label label ∈ events)
    {c : BlockId} {left ops : List StackOp} (hwalk : b.graph.Walks c left ops)
    {ahead : List FlowEvent} (hsuffix : ahead <:+ events)
    (habreast : b.Abreast c left ahead) :
    FlowEvent.Runs events ahead ops := by
  induction hwalk generalizing ahead with
  | stop c left => exact .stop ahead
  | @op c o left ops hwalk ih =>
      have hinside : ∀ {ahead}, ahead <:+ events →
          b.Follows c (o :: left) ahead →
          FlowEvent.Runs events ahead (o :: ops) := by
        refine Follows.runs_op (fun ahead hsuffix hfollows =>
          ih hsuffix (.inl hfollows)) ?_
        rintro rfl hnone
        cases hwalk with
        | stop => rfl
        | edge he hkind _ => exact absurd ⟨_, he, hkind, rfl⟩ (hnone _)
      rcases habreast with hfollows | ⟨label, after, rfl, hlabel, hleft⟩
      · exact hinside hsuffix hfollows
      · obtain ⟨before, hbefore⟩ := hsuffix
        obtain ⟨c', left', hc', hops, hfollows⟩ :=
          h.label before label after hbefore.symm
        obtain rfl := Option.some.inj (hlabel.symm.trans hc')
        have hsuffix' : after <:+ events :=
          (List.suffix_cons _ after).trans ⟨before, hbefore⟩
        rw [hops] at hleft
        cases hseed : FlowEvent.firstSeed events label with
        | none =>
            rw [hseed] at hleft
            have hrun := (hinside hsuffix' (hleft ▸ hfollows)).pass_label label
            rwa [hseed] at hrun
        | some seed =>
            rw [hseed] at hleft
            obtain ⟨rfl, rfl⟩ := List.cons.inj hleft
            have hrun := (ih hsuffix' (.inl hfollows)).pass_label label
            rwa [hseed] at hrun
  | @edge c e ops he hkind _ ih =>
      have hinside : ∀ {ahead}, ahead <:+ events → b.Follows c [] ahead →
          FlowEvent.Runs events ahead ops := by
        exact Follows.runs_exit hplaced ⟨e, he, hkind, rfl⟩
          fun ahead hsuffix habreast => ih hsuffix habreast
      rcases habreast with hfollows | ⟨label, after, rfl, hlabel, hleft⟩
      · exact hinside hsuffix hfollows
      · obtain ⟨before, hbefore⟩ := hsuffix
        obtain ⟨c', left', hc', hops, hfollows⟩ :=
          h.label before label after hbefore.symm
        obtain rfl := Option.some.inj (hlabel.symm.trans hc')
        have hsuffix' : after <:+ events :=
          (List.suffix_cons _ after).trans ⟨before, hbefore⟩
        rw [hops] at hleft
        obtain ⟨hseed, rfl⟩ := List.append_eq_nil_iff.1 hleft.symm
        have hrun := (hinside hsuffix' hfollows).pass_label label
        rwa [hseed] at hrun

end FlowBuilder

/-! ## The paths of a finished graph -/

/-- A graph has exactly the paths of the events that it is built from, if no
label is placed twice and every label that control can be sent to is placed. -/
theorem FlowGraph.performs_iff_runs {events : List FlowEvent}
    (honce : FlowEvent.PlacedOnce events)
    (hplaced : ∀ e ∈ events, ∀ label ∈ e.targets, .label label ∈ events)
    (ops : List StackOp) :
    (FlowGraph.ofEvents events).Performs ops ↔
      FlowEvent.Runs events events ops := by
  have hdescribed := FlowBuilder.described_run honce
  constructor
  · intro hwalk
    exact hdescribed.runs_of_walks hplaced hwalk List.suffix_rfl
      (.inl hdescribed.entry)
  · intro hrun
    exact hdescribed.walks_of_runs hrun List.suffix_rfl (.inl hdescribed.entry)

/-- Once round a loop, and then into a subroutine, past code that is never run.
-/
theorem FlowGraph.performs_loop :
    (FlowGraph.ofEvents [.label 0, .op ⟨1, .pop 1⟩, .branch 0,
      .subroutine 9 ⟨2, .load (.constant (.unknown .int))⟩,
        .op ⟨3, .leave .void⟩, .op ⟨4, .swap⟩,
      .label 9, .op ⟨5, .raise⟩]).Performs
      [⟨1, .pop 1⟩, ⟨1, .pop 1⟩, ⟨2, .load (.constant (.unknown .int))⟩,
        ⟨5, .raise⟩] := by
  apply (FlowGraph.performs_iff_runs (by unfold FlowEvent.PlacedOnce; decide)
    (by simp [FlowEvent.targets]) _).2
  apply FlowEvent.Runs.pass_label 0
  apply FlowEvent.Runs.next (e := .op ⟨1, .pop 1⟩) rfl
  apply FlowEvent.Runs.goto List.mem_cons_self List.suffix_rfl
  apply FlowEvent.Runs.pass_label 0
  apply FlowEvent.Runs.next (e := .op ⟨1, .pop 1⟩) rfl
  apply FlowEvent.Runs.next (e := .branch 0) rfl
  refine .goto (l := 9) List.mem_cons_self
    (?_ : [FlowEvent.label 9, .op ⟨5, .raise⟩] <:+ _) ?_
  · simp [List.suffix_cons_iff]
  · exact (FlowEvent.Runs.leave rfl).pass_label 9

end TestCost
