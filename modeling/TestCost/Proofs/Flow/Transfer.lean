import TestCost.Proofs.Flow.Invariant

/-!
# Stacks between blocks

How the stacks of a block come to it and where they go. A block takes over
what waits on the edges to it, which is refused when paths come there with
different depths. It hands its own stacks to the edges that lead to blocks
which have not run, and an empty stack to those that lead to handlers; on none
of them anything is kept yet, so this never fails.

## Main results

* `Between.enter` — taking over keeps the invariant, or paths come to the
  block with two depths.
* `Inside.leave` — handing out keeps the invariant.
-/

namespace TestCost

namespace FlowGraph

variable {g : FlowGraph}

/-! ## Entering a block -/

theorem enter_of_none {x : Execution} {b : BlockId}
    (h : x.pending.filter (Place.leadsTo b) = []) :
    x.enter b = .ok { x with
      pending := x.pending.filter (not ∘ Place.leadsTo b), done :=
        b :: x.done } := by
  simp only [Execution.enter, List.partition_eq_filter_filter, h]
  rfl

theorem enter_of_join {x : Execution} {b : BlockId}
    (hne : x.pending.filter (Place.leadsTo b) ≠ [])
    {t : StackFamily Place Variable} (h : x.family.join
      (x.pending.filter (Place.leadsTo b)) (.block b) = .ok t) :
    x.enter b = .ok { x with
      family := t, pending := x.pending.filter (not ∘ Place.leadsTo b), done :=
        b :: x.done } := by
  simp only [Execution.enter, List.partition_eq_filter_filter, List.isEmpty_iff,
    hne, if_false, h]
  rfl

theorem enter_error {x : Execution} {b : BlockId}
    (hne : x.pending.filter (Place.leadsTo b) ≠ []) {fault : StackFault Place}
    (h : x.family.join (x.pending.filter (Place.leadsTo b)) (.block b) =
      .error fault) :
    x.enter b = .error (.stack fault) := by
  simp only [Execution.enter, List.partition_eq_filter_filter, List.isEmpty_iff,
    hne, if_false, h]
  rfl

theorem waiting_snoc_iff (ran done : List BlockId) (b : BlockId) (p : Place) :
    g.Waiting ran (done ++ [b]) p ↔
      g.Waiting ran done p ∧ p.leadsTo b = false := by
  constructor
  · rintro ⟨a, ha, e, he, htarget, rfl⟩
    rw [List.mem_append, List.mem_singleton, not_or] at htarget
    exact ⟨⟨a, ha, e, he, htarget.1, rfl⟩,
      by simpa [Place.leadsTo] using htarget.2⟩
  · rintro ⟨⟨a, ha, e, he, htarget, rfl⟩, hleads⟩
    have hne : e.target ≠ b := by simpa [Place.leadsTo] using hleads
    exact ⟨a, ha, e, he, by simp [htarget, hne], rfl⟩

/-- The edges that lead to the next block. -/
theorem waiting_leadsTo_iff {ran rest : List BlockId} {b : BlockId}
    (horder : g.order = ran ++ b :: rest) (p : Place) :
    g.Waiting ran ran p ∧ p.leadsTo b = true ↔
      ∃ a ∈ ran, ∃ e ∈ (g.block a).successors,
        e.target = b ∧ p = .edge a e.target e.kind := by
  constructor
  · rintro ⟨⟨a, ha, e, he, _, rfl⟩, hleads⟩
    exact ⟨a, ha, e, he, by simpa [Place.leadsTo] using hleads, rfl⟩
  · rintro ⟨a, ha, e, he, rfl, rfl⟩
    exact ⟨⟨a, ha, e, he, not_mem_ran horder, rfl⟩, by simp [Place.leadsTo]⟩

/-- Entering a block takes the edges to it off the others. -/
theorem Holding.entered {ran : List BlockId} {x : Execution}
    (h : g.Holding ran ran x) (b : BlockId) {t : StackFamily Place Variable}
    (hsound : t.Sound) (hentries : t.entries = x.family.entries)
    (hviews : ∀ p, g.Waiting ran (ran ++ [b]) p → t.view p = x.family.view p) :
    g.Holding ran (ran ++ [b]) { x with
      family := t, pending := x.pending.filter (not ∘ Place.leadsTo b), done :=
        b :: x.done } where
  done_iff := by
    intro c
    rw [List.mem_cons, h.done_iff, List.mem_append, List.mem_singleton, or_comm]
  sound := hsound
  pushed := by
    intro v hv
    exact h.pushed v ((StackFamily.holds_congr hentries v).1 hv)
  pending_iff := by
    intro p
    rw [List.mem_filter, h.pending_iff, waiting_snoc_iff]
    simp
  waiting := by
    intro a target kind hwaiting
    rw [hviews _ hwaiting]
    exact h.waiting a target kind ((waiting_snoc_iff ran ran b _).1 hwaiting).1

/-- The entry starts with the empty stack. -/
theorem Between.enter_first {rest : List BlockId} {b : BlockId} {x : Execution}
    (h : g.Between [] x) (horder : g.order = b :: rest) :
    Yields (x.enter b) (g.Inside [] b 0) g.Refused := by
  have hfirst : g.order = [] ++ b :: rest := horder
  obtain rfl : b = entry := (ran_eq_nil_iff hfirst).1 rfl
  have hnone : x.pending.filter (Place.leadsTo entry) = [] := by
    rw [List.filter_eq_nil_iff]
    intro p hp
    obtain ⟨a, ha, _⟩ := (h.pending_iff p).1 hp
    simp at ha
  have hpaths : {stack | g.StackAt entry 0 stack} = {[]} := by
    ext stack
    exact stackAt_entry_iff stack
  rw [enter_of_none hnone]
  refine
    { toHolding := h.entered entry h.sound rfl fun _ _ => rfl
      live := ?_
      here := ⟨{[]}, h.first rfl, ?_⟩ }
  · intro p hp
    rcases h.live p hp with ⟨a, ha, _⟩ | ⟨_, hentry⟩
    · simp at ha
    · exact .inr hentry
  · rw [hpaths]
    exact ⟨⟨0, uniform_singleton_nil _, uniform_singleton_nil _⟩, fun _ => rfl⟩

/-- Stacks of one length that wait on the edges to a block stand together for
the stacks with which paths start it. -/
theorem tracks_arrived {ran rest : List BlockId}
    {b : BlockId} (horder : g.order = ran ++ b :: rest) (hb : b ≠ entry)
    {arrived : List Place} (hmem : ∀ p, p ∈ arrived ↔ ∃ a ∈ ran,
      ∃ e ∈ (g.block a).successors, e.target = b ∧ p = .edge a e.target e.kind)
    {s : StackFamily Place Variable}
    {n : Nat} (hedge : ∀ a ∈ ran, ∀ e ∈ (g.block a).successors, e.target = b →
      ∃ kept, s.view (.edge a e.target e.kind) = some kept ∧ Uniform kept n ∧
      g.Tracks kept {stack | g.LeftOn a e.kind stack}) :
    g.Tracks {w | ∃ p ∈ arrived, ∃ kept, s.view p = some kept ∧ w ∈ kept}
      {stack | g.StackAt b 0 stack} := by
  have hstart := stackAt_start_iff horder hb
  have hleft : ∀ a ∈ ran, ∀ e ∈ (g.block a).successors, e.target = b →
      Uniform {stack | g.LeftOn a e.kind stack} n := by
    intro a ha e he htarget
    obtain ⟨kept, _, hkept, htracks⟩ := hedge a ha e he htarget
    obtain ⟨m, hm, hpaths⟩ := htracks.uniform
    rwa [hm.unique hkept] at hpaths
  obtain ⟨source, hsource, htarget⟩ := g.exists_source_before horder hb
  obtain ⟨first, hfirst, rfl⟩ := List.mem_map.1 htarget
  refine ⟨⟨n, ⟨?_, ?_⟩, ⟨?_, ?_⟩⟩, ?_⟩
  · obtain ⟨kept, hview, hkept, _⟩ := hedge source hsource first hfirst rfl
    obtain ⟨w, hw⟩ := hkept.1
    exact ⟨w, _, (hmem _).2 ⟨source, hsource, first, hfirst, rfl, rfl⟩,
      kept, hview, hw⟩
  · rintro w ⟨p, hp, kept, hview, hw⟩
    obtain ⟨a, ha, e, he, htarget, rfl⟩ := (hmem p).1 hp
    obtain ⟨kept', hview', hkept', _⟩ := hedge a ha e he htarget
    obtain rfl := Option.some.inj (hview.symm.trans hview')
    exact hkept'.2 w hw
  · obtain ⟨stack, hstack⟩ := (hleft source hsource first hfirst rfl).1
    exact ⟨stack,
      (hstart stack).2 ⟨source, hsource, first, hfirst, rfl, hstack⟩⟩
  · intro stack hstack
    obtain ⟨a, ha, e, he, htarget, hon⟩ := (hstart stack).1 hstack
    exact (hleft a ha e he htarget).2 stack hon
  · intro hfields
    ext stack
    constructor
    · rintro ⟨p, hp, kept, hview, hw⟩
      obtain ⟨a, ha, e, he, htarget, rfl⟩ := (hmem p).1 hp
      obtain ⟨kept', hview', _, htracks⟩ := hedge a ha e he htarget
      obtain rfl := Option.some.inj (hview.symm.trans hview')
      rw [htracks.eq hfields] at hw
      exact (hstart stack).2 ⟨a, ha, e, he, htarget, hw⟩
    · intro hstack
      obtain ⟨a, ha, e, he, htarget, hon⟩ := (hstart stack).1 hstack
      obtain ⟨kept, hview, _, htracks⟩ := hedge a ha e he htarget
      refine ⟨_, (hmem _).2 ⟨a, ha, e, he, htarget, rfl⟩, kept, hview, ?_⟩
      rw [htracks.eq hfields]
      exact hon

section Arrival

variable {ran rest : List BlockId} {b : BlockId} {x : Execution}

theorem Between.mem_arrived_iff (h : g.Between ran x)
    (horder : g.order = ran ++ b :: rest) (p : Place) :
    p ∈ x.pending.filter (Place.leadsTo b) ↔
      ∃ a ∈ ran, ∃ e ∈ (g.block a).successors,
      e.target = b ∧ p = .edge a e.target e.kind := by
  rw [List.mem_filter, h.pending_iff, waiting_leadsTo_iff horder]

theorem Between.exists_kept (h : g.Between ran x)
    (horder : g.order = ran ++ b :: rest) {a : BlockId} (ha : a ∈ ran)
    {e : Edge} (he : e ∈ (g.block a).successors) (htarget : e.target = b) :
    ∃ kept, x.family.view (.edge a e.target e.kind) = some kept ∧
      g.Tracks kept {stack | g.LeftOn a e.kind stack} := by
  apply h.waiting
  exact ((waiting_leadsTo_iff horder _).2 ⟨a, ha, e, he, htarget, rfl⟩).1

/-- Every block but the entry has an edge to it on which stacks wait. -/
theorem Between.arrived_ne_nil (h : g.Between ran x)
    (horder : g.order = ran ++ b :: rest) (hb : b ≠ entry) :
    x.pending.filter (Place.leadsTo b) ≠ [] := by
  obtain ⟨a, ha, htarget⟩ := g.exists_source_before horder hb
  obtain ⟨e, he, htarget⟩ := List.mem_map.1 htarget
  exact List.ne_nil_of_mem
    ((h.mem_arrived_iff horder _).2 ⟨a, ha, e, he, htarget, rfl⟩)

/-- Paths come to the block with one depth, and the block starts. -/
theorem Between.enter_even
    (h : g.Between ran x) (horder : g.order = ran ++ b :: rest) (hb : b ≠ entry)
    {n : Nat} (heven : ∀ a ∈ ran, ∀ e ∈ (g.block a).successors, e.target = b →
      Uniform {stack | g.LeftOn a e.kind stack} n) :
    Yields (x.enter b) (g.Inside ran b 0) g.Refused := by
  have hmem := h.mem_arrived_iff horder
  have hne := h.arrived_ne_nil horder hb
  have hran : ran ≠ [] := fun hnil => hb ((ran_eq_nil_iff horder).1 hnil)
  have hedge : ∀ a ∈ ran, ∀ e ∈ (g.block a).successors, e.target = b →
      ∃ kept, x.family.view (.edge a e.target e.kind) = some kept ∧
        Uniform kept n ∧
        g.Tracks kept {stack | g.LeftOn a e.kind stack} := by
    intro a ha e he htarget
    obtain ⟨kept, hview, htracks⟩ := h.exists_kept horder ha he htarget
    obtain ⟨m, hkept, hpaths⟩ := htracks.uniform
    rw [hpaths.unique (heven a ha e he htarget)] at hkept
    exact ⟨kept, hview, hkept, htracks⟩
  have hkeys : ∀ p ∈ x.pending.filter (Place.leadsTo b),
      ∃ kept, x.family.view p = some kept ∧ Uniform kept n := by
    intro p hp
    obtain ⟨a, ha, e, he, htarget, rfl⟩ := (hmem p).1 hp
    obtain ⟨kept, hview, hkept, _⟩ := hedge a ha e he htarget
    exact ⟨kept, hview, hkept⟩
  obtain ⟨t, hjoin, hjoined⟩ :=
    StackFamily.joined_join h.sound hne hkeys (.block b)
  rw [enter_of_join hne hjoin]
  refine
    { toHolding := h.entered b hjoined.sound hjoined.entries_eq ?_
      live := ?_
      here := ⟨_, hjoined.view_target, tracks_arrived horder hb hmem hedge⟩ }
  · intro p hp
    have hp := (waiting_snoc_iff ran ran b p).1 hp
    apply hjoined.view_not_mem
    · simp [hp.2]
    · rintro rfl
      obtain ⟨_, _, _, _, _, hplace⟩ := hp.1
      simp at hplace
  · intro p hp
    by_cases hblock : p = .block b
    · exact .inr hblock
    · by_cases harrived : p ∈ x.pending.filter (Place.leadsTo b)
      · exact absurd (hjoined.view_mem p harrived hblock) hp
      · rw [hjoined.view_not_mem p harrived hblock] at hp
        have hwaiting := (h.live p hp).resolve_right fun hnil => hran hnil.1
        refine .inl ((waiting_snoc_iff ran ran b p).2 ⟨hwaiting, ?_⟩)
        rw [List.mem_filter, h.pending_iff, not_and] at harrived
        simpa using harrived hwaiting

/-- Paths come to the block with two depths, and the join is refused. -/
theorem Between.enter_uneven
    (h : g.Between ran x) (horder : g.order = ran ++ b :: rest)
    (hb : b ≠ entry) {a c : BlockId} (ha : a ∈ ran) (hc : c ∈ ran) {e f : Edge}
    (he : e ∈ (g.block a).successors) (hf : f ∈ (g.block c).successors)
    (heTarget : e.target = b) (hfTarget : f.target = b)
    {n : Nat} (hn : Uniform {stack | g.LeftOn a e.kind stack} n)
    (hnot : ¬ Uniform {stack | g.LeftOn c f.kind stack} n) :
    Yields (x.enter b) (g.Inside ran b 0) g.Refused := by
  have hmem := h.mem_arrived_iff horder
  have hlive : ∀ p ∈ x.pending.filter (Place.leadsTo b),
      x.family.view p ≠ none := by
    intro p hp
    obtain ⟨a, ha, e, he, htarget, rfl⟩ := (hmem p).1 hp
    obtain ⟨kept, hview, _⟩ := h.exists_kept horder ha he htarget
    simp [hview]
  obtain ⟨leftKept, hleftView, hleftTracks⟩ :=
    h.exists_kept horder ha he heTarget
  obtain ⟨n', hleft, hleftPaths⟩ := hleftTracks.uniform
  obtain rfl := hleftPaths.unique hn
  obtain ⟨rightKept, hrightView, hrightTracks⟩ :=
    h.exists_kept horder hc hf hfTarget
  obtain ⟨m, hright, hrightPaths⟩ := hrightTracks.uniform
  have hnm : n' ≠ m := by
    rintro rfl
    exact hnot hrightPaths
  obtain ⟨depths, hjoin⟩ := StackFamily.join_uneven h.sound hlive
    ((hmem _).2 ⟨a, ha, e, he, heTarget, rfl⟩) ((hmem _).2 ⟨c, hc, f, hf,
    hfTarget, rfl⟩) hleftView hrightView hleft hright hnm (.block b)
  rw [enter_error (h.arrived_ne_nil horder hb) hjoin]
  obtain ⟨first, hfirst⟩ := hn.1
  obtain ⟨second, hsecond⟩ := hrightPaths.1
  have hstart := stackAt_start_iff horder hb
  refine ⟨b, first, second, (hstart first).2 ⟨a, ha, e, he, heTarget, hfirst⟩,
    (hstart second).2 ⟨c, hc, f, hf, hfTarget, hsecond⟩, ?_⟩
  rw [hn.2 first hfirst, hrightPaths.2 second hsecond]
  exact hnm

/-- Any other block starts with what waits on the edges to it. -/
theorem Between.enter_later (h : g.Between ran x)
    (horder : g.order = ran ++ b :: rest) (hb : b ≠ entry) :
    Yields (x.enter b) (g.Inside ran b 0) g.Refused := by
  obtain ⟨a, ha, htarget⟩ := g.exists_source_before horder hb
  obtain ⟨e, he, htarget⟩ := List.mem_map.1 htarget
  obtain ⟨_, _, htracks⟩ := h.exists_kept horder ha he htarget
  obtain ⟨n, _, hn⟩ := htracks.uniform
  by_cases heven : ∀ c ∈ ran, ∀ f ∈ (g.block c).successors, f.target = b →
      Uniform {stack | g.LeftOn c f.kind stack} n
  · exact h.enter_even horder hb heven
  · simp only [not_forall] at heven
    obtain ⟨c, hc, f, hf, hfTarget, hnot⟩ := heven
    exact h.enter_uneven horder hb ha hc he hf htarget hfTarget hn hnot

end Arrival

theorem Between.enter {ran rest : List BlockId} {b : BlockId} {x : Execution}
    (h : g.Between ran x) (horder : g.order = ran ++ b :: rest) :
    Yields (x.enter b) (g.Inside ran b 0) g.Refused := by
  by_cases hb : b = entry
  · obtain rfl := (ran_eq_nil_iff horder).2 hb
    exact h.enter_first horder
  · exact h.enter_later horder hb

/-! ## Leaving a block -/

/-- Where the stacks that leave a block by an edge are kept. -/
def exitPlace (b : BlockId) (e : Edge) : Place := .edge b e.target e.kind

/-- The edges that lead to blocks that have not run. -/
def ahead (x : Execution) (successors : List Edge) : List Edge :=
  successors.filter fun e => !x.done.contains e.target

/-- The edges that lead to handlers. -/
def caught (edges : List Edge) : List Edge :=
  edges.filter fun e => e.kind == .exception

/-- The edges that stacks are carried along. -/
def carried (edges : List Edge) : List Edge :=
  edges.filter (not ∘ fun e => e.kind == .exception)

/-- An empty stack is started for every handler. -/
def restarted (s : StackFamily Place Variable) (b : BlockId)
    (edges : List Edge) :
    StackFamily Place Variable :=
  ((caught edges).map (exitPlace b)).foldl StackFamily.init s

/-- `t` is `s` with the stacks of a block handed to edges of it. -/
structure HandedOut (s : StackFamily Place Variable)
    (b : BlockId) (edges : List Edge) (kept : Set (List Variable))
    (t : StackFamily Place Variable) : Prop where
  sound : t.Sound
  entries_eq : t.entries = s.entries
  view_block : t.view (.block b) = none
  view_exit : ∀ e ∈ edges,
    t.view (exitPlace b e) = some (if e.kind = .exception then {[]} else kept)
  view_ne : ∀ p, p ≠ .block b → (∀ e ∈ edges, p ≠ exitPlace b e) →
    t.view p = s.view p

theorem mem_ahead (x : Execution) (successors : List Edge) (e : Edge) :
    e ∈ ahead x successors ↔ e ∈ successors ∧ e.target ∉ x.done := by
  simp [ahead]

theorem mem_caught (edges : List Edge) (e : Edge) :
    e ∈ caught edges ↔ e ∈ edges ∧ e.kind = .exception := by
  simp [caught]

theorem mem_carried (edges : List Edge) (e : Edge) :
    e ∈ carried edges ↔ e ∈ edges ∧ e.kind ≠ .exception := by
  simp [carried]

theorem exitPlace_ne_block (b c : BlockId) (e : Edge) :
    exitPlace b e ≠ .block c := by
  simp [exitPlace]

theorem kind_eq_of_exitPlace {b : BlockId} {e f : Edge}
    (h : exitPlace b e = exitPlace b f) :
    e.kind = f.kind :=
  (Place.edge.inj h).2.2

section Exits

variable {s : StackFamily Place Variable} {b : BlockId} {edges : List Edge}

theorem sound_restarted (hs : s.Sound) (b : BlockId) (edges : List Edge) :
    (restarted s b edges).Sound ∧ (restarted s b edges).entries = s.entries :=
  hs.foldl_init _

theorem view_restarted_caught {e : Edge} (he : e ∈ edges)
    (hkind : e.kind = .exception) :
    (restarted s b edges).view (exitPlace b e) = some {[]} :=
  s.view_foldl_init_mem
    (List.mem_map_of_mem ((mem_caught edges e).2 ⟨he, hkind⟩))

theorem view_restarted_ne {p : Place}
    (h : ∀ e ∈ edges, e.kind = .exception → p ≠ exitPlace b e) :
    (restarted s b edges).view p = s.view p := by
  apply s.view_foldl_init_not_mem
  intro hp
  obtain ⟨e, he, rfl⟩ := List.mem_map.1 hp
  obtain ⟨he, hkind⟩ := (mem_caught edges e).1 he
  exact h e he hkind rfl

theorem view_restarted_block (s : StackFamily Place Variable) (b : BlockId)
    (edges : List Edge) :
    (restarted s b edges).view (.block b) = s.view (.block b) :=
  view_restarted_ne fun e _ _ => (exitPlace_ne_block b b e).symm

/-- A block that no stacks are carried from. -/
theorem handedOut_erase (hs : s.Sound) (kept : Set (List Variable))
    (hnone : carried edges = []) :
    HandedOut s b edges kept ((restarted s b edges).erase (.block b)) where
  sound := (sound_restarted hs b edges).1.erase _
  entries_eq := (sound_restarted hs b edges).2
  view_block := StackFamily.view_erase_self _ _
  view_exit := by
    intro e he
    have hkind : e.kind = .exception := by
      by_contra hkind
      have hmem := (mem_carried _ e).2 ⟨he, hkind⟩
      simp [hnone] at hmem
    rw [StackFamily.view_erase_ne _ (exitPlace_ne_block b b e),
      view_restarted_caught he hkind, if_pos hkind]
  view_ne := by
    intro p hp hne
    rw [StackFamily.view_erase_ne _ hp]
    exact view_restarted_ne fun e he _ => hne e he

/-- A block whose stacks are carried along edges on which nothing is kept. -/
theorem handedOut_split (hs : s.Sound)
    {kept : Set (List Variable)} (hview : s.view (.block b) = some kept)
    (hfree : ∀ e, s.view (exitPlace b e) = none) :
    ∃ t, (restarted s b edges).split (.block b)
      ((carried edges).map (exitPlace b)) = (t, .ok ()) ∧
      HandedOut s b edges kept t := by
  obtain ⟨hsound, hentries⟩ := sound_restarted hs b edges
  have hblock := (view_restarted_block s b edges).trans hview
  obtain ⟨n, hn⟩ := hsound.exists_uniform hblock
  have hempty : ∀ p ∈ (carried edges).map (exitPlace b),
      ((restarted s b edges).erase (.block b)).view p = none := by
    intro p hp
    obtain ⟨e, he, rfl⟩ := List.mem_map.1 hp
    rw [StackFamily.view_erase_ne _ (exitPlace_ne_block b b e),
      view_restarted_ne, hfree]
    intro f hf hkind heq
    exact ((mem_carried _ e).1 he).2 ((kind_eq_of_exitPlace heq).trans hkind)
  have hnotMem : ∀ p, (∀ e ∈ edges, e.kind ≠ .exception → p ≠ exitPlace b e) →
      p ∉ (carried edges).map (exitPlace b) := by
    intro p hp hmem
    obtain ⟨e, he, rfl⟩ := List.mem_map.1 hmem
    obtain ⟨he, hkind⟩ := (mem_carried _ e).1 he
    exact hp e he hkind rfl
  obtain ⟨t, hsplit, hhanded⟩ := StackFamily.handedTo_split hsound hblock hn
    ((carried edges).map (exitPlace b)) (by
      intro p hp stackSet hview
      simp [hempty p hp] at hview)
  refine ⟨t, hsplit, hhanded.sound, hhanded.entries_eq.trans hentries, ?_, ?_,
    ?_⟩
  · rw [hhanded.view_not_mem, StackFamily.view_erase_self]
    exact hnotMem _ fun e _ _ => (exitPlace_ne_block b b e).symm
  · intro e he
    by_cases hkind : e.kind = .exception
    · rw [hhanded.view_not_mem,
        StackFamily.view_erase_ne _ (exitPlace_ne_block b b e),
        view_restarted_caught he hkind, if_pos hkind]
      exact hnotMem _ fun f _ hf heq =>
        hf ((kind_eq_of_exitPlace heq).symm.trans hkind)
    · have hmem : exitPlace b e ∈ (carried edges).map (exitPlace b) :=
        List.mem_map_of_mem ((mem_carried _ e).2 ⟨he, hkind⟩)
      rw [hhanded.view_mem _ hmem, hempty _ hmem, if_neg hkind,
        Option.getD_none, Set.empty_union]
  · intro p hp hne
    rw [hhanded.view_not_mem _ (hnotMem p fun e he _ => hne e he),
      StackFamily.view_erase_ne _ hp]
    exact view_restarted_ne fun e he _ => hne e he

end Exits

theorem leave_of_remove {x : Execution} {b : BlockId} {successors : List Edge}
    (hnone : carried (ahead x successors) = []) {t : StackFamily Place Variable}
    (h : (restarted x.family b (ahead x successors)).remove (.block b) =
      .ok t) :
    x.leave b successors = .ok { x with
      family := t, pending :=
        x.pending ++ (ahead x successors).map (exitPlace b) } := by
  unfold restarted caught ahead exitPlace at h
  unfold carried ahead at hnone
  simp only [Execution.leave, List.partition_eq_filter_filter, hnone, h]
  rfl

theorem leave_of_split {x : Execution} {b : BlockId} {successors : List Edge}
    (hne : carried (ahead x successors) ≠ []) {t : StackFamily Place Variable}
    (h : (restarted x.family b (ahead x successors)).split (.block b)
      ((carried (ahead x successors)).map (exitPlace b)) = (t, .ok ())) :
    x.leave b successors = .ok { x with
      family := t, pending :=
        x.pending ++ (ahead x successors).map (exitPlace b) } := by
  unfold restarted caught carried ahead exitPlace at h
  unfold carried ahead at hne
  simp only [Execution.leave, List.partition_eq_filter_filter, List.isEmpty_iff,
    hne, if_false, h]
  rfl

/-- Leaving a block never fails. -/
theorem exists_leave {x : Execution} {b : BlockId} {kept : Set (List Variable)}
    (hs : x.family.Sound) (hview : x.family.view (.block b) = some kept)
    (hfree : ∀ e, x.family.view (exitPlace b e) = none)
    (successors : List Edge) :
    ∃ t, x.leave b successors = .ok { x with
        family := t, pending :=
          x.pending ++ (ahead x successors).map (exitPlace b) } ∧
      HandedOut x.family b (ahead x successors) kept t := by
  by_cases hnone : carried (ahead x successors) = []
  · have hblock :=
      (view_restarted_block x.family b (ahead x successors)).trans hview
    have hremove := StackFamily.remove_eq hblock
    exact ⟨_, leave_of_remove hnone hremove, handedOut_erase hs kept hnone⟩
  · obtain ⟨t, hsplit, hhanded⟩ := handedOut_split hs hview hfree
    exact ⟨t, leave_of_split hnone hsplit, hhanded⟩

/-- What waits once a block has handed out its stacks is what waited before,
and its edges ahead. -/
theorem waiting_ran_iff {ran : List BlockId} {b : BlockId} {x : Execution}
    (hdone : ∀ c, c ∈ x.done ↔ c ∈ ran ++ [b]) (p : Place) :
    g.Waiting (ran ++ [b]) (ran ++ [b]) p ↔ g.Waiting ran (ran ++ [b]) p ∨
      ∃ e ∈ ahead x (g.block b).successors, p = exitPlace b e := by
  simp only [mem_ahead, hdone]
  constructor
  · rintro ⟨a, ha, e, he, htarget, rfl⟩
    rcases List.mem_append.1 ha with ha | hb
    · exact .inl ⟨a, ha, e, he, htarget, rfl⟩
    · rw [List.mem_singleton.1 hb] at he ⊢
      exact .inr ⟨e, ⟨he, htarget⟩, rfl⟩
  · rintro (⟨a, ha, e, he, htarget, rfl⟩ | ⟨e, ⟨he, htarget⟩, rfl⟩)
    · exact ⟨a, List.mem_append_left _ ha, e, he, htarget, rfl⟩
    · exact ⟨b, List.mem_append_right _ (List.mem_singleton_self b), e, he,
        htarget, rfl⟩

/-- The stacks handed to an edge stand for those with which paths leave by
it. -/
theorem Tracks.exit {b : BlockId} {kept : Set (List Variable)}
    (h : g.Tracks kept {stack | g.StackAt b (g.block b).ops.length stack})
    (kind : EdgeKind) :
    g.Tracks (if kind = .exception then {[]} else kept)
      {stack | g.LeftOn b kind stack} := by
  by_cases hkind : kind = .exception
  · obtain ⟨n, _, last, hlast⟩ := h.uniform
    have hpaths : {stack | g.LeftOn b kind stack} = {[]} := by
      ext stack
      simp only [LeftOn, if_pos hkind]
      exact ⟨fun hleft => hleft.1, fun hnil => ⟨hnil, last⟩⟩
    rw [if_pos hkind, hpaths]
    exact ⟨⟨0, uniform_singleton_nil _, uniform_singleton_nil _⟩, fun _ => rfl⟩
  · simpa only [LeftOn, if_neg hkind] using h

theorem Inside.leave {ran rest : List BlockId}
    {b : BlockId} {x : Execution} (h : g.Inside ran b (g.block b).ops.length x)
    (horder : g.order = ran ++ b :: rest) :
    Yields (x.leave b (g.block b).successors)
      (g.Between (ran ++ [b])) g.Refused := by
  obtain ⟨kept, hview, htracks⟩ := h.here
  have hsource : ∀ p, g.Waiting ran (ran ++ [b]) p → p ≠ .block b ∧ ∀ e,
      p ≠ exitPlace b e := by
    rintro p ⟨a, ha, e, he, htarget, rfl⟩
    refine ⟨by simp, ?_⟩
    intro f heq
    rw [(Place.edge.inj heq).1] at ha
    exact not_mem_ran horder ha
  have hfree : ∀ e, x.family.view (exitPlace b e) = none := by
    intro e
    by_contra hlive
    rcases h.live _ hlive with hwaiting | hblock
    · exact (hsource _ hwaiting).2 e rfl
    · exact exitPlace_ne_block b b e hblock
  obtain ⟨t, hleave, hhanded⟩ :=
    exists_leave h.sound hview hfree (g.block b).successors
  have hwaiting := waiting_ran_iff (g := g) h.done_iff
  rw [hleave]
  refine
    { done_iff := h.done_iff
      sound := hhanded.sound
      pushed := ?_
      pending_iff := ?_
      waiting := ?_
      live := ?_
      first := by simp }
  · intro v hv
    exact h.pushed v ((StackFamily.holds_congr hhanded.entries_eq v).1 hv)
  · intro p
    rw [List.mem_append, h.pending_iff, hwaiting, List.mem_map]
    simp only [eq_comm]
  · intro a target kind hwaits
    rcases (hwaiting _).1 hwaits with hbefore | ⟨e, he, heq⟩
    · obtain ⟨hblock, hexit⟩ := hsource _ hbefore
      rw [hhanded.view_ne _ hblock fun e _ => hexit e]
      exact h.waiting a target kind hbefore
    · obtain ⟨rfl, _, rfl⟩ := Place.edge.inj heq
      refine ⟨_, ?_, htracks.exit e.kind⟩
      rw [heq]
      exact hhanded.view_exit e he
  · intro p hp
    refine .inl ((hwaiting p).2 ?_)
    by_cases hexit : ∃ e ∈ ahead x (g.block b).successors, p = exitPlace b e
    · exact .inr hexit
    · have hblock : p ≠ .block b := by
        rintro rfl
        exact hp hhanded.view_block
      rw [hhanded.view_ne p hblock fun e he heq => hexit ⟨e, he, heq⟩] at hp
      exact .inl ((h.live p hp).resolve_right hblock)

end FlowGraph

end TestCost
