import TestCost.Proofs.Flow.Branching
import TestCost.Proofs.Flow.Paths

/-!
# Cutting a block, and the order of blocks

A graph and the graph in which one block is cut in two (`FlowGraph.Cut`). The
front of the block keeps its handlers and goes on to the back, which is a new
block; the back takes over the ways out. All other blocks are as they were, but
for their names, since the new block has a place among them.

The two graphs are searched side by side. The searches differ while the back is
on the path: there the path of one has a block that the path of the other has
not, and what is left to try at the whole block is split over the two halves,
the ways out at the back and the handlers at the front. This is where it matters
that the last successor is tried first and that handlers come first. When the
ways out are exhausted the back is finished, and from then on the searches agree
again, but for the back among the finished blocks. So the order of the cut graph
is that of the other, with the back put in at one point, behind the front.

What the back leads to was found by then. Either it is finished, and comes
behind the back, or it is on the path, and comes before the front or is the
front.

A cut may also cut nothing (`cut = none`): blocks are renamed, and there may be
new ones that nothing leads to. A label in code that cannot be reached does
that.

## Main results

* `Cut.explore_past`, `Cut.explore_inside`, `Cut.explore_before` — the searches
  after, while and before the back is on the path.
* `Cut.order` — the order of the cut graph.
* `Cut.before_iff`, `Cut.before_back_iff` — which block is before which.
-/

namespace TestCost

/-- The edge, with its target renamed. -/
def Edge.rename (ρ : BlockId → BlockId) (e : Edge) : Edge :=
  { e with target := ρ e.target }

/-- The block, with itself and the targets of its edges renamed. -/
def Block.rename (ρ : BlockId → BlockId) (d : Block) : Block :=
  { d with id := ρ d.id, successors := d.successors.map (Edge.rename ρ) }

/-- The edges to the handlers of the block. -/
def Block.caught (d : Block) : List Edge :=
  d.successors.filter fun e => e.kind = .exception

/-- A block is cut in two. Its front keeps the handlers and goes on to the
`fresh` block, the back, which takes over the ways out. -/
structure Block.Halves (ρ : BlockId → BlockId) (fresh : BlockId)
    (whole front back : Block) :
    Prop where
  ops : whole.ops = front.ops ++ back.ops
  sorted : whole.successors = whole.caught ++ whole.exits
  kept : front.successors =
    whole.caught.map (Edge.rename ρ) ++ [⟨fresh, .fallThrough⟩]
  taken : back.successors = whole.exits.map (Edge.rename ρ)
  terminal : back.isTerminal = whole.isTerminal

namespace FlowGraph

/-- The second graph is the first with block `cut` cut in two, and blocks
renamed by `ρ`; the back of the block that is cut is block `fresh`. -/
structure Cut (ρ : BlockId → BlockId) (cut : Option BlockId) (fresh : BlockId)
    (g g' : FlowGraph) : Prop where
  injective : Function.Injective ρ
  entry : ρ entry = entry
  size : ∀ b, ρ b < g'.blocks.size ↔ b < g.blocks.size
  cut_lt : ∀ c, cut = some c → c < g.blocks.size
  other : ∀ b, cut ≠ some b → g'.block (ρ b) = (g.block b).rename ρ
  halves : ∀ c, cut = some c →
    Block.Halves ρ fresh (g.block c) (g'.block (ρ c)) (g'.block fresh)
  fresh_ne : ∀ c, cut = some c → ∀ b, ρ b ≠ fresh
  fresh_lt : ∀ c, cut = some c → fresh < g'.blocks.size

/-- The blocks that handlers of the block start at. -/
def caughtAt (g : FlowGraph) (b : BlockId) : List BlockId :=
  (g.block b).caught.map Edge.target

/-- The blocks that the block leads to other than by an exception. -/
def exitsOf (g : FlowGraph) (b : BlockId) : List BlockId :=
  (g.block b).exits.map Edge.target

/-! ## Searches, step by step -/

section Explore

variable (g : FlowGraph) {unseen : List BlockId}
  {path outer : List (BlockId × List BlockId)}
  {finished left : List BlockId} {id next : BlockId}

theorem explore_finish :
    g.explore unseen ((id, []) :: outer) finished =
      g.explore unseen outer (id :: finished) := by
  rw [explore]

theorem explore_find (h : next ∈ unseen) :
    g.explore unseen ((id, next :: left) :: outer) finished =
      g.explore (unseen.erase next) ((next, (g.targets next).reverse) ::
        (id, left) :: outer)
        finished := by
  rw [explore, if_pos h]

theorem explore_pass (h : next ∉ unseen) :
    g.explore unseen ((id, next :: left) :: outer) finished =
      g.explore unseen ((id, left) :: outer) finished := by
  rw [explore, if_neg h]

/-- A search never looks at the blocks that are finished. -/
theorem explore_append (more : List BlockId) :
    g.explore unseen path (finished ++ more) =
      g.explore unseen path finished ++ more := by
  induction unseen, path, finished using explore.induct (g := g) with
  | case1 unseen finished => rw [explore, explore]
  | case2 unseen finished id outer ih =>
      rw [explore_finish, explore_finish]
      exact ih
  | case3 unseen finished id next left outer hnext ih =>
      rw [explore_find g hnext, explore_find g hnext]
      exact ih
  | case4 unseen finished id next left outer hnext ih =>
      rw [explore_pass g hnext, explore_pass g hnext]
      exact ih

/-- Blocks that have been found stay in their order. -/
theorem found_sublist_explore :
    (found path finished).Sublist (g.explore unseen path finished) := by
  induction unseen, path, finished using explore.induct (g := g) with
  | case1 unseen finished =>
      rw [explore]
      exact List.Sublist.refl _
  | case2 unseen finished id outer ih =>
      rw [explore_finish, ← found_finish id []]
      exact ih
  | case3 unseen finished id next left outer hnext ih =>
      rw [explore_find g hnext, found_congr id _ left]
      exact (found_find_sublist next _ _ finished).trans ih
  | case4 unseen finished id next left outer hnext ih =>
      rw [explore_pass g hnext, found_congr id _ left]
      exact ih

end Explore

/-! ## Two searches side by side -/

/-- The path, with its blocks renamed. -/
def renamePath (ρ : BlockId → BlockId) (path : List (BlockId × List BlockId)) :
    List (BlockId × List BlockId) :=
  path.map fun p => (ρ p.1, p.2.map ρ)

/-- The same blocks are still to be found, those apart that are not named by
`ρ`. -/
structure Unfound (ρ : BlockId → BlockId) (unseen unseen' : List BlockId) :
    Prop where
  nodup : unseen.Nodup
  nodup' : unseen'.Nodup
  mem_iff : ∀ t, ρ t ∈ unseen' ↔ t ∈ unseen

/-- The second order is the first, renamed, with the block `fresh` put in behind
`c`. What is in `ways` is behind `fresh`, or at `c`, or before it. -/
def Inserted (ρ : BlockId → BlockId) (c fresh : BlockId)
    (ways order order' : List BlockId) :
    Prop :=
  ∃ ahead behind outer, order = ahead ++ behind ∧
    order' = ahead.map ρ ++ fresh :: behind.map ρ ∧
    (outer ++ c :: behind).Sublist order ∧ ∀ t ∈ ways, t ∈ outer ∨
      t = c ∨ t ∈ behind

variable {ρ : BlockId → BlockId} {cut : Option BlockId} {fresh c : BlockId}
  {g g' : FlowGraph}
  {unseen unseen' finished rest : List BlockId}
    {path outer : List (BlockId × List BlockId)}

theorem Unfound.erase (h : Unfound ρ unseen unseen')
    (hinj : Function.Injective ρ) (t : BlockId) :
    Unfound ρ (unseen.erase t) (unseen'.erase (ρ t)) where
  nodup := h.nodup.erase t
  nodup' := h.nodup'.erase (ρ t)
  mem_iff s := by
    rw [h.nodup.mem_erase_iff, h.nodup'.mem_erase_iff, h.mem_iff]
    exact and_congr_left' (not_congr hinj.eq_iff)

theorem Unfound.erase_fresh (h : Unfound ρ unseen unseen')
    (hfresh : ∀ t, ρ t ≠ fresh) :
    Unfound ρ unseen (unseen'.erase fresh) where
  nodup := h.nodup
  nodup' := h.nodup'.erase fresh
  mem_iff s := by
    rw [h.nodup'.mem_erase_iff, h.mem_iff]
    exact and_iff_right (hfresh s)

namespace Cut

theorem targets_other (h : Cut ρ cut fresh g g') {b : BlockId}
    (hb : cut ≠ some b) :
    g'.targets (ρ b) = (g.targets b).map ρ := by
  rw [targets, h.other b hb, targets, Block.rename, List.map_map, List.map_map]
  rfl

theorem targets_whole (h : Cut ρ cut fresh g g') (hc : cut = some c) :
    (g.targets c).reverse = (g.exitsOf c).reverse ++
      (g.caughtAt c).reverse := by
  rw [targets, (h.halves c hc).sorted, List.map_append, List.reverse_append]
  rfl

theorem targets_front (h : Cut ρ cut fresh g g') (hc : cut = some c) :
    (g'.targets (ρ c)).reverse = fresh :: (g.caughtAt c).reverse.map ρ := by
  rw [targets, (h.halves c hc).kept, List.map_append, List.reverse_append,
    List.map_map, caughtAt, List.map_reverse, List.map_map]
  rfl

theorem targets_back (h : Cut ρ cut fresh g g') (hc : cut = some c) :
    (g'.targets fresh).reverse = (g.exitsOf c).reverse.map ρ := by
  rw [targets, (h.halves c hc).taken, List.map_map, exitsOf, List.map_reverse,
    List.map_map]
  rfl

/-- When the block has been found that is cut, and its back is finished or on no
path, the searches go the same way. -/
theorem explore_past
    (h : Cut ρ cut fresh g g') (hunfound : Unfound ρ unseen unseen')
    (hpast : ∀ c, cut = some c → c ∉ unseen)
    (path : List (BlockId × List BlockId)) (finished more : List BlockId) :
    g'.explore unseen' (renamePath ρ path) (finished.map ρ ++ more) =
      (g.explore unseen path finished).map ρ ++ more := by
  induction unseen, path, finished using
    explore.induct (g := g) generalizing unseen' with
  | case1 unseen finished =>
      rw [explore]
      exact explore.eq_1 _ _ _
  | case2 unseen finished id outer ih =>
      rw [explore_finish]
      exact (explore_finish g').trans (ih hunfound hpast)
  | case3 unseen finished id next left outer hnext ih =>
      have hcut : cut ≠ some next := fun hc => hpast next hc hnext
      have htargets :
          (g'.targets (ρ next)).reverse = (g.targets next).reverse.map ρ := by
        rw [h.targets_other hcut, List.map_reverse]
      rw [explore_find g hnext, ← ih (hunfound.erase h.injective next) ?_]
      · refine (explore_find g' ((hunfound.mem_iff next).2 hnext)).trans ?_
        rw [htargets]
        rfl
      · exact fun c hc hmem => hpast c hc (List.mem_of_mem_erase hmem)
  | case4 unseen finished id next left outer hnext ih =>
      rw [explore_pass g hnext, ← ih hunfound hpast]
      exact explore_pass g' fun hmem => hnext ((hunfound.mem_iff next).1 hmem)

/-- The ways out of the block that is cut are exhausted, and its back is
finished. -/
theorem explore_turn
    (h : Cut ρ cut fresh g g') (hg : g.WellFormed) (hc : cut = some c)
    (hunfound : Unfound ρ unseen unseen') (hpast : c ∉ unseen)
    (hpath : path = (c, rest) :: outer) (hs : g.Searched unseen path finished)
    (htried : ∀ t ∈ g.exitsOf c, t ∉ unseen) :
    Inserted ρ c fresh (g.exitsOf c) (g.explore unseen path finished)
      (g'.explore unseen' ((fresh, []) :: (ρ c, rest.map ρ) ::
        renamePath ρ outer)
        (finished.map ρ)) := by
  subst hpath
  refine ⟨g.explore unseen ((c, rest) :: outer) [], finished,
    (outer.map Prod.fst).reverse, ?_, ?_, ?_, ?_⟩
  · rw [← explore_append, List.nil_append]
  · rw [explore_finish]
    refine h.explore_past hunfound ?_ ((c, rest) :: outer) []
      (fresh :: finished.map ρ)
    intro c' hc'
    rw [Option.some.inj (hc'.symm.trans hc)]
    exact hpast
  · rw [← found_find c rest]
    exact found_sublist_explore g
  · intro t ht
    have htarget : t ∈ g.targets c := by
      rw [← List.mem_reverse, h.targets_whole hc, List.mem_append,
        List.mem_reverse]
      exact .inl ht
    have hlt : t < g.blocks.size := by
      obtain ⟨e, he, rfl⟩ := List.mem_map.1 htarget
      rcases g.block_mem_or_eq c with hblock | hempty
      · exact hg _ hblock e he
      · simp [hempty] at he
    rcases hs.covered t hlt with hunseen | hfound
    · exact absurd hunseen (htried t ht)
    · rwa [found_find, List.mem_append, List.mem_cons] at hfound

/-- While the back is on the path: `inner` was found from it, and `left` are the
ways out that are still to be tried. The turn of the back comes when nothing
that was found from it is open and nothing is left. -/
theorem explore_inside (h : Cut ρ cut fresh g g') (hg : g.WellFormed)
    (hc : cut = some c) (inner : List (BlockId × List BlockId))
    (left : List BlockId) (hunfound : Unfound ρ unseen unseen')
    (hpast : c ∉ unseen) (hpath : path = inner ++ (c, left ++ rest) :: outer)
    (hs : g.Searched unseen path finished)
    (htried : ∀ t ∈ g.exitsOf c, t ∈ left ∨ t ∉ unseen) :
    Inserted ρ c fresh (g.exitsOf c) (g.explore unseen path finished)
      (g'.explore unseen' (renamePath ρ inner ++ (fresh, left.map ρ) ::
        (ρ c, rest.map ρ) ::
        renamePath ρ outer) (finished.map ρ)) := by
  have hnone : ∀ {unseen : List BlockId},
      (∀ t ∈ g.exitsOf c, t ∈ [] ∨ t ∉ unseen) →
      ∀ t ∈ g.exitsOf c, t ∉ unseen := fun htried t ht =>
        (htried t ht).resolve_left (by simp)
  induction unseen, path, finished using explore.induct (g := g)
    generalizing unseen' inner left with
  | case1 unseen finished => simp at hpath
  | case2 unseen finished id outer' ih =>
      cases inner with
      | nil =>
          have hleft : left = [] := by
            have hempty : [] = left ++ rest :=
              (Prod.mk.inj (List.cons.inj hpath).1).2
            exact (List.append_eq_nil_iff.1 hempty.symm).1
          subst hleft
          exact h.explore_turn hg hc hunfound hpast hpath hs (hnone htried)
      | cons p inner =>
          obtain ⟨rfl, houter⟩ := List.cons.inj hpath
          rw [explore_finish]
          have hstep := ih inner left hunfound hpast houter hs.finish htried
          exact (explore_finish g').symm ▸ hstep
  | case3 unseen finished id next left' outer' hnext ih =>
      have hne : next ≠ c := fun heq => hpast (heq ▸ hnext)
      have hcut : cut ≠ some next :=
        fun hcut => hne (Option.some.inj (hcut.symm.trans hc))
      have hnext' := (hunfound.mem_iff next).2 hnext
      have htargets :
          (g'.targets (ρ next)).reverse = (g.targets next).reverse.map ρ := by
        rw [h.targets_other hcut, List.map_reverse]
      have hpast' : c ∉ unseen.erase next :=
        fun hmem => hpast (List.mem_of_mem_erase hmem)
      have hunfound' := hunfound.erase h.injective next
      cases inner with
      | nil =>
          cases left with
          | nil =>
              exact h.explore_turn hg hc hunfound hpast hpath hs (hnone htried)
          | cons first left =>
              obtain ⟨hhead, rfl⟩ := List.cons.inj hpath
              obtain ⟨rfl, htail⟩ := Prod.mk.inj hhead
              obtain ⟨rfl, rfl⟩ := List.cons.inj htail
              rw [explore_find g hnext]
              have hstep := ih [(next, (g.targets next).reverse)] left
                hunfound' hpast' rfl (hs.find hnext) ?_
              · refine (explore_find g' hnext').symm ▸ ?_
                rw [htargets]
                exact hstep
              · intro t ht
                rcases htried t ht with hleft | hseen
                · rcases List.mem_cons.1 hleft with rfl | hleft
                  · exact .inr fun hmem =>
                      (hunfound.nodup.mem_erase_iff.1 hmem).1 rfl
                  · exact .inl hleft
                · exact .inr fun hmem => hseen (List.mem_of_mem_erase hmem)
      | cons p inner =>
          obtain ⟨rfl, rfl⟩ := List.cons.inj hpath
          rw [explore_find g hnext]
          have hstep := ih ((next, (g.targets next).reverse) :: (id, left') ::
            inner) left hunfound' hpast' rfl (hs.find hnext) fun t ht =>
              (htried t ht).imp_right fun hseen hmem =>
                hseen (List.mem_of_mem_erase hmem)
          refine (explore_find g' hnext').symm ▸ ?_
          rw [htargets]
          exact hstep
  | case4 unseen finished id next left' outer' hnext ih =>
      have hnext' : ρ next ∉ unseen' :=
        fun hmem => hnext ((hunfound.mem_iff next).1 hmem)
      cases inner with
      | nil =>
          cases left with
          | nil =>
              exact h.explore_turn hg hc hunfound hpast hpath hs (hnone htried)
          | cons first left =>
              obtain ⟨hhead, rfl⟩ := List.cons.inj hpath
              obtain ⟨rfl, htail⟩ := Prod.mk.inj hhead
              obtain ⟨rfl, rfl⟩ := List.cons.inj htail
              rw [explore_pass g hnext]
              have hstep := ih [] left hunfound hpast rfl (hs.pass hnext) ?_
              · exact (explore_pass g' hnext').symm ▸ hstep
              · intro t ht
                rcases htried t ht with hleft | hseen
                · rcases List.mem_cons.1 hleft with rfl | hleft
                  · exact .inr hnext
                  · exact .inl hleft
                · exact .inr hseen
      | cons p inner =>
          obtain ⟨rfl, rfl⟩ := List.cons.inj hpath
          rw [explore_pass g hnext]
          have hstep := ih ((id, left') :: inner) left hunfound hpast rfl
            (hs.pass hnext) htried
          exact (explore_pass g' hnext').symm ▸ hstep

/-- The block that is cut has just been found. -/
theorem explore_enter (h : Cut ρ cut fresh g g') (hg : g.WellFormed)
    (hc : cut = some c) (outer : List (BlockId × List BlockId))
    (hunfound : Unfound ρ unseen unseen')
    (hpast : c ∉ unseen) (hfresh : fresh ∈ unseen')
    (hs : g.Searched unseen ((c, (g.targets c).reverse) :: outer) finished) :
    Inserted ρ c fresh (g.exitsOf c)
      (g.explore unseen ((c, (g.targets c).reverse) :: outer) finished)
      (g'.explore unseen' ((ρ c, (g'.targets (ρ c)).reverse) ::
        renamePath ρ outer)
        (finished.map ρ)) := by
  rw [h.targets_front hc, explore_find g' hfresh, h.targets_back hc]
  exact h.explore_inside hg hc [] (g.exitsOf c).reverse
    (hunfound.erase_fresh (h.fresh_ne c hc)) hpast
    (by rw [h.targets_whole hc]; rfl) hs
    fun t ht => .inl (List.mem_reverse.2 ht)

/-- As long as the block that is cut is not found, the searches go the same
way. -/
theorem explore_before (h : Cut ρ cut fresh g g')
    (hg : g.WellFormed) (hunfound : Unfound ρ unseen unseen')
    (hahead : ∀ c, cut = some c → c ∈ unseen ∧ fresh ∈ unseen')
    (hs : g.Searched unseen path finished) :
    (g'.explore unseen' (renamePath ρ path) (finished.map ρ) =
        (g.explore unseen path finished).map ρ ∧
      ∀ c, cut = some c → c ∉ g.explore unseen path finished) ∨
    ∃ c, cut = some c ∧
      Inserted ρ c fresh (g.exitsOf c) (g.explore unseen path finished)
      (g'.explore unseen' (renamePath ρ path) (finished.map ρ)) := by
  induction unseen, path, finished using
    explore.induct (g := g) generalizing unseen' with
  | case1 unseen finished =>
      refine .inl ⟨?_, ?_⟩
      · rw [explore]
        exact explore.eq_1 _ _ _
      · intro c hc
        rw [explore]
        simpa [found] using hs.fresh c (hahead c hc).1
  | case2 unseen finished id outer ih =>
      rw [explore_finish]
      exact (explore_finish g').symm ▸ ih hunfound hahead hs.finish
  | case3 unseen finished id next left outer hnext ih =>
      have hnext' := (hunfound.mem_iff next).2 hnext
      have hunfound' := hunfound.erase h.injective next
      rw [explore_find g hnext]
      by_cases hcut : cut = some next
      · refine .inr ⟨next, hcut, (explore_find g' hnext').symm ▸ ?_⟩
        refine h.explore_enter hg hcut ((id, left) :: outer) hunfound' ?_ ?_
          (hs.find hnext)
        · exact fun hmem => (hunfound.nodup.mem_erase_iff.1 hmem).1 rfl
        · rw [List.mem_erase_of_ne (h.fresh_ne next hcut next).symm]
          exact (hahead next hcut).2
      · have hstep := ih hunfound' ?_ (hs.find hnext)
        · refine (explore_find g' hnext').symm ▸ ?_
          rw [h.targets_other hcut, ← List.map_reverse]
          exact hstep
        · intro c hc
          have hne : c ≠ next := fun heq => hcut (heq ▸ hc)
          rw [List.mem_erase_of_ne hne,
            List.mem_erase_of_ne (h.fresh_ne c hc next).symm]
          exact hahead c hc
  | case4 unseen finished id next left outer hnext ih =>
      have hnext' : ρ next ∉ unseen' :=
        fun hmem => hnext ((hunfound.mem_iff next).1 hmem)
      rw [explore_pass g hnext]
      exact (explore_pass g' hnext').symm ▸ ih hunfound hahead (hs.pass hnext)

/-! ## The order -/

theorem unfound_start (h : Cut ρ cut fresh g g') :
    Unfound ρ ((List.range g.blocks.size).erase FlowGraph.entry)
      ((List.range g'.blocks.size).erase FlowGraph.entry) where
  nodup := List.nodup_range.erase _
  nodup' := List.nodup_range.erase _
  mem_iff t := by
    have hentry : ρ t = FlowGraph.entry ↔ t = FlowGraph.entry := by
      constructor
      · intro heq
        exact h.injective (heq.trans h.entry.symm)
      · rintro rfl
        exact h.entry
    rw [List.nodup_range.mem_erase_iff, List.nodup_range.mem_erase_iff,
      List.mem_range, List.mem_range, h.size t]
    exact and_congr_left' (not_congr hentry)

/-- The order of the cut graph is that of the other, renamed; the back of the
block that is cut is put in, if that block is in the order at all. -/
theorem order (h : Cut ρ cut fresh g g') (hg : g.WellFormed) :
    (g'.order = g.order.map ρ ∧ ∀ c, cut = some c → c ∉ g.order) ∨
      ∃ c,
        cut = some c ∧ Inserted ρ c fresh (g.exitsOf c) g.order g'.order := by
  have hfresh : ∀ c, cut = some c →
      fresh ∈ (List.range g'.blocks.size).erase FlowGraph.entry := by
    intro c hc
    rw [List.nodup_range.mem_erase_iff, List.mem_range]
    exact ⟨fun heq => h.fresh_ne c hc FlowGraph.entry (h.entry.trans heq.symm),
      h.fresh_lt c hc⟩
  by_cases hcut : cut = some FlowGraph.entry
  · right
    refine ⟨FlowGraph.entry, hcut, ?_⟩
    have hstart := h.explore_enter hg hcut [] h.unfound_start
      (fun hmem => (List.nodup_range.mem_erase_iff.1 hmem).1 rfl)
      (hfresh _ hcut) g.searched_start
    rw [h.entry] at hstart
    exact hstart
  · have hstart := h.explore_before hg h.unfound_start ?_ g.searched_start
    · have hpath : renamePath ρ
          [(FlowGraph.entry, (g.targets FlowGraph.entry).reverse)] =
          [(FlowGraph.entry, (g'.targets FlowGraph.entry).reverse)] := by
        have htargets := h.targets_other hcut
        rw [h.entry] at htargets
        rw [htargets, ← List.map_reverse]
        exact congrArg (fun b => [(b, _)]) h.entry
      rw [hpath] at hstart
      exact hstart
    · intro c hc
      have hne : c ≠ FlowGraph.entry := fun heq => hcut (heq ▸ hc)
      exact ⟨(List.mem_erase_of_ne hne).2 (List.mem_range.2 (h.cut_lt c hc)),
        hfresh c hc⟩

end Cut

/-! ## Which block is before which -/

/-- No block is both before another and behind it. -/
theorem Before.asymm {a b : BlockId} (hab : g.Before a b) : ¬ g.Before b a := by
  intro hba
  obtain ⟨ran, rest, horder⟩ :=
    List.append_of_mem (hab.subset (by simp : b ∈ [a, b]))
  have ha : a ∈ ran := (before_iff horder).1 hab
  obtain ⟨first, between, rfl⟩ := List.append_of_mem ha
  rw [List.append_assoc, List.cons_append] at horder
  have hb : b ∈ first := (before_iff horder).1 hba
  have hnodup := g.nodup_order
  rw [horder, List.nodup_append] at hnodup
  exact hnodup.2.2 b hb b (by simp) rfl

namespace Cut

variable {a b t : BlockId}

theorem sublist_map_iff (h : Cut ρ cut fresh g g') (ids : List BlockId) :
    [ρ a, ρ b].Sublist (ids.map ρ) ↔ [a, b].Sublist ids := by
  constructor
  · intro hsub
    obtain ⟨pair, hpair, heq⟩ := List.sublist_map_iff.1 hsub
    have hsame : [a, b] = pair := List.map_injective_iff.2 h.injective heq
    rwa [hsame]
  · intro hsub
    exact hsub.map ρ

/-- Blocks keep their order. Without the back, the order is the renamed one. -/
theorem before_iff (h : Cut ρ cut fresh g g') (hg : g.WellFormed)
    (a b : BlockId) :
    g'.Before (ρ a) (ρ b) ↔ g.Before a b := by
  rw [Before, Before]
  rcases h.order hg with ⟨horder, _⟩ |
    ⟨c, hc, ahead, behind, _, horder, horder', _⟩
  · rw [horder, h.sublist_map_iff]
  · rw [horder', horder, ← h.sublist_map_iff (ahead ++ behind), List.map_append]
    constructor
    · intro hsub
      have hne : ∀ ids : List BlockId,
          (ids.map ρ).filter (· ≠ fresh) = ids.map ρ := by
        intro ids
        rw [List.filter_eq_self]
        intro d hd
        obtain ⟨d, _, rfl⟩ := List.mem_map.1 hd
        exact decide_eq_true (h.fresh_ne c hc d)
      have hpair : [ρ a, ρ b].filter (· ≠ fresh) = [ρ a, ρ b] := hne [a, b]
      have hfilter := hsub.filter (· ≠ fresh)
      rwa [hpair, List.filter_append, List.filter_cons_of_neg (by simp), hne,
        hne] at hfilter
    · intro hsub
      exact hsub.trans
        ((List.Sublist.refl _).append (List.sublist_cons_self _ _))

/-- What is in front of the back when it is put in: the front, and what is
before that. -/
theorem mem_ahead {ahead behind outer : List BlockId}
    (hnodup : (ahead ++ behind).Nodup)
    (hsub : (outer ++ c :: behind).Sublist (ahead ++ behind))
    (ht : t ∈ outer ∨ t = c) :
    t ∈ ahead := by
  have hmem : t ∈ outer ++ [c] := by simpa using ht
  have hsub' : ((outer ++ [c]) ++ behind).Sublist (ahead ++ behind) := by
    simpa using hsub
  rcases List.mem_append.1 (hsub'.subset (List.mem_append_left behind hmem))
    with hahead | hbehind
  · exact hahead
  · exact absurd rfl
      ((List.nodup_append.1 (hnodup.sublist hsub')).2.2 t hmem t hbehind)

/-- The front is before the back. -/
theorem before_front (h : Cut ρ cut fresh g g') (hg : g.WellFormed)
    (hc : cut = some c) (hmem : c ∈ g.order) : g'.Before (ρ c) fresh := by
  rcases h.order hg with ⟨_, hnone⟩ |
    ⟨c', hc', ahead, behind, outer, horder, horder', hsub, _⟩
  · exact absurd hmem (hnone c hc)
  · obtain rfl := Option.some.inj (hc.symm.trans hc')
    rw [horder] at hsub
    have hahead : c ∈ ahead :=
      mem_ahead (horder ▸ g.nodup_order) hsub (.inr rfl)
    rw [Before, horder']
    exact (List.singleton_sublist.2 (List.mem_map_of_mem hahead)).append
      (List.singleton_sublist.2 List.mem_cons_self)

/-- The back leads forwards where the whole block does. -/
theorem before_back_iff (h : Cut ρ cut fresh g g') (hg : g.WellFormed)
    (hc : cut = some c) (ht : t ∈ g.exitsOf c) :
    g'.Before fresh (ρ t) ↔ g.Before c t := by
  rcases h.order hg with
    ⟨horder, hnone⟩ |
      ⟨c', hc', ahead, behind, outer, horder, horder', hsub, hways⟩
  · constructor
    · intro hbefore
      have hmem : fresh ∈ g'.order := hbefore.subset (by simp)
      rw [horder] at hmem
      obtain ⟨d, _, hd⟩ := List.mem_map.1 hmem
      exact absurd hd (h.fresh_ne c hc d)
    · intro hbefore
      exact absurd (hbefore.subset (by simp)) (hnone c hc)
  · obtain rfl := Option.some.inj (hc.symm.trans hc')
    have hsub' := hsub
    rw [horder] at hsub'
    have hnodup : (ahead ++ behind).Nodup := horder ▸ g.nodup_order
    have hahead : c ∈ ahead := mem_ahead hnodup hsub' (.inr rfl)
    by_cases hbehind : t ∈ behind
    · refine iff_of_true ?_ ?_
      · rw [Before, horder']
        exact (List.cons_sublist_cons.2
          (List.singleton_sublist.2 (List.mem_map_of_mem hbehind))).trans
          (List.sublist_append_right _ _)
      · rw [Before, horder]
        exact (List.singleton_sublist.2 hahead).append
          (List.singleton_sublist.2 hbehind)
    · have hfront : t ∈ outer ∨ t = c := by
        rcases hways t ht with houter | heq | hmem
        · exact .inl houter
        · exact .inr heq
        · exact absurd hmem hbehind
      refine iff_of_false ?_ ?_
      · intro hbefore
        obtain ⟨first, between, hsplit⟩ := List.append_of_mem
          (List.mem_map_of_mem (f := ρ) (mem_ahead hnodup hsub' hfront))
        rw [hsplit, List.append_assoc, List.cons_append] at horder'
        have hfirst : fresh ∈ first := (FlowGraph.before_iff horder').1 hbefore
        have hmem : fresh ∈ ahead.map ρ :=
          hsplit ▸ List.mem_append_left _ hfirst
        obtain ⟨d, _, hd⟩ := List.mem_map.1 hmem
        exact h.fresh_ne c hc d hd
      · intro hbefore
        rcases hfront with houter | rfl
        · refine hbefore.asymm (List.Sublist.trans ?_ hsub)
          exact (List.singleton_sublist.2 houter).append
            (List.singleton_sublist.2 (by simp))
        · exact hbefore.asymm hbefore

end Cut

end FlowGraph

end TestCost
