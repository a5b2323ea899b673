import TestCost.Proofs.StackFamily.View

/-!
# Operations of a stack family

One statement for each outcome of each operation of a sound stack family,
in terms of what the keys see before and after it. Nothing that comes later
looks at entries again.

The stacks that a pop leaves are stated exactly under `Faithful`, that `==`
tells apart the values of the family. Without it the pop may gather unequal
lists, and what is left is still sound and of the right length.

## Main results

* `popped_pop`, `pop_underflow`, `pop_keyNotFound` — the outcomes of a pop.
* `handedTo_split`, `split_uneven` — the outcomes of a split of a live key.
* `joined_join`, `join_uneven`, `join_keyNotFound` — the outcomes of a join.
-/

namespace TestCost

namespace StackFamily

variable {κ α : Type}

/-! ## Pop -/

/-- A route with a stack below it is a stack with the list of the route on
top. -/
theorem Gathers.exists_route_iff [BEq α] {s : StackFamily κ α} (hf : s.Faithful)
    {count : Nat} {d : Int} {ids : List EntryId} {found : List (StackRoute α)}
    (h : s.Gathers count d ids found) (lower upper : List α) :
    (∃ r ∈ found, r.values = upper ∧ lower ∈ s.spelled r.bases) ↔
      upper.length = count ∧ lower ++ upper ∈ s.spelled ids := by
  constructor
  · rintro ⟨r, hr, hupper, base, hbase, lowerWay⟩
    obtain ⟨id, hid, hlength, upperWay⟩ :=
      (h.leads_iff hf upper base).1 ⟨r, hr, hupper, hbase⟩
    exact ⟨hlength, id, hid, upperWay.append lowerWay⟩
  · rintro ⟨hlength, id, hid, way⟩
    obtain ⟨base, upperWay, lowerWay⟩ := way.exists_split
    obtain ⟨r, hr, hupper, hbase⟩ :=
      (h.leads_iff hf upper base).2 ⟨id, hid, hlength, upperWay⟩
    exact ⟨r, hr, hupper, base, hbase, lowerWay⟩

/-- The lists of the routes are those on top of the stacks. -/
theorem Gathers.mem_values_iff [BEq α] {s : StackFamily κ α} (hs : s.Layered)
    (hf : s.Faithful) {count : Nat} {d : Int} {ids : List EntryId}
    {found : List (StackRoute α)} (h : s.Gathers count d ids found)
    (w : List α) :
    w ∈ found.map StackRoute.values ↔ w.length = count ∧ ∃ lower,
      lower ++ w ∈ s.spelled ids := by
  constructor
  · intro hw
    obtain ⟨r, hr, rfl⟩ := List.mem_map.1 hw
    have hfit := h.fits r hr
    obtain ⟨lower, hlower⟩ := hfit.level.spelled_nonempty hs hfit.bases_ne_nil
    have hroute := (h.exists_route_iff hf lower r.values).1 ⟨r, hr, rfl, hlower⟩
    exact ⟨hroute.1, lower, hroute.2⟩
  · rintro ⟨hlength, lower, hstack⟩
    obtain ⟨r, hr, rfl, _⟩ :=
      (h.exists_route_iff hf lower w).2 ⟨hlength, hstack⟩
    exact List.mem_map_of_mem hr

/-- The stacks below the routes, with what replaces the lists of the routes. -/
theorem Gathers.replaced_eq [BEq α] {s : StackFamily κ α} (hf : s.Faithful)
    {count : Nat} {d : Int} {ids : List EntryId} {found : List (StackRoute α)}
    (h : s.Gathers count d ids found) (f : List α → List α) :
    {w | ∃ r ∈ found, ∃ lower ∈ s.spelled r.bases, w = lower ++ f r.values} =
      {w | ∃ lower upper, lower ++ upper ∈ s.spelled ids ∧
        upper.length = count ∧
        w = lower ++ f upper} := by
  ext w
  constructor
  · rintro ⟨r, hr, lower, hlower, rfl⟩
    have hroute := (h.exists_route_iff hf lower r.values).1 ⟨r, hr, rfl, hlower⟩
    exact ⟨lower, r.values, hroute.2, hroute.1, rfl⟩
  · rintro ⟨lower, upper, hstack, hlength, rfl⟩
    obtain ⟨r, hr, rfl, hlower⟩ :=
      (h.exists_route_iff hf lower upper).2 ⟨hlength, hstack⟩
    exact ⟨r, hr, lower, hlower, rfl⟩

section Keys

variable [BEq κ] [BEq α]

/-- `t` is `s` after a pop of `count` values under `key`, where the stacks
were `before`, all of length `n`, and are now `after`. -/
structure Popped (s : StackFamily κ α) (key : κ)
    (count : Nat) (f : List α → List α) (before : Set (List α)) (n : Nat)
    (taken : List (List α)) (t : StackFamily κ α) (after : Set (List α)) :
    Prop where
  nodup : taken.Nodup
  length_eq : ∀ w ∈ taken, w.length = count
  taken_holds : ∀ w ∈ taken, ∀ v ∈ w, s.Holds v
  view_self : t.view key = some after
  view_ne : ∀ other, other ≠ key → t.view other = s.view other
  sound : ∀ c, (∀ w ∈ taken, (f w).length = c) → t.Sound
  uniform : ∀ c, (∀ w ∈ taken, (f w).length = c) → Uniform after (n - count + c)
  holds : ∀ v, t.Holds v → s.Holds v ∨ ∃ w ∈ taken, v ∈ f w
  mem_taken : s.Faithful → ∀ w, w ∈ taken ↔
    w.length = count ∧ ∃ lower, lower ++ w ∈ before
  after_eq : s.Faithful → after =
    {w | ∃ lower upper, lower ++ upper ∈ before ∧ upper.length = count ∧
      w = lower ++ f upper}

variable {s : StackFamily κ α}

/-- Something was taken: what has come back would have any length otherwise. -/
theorem Popped.taken_ne_nil {key : κ} {count n : Nat} {f : List α → List α}
    {before after : Set (List α)} {taken : List (List α)} {t : StackFamily κ α}
    (h : s.Popped key count f before n taken t after) : taken ≠ [] := by
  rintro rfl
  have hlengths := (h.uniform 0 (by simp)).unique (h.uniform 1 (by simp))
  omega

/-- A pop that finds its routes. -/
theorem pop_eq {key : κ} {ids : List EntryId}
    (hids : s.head? key = some ids) {count : Nat} {found : List (StackRoute α)}
    (hroutes : s.routes key count ids = .ok found) (f : List α → List α) :
    s.pop key count f = .ok (found.map StackRoute.values,
      (s.replace f found).1.insert key (s.replace f found).2) := by
  simp only [pop, head, hids]
  show (s.routes key count ids >>= _) = _
  rw [hroutes]
  rfl

theorem pop_error {key : κ} {ids : List EntryId}
    (hids : s.head? key = some ids) {count : Nat} {fault : StackFault κ}
    (hroutes : s.routes key count ids = .error fault) (f : List α → List α) :
    s.pop key count f = .error fault := by
  simp only [pop, head, hids]
  show (s.routes key count ids >>= _) = _
  rw [hroutes]
  rfl

theorem pop_keyNotFound {key : κ} (h : s.view key = none) (count : Nat)
    (f : List α → List α) :
    s.pop key count f = .error (.keyNotFound key) := by
  simp only [pop, head, head?_of_view_none h]
  rfl

theorem pop_underflow (hs : s.Sound) {key : κ} {before : Set (List α)}
    (h : s.view key = some before) {n : Nat} (hn : Uniform before n)
    {count : Nat} (hcount : n < count) (f : List α → List α) :
    ∃ requested, s.pop key count f = .error (.underflow key requested) := by
  obtain ⟨ids, hids, rfl⟩ := head?_of_view h
  obtain ⟨hne, hl⟩ := hs.level_of_uniform hids hn
  obtain ⟨requested, hroutes⟩ :=
    routes_underflow hs.layered key count ids (n - 1) hne hl (by omega)
  exact ⟨requested, pop_error hids hroutes f⟩

theorem popped_pop [LawfulBEq κ] [ReflBEq α] (hs : s.Sound)
    {key : κ} {before : Set (List α)} (h : s.view key = some before)
    {n : Nat} (hn : Uniform before n) {count : Nat} (hcount : count ≤ n)
    (f : List α → List α) :
    ∃ taken t after, s.pop key count f = .ok (taken, t) ∧
      s.Popped key count f before n taken t after := by
  obtain ⟨ids, hids, rfl⟩ := head?_of_view h
  obtain ⟨hne, hl⟩ := hs.level_of_uniform hids hn
  obtain ⟨found, hroutes, hgathers⟩ :=
    gathers_routes hs.layered key count ids (n - 1) hne hl (by omega)
  have hreplaced := replaced_replace hs.layered f found fun r hr =>
    ⟨(hgathers.fits r hr).bases_ne_nil, (hgathers.fits r hr).level⟩
  have hfits : ∀ w ∈ found.map StackRoute.values, w.length = count ∧ ∀ v ∈ w,
      s.Holds v := by
    intro w hw
    obtain ⟨r, hr, rfl⟩ := List.mem_map.1 hw
    exact ⟨(hgathers.fits r hr).length_eq, (hgathers.fits r hr).holds⟩
  have hlengths : ∀ c, (∀ w ∈ found.map StackRoute.values, (f w).length = c) →
      ∀ r ∈ found, (f r.values).length = c := by
    intro c hc r hr
    exact hc r.values (List.mem_map_of_mem hr)
  have hpushed : (s.replace f found).1.Sound :=
    hs.grows hreplaced.grows hreplaced.layered hreplaced.heads_eq
  have htops := hreplaced.ne_nil (hgathers.ne_nil hne)
  refine ⟨found.map StackRoute.values, (s.replace f found).1.insert key
    (s.replace f found).2, (s.replace f found).1.spelled (s.replace f found).2,
    pop_eq hids hroutes f, ?_⟩
  · refine
      { nodup := hgathers.nodup
        length_eq := fun w hw => (hfits w hw).1
        taken_holds := fun w hw => (hfits w hw).2
        view_self := view_insert_self _ key _
        view_ne := ?_
        sound := ?_
        uniform := ?_
        holds := ?_
        mem_taken := ?_
        after_eq := ?_ }
    · intro other hother
      rw [view_insert_ne _ _ hother,
        view_of_grows hs hreplaced.grows hreplaced.heads_eq]
    · intro c hc
      exact hpushed.insert key htops (hreplaced.level c (hlengths c hc))
    · intro c hc
      exact (hreplaced.level c (hlengths c hc)).uniform hreplaced.layered
        htops (by omega)
    · intro v hv
      rcases hreplaced.holds v ((holds_congr rfl v).1 hv) with hold |
        ⟨r, hr, hmem⟩
      · exact .inl hold
      · exact .inr ⟨r.values, List.mem_map_of_mem hr, hmem⟩
    · intro hf w
      exact hgathers.mem_values_iff hs.layered hf w
    · intro hf
      rw [hreplaced.spelled_eq]
      exact hgathers.replaced_eq hf f

end Keys

/-! ## Even entries -/

private theorem head?_runs (depths : List Int) :
    (depths.foldr (fun d runs => if runs.head? = some d then runs
      else d :: runs) []).head? =
      depths.head? := by
  induction depths with
  | nil => rfl
  | cons d depths _ =>
      rw [List.foldr_cons]
      split
      · next h => rw [h, List.head?_cons]
      · rfl

/-- The runs of a list are at most one when its elements are equal. -/
private theorem length_runs_le_one_iff (depths : List Int) :
    (depths.foldr (fun d runs => if runs.head? = some d then runs
      else d :: runs) []).length ≤ 1 ↔
      ∀ a ∈ depths, ∀ b ∈ depths, a = b := by
  induction depths with
  | nil => simp
  | cons d depths ih =>
      have hhead := head?_runs depths
      rw [List.foldr_cons]
      split
      · next h =>
        rw [ih]
        rw [h] at hhead
        have hd : d ∈ depths := List.mem_of_head? hhead.symm
        constructor
        · intro hall a ha b hb
          have hone : ∀ c ∈ d :: depths, c = d := by
            intro c hc
            rcases List.mem_cons.1 hc with rfl | hc
            · rfl
            · exact hall c hc d hd
          rw [hone a ha, hone b hb]
        · intro hall a ha b hb
          exact hall a (List.mem_cons_of_mem _ ha) b (List.mem_cons_of_mem _ hb)
      · next h =>
        rw [hhead] at h
        cases depths with
        | nil => simp
        | cons e depths =>
            have hne : e ≠ d := by simpa using h
            constructor
            · intro hlength
              have hzero := Nat.le_zero.1 (Nat.le_of_succ_le_succ hlength)
              have hnil := List.eq_nil_of_length_eq_zero hzero
              rw [hnil] at hhead
              simp at hhead
            · intro hall
              exact absurd (hall e (by simp) d (by simp)) hne

theorem isEven_iff (s : StackFamily κ α) (ids : List EntryId) :
    s.isEven ids = true ↔ ∀ i ∈ ids, ∀ j ∈ ids, s.depth i = s.depth j := by
  simp only [isEven, depthRuns, decide_eq_true_eq, length_runs_le_one_iff,
    List.forall_mem_map]

theorem isEven_of_level {s : StackFamily κ α} {ids : List EntryId} {d : Int}
    (hl : s.Level ids d) : s.isEven ids = true := by
  rw [isEven_iff]
  intro i hi j hj
  rw [(hl i hi).2, (hl j hj).2]

/-- Entries of two depths are not even. -/
theorem isEven_eq_false {s : StackFamily κ α} {ids left right : List EntryId}
    {d e : Int} (hleft : s.Level left d) (hright : s.Level right e)
    (hne : left ≠ []) (hne' : right ≠ []) (hde : d ≠ e)
    (hsubset : ∀ id, id ∈ left ∨ id ∈ right → id ∈ ids) :
    s.isEven ids = false := by
  rw [Bool.eq_false_iff, Ne, isEven_iff]
  intro hall
  obtain ⟨i, hi⟩ := List.exists_mem_of_ne_nil _ hne
  obtain ⟨j, hj⟩ := List.exists_mem_of_ne_nil _ hne'
  apply hde
  rw [← (hleft i hi).2, ← (hright j hj).2]
  exact hall i (hsubset i (.inl hi)) j (hsubset j (.inr hj))

/-! ## Handing stacks to keys -/

section Merge

variable [BEq κ] {s : StackFamily κ α}

/-- The key holds no stacks, or stacks of length `n`. -/
def Agrees (s : StackFamily κ α) (n : Nat) (key : κ) : Prop :=
  ∀ stackSet, s.view key = some stackSet → Uniform stackSet n

/-- `t` is `s` with the stacks `moved` added to those of the keys `targets`. -/
structure HandedTo (s : StackFamily κ α) (moved : Set (List α))
    (targets : List κ) (t : StackFamily κ α) : Prop where
  entries_eq : t.entries = s.entries
  sound : t.Sound
  view_mem : ∀ key ∈ targets, t.view key = some ((s.view key).getD ∅ ∪ moved)
  view_not_mem : ∀ key, key ∉ targets → t.view key = s.view key

theorem HandedTo.nil (hs : s.Sound) (moved : Set (List α)) :
    s.HandedTo moved [] s :=
  ⟨rfl, hs, by simp, fun _ _ => rfl⟩

theorem handTo_uneven (hs : s.Sound) {ids : List EntryId}
    {n : Nat} (hne : ids ≠ []) (hl : s.Level ids (n - 1)) {key : κ}
    (hkey : ¬ s.Agrees n key) :
    ∃ depths, s.handTo ids key = .error (.unevenSplit key depths) := by
  simp only [Agrees, not_forall] at hkey
  obtain ⟨stackSet, hview, hnot⟩ := hkey
  obtain ⟨m, hm⟩ := hs.exists_uniform hview
  have hmn : m ≠ n := fun h => hnot (h ▸ hm)
  obtain ⟨known, hknown, rfl⟩ := head?_of_view hview
  obtain ⟨hknownNe, hknownLevel⟩ := hs.level_of_uniform hknown hm
  have huneven : s.isEven (union known ids) = false :=
    isEven_eq_false hknownLevel hl hknownNe hne (by omega) fun id =>
    (mem_union known ids id).2
  refine ⟨s.depthRuns (union known ids), ?_⟩
  simp [handTo, hknown, huneven]

/-- A split hands the stacks of its key to keys of the rest. -/
private theorem split_eq_handToAll (hs : s.Sound)
    {key : κ} {moved : Set (List α)} (h : s.view key = some moved) {n : Nat}
    (hn : Uniform moved n) (targets : List κ) :
    ∃ ids, s.split key targets = (s.erase key).handToAll ids targets ∧
      ids ≠ [] ∧
      (s.erase key).Level ids (n - 1) ∧ (s.erase key).spelled ids = moved := by
  obtain ⟨ids, hids, rfl⟩ := head?_of_view h
  obtain ⟨hne, hl⟩ := hs.level_of_uniform hids hn
  refine ⟨ids, ?_, hne, hl.grows (grows_congr rfl),
    spelled_congr (entries_erase s key) ids⟩
  simp only [split, head, hids]

variable [LawfulBEq κ]

theorem handTo_eq (hs : s.Sound) {ids : List EntryId} {n : Nat} (hne : ids ≠ [])
    (hl : s.Level ids (n - 1)) {key : κ} (hkey : s.Agrees n key) :
    ∃ t, s.handTo ids key = .ok t ∧ s.HandedTo (s.spelled ids) [key] t := by
  have hmerged : ∀ merged, merged ≠ [] → s.Level merged (n - 1) →
      s.spelled merged = (s.view key).getD ∅ ∪ s.spelled ids →
      s.HandedTo (s.spelled ids) [key] (s.insert key merged) := by
    intro merged hmergedNe hmergedLevel hspelled
    refine ⟨rfl, hs.insert key hmergedNe hmergedLevel, ?_, ?_⟩
    · intro other hother
      rw [List.mem_singleton.1 hother, view_insert_self, hspelled]
    · intro other hother
      exact view_insert_ne s merged fun h => hother (List.mem_singleton.2 h)
  cases hhead : s.head? key with
  | none =>
      refine ⟨s.insert key ids, by simp [handTo, hhead, isEven_of_level hl], ?_⟩
      exact hmerged ids hne hl (by simp [view, hhead])
  | some known =>
      have hview := view_of_head? hhead
      obtain ⟨_, hknownLevel⟩ := hs.level_of_uniform hhead (hkey _ hview)
      have hlevel := hknownLevel.union hl
      refine ⟨s.insert key (union known ids),
        by simp [handTo, hhead, isEven_of_level hlevel], ?_⟩
      exact hmerged _ (union_ne_nil_right known hne) hlevel
        (by rw [spelled_union, hview]; rfl)

theorem HandedTo.cons {t u : StackFamily κ α} {moved : Set (List α)}
    {key : κ} {rest : List κ} (first : s.HandedTo moved [key] t)
    (others : t.HandedTo moved rest u) :
    s.HandedTo moved (key :: rest) u where
  entries_eq := others.entries_eq.trans first.entries_eq
  sound := others.sound
  view_mem := by
    intro k hk
    have hself := first.view_mem key (List.mem_singleton_self _)
    by_cases hrest : k ∈ rest
    · rw [others.view_mem k hrest]
      by_cases hkey : k = key
      · rw [hkey, hself, Option.getD_some, Set.union_assoc, Set.union_self]
      · rw [first.view_not_mem k fun h => hkey (List.mem_singleton.1 h)]
    · rcases List.mem_cons.1 hk with rfl | hk
      · rw [others.view_not_mem k hrest, hself]
      · exact absurd hk hrest
  view_not_mem := by
    intro k hk
    rw [List.mem_cons, not_or] at hk
    rw [others.view_not_mem k hk.2, first.view_not_mem k fun h =>
      hk.1 (List.mem_singleton.1 h)]

/-- Keys that agree with the stacks handed out still do afterwards. -/
theorem HandedTo.agrees {t : StackFamily κ α} {moved : Set (List α)}
    {targets : List κ} (h : s.HandedTo moved targets t) {n : Nat}
    (hmoved : Uniform moved n) {key : κ} (hkey : s.Agrees n key) :
    t.Agrees n key := by
  intro stackSet hview
  by_cases hmem : key ∈ targets
  · rw [h.view_mem key hmem] at hview
    obtain rfl := Option.some.inj hview
    cases hold : s.view key with
    | none => simpa using hmoved
    | some old => exact (hkey old hold).union hmoved
  · rw [h.view_not_mem key hmem] at hview
    exact hkey stackSet hview

theorem handToAll_eq (hs : s.Sound) {ids : List EntryId}
    {n : Nat} (hne : ids ≠ []) (hl : s.Level ids (n - 1)) (targets : List κ)
    (htargets : ∀ key ∈ targets, s.Agrees n key) :
    ∃ t, s.handToAll ids targets = (t, .ok ()) ∧
      s.HandedTo (s.spelled ids) targets t := by
  induction targets generalizing s with
  | nil => exact ⟨s, rfl, .nil hs _⟩
  | cons key rest ih =>
      obtain ⟨t, ht, hfirst⟩ :=
        handTo_eq hs hne hl (htargets key List.mem_cons_self)
      have hmoved := hl.uniform hs.layered hne (n := n) (by omega)
      have hspelled := spelled_congr hfirst.entries_eq ids
      obtain ⟨u, hu, hrest⟩ :=
        ih hfirst.sound (hl.grows (grows_congr hfirst.entries_eq)) fun k hk =>
        hfirst.agrees hmoved (htargets k (List.mem_cons_of_mem _ hk))
      rw [hspelled] at hrest
      exact ⟨u, by rw [handToAll, ht]; exact hu, hfirst.cons hrest⟩

/-- The first key that does not agree stops the handing out. -/
theorem handToAll_uneven (hs : s.Sound) {ids : List EntryId} {n : Nat}
    (hne : ids ≠ []) (hl : s.Level ids (n - 1)) (good rest : List κ) {bad : κ}
    (hgood : ∀ key ∈ good, s.Agrees n key) (hbad : ¬ s.Agrees n bad) :
    ∃ t depths, s.handToAll ids (good ++ bad :: rest) =
      (t, .error (.unevenSplit bad depths)) ∧
      s.HandedTo (s.spelled ids) good t := by
  induction good generalizing s with
  | nil =>
      obtain ⟨depths, hdepths⟩ := handTo_uneven hs hne hl hbad
      refine ⟨s, depths, ?_, .nil hs _⟩
      rw [List.nil_append, handToAll, hdepths]
  | cons key good ih =>
      obtain ⟨t, ht, hfirst⟩ :=
        handTo_eq hs hne hl (hgood key List.mem_cons_self)
      have hmoved := hl.uniform hs.layered hne (n := n) (by omega)
      have hspelled := spelled_congr hfirst.entries_eq ids
      have hstill : ¬ t.Agrees n bad := by
        have hbadKey : bad ∉ [key] := by
          intro h
          rw [List.mem_singleton.1 h] at hbad
          exact hbad (hgood key List.mem_cons_self)
        simpa only [Agrees, hfirst.view_not_mem bad hbadKey] using hbad
      obtain ⟨u, depths, hu, hrest⟩ :=
        ih hfirst.sound (hl.grows (grows_congr hfirst.entries_eq)) (fun k hk =>
        hfirst.agrees hmoved (hgood k (List.mem_cons_of_mem _ hk))) hstill
      rw [hspelled] at hrest
      refine ⟨u, depths, ?_, hfirst.cons hrest⟩
      rw [List.cons_append, handToAll, ht]
      exact hu

theorem handedTo_split (hs : s.Sound)
    {key : κ} {moved : Set (List α)} (h : s.view key = some moved)
    {n : Nat} (hn : Uniform moved n) (targets : List κ)
    (htargets : ∀ target ∈ targets, (s.erase key).Agrees n target) :
    ∃ t, s.split key targets = (t, .ok ()) ∧
      (s.erase key).HandedTo moved targets t := by
  obtain ⟨ids, hsplit, hne, hl, rfl⟩ := split_eq_handToAll hs h hn targets
  rw [hsplit]
  exact handToAll_eq (hs.erase key) hne hl targets htargets

theorem split_uneven (hs : s.Sound)
    {key : κ} {moved : Set (List α)} (h : s.view key = some moved)
    {n : Nat} (hn : Uniform moved n) (good rest : List κ)
    {bad : κ} (hgood : ∀ target ∈ good, (s.erase key).Agrees n target)
    (hbad : ¬ (s.erase key).Agrees n bad) :
    ∃ t depths, s.split key (good ++ bad :: rest) =
      (t, .error (.unevenSplit bad depths)) ∧
      (s.erase key).HandedTo moved good t := by
  obtain ⟨ids, hsplit, hne, hl, rfl⟩ :=
    split_eq_handToAll hs h hn (good ++ bad :: rest)
  rw [hsplit]
  exact handToAll_uneven (hs.erase key) hne hl good rest hgood hbad

end Merge

/-! ## Join -/

section Join

variable [BEq κ] {s : StackFamily κ α}

/-- `t` is `s` with the stacks of `keys` gathered under `target`. -/
structure Joined (s : StackFamily κ α) (keys : List κ) (target : κ)
    (t : StackFamily κ α) :
    Prop where
  entries_eq : t.entries = s.entries
  sound : t.Sound
  view_target : t.view target =
    some {w | ∃ key ∈ keys, ∃ stackSet, s.view key = some stackSet ∧
      w ∈ stackSet}
  view_mem : ∀ key ∈ keys, key ≠ target → t.view key = none
  view_not_mem : ∀ key, key ∉ keys → key ≠ target → t.view key = s.view key

theorem join_keyNotFound (good rest : List κ) {bad : κ}
    (hgood : ∀ key ∈ good, s.view key ≠ none) (hbad : s.view bad = none)
    (target : κ) :
    s.join (good ++ bad :: rest) target = .error (.keyNotFound bad) := by
  have hheads :
      (good ++ bad :: rest).mapM s.head = .error (.keyNotFound bad) := by
    induction good with
    | nil =>
        rw [List.nil_append, List.mapM_cons, head, head?_of_view_none hbad]
        rfl
    | cons key good ih =>
        cases hkey : s.head? key with
        | none =>
            exact absurd (by rw [view, hkey]; rfl)
              (hgood key List.mem_cons_self)
        | some ids =>
            rw [List.cons_append, List.mapM_cons, head, hkey,
              ih fun k hk => hgood k (List.mem_cons_of_mem _ hk)]
            rfl
  rw [join, hheads]
  rfl

private theorem mapM_head {keys : List κ}
    (h : ∀ key ∈ keys, s.view key ≠ none) :
    keys.mapM s.head = .ok (keys.map fun key => (s.head? key).getD []) := by
  induction keys with
  | nil => rfl
  | cons key keys ih =>
      cases hkey : s.head? key with
      | none =>
          exact absurd (by rw [view, hkey]; rfl) (h key List.mem_cons_self)
      | some ids =>
          rw [List.mapM_cons, head, hkey, ih fun k hk =>
            h k (List.mem_cons_of_mem _ hk)]
          simp only [List.map_cons, hkey]
          rfl

private theorem mem_foldl_union (heads : List (List EntryId))
    (start : List EntryId) (id : EntryId) :
    id ∈ heads.foldl union start ↔ id ∈ start ∨ ∃ ids ∈ heads, id ∈ ids := by
  induction heads generalizing start with
  | nil => simp
  | cons ids heads ih =>
      rw [List.foldl_cons, ih, mem_union]
      simp only [List.mem_cons, exists_eq_or_imp, or_assoc]

/-- The entries that a join gathers. -/
def merged (s : StackFamily κ α) (keys : List κ) : List EntryId :=
  (keys.map fun key => (s.head? key).getD []).foldl union []

theorem mem_merged (s : StackFamily κ α) (keys : List κ) (id : EntryId) :
    id ∈ s.merged keys ↔ ∃ key ∈ keys, ∃ ids,
      s.head? key = some ids ∧ id ∈ ids := by
  rw [merged, mem_foldl_union]
  constructor
  · rintro (h | ⟨ids, hids, hid⟩)
    · simp at h
    · obtain ⟨key, hkey, rfl⟩ := List.mem_map.1 hids
      cases hhead : s.head? key with
      | none => simp [hhead] at hid
      | some ids => exact ⟨key, hkey, ids, hhead, by simpa [hhead] using hid⟩
  · rintro ⟨key, hkey, ids, hhead, hid⟩
    exact .inr ⟨ids, List.mem_map.2 ⟨key, hkey, by rw [hhead]; rfl⟩, hid⟩

theorem join_of_live {keys : List κ} (h : ∀ key ∈ keys, s.view key ≠ none)
    (target : κ) :
    s.join keys target =
      if s.isEven (s.merged keys) then
        .ok ((keys.foldl erase s).insert target (s.merged keys))
      else .error (.unevenJoin keys (s.depthRuns (s.merged keys))) := by
  rw [join, mapM_head h]
  rfl

theorem spelled_merged (s : StackFamily κ α) (keys : List κ) :
    s.spelled (s.merged keys) = {w |
      ∃ key ∈ keys, ∃ stackSet, s.view key = some stackSet ∧ w ∈ stackSet} := by
  ext w
  constructor
  · rintro ⟨id, hid, way⟩
    obtain ⟨key, hkey, ids, hhead, hid⟩ := (mem_merged s keys id).1 hid
    exact ⟨key, hkey, _, view_of_head? hhead, id, hid, way⟩
  · rintro ⟨key, hkey, stackSet, hview, hw⟩
    obtain ⟨ids, hhead, rfl⟩ := head?_of_view hview
    obtain ⟨id, hid, way⟩ := hw
    exact ⟨id, (mem_merged s keys id).2 ⟨key, hkey, ids, hhead, hid⟩, way⟩

theorem join_uneven
    (hs : s.Sound) {keys : List κ} (hlive : ∀ key ∈ keys, s.view key ≠ none)
    {left right : κ} (hleft : left ∈ keys) (hright : right ∈ keys)
    {leftSet rightSet : Set (List α)} (hleftView : s.view left = some leftSet)
    (hrightView : s.view right = some rightSet)
    {n m : Nat} (hn : Uniform leftSet n) (hm : Uniform rightSet m) (hnm : n ≠ m)
    (target : κ) :
    ∃ depths, s.join keys target = .error (.unevenJoin keys depths) := by
  obtain ⟨leftIds, hleftHead, rfl⟩ := head?_of_view hleftView
  obtain ⟨rightIds, hrightHead, rfl⟩ := head?_of_view hrightView
  obtain ⟨hleftNe, hleftLevel⟩ := hs.level_of_uniform hleftHead hn
  obtain ⟨hrightNe, hrightLevel⟩ := hs.level_of_uniform hrightHead hm
  have huneven : s.isEven (s.merged keys) = false := by
    apply isEven_eq_false hleftLevel hrightLevel hleftNe hrightNe (by omega)
    rintro id (hid | hid)
    · exact (mem_merged s keys id).2 ⟨left, hleft, leftIds, hleftHead, hid⟩
    · exact (mem_merged s keys id).2 ⟨right, hright, rightIds, hrightHead, hid⟩
  exact ⟨_, by rw [join_of_live hlive, huneven]; rfl⟩

variable [LawfulBEq κ]

private theorem sound_foldl_erase (hs : s.Sound) (keys : List κ) :
    (keys.foldl erase s).Sound ∧ (keys.foldl erase s).entries = s.entries := by
  induction keys generalizing s with
  | nil => exact ⟨hs, rfl⟩
  | cons key keys ih => exact ih (hs.erase key)

private theorem view_foldl_erase (keys : List κ) (key : κ) :
    (keys.foldl erase s).view key = none ∧ key ∈ keys ∨
      (keys.foldl erase s).view key = s.view key ∧ key ∉ keys := by
  induction keys generalizing s with
  | nil => exact .inr ⟨rfl, by simp⟩
  | cons first keys ih =>
      rw [List.foldl_cons]
      rcases @ih (s.erase first) with ⟨hnone, hmem⟩ | ⟨hsame, hnot⟩
      · exact .inl ⟨hnone, List.mem_cons_of_mem _ hmem⟩
      · by_cases hkey : key = first
        · rw [hsame, hkey, view_erase_self]
          exact .inl ⟨rfl, List.mem_cons_self⟩
        · rw [hsame, view_erase_ne s hkey]
          exact .inr ⟨rfl, by simp [hkey, hnot]⟩

theorem joined_join (hs : s.Sound) {keys : List κ} (hne : keys ≠ [])
    {n : Nat} (hkeys : ∀ key ∈ keys, ∃ stackSet, s.view key = some stackSet ∧
      Uniform stackSet n) (target : κ) :
    ∃ t, s.join keys target = .ok t ∧ s.Joined keys target t := by
  have hlive : ∀ key ∈ keys, s.view key ≠ none := by
    intro key hkey
    obtain ⟨stackSet, hview, _⟩ := hkeys key hkey
    simp [hview]
  have hheads : ∀ key ∈ keys, ∃ ids,
      s.head? key = some ids ∧ ids ≠ [] ∧ s.Level ids (n - 1) := by
    intro key hkey
    obtain ⟨stackSet, hview, hn⟩ := hkeys key hkey
    obtain ⟨ids, hhead, rfl⟩ := head?_of_view hview
    exact ⟨ids, hhead, hs.level_of_uniform hhead hn⟩
  have hlevel : s.Level (s.merged keys) (n - 1) := by
    intro id hid
    obtain ⟨key, hkey, ids, hhead, hid⟩ := (mem_merged s keys id).1 hid
    obtain ⟨ids', hhead', _, hl⟩ := hheads key hkey
    obtain rfl := Option.some.inj (hhead.symm.trans hhead')
    exact hl id hid
  have hmergedNe : s.merged keys ≠ [] := by
    obtain ⟨key, hkey⟩ := List.exists_mem_of_ne_nil _ hne
    obtain ⟨ids, hhead, hidsNe, _⟩ := hheads key hkey
    obtain ⟨id, hid⟩ := List.exists_mem_of_ne_nil _ hidsNe
    exact List.ne_nil_of_mem
      ((mem_merged s keys id).2 ⟨key, hkey, ids, hhead, hid⟩)
  obtain ⟨hsound, hentries⟩ := sound_foldl_erase hs keys
  refine ⟨_, by rw [join_of_live hlive, isEven_of_level hlevel]; rfl, ?_⟩
  refine
    { entries_eq := hentries
      sound :=
        hsound.insert target hmergedNe (hlevel.grows (grows_congr hentries))
      view_target := ?_
      view_mem := ?_
      view_not_mem := ?_ }
  · rw [view_insert_self, spelled_congr hentries, spelled_merged]
  · intro key hkey htarget
    rw [view_insert_ne _ _ htarget]
    rcases view_foldl_erase (s := s) keys key with ⟨hnone, _⟩ | ⟨_, hnot⟩
    · exact hnone
    · exact absurd hkey hnot
  · intro key hkey htarget
    rw [view_insert_ne _ _ htarget]
    rcases view_foldl_erase (s := s) keys key with ⟨_, hmem⟩ | ⟨hsame, _⟩
    · exact absurd hmem hkey
    · exact hsame

end Join

end StackFamily

end TestCost
