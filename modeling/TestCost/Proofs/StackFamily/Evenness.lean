import Mathlib.Data.List.Induction
import Mathlib.Data.List.TakeWhile
import TestCost.Proofs.Except
import TestCost.Proofs.StackFamily.Refinement

/-!
# Top entries stay even

Whatever a user does with a stack family, the top entries of a key are different
entries of one depth, as long as each pop puts back lists of one length. Splits
and joins test that depth; a pop relies on it, and it is a pop for which there
is something to see: the entries that its routes end on have one depth again,
and so have the entries that it pushes on them.

A join of no keys makes a key without entries. Nothing can be said of the length
of its stacks, for it has none. But an entry that is pushed there gets the depth
of one on the bottom, so a list without entries counts as one of depth `-1`, and
`Rests` says of both kinds of lists which depth they give to an entry above
them.

The function of a pop may refuse a list. That ends the pop: entries that it had
pushed by then stay in the arena, and its key keeps its stacks (`tryPop`). A pop
whose function refuses nothing is the `pop` that symbolic execution uses.

## Main results

* `perform_pop_eq` — a pop is one that refuses nothing.
* `rests_routes` — the depth that routes end on.
* `refilled_replace` — the entries that a pop pushes.
* `tidy_of_attained` — top entries are different ones of one depth.
-/

namespace TestCost

/-- A call of a user: a request, or a pop whose function may refuse a list. -/
inductive StackCall (κ α : Type) where
  | request (request : StackRequest κ α)
  | tryPop (key : κ) (count : Nat) (f : List α → Option (List α))

namespace StackFamily

variable {κ α : Type}

section Calls

variable [BEq κ] [BEq α]

/-- A pop that ends where `f` refuses a list. Answers the lists that `f` was
applied to, the refused one among them. -/
def tryPop (s : StackFamily κ α) (key : κ) (count : Nat)
    (f : List α → Option (List α)) :
    StackFamily κ α × Except (StackFault κ) (List (List α)) :=
  match s.head key >>= s.routes key count with
  | .error fault => (s, .error fault)
  | .ok found =>
    let accepted := found.takeWhile fun r => (f r.values).isSome
    let (pushed, tops) := s.replace (fun w => (f w).getD []) accepted
    if accepted.length = found.length then
      (pushed.insert key tops, .ok (found.map StackRoute.values))
    else
      (pushed, .ok ((found.take (accepted.length + 1)).map StackRoute.values))

/-- The family after a call, and the answer. -/
def call (s : StackFamily κ α) :
    StackCall κ α → StackFamily κ α × Except (StackFault κ) (List (List α))
  | .request request => s.perform request
  | .tryPop key count f => s.tryPop key count f

/-- The lists that a pop puts back have one length. -/
def PopsEvenly (s : StackFamily κ α) (key : κ) (count : Nat)
    (f : List α → Option (List α)) :
    Prop :=
  ∀ taken, (s.tryPop key count f).2 = .ok taken →
    ∀ t ∈ taken, ∀ u ∈ taken, ∀ a b, f t = some a → f u = some b →
      a.length = b.length

/-- What is asked of a user: the lists that one pop puts back have one length.
-/
def Expects (s : StackFamily κ α) : StackCall κ α → Prop
  | .request (.pop key count f) => s.PopsEvenly key count fun w => some (f w)
  | .tryPop key count f => s.PopsEvenly key count f
  | .request _ => True

/-- The families that calls lead to, refused ones and joins of no keys among
them. -/
inductive Attained : StackFamily κ α → Prop where
  | start : Attained {}
  | call {s : StackFamily κ α} (h : Attained s) (c : StackCall κ α)
      (hc : s.Expects c) :
      Attained (s.call c).1

section Pops

variable {s : StackFamily κ α} {key : κ} {count : Nat}
  {f : List α → Option (List α)}
  {found : List (StackRoute α)}

/-- A pop that refuses nothing puts back what `f` makes of all lists. -/
theorem tryPop_of_accepted
    (hfound : s.head key >>= s.routes key count = .ok found)
    (hall : found.takeWhile (fun r => (f r.values).isSome) = found) :
    s.tryPop key count f =
      ((s.replace (fun w => (f w).getD []) found).1.insert key
        (s.replace (fun w => (f w).getD []) found).2,
          .ok (found.map StackRoute.values)) := by
  simp only [tryPop, hfound, hall, if_true]

/-- A pop that is refused a list has pushed something, but gives it to no key.
-/
theorem fst_tryPop_of_refused
    (hfound : s.head key >>= s.routes key count = .ok found)
    (hsome : found.takeWhile (fun r => (f r.values).isSome) ≠ found) :
    (s.tryPop key count f).1 = (s.replace (fun w => (f w).getD [])
      (found.takeWhile fun r => (f r.values).isSome)).1 := by
  have hfront := List.takeWhile_prefix (l := found) fun r => (f r.values).isSome
  have hlength : ¬ (found.takeWhile fun r => (f r.values).isSome).length =
      found.length := fun hlength => hsome (hfront.eq_of_length hlength)
  simp only [tryPop, hfound, if_neg hlength]

/-- The lists that an even pop puts back have some length. -/
theorem PopsEvenly.exists_length (hf : s.PopsEvenly key count f)
    (hfound : s.head key >>= s.routes key count = .ok found)
    (hall : found.takeWhile (fun r => (f r.values).isSome) = found) :
    ∃ c, ∀ r ∈ found, ((f r.values).getD []).length = c := by
  have haccept : ∀ r ∈ found, ∃ a, f r.values = some a := fun r hr =>
    Option.isSome_iff_exists.1 (List.takeWhile_eq_self_iff.1 hall r hr)
  rw [PopsEvenly, tryPop_of_accepted hfound hall] at hf
  cases found with
  | nil => exact ⟨0, by simp⟩
  | cons first rest =>
      refine ⟨((f first.values).getD []).length, ?_⟩
      intro r hr
      obtain ⟨a, ha⟩ := haccept r hr
      obtain ⟨b, hb⟩ := haccept first List.mem_cons_self
      rw [ha, hb]
      exact hf _ rfl _ (List.mem_map_of_mem hr) _
        (List.mem_map_of_mem List.mem_cons_self) a b ha hb

end Pops

/-- A pop is one that refuses nothing. -/
theorem perform_pop_eq (s : StackFamily κ α) (key : κ) (count : Nat)
    (f : List α → List α) :
    s.perform (.pop key count f) = s.tryPop key count fun w => some (f w) := by
  cases hids : s.head? key with
  | none =>
      have hhead : s.head key = .error (.keyNotFound key) := by rw [head, hids]
      have hpop : s.pop key count f = .error (.keyNotFound key) := by
        rw [pop, hhead]
        rfl
      simp only [perform, hpop, tryPop, hhead]
      rfl
  | some ids =>
      have hfound :
          s.head key >>= s.routes key count = s.routes key count ids := by
        rw [head, hids]
        rfl
      cases hroutes : s.routes key count ids with
      | error fault =>
          rw [hroutes] at hfound
          simp only [perform, pop_error hids hroutes, tryPop, hfound]
      | ok found =>
          rw [hroutes] at hfound
          have hall : found.takeWhile (fun r => (some (f r.values)).isSome) =
              found := List.takeWhile_eq_self_iff.2 fun _ _ => rfl
          rw [tryPop_of_accepted hfound hall]
          simp only [perform, pop_eq hids hroutes, Option.getD_some]

end Calls

/-! ## Depths to push on -/

/-- The entries have one depth; without entries it is that of the bottom. -/
structure Rests (s : StackFamily κ α) (ids : List EntryId) (d : Int) :
    Prop where
  level : s.Level ids d
  of_nil : ids = [] → d = -1

section Rests

variable {s t : StackFamily κ α} {ids : List EntryId} {d : Int}

theorem Rests.grows (h : s.Rests ids d) (hgrows : s.Grows t) : t.Rests ids d :=
  ⟨h.level.grows hgrows, h.of_nil⟩

theorem Rests.union {left right : List EntryId} (hl : s.Rests left d)
    (hr : s.Rests right d) :
    s.Rests (StackFamily.union left right) d := by
  refine ⟨hl.level.union hr.level, ?_⟩
  intro hnil
  by_cases hleft : left = []
  · exact hl.of_nil hleft
  · exact absurd hnil (union_ne_nil_left right hleft)

theorem Level.exists_rests (h : s.Level ids d) : ∃ d, s.Rests ids d := by
  by_cases hids : ids = []
  · subst hids
    exact ⟨-1, by simp [Level], fun _ => rfl⟩
  · exact ⟨d, h, fun hnil => absurd hnil hids⟩

theorem exists_rests_of_isEven (hsize : ∀ id ∈ ids, id ≤ s.entries.size)
    (heven : s.isEven ids = true) : ∃ d, s.Rests ids d := by
  cases ids with
  | nil => exact ⟨-1, by simp [Level], fun _ => rfl⟩
  | cons first rest =>
      refine ⟨s.depth first, ?_, fun hnil => absurd hnil (by simp)⟩
      intro id hid
      exact ⟨hsize id hid,
        (s.isEven_iff _).1 heven id hid first List.mem_cons_self⟩

/-- The depth of an entry above such a list. -/
theorem Rests.depth_eq (h : s.Rests ids d) :
    ((ids.head?.map s.depth).getD (-1)) = d := by
  cases ids with
  | nil => exact (h.of_nil rfl).symm
  | cons first rest => exact (h.level first List.mem_cons_self).2

end Rests

/-- Every entry has the depth that the entries below it give it. -/
def Grounded (s : StackFamily κ α) : Prop :=
  ∀ id e, s.entry? id = some e → s.Rests e.below (e.depth - 1)

section Grounded

variable {s t : StackFamily κ α} {ids : List EntryId} {d : Int}

theorem Grounded.congr (hs : s.Grounded) (h : t.entries = s.entries) :
    t.Grounded := by
  intro id e he
  rw [entry_congr h] at he
  exact (hs id e he).grows (grows_congr h)

theorem depthRuns_congr (h : t.entries = s.entries) (ids : List EntryId) :
    t.depthRuns ids = s.depthRuns ids := by
  rw [depthRuns, depthRuns, funext (depth_congr h)]

theorem isEven_congr (h : t.entries = s.entries) (ids : List EntryId) :
    t.isEven ids = s.isEven ids := by
  rw [isEven, isEven, depthRuns_congr h]

/-- Each value that is taken leads one level down. -/
theorem rests_routes [BEq α] (hs : s.Grounded)
    (key : κ) {count : Nat} {found : List (StackRoute α)} (hids : s.Rests ids d)
    (h : s.routes key count ids = .ok found) :
    ∀ r ∈ found, s.Rests r.bases (d - count) := by
  induction count generalizing ids d found with
  | zero =>
      obtain rfl := Except.ok.inj h
      simpa using hids
  | succ count ih =>
      rw [routes] at h
      refine foldlM_keeps_of_mem (P := fun found =>
        ∀ r ∈ found, s.Rests r.bases (d - (count + 1 : Nat))) ?_ (by simp) h
      intro id hid known extended hknown hstep
      split at hstep
      · cases hstep
      · next e he =>
        split at hstep
        · cases hstep
        · obtain ⟨lower, hlower, rfl⟩ := map_eq_ok_iff.1 hstep
          have hbelow : s.Rests e.below (d - 1) := by
            rw [← (hids.level id hid).2, depth_of_entry he]
            exact hs id e he
          refine forall_foldl_addRoute (fun r route hr hroute =>
            hr.union hroute) _ _ ?_ hknown
          intro r hr
          obtain ⟨r', hr', rfl⟩ := List.mem_map.1 hr
          have hrests := ih hbelow hlower r' hr'
          rwa [show d - 1 - (count : Int) =
            d - ((count + 1 : Nat) : Int) by omega] at hrests

/-! ## Pushing -/

theorem Grounded.push (hs : s.Grounded) (h : s.Rests ids d) (value : α) :
    (s.push ids value).1.Grounded ∧
      (s.push ids value).1.Rests [(s.push ids value).2] (d + 1) := by
  have hgrows := grows_push s ids value
  have hentry := entry_push s ids value
  rw [h.depth_eq] at hentry
  constructor
  · intro id e he
    rcases entry_push_cases s ids value he with hold | ⟨rfl, _⟩
    · exact (hs id e hold).grows hgrows
    · obtain rfl := Option.some.inj (he.symm.trans hentry)
      rw [show d + 1 - 1 = d by omega]
      exact h.grows hgrows
  · refine ⟨?_, fun hnil => absurd hnil (by simp)⟩
    intro id hid
    obtain rfl := List.mem_singleton.1 hid
    exact ⟨le_size_of_entry hentry, depth_of_entry hentry⟩

theorem Grounded.pushAll (hs : s.Grounded) (h : s.Rests ids d)
    (values : List α) :
    (s.pushAll ids values).1.Grounded ∧ s.Grows (s.pushAll ids values).1 ∧
      (s.pushAll ids values).1.heads = s.heads ∧
      (s.pushAll ids values).1.Rests (s.pushAll ids values).2
        (d + values.length) := by
  induction values generalizing s ids d with
  | nil => exact ⟨hs, .refl s, rfl, by simpa [StackFamily.pushAll] using h⟩
  | cons value values ih =>
      obtain ⟨hpushed, hrests⟩ := hs.push h value
      obtain ⟨hall, hgrows, hheads, htops⟩ := ih hpushed hrests
      refine ⟨hall, (grows_push s ids value).trans hgrows, hheads, ?_⟩
      rwa [show d + ((value :: values).length : Int) = d + 1 + values.length by
        simp only [List.length_cons]; omega]

theorem nodup_union {left : List EntryId} (right : List EntryId)
    (h : left.Nodup) :
    (union left right).Nodup := by
  induction right generalizing left with
  | nil => exact h
  | cons id right ih =>
      have hstep : union left (id :: right) =
          union (if left.contains id then left else left ++ [id]) right := rfl
      rw [hstep]
      split
      · exact ih h
      · next hnew =>
        refine ih (List.nodup_append.2 ⟨h, by simp, ?_⟩)
        rintro a ha b hb rfl
        rw [List.mem_singleton.1 hb] at ha
        exact hnew (List.contains_iff_mem.2 ha)

theorem nodup_merged [BEq κ] (s : StackFamily κ α) (keys : List κ) :
    (s.merged keys).Nodup := by
  have hfold : ∀ (heads : List (List EntryId)) {start : List EntryId},
      start.Nodup →
      (heads.foldl union start).Nodup := by
    intro heads
    induction heads with
    | nil => exact fun h => h
    | cons ids heads ih => exact fun h => ih (nodup_union ids h)
  exact hfold _ List.nodup_nil

/-- `t` is `s` with what `f` makes of the lists of the routes put on their
bases, which rest at depth `d`; the entries on top are different ones. -/
structure Refilled (s : StackFamily κ α) (f : List α → List α) (d : Int)
    (found : List (StackRoute α)) (t : StackFamily κ α) (tops : List EntryId) :
    Prop where
  grounded : t.Grounded
  grows : s.Grows t
  heads_eq : t.heads = s.heads
  nodup : tops.Nodup
  level : ∀ c : Nat, (∀ r ∈ found, (f r.values).length = c) →
    t.Level tops (d + c)

theorem replace_concat (s : StackFamily κ α) (f : List α → List α)
    (found : List (StackRoute α)) (r : StackRoute α) :
    s.replace f (found ++ [r]) =
      (((s.replace f found).1.pushAll r.bases (f r.values)).1,
        union (s.replace f found).2
          ((s.replace f found).1.pushAll r.bases (f r.values)).2) := by
  simp [replace, List.foldl_append]

theorem refilled_replace (hs : s.Grounded) (f : List α → List α)
    (found : List (StackRoute α)) (hfound : ∀ r ∈ found, s.Rests r.bases d) :
    s.Refilled f d found (s.replace f found).1 (s.replace f found).2 := by
  induction found using List.reverseRecOn with
  | nil =>
      refine ⟨hs, .refl s, rfl, List.nodup_nil, ?_⟩
      intro _ _ id hid
      cases hid
  | append_singleton found r ih =>
      have hrefilled := ih fun r' hr' => hfound r' (List.mem_append_left _ hr')
      have hbases := (hfound r (by simp)).grows hrefilled.grows
      obtain ⟨hgrounded, hgrows, hheads, htops⟩ :=
        hrefilled.grounded.pushAll hbases (f r.values)
      rw [replace_concat]
      refine ⟨hgrounded, hrefilled.grows.trans hgrows,
        hheads.trans hrefilled.heads_eq, nodup_union _ hrefilled.nodup, ?_⟩
      intro c hc
      have hold := hrefilled.level c fun r' hr' =>
        hc r' (List.mem_append_left _ hr')
      have hnew := htops.level
      rw [hc r (by simp)] at hnew
      exact (hold.grows hgrows).union hnew

end Grounded

/-! ## Tidy families -/

section Tidy

variable [BEq κ]

/-- Entries have their depths, and the top entries of a key are different ones
of one depth. -/
structure Tidy (s : StackFamily κ α) : Prop where
  grounded : s.Grounded
  heads : ∀ key ids, s.head? key = some ids → ids.Nodup ∧ ∃ d, s.Rests ids d

variable {s t : StackFamily κ α} {ids : List EntryId} {d : Int}

theorem entries_foldl_erase (s : StackFamily κ α) (keys : List κ) :
    (keys.foldl erase s).entries = s.entries := by
  induction keys generalizing s with
  | nil => rfl
  | cons key keys ih => exact ih (s.erase key)

theorem tidy_empty : ({} : StackFamily κ α).Tidy :=
  ⟨fun id e he => by simp [entry_empty] at he, by simp [head?]⟩

theorem Tidy.le_size (hs : s.Tidy) {key : κ} (h : s.head? key = some ids) :
    ∀ id ∈ ids, id ≤ s.entries.size := by
  obtain ⟨_, d, hrests⟩ := hs.heads key ids h
  exact fun id hid => (hrests.level id hid).1

/-- Entries that are pushed leave the keys alone. -/
theorem Tidy.grows (hs : s.Tidy) (hgrounded : t.Grounded) (hgrows : s.Grows t)
    (hheads : t.heads = s.heads) : t.Tidy := by
  refine ⟨hgrounded, ?_⟩
  intro key ids hids
  rw [head?, hheads] at hids
  obtain ⟨hnodup, d, hrests⟩ := hs.heads key ids hids
  exact ⟨hnodup, d, hrests.grows hgrows⟩

variable [LawfulBEq κ]

theorem Tidy.erase (hs : s.Tidy) (key : κ) : (s.erase key).Tidy := by
  refine ⟨hs.grounded.congr rfl, ?_⟩
  intro other ids hids
  by_cases hother : other = key
  · simp [hother] at hids
  · rw [head?_erase_ne s hother] at hids
    obtain ⟨hnodup, d, hrests⟩ := hs.heads other ids hids
    exact ⟨hnodup, d, hrests.grows (grows_congr rfl)⟩

theorem Tidy.insert (hs : s.Tidy) (key : κ) (hnodup : ids.Nodup)
    (hrests : s.Rests ids d) :
    (s.insert key ids).Tidy := by
  refine ⟨hs.grounded.congr rfl, ?_⟩
  intro other others hothers
  by_cases hother : other = key
  · rw [hother, head?_insert_self] at hothers
    obtain rfl := Option.some.inj hothers
    exact ⟨hnodup, d, hrests.grows (grows_congr rfl)⟩
  · rw [head?_insert_ne s ids hother] at hothers
    obtain ⟨hnodup, d, hrests⟩ := hs.heads other others hothers
    exact ⟨hnodup, d, hrests.grows (grows_congr rfl)⟩

/-- Entries that are found even are given to a key. -/
theorem Tidy.insert_of_isEven (hs : s.Tidy) (key : κ) (hnodup : ids.Nodup)
    (hsize : ∀ id ∈ ids, id ≤ s.entries.size) (heven : s.isEven ids = true) :
    (s.insert key ids).Tidy := by
  obtain ⟨d, hrests⟩ := exists_rests_of_isEven hsize heven
  exact hs.insert key hnodup hrests

theorem Tidy.init (hs : s.Tidy) (key : κ) : (s.init key).Tidy := by
  refine hs.insert key (d := -1) (by simp) ⟨?_, fun _ => rfl⟩
  intro id hid
  rw [List.mem_singleton.1 hid]
  exact ⟨Nat.zero_le _, rfl⟩

theorem Tidy.tryPop [BEq α] (hs : s.Tidy) {key : κ} {count : Nat}
    {f : List α → Option (List α)} (hf : s.PopsEvenly key count f) :
    (s.tryPop key count f).1.Tidy := by
  cases hfound : s.head key >>= s.routes key count with
  | error fault =>
      simp only [StackFamily.tryPop, hfound]
      exact hs
  | ok found =>
      obtain ⟨ids, hids, hroutes⟩ := exists_of_bind_eq_ok hfound
      have hhead : s.head? key = some ids := by
        rw [head] at hids
        split at hids
        · next h => rw [h, Except.ok.inj hids]
        · cases hids
      obtain ⟨_, d, hrests⟩ := hs.heads key ids hhead
      have hbases := rests_routes hs.grounded key hrests hroutes
      have hrefilled := refilled_replace hs.grounded (fun w => (f w).getD [])
        (found.takeWhile fun r => (f r.values).isSome)
        fun r hr => hbases r (List.takeWhile_subset _ hr)
      have hpushed :=
        hs.grows hrefilled.grounded hrefilled.grows hrefilled.heads_eq
      by_cases hall : found.takeWhile (fun r => (f r.values).isSome) = found
      · rw [tryPop_of_accepted hfound hall]
        obtain ⟨c, hc⟩ := hf.exists_length hfound hall
        rw [hall] at hrefilled hpushed
        obtain ⟨_, htops⟩ := (hrefilled.level c hc).exists_rests
        exact hpushed.insert key hrefilled.nodup htops
      · rw [fst_tryPop_of_refused hfound hall]
        exact hpushed

theorem Tidy.handTo (hs : s.Tidy) {key : κ} (hnodup : ids.Nodup)
    (hsize : ∀ id ∈ ids, id ≤ s.entries.size) (h : s.handTo ids key = .ok t) :
    t.Tidy ∧ t.entries = s.entries := by
  cases hhead : s.head? key with
  | none =>
      simp only [StackFamily.handTo, hhead] at h
      split at h
      · next heven =>
        obtain rfl := Except.ok.inj h
        exact ⟨hs.insert_of_isEven key hnodup hsize heven, rfl⟩
      · cases h
  | some known =>
      simp only [StackFamily.handTo, hhead] at h
      split at h
      · next heven =>
        obtain rfl := Except.ok.inj h
        have hunion := nodup_union ids (hs.heads key known hhead).1
        refine ⟨hs.insert_of_isEven key hunion ?_ heven, rfl⟩
        intro id hid
        rcases (mem_union known ids id).1 hid with hid | hid
        · exact hs.le_size hhead id hid
        · exact hsize id hid
      · cases h

theorem Tidy.handToAll (hs : s.Tidy) (hnodup : ids.Nodup)
    (hsize : ∀ id ∈ ids, id ≤ s.entries.size) (targets : List κ) :
    (s.handToAll ids targets).1.Tidy := by
  induction targets generalizing s with
  | nil => exact hs
  | cons target targets ih =>
      rw [StackFamily.handToAll]
      cases hto : s.handTo ids target with
      | error fault => exact hs
      | ok t =>
          obtain ⟨ht, hentries⟩ := hs.handTo hnodup hsize hto
          exact ih ht (hentries ▸ hsize)

theorem Tidy.split (hs : s.Tidy) (key : κ) (targets : List κ) :
    (s.split key targets).1.Tidy := by
  unfold StackFamily.split
  cases hids : s.head? key with
  | none =>
      rw [head, hids]
      exact hs
  | some ids =>
      rw [head, hids]
      exact (hs.erase key).handToAll (hs.heads key ids hids).1
        (hs.le_size hids) targets

theorem Tidy.foldl_erase (hs : s.Tidy) (keys : List κ) :
    (keys.foldl StackFamily.erase s).Tidy := by
  induction keys generalizing s with
  | nil => exact hs
  | cons key keys ih => exact ih (hs.erase key)

theorem Tidy.join (hs : s.Tidy) {keys : List κ} {target : κ}
    (h : s.join keys target = .ok t) :
    t.Tidy := by
  have hlive : ∀ key ∈ keys, s.view key ≠ none := by
    intro key hkey hnone
    obtain ⟨heads, hheads, _⟩ := exists_of_bind_eq_ok h
    obtain ⟨ids, hids⟩ := exists_of_mapM_of_mem hheads hkey
    rw [head, head?_of_view_none hnone] at hids
    cases hids
  rw [join_of_live hlive] at h
  split at h
  · next heven =>
    obtain rfl := Except.ok.inj h
    have hentries := entries_foldl_erase s keys
    refine (hs.foldl_erase keys).insert_of_isEven target
      (nodup_merged s keys) ?_ ?_
    · intro id hid
      obtain ⟨key, _, ids, hhead, hid⟩ := (mem_merged s keys id).1 hid
      rw [hentries]
      exact hs.le_size hhead id hid
    · rwa [isEven_congr hentries]
  · cases h

theorem Tidy.call [BEq α] (hs : s.Tidy) {c : StackCall κ α} (hc : s.Expects c) :
    (s.call c).1.Tidy := by
  cases c with
  | tryPop key count f => exact hs.tryPop hc
  | request request =>
      cases request with
      | init key => exact hs.init key
      | pop key count f =>
          rw [StackFamily.call, perform_pop_eq]
          exact hs.tryPop hc
      | split key targets => exact hs.split key targets
      | join keys target =>
          simp only [StackFamily.call, perform]
          cases hjoin : s.join keys target with
          | error fault => exact hs
          | ok t => exact hs.join hjoin
      | remove key =>
          simp only [StackFamily.call, perform]
          cases hremove : s.remove key with
          | error fault => exact hs
          | ok t =>
              obtain ⟨_, _, rfl⟩ := map_eq_ok_iff.1 hremove
              exact hs.erase key

theorem tidy_of_attained [BEq α] (hs : s.Attained) : s.Tidy := by
  induction hs with
  | start => exact tidy_empty
  | call _ c hc ih => exact ih.call hc

end Tidy

end StackFamily

end TestCost
