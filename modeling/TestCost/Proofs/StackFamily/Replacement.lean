import TestCost.Proofs.StackFamily.Routes

/-!
# Putting values back

`StackFamily.replace` takes the routes that a pop has found and pushes, on
the bases of each, what a function makes of its list. This file says which
stacks the resulting top entries spell. Nothing old is touched: the family
only grows, so what was spelled before is read off the old family.

## Main results

* `stacked_pushAll` — pushing a list of values on entries of one depth puts
  it on top of each of their stacks.
* `replaced_replace` — the stacks after `replace`.
-/

namespace TestCost

namespace StackFamily

variable {κ α : Type}

/-! ## One value -/

section Push

variable (s : StackFamily κ α) (below : List EntryId) (value : α)

@[simp] theorem push_id : (s.push below value).2 = s.entries.size + 1 := rfl

theorem size_push :
    (s.push below value).1.entries.size = s.entries.size + 1 := by
  simp [push]

theorem grows_push : s.Grows (s.push below value).1 := by
  refine ⟨by rw [size_push]; exact Nat.le_succ _, ?_⟩
  intro id hid
  cases id with
  | zero => rfl
  | succ i =>
      have hlt : i < s.entries.size := hid
      simp only [push, entry?, Array.getElem?_push, Nat.ne_of_lt hlt, if_false]

/-- The new entry. -/
theorem entry_push :
    entry? (s.push below value).1 (s.entries.size + 1) = some
      { value, below, depth := ((below.head?.map s.depth).getD (-1)) + 1 } := by
  simp [push, entry?]

/-- An entry of the grown family is an old one or the new one. -/
theorem entry_push_cases {id : EntryId} {e : StackEntry α}
    (he : entry? (s.push below value).1 id = some e) :
    s.entry? id = some e ∨ id = s.entries.size + 1 ∧
      e = { value, below,
            depth := ((below.head?.map s.depth).getD (-1)) + 1 } := by
  have hle := le_size_of_entry he
  rw [size_push] at hle
  rcases Nat.lt_or_eq_of_le hle with hlt | heq
  · rw [(grows_push s below value).entry_eq id (Nat.le_of_lt_succ hlt)] at he
    exact .inl he
  · subst heq
    rw [entry_push] at he
    exact .inr ⟨rfl, (Option.some.inj he).symm⟩

variable {s below} {d : Int} (hs : s.Layered) (hne : below ≠ [])
  (hl : s.Level below d)

include hne hl in
/-- Depth of the new entry. -/
theorem depth_push : ((below.head?.map s.depth).getD (-1)) + 1 = d + 1 := by
  obtain ⟨first, rest, rfl⟩ := List.exists_cons_of_ne_nil hne
  simp [(hl first List.mem_cons_self).2]

include hs hne hl in
theorem layered_push : (s.push below value).1.Layered := by
  have hgrows := grows_push s below value
  refine ⟨?_, ?_, ?_⟩
  · intro id e he
    rcases entry_push_cases s below value he with hold | ⟨_, rfl⟩
    · exact hs.below_ne_nil id e hold
    · exact hne
  · intro id e he next hnext
    rcases entry_push_cases s below value he with hold | ⟨rfl, rfl⟩
    · exact hs.below_lt id e hold next hnext
    · exact Nat.lt_succ_of_le (hl next hnext).1
  · intro id e he next hnext
    rcases entry_push_cases s below value he with hold | ⟨_, rfl⟩
    · rw [hgrows.depth_eq ((hs.level_below hold) next hnext).1]
      exact hs.depth_below id e hold next hnext
    · rw [hgrows.depth_eq (hl next hnext).1, (hl next hnext).2]
      exact (depth_push hne hl).symm

include hne hl in
theorem level_push :
    (s.push below value).1.Level [(s.push below value).2] (d + 1) := by
  intro id hid
  rw [List.mem_singleton.1 hid]
  refine ⟨by rw [size_push]; exact Nat.le_refl _, ?_⟩
  rw [push_id, depth_of_entry (entry_push s below value)]
  exact depth_push hne hl

include hs hl in
theorem spelled_push : (s.push below value).1.spelled [(s.push below value).2] =
    {w | ∃ u ∈ s.spelled below, w = u ++ [value]} := by
  have hgrows := grows_push s below value
  have hentry := entry_push s below value
  ext w
  constructor
  · rintro ⟨id, hid, way⟩
    rw [List.mem_singleton.1 hid] at way
    cases way with
    | @down _ next _ lower e he hnext way =>
        obtain rfl := Option.some.inj (he.symm.trans hentry)
        have hold := (way_iff_of_grows hs hgrows (hl next hnext).1).1 way
        exact ⟨lower, ⟨next, hnext, hold⟩, rfl⟩
  · rintro ⟨u, ⟨next, hnext, way⟩, rfl⟩
    have hnew := (way_iff_of_grows hs hgrows (hl next hnext).1).2 way
    exact ⟨_, List.mem_singleton_self _, .down _ hentry hnext hnew⟩

/-- A value of the grown family is an old one or the new one. -/
theorem holds_push_cases {v : α} (hv : (s.push below value).1.Holds v) :
    s.Holds v ∨ v = value := by
  obtain ⟨id, e, he, rfl⟩ := hv
  rcases entry_push_cases s below value he with hold | ⟨_, rfl⟩
  · exact .inl ⟨id, e, hold, rfl⟩
  · exact .inr rfl

end Push

/-! ## Several values -/

/-- `t` is `s` with `values` put on the stacks that end with `bases`, which
are of depth `d`; they now end with `tops`. -/
structure Stacked (s : StackFamily κ α) (bases : List EntryId) (d : Int)
    (values : List α) (t : StackFamily κ α) (tops : List EntryId) : Prop where
  heads_eq : t.heads = s.heads
  grows : s.Grows t
  layered : t.Layered
  ne_nil : tops ≠ []
  level : t.Level tops (d + values.length)
  spelled_eq : t.spelled tops = {w | ∃ u ∈ s.spelled bases, w = u ++ values}
  holds : ∀ v, t.Holds v → s.Holds v ∨ v ∈ values

theorem stacked_pushAll {s : StackFamily κ α} (hs : s.Layered)
    (bases : List EntryId) (d : Int) (hne : bases ≠ []) (hl : s.Level bases d)
    (values : List α) :
    s.Stacked bases d values (s.pushAll bases values).1
      (s.pushAll bases values).2 := by
  induction values generalizing s bases d with
  | nil =>
      exact
        { heads_eq := rfl
          grows := .refl s
          layered := hs
          ne_nil := hne
          level := by simpa [pushAll] using hl
          spelled_eq := by simp [pushAll]
          holds := fun _ hv => .inl hv }
  | cons value values ih =>
      have hrec := ih (layered_push value hs hne hl) _ (d + 1) (by simp)
        (level_push value hne hl)
      have hgrows := grows_push s bases value
      refine
        { heads_eq := hrec.heads_eq
          grows := hgrows.trans hrec.grows
          layered := hrec.layered
          ne_nil := hrec.ne_nil
          level := ?_
          spelled_eq := ?_
          holds := ?_ }
      · rw [show d + ((value :: values).length : Int) = d + 1 + values.length by
          simp only [List.length_cons]; omega]
        exact hrec.level
      · refine hrec.spelled_eq.trans ?_
        rw [spelled_push value hs hl]
        ext w
        constructor
        · rintro ⟨_, ⟨u, hu, rfl⟩, rfl⟩
          exact ⟨u, hu, by simp⟩
        · rintro ⟨u, hu, rfl⟩
          exact ⟨u ++ [value], ⟨u, hu, rfl⟩, by simp⟩
      · intro v hv
        rcases hrec.holds v hv with hpushed | hmem
        · rcases holds_push_cases value hpushed with hold | rfl
          · exact .inl hold
          · exact .inr List.mem_cons_self
        · exact .inr (List.mem_cons_of_mem _ hmem)

/-! ## All routes -/

/-- `t` is `s` with the values that `f` makes of the lists of the routes put
on their bases, which are of depth `d`; the stacks that result end with
`tops`. -/
structure Replaced (s : StackFamily κ α) (f : List α → List α) (d : Int)
    (found : List (StackRoute α)) (t : StackFamily κ α) (tops : List EntryId) :
    Prop where
  heads_eq : t.heads = s.heads
  grows : s.Grows t
  layered : t.Layered
  le_size : ∀ id ∈ tops, id ≤ t.entries.size
  ne_nil : found ≠ [] → tops ≠ []
  level : ∀ c : Nat, (∀ r ∈ found, (f r.values).length = c) →
    t.Level tops (d + c)
  spelled_eq : t.spelled tops =
    {w | ∃ r ∈ found, ∃ u ∈ s.spelled r.bases, w = u ++ f r.values}
  holds : ∀ v, t.Holds v → s.Holds v ∨ ∃ r ∈ found, v ∈ f r.values

theorem spelled_union (s : StackFamily κ α) (left right : List EntryId) :
    s.spelled (union left right) = s.spelled left ∪ s.spelled right := by
  ext w
  simp only [spelled, mem_union, Set.mem_ofPred_eq, Set.mem_union,
    or_and_right, exists_or]

/-- One route more. -/
theorem Replaced.append {s t u : StackFamily κ α} {f : List α → List α}
    {d : Int} {found : List (StackRoute α)}
    {tops more : List EntryId} {r : StackRoute α} (hs : s.Layered)
    (h : s.Replaced f d found t tops) (hlevel : s.Level r.bases d)
    (hr : t.Stacked r.bases d (f r.values) u more) :
    s.Replaced f d (found ++ [r]) u (union tops more) where
  heads_eq := hr.heads_eq.trans h.heads_eq
  grows := h.grows.trans hr.grows
  layered := hr.layered
  le_size := by
    intro id hid
    rcases (mem_union tops more id).1 hid with hold | hnew
    · exact Nat.le_trans (h.le_size id hold) hr.grows.size_le
    · exact (hr.level id hnew).1
  ne_nil := fun _ => union_ne_nil_right _ hr.ne_nil
  level := by
    intro c hall
    have hfound := h.level c fun r' hr' => hall r' (List.mem_append_left _ hr')
    have hmore := hr.level
    rw [hall r (by simp)] at hmore
    exact (hfound.grows hr.grows).union hmore
  spelled_eq := by
    have hbases : t.spelled r.bases = s.spelled r.bases :=
      spelled_of_grows hs h.grows fun id hid => (hlevel id hid).1
    rw [spelled_union, spelled_of_grows h.layered hr.grows h.le_size,
      h.spelled_eq, hr.spelled_eq, hbases]
    ext w
    simp only [Set.mem_union, Set.mem_ofPred_eq, List.mem_append,
      List.mem_singleton, or_and_right, exists_or, exists_eq_left]
  holds := by
    intro v hv
    rcases hr.holds v hv with hold | hnew
    · rcases h.holds v hold with hold | ⟨r', hr', hmem⟩
      · exact .inl hold
      · exact .inr ⟨r', List.mem_append_left _ hr', hmem⟩
    · exact .inr ⟨r, by simp, hnew⟩

private theorem replaced_foldl {s : StackFamily κ α} (hs : s.Layered)
    (f : List α → List α) {d : Int} (rest : List (StackRoute α))
    (hrest : ∀ r ∈ rest, r.bases ≠ [] ∧ s.Level r.bases d)
    (found : List (StackRoute α)) (t : StackFamily κ α) (tops : List EntryId)
    (h : s.Replaced f d found t tops) :
    let last := rest.foldl (fun (s, tops) route =>
      let (s, top) := s.pushAll route.bases (f route.values)
      (s, union tops top)) (t, tops)
    s.Replaced f d (found ++ rest) last.1 last.2 := by
  induction rest generalizing found t tops with
  | nil => simpa using h
  | cons r rest ih =>
      obtain ⟨hne, hlevel⟩ := hrest r List.mem_cons_self
      have hpushed := stacked_pushAll h.layered r.bases d hne
        (hlevel.grows h.grows) (f r.values)
      have hstep := ih (fun r' hr' => hrest r' (List.mem_cons_of_mem _ hr'))
        (found ++ [r]) _ _ (h.append hs hlevel hpushed)
      simpa using hstep

/-- The stacks after `replace`. -/
theorem replaced_replace {s : StackFamily κ α} (hs : s.Layered)
    (f : List α → List α) {d : Int} (found : List (StackRoute α))
    (hfound : ∀ r ∈ found, r.bases ≠ [] ∧ s.Level r.bases d) :
    s.Replaced f d found (s.replace f found).1 (s.replace f found).2 := by
  have hstart : s.Replaced f d [] s [] :=
    { heads_eq := rfl
      grows := .refl s
      layered := hs
      le_size := by simp
      ne_nil := fun h => absurd rfl h
      level := fun _ _ id hid => absurd hid (by simp)
      spelled_eq := by simp [spelled]
      holds := fun _ hv => .inl hv }
  exact replaced_foldl hs f found hfound [] s [] hstart

/-- `replace` depends on its function only through the lists of the routes. -/
theorem replace_congr (s : StackFamily κ α) {f g : List α → List α}
    (found : List (StackRoute α)) (h : ∀ r ∈ found, g r.values = f r.values) :
    s.replace g found = s.replace f found := by
  unfold replace
  generalize (s, ([] : List EntryId)) = acc
  induction found generalizing acc with
  | nil => rfl
  | cons r found ih =>
      rw [List.foldl_cons, List.foldl_cons, h r List.mem_cons_self]
      exact ih (fun r' hr' => h r' (List.mem_cons_of_mem _ hr')) _

end StackFamily

end TestCost
