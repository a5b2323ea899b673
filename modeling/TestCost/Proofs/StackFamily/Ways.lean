import Mathlib.Data.Set.Basic
import TestCost.StackFamily

/-!
# Ways down a stack family

A stack of a family is not stored anywhere: it is what is spelled along one
way down from a top entry to the bottom. This file fixes that reading and
the shape of the arena that makes it sensible.

`Way s id values base` says that some way down from `id` meets `values`
(given bottom first, as everywhere) and ends on `base`. A way that ends on
the bottom spells a whole stack, and `spelled` collects those of a list of
entries. The arena is `Layered` when every entry lies on older entries, at
least one, that all have the depth below its own. Entries are never changed,
so a family only ever `Grows`, and ways from old entries stay what they were.

## Main results

* `Way.append`, `Way.exists_split` — ways compose, and a way that spells
  `lower ++ upper` passes an entry between the two.
* `Way.length_add_depth` — recorded depths are true lengths of ways.
* `Layered.exists_way` — every entry has a way to the bottom.
* `way_iff_of_grows` — pushing entries changes no way from an old entry.
-/

namespace TestCost

namespace StackFamily

variable {κ α : Type}

/-- A way down from an entry: the values met on it, bottom first, and the
entry it ends on. The value of that last entry is not among them. -/
inductive Way (s : StackFamily κ α) : EntryId → List α → EntryId → Prop where
  | stay (id : EntryId) : Way s id [] id
  | down {id next base : EntryId} {values : List α} (e : StackEntry α)
      (entry : s.entry? id = some e) (below : next ∈ e.below)
      (rest : Way s next values base) : Way s id (values ++ [e.value]) base

/-- The stacks that end with one of the given entries. -/
def spelled (s : StackFamily κ α) (ids : List EntryId) : Set (List α) :=
  {values | ∃ id ∈ ids, s.Way id values bottom}

/-- The entries exist and have one depth. -/
def Level (s : StackFamily κ α) (ids : List EntryId) (d : Int) : Prop :=
  ∀ id ∈ ids, id ≤ s.entries.size ∧ s.depth id = d

/-- Every entry lies on older ones, at least one, all one level below it. -/
structure Layered (s : StackFamily κ α) : Prop where
  below_ne_nil : ∀ id e, s.entry? id = some e → e.below ≠ []
  below_lt : ∀ id e, s.entry? id = some e → ∀ next ∈ e.below, next < id
  depth_below : ∀ id e, s.entry? id = some e →
    ∀ next ∈ e.below, s.depth next + 1 = e.depth

/-- The second family has the entries of the first, and maybe more. -/
structure Grows (s t : StackFamily κ α) : Prop where
  size_le : s.entries.size ≤ t.entries.size
  entry_eq : ∀ id ≤ s.entries.size, t.entry? id = s.entry? id

/-! ## Entries -/

@[simp] theorem depth_bottom (s : StackFamily κ α) : s.depth bottom = -1 := rfl

theorem depth_of_entry {s : StackFamily κ α} {id : EntryId} {e : StackEntry α}
    (he : s.entry? id = some e) : s.depth id = e.depth := by
  simp [depth, he]

/-- An entry lies within the arena. -/
theorem le_size_of_entry {s : StackFamily κ α} {id : EntryId} {e : StackEntry α}
    (he : s.entry? id = some e) : id ≤ s.entries.size := by
  cases id with
  | zero => exact Nat.zero_le _
  | succ i => exact (Array.getElem?_eq_some_iff.1 he).1

/-- Within the arena only the bottom is no entry. -/
theorem eq_bottom_of_entry_none {s : StackFamily κ α} {id : EntryId}
    (hid : id ≤ s.entries.size) (hnone : s.entry? id = none) : id = bottom := by
  cases id with
  | zero => rfl
  | succ i =>
      have hge : s.entries.size ≤ i := Array.getElem?_eq_none_iff.1 hnone
      exact absurd hid (Nat.not_le_of_lt (Nat.lt_succ_of_le hge))

/-- The entries below one are of one depth. -/
theorem Layered.level_below {s : StackFamily κ α} (hs : s.Layered)
    {id : EntryId} {e : StackEntry α} (he : s.entry? id = some e) :
    s.Level e.below (e.depth - 1) := by
  intro next hnext
  have hlt := hs.below_lt id e he next hnext
  have hdepth := hs.depth_below id e he next hnext
  exact ⟨Nat.le_trans (Nat.le_of_lt hlt) (le_size_of_entry he), by omega⟩

/-! ## Ways compose -/

theorem Way.append {s : StackFamily κ α}
    {id mid base : EntryId} {upper lower : List α} (first : s.Way id upper mid)
    (second : s.Way mid lower base) :
    s.Way id (lower ++ upper) base := by
  induction first with
  | stay id => simpa using second
  | down e entry below _ ih =>
      rw [← List.append_assoc]
      exact .down e entry below (ih second)

/-- A way that spells `lower ++ upper` passes an entry between the two. -/
theorem Way.exists_split {s : StackFamily κ α} {id base : EntryId}
    {lower upper : List α} (way : s.Way id (lower ++ upper) base) :
    ∃ mid, s.Way id upper mid ∧ s.Way mid lower base := by
  generalize hwhole : lower ++ upper = whole at way
  induction way generalizing lower upper with
  | stay id =>
      obtain ⟨rfl, rfl⟩ := List.append_eq_nil_iff.1 hwhole
      exact ⟨id, .stay id, .stay id⟩
  | @down id next base values e entry below rest ih =>
      rcases List.eq_nil_or_concat upper with rfl | ⟨init, last, rfl⟩
      · rw [List.append_nil] at hwhole
        subst hwhole
        exact ⟨id, .stay id, .down e entry below rest⟩
      · rw [List.concat_eq_append] at hwhole ⊢
        rw [← List.append_assoc] at hwhole
        obtain ⟨hvalues, hlast⟩ := List.append_inj' hwhole rfl
        obtain ⟨mid, hupper, hlower⟩ := ih hvalues
        have hvalue : last = e.value := by simpa using hlast
        subst hvalue
        exact ⟨mid, .down e entry below hupper, hlower⟩

/-- The bottom is the end of every way from it. -/
theorem Way.of_bottom {s : StackFamily κ α} {base : EntryId} {values : List α}
    (way : s.Way bottom values base) : values = [] ∧ base = bottom := by
  cases way with
  | stay => exact ⟨rfl, rfl⟩
  | down e entry => cases entry

/-! ## Depths are lengths -/

theorem Way.length_add_depth {s : StackFamily κ α} (hs : s.Layered)
    {id base : EntryId} {values : List α} (way : s.Way id values base) :
    (values.length : Int) + s.depth base = s.depth id := by
  induction way with
  | stay => simp
  | @down id next _ _ e entry below _ ih =>
      have hbelow := hs.depth_below id e entry next below
      have hdepth := depth_of_entry entry
      simp only [List.length_append, List.length_cons, List.length_nil]
      omega

/-- A whole stack has one value more than the depth of its top entry. -/
theorem Way.length_eq {s : StackFamily κ α} (hs : s.Layered) {id : EntryId}
    {values : List α} (way : s.Way id values bottom) :
    (values.length : Int) = s.depth id + 1 := by
  have h := way.length_add_depth hs
  rw [depth_bottom] at h
  omega

/-- Every entry has a way to the bottom. -/
theorem Layered.exists_way {s : StackFamily κ α} (hs : s.Layered) (id : EntryId)
    (hid : id ≤ s.entries.size) : ∃ values, s.Way id values bottom := by
  induction id using Nat.strongRecOn with
  | ind id ih =>
      cases he : s.entry? id with
      | none =>
          rw [eq_bottom_of_entry_none hid he]
          exact ⟨[], .stay bottom⟩
      | some e =>
          obtain ⟨next, hnext⟩ :=
            List.exists_mem_of_ne_nil _ (hs.below_ne_nil id e he)
          have hlt := hs.below_lt id e he next hnext
          obtain ⟨values, way⟩ :=
            ih next hlt (Nat.le_trans (Nat.le_of_lt hlt) hid)
          exact ⟨values ++ [e.value], .down e he hnext way⟩

/-- Depths start at that of the bottom. -/
theorem Layered.neg_one_le_depth {s : StackFamily κ α} (hs : s.Layered)
    (id : EntryId) (hid : id ≤ s.entries.size) : -1 ≤ s.depth id := by
  obtain ⟨values, way⟩ := hs.exists_way id hid
  have := way.length_eq hs
  omega

/-! ## Growth -/

theorem Grows.refl (s : StackFamily κ α) : s.Grows s :=
  ⟨Nat.le_refl _, fun _ _ => rfl⟩

theorem Grows.trans {s t u : StackFamily κ α} (first : s.Grows t)
    (second : t.Grows u) :
    s.Grows u := by
  refine ⟨Nat.le_trans first.size_le second.size_le, ?_⟩
  intro id hid
  rw [second.entry_eq id (Nat.le_trans hid first.size_le),
    first.entry_eq id hid]

theorem Grows.depth_eq {s t : StackFamily κ α} (h : s.Grows t) {id : EntryId}
    (hid : id ≤ s.entries.size) : t.depth id = s.depth id := by
  simp only [depth, h.entry_eq id hid]

theorem Level.grows {s t : StackFamily κ α} (h : s.Grows t) {ids : List EntryId}
    {d : Int} (hl : s.Level ids d) : t.Level ids d := by
  intro id hid
  obtain ⟨hle, hdepth⟩ := hl id hid
  exact ⟨Nat.le_trans hle h.size_le, by rw [h.depth_eq hle, hdepth]⟩

/-- Pushing entries changes no way from an old entry. -/
theorem way_iff_of_grows {s t : StackFamily κ α}
    (hs : s.Layered) (h : s.Grows t) {id base : EntryId} {values : List α}
    (hid : id ≤ s.entries.size) :
    t.Way id values base ↔ s.Way id values base := by
  constructor
  · intro way
    induction way with
    | stay id => exact .stay id
    | @down id next _ _ e entry below _ ih =>
        rw [h.entry_eq id hid] at entry
        have hlt := hs.below_lt id e entry next below
        exact .down e entry below (ih (Nat.le_trans (Nat.le_of_lt hlt) hid))
  · intro way
    induction way with
    | stay id => exact .stay id
    | @down id next _ _ e entry below _ ih =>
        have hlt := hs.below_lt id e entry next below
        rw [← h.entry_eq id hid] at entry
        exact .down e entry below (ih (Nat.le_trans (Nat.le_of_lt hlt) hid))

theorem spelled_of_grows {s t : StackFamily κ α}
    (hs : s.Layered) (h : s.Grows t) {ids : List EntryId}
    (hids : ∀ id ∈ ids, id ≤ s.entries.size) :
    t.spelled ids = s.spelled ids := by
  ext values
  constructor
  · rintro ⟨id, hid, way⟩
    exact ⟨id, hid, (way_iff_of_grows hs h (hids id hid)).1 way⟩
  · rintro ⟨id, hid, way⟩
    exact ⟨id, hid, (way_iff_of_grows hs h (hids id hid)).2 way⟩

/-! ## Stacks of entries of one depth -/

theorem Level.length_eq {s : StackFamily κ α} (hs : s.Layered)
    {ids : List EntryId} {d : Int} (hl : s.Level ids d) {values : List α}
    (hvalues : values ∈ s.spelled ids) :
    (values.length : Int) = d + 1 := by
  obtain ⟨id, hid, way⟩ := hvalues
  rw [way.length_eq hs, (hl id hid).2]

theorem Level.spelled_nonempty {s : StackFamily κ α} (hs : s.Layered)
    {ids : List EntryId} {d : Int} (hl : s.Level ids d) (hne : ids ≠ []) :
    (s.spelled ids).Nonempty := by
  obtain ⟨id, hid⟩ := List.exists_mem_of_ne_nil _ hne
  obtain ⟨values, way⟩ := hs.exists_way id (hl id hid).1
  exact ⟨values, id, hid, way⟩

end StackFamily

end TestCost
