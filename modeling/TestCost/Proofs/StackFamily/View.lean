import TestCost.Proofs.StackFamily.Replacement

/-!
# What a key sees

To its users a stack family is a map from keys to sets of plain stacks. The
`view` of a family is that map.

A family is `Sound` when its arena is layered and the top entries of every
key, at least one, are of one depth. Then the stacks of a key all have one
length (`Uniform`), which is what the checks of depth inside the operations
test.

## Main results

* `Sound.exists_uniform`, `Sound.level_of_uniform` — the depth of the top
  entries of a key and the length of its stacks tell each other.
* `view_init_self`, `view_erase_self`, `view_insert_self` and the like — what
  giving entries to a key and forgetting a key does to the view.
* `view_of_grows` — pushing entries does nothing to it.
-/

namespace TestCost

/-- There is a stack, and all have this length. -/
def Uniform {α : Type} (stackSet : Set (List α)) (n : Nat) : Prop :=
  stackSet.Nonempty ∧ ∀ w ∈ stackSet, w.length = n

theorem Uniform.unique {α : Type} {stackSet : Set (List α)} {n m : Nat}
    (hn : Uniform stackSet n) (hm : Uniform stackSet m) : n = m := by
  obtain ⟨w, hw⟩ := hn.1
  rw [← hn.2 w hw, ← hm.2 w hw]

theorem Uniform.union {α : Type} {left right : Set (List α)} {n : Nat}
    (hl : Uniform left n) (hr : Uniform right n) :
    Uniform (left ∪ right) n := by
  refine ⟨hl.1.mono fun _ => .inl, ?_⟩
  rintro w (hw | hw)
  · exact hl.2 w hw
  · exact hr.2 w hw

theorem uniform_singleton_nil (α : Type) : Uniform ({[]} : Set (List α)) 0 := by
  refine ⟨⟨[], rfl⟩, ?_⟩
  rintro w rfl
  rfl

namespace StackFamily

variable {κ α : Type}

/-! ## Families with the same entries -/

section Congr

variable {s t : StackFamily κ α} (h : t.entries = s.entries)

include h

theorem entry_congr (id : EntryId) : t.entry? id = s.entry? id := by
  cases id with
  | zero => rfl
  | succ i => simp only [h, entry?]

theorem depth_congr (id : EntryId) : t.depth id = s.depth id := by
  simp only [depth, entry_congr h]

theorem grows_congr : s.Grows t :=
  ⟨by rw [h], fun id _ => entry_congr h id⟩

theorem layered_congr (hs : s.Layered) : t.Layered := by
  refine ⟨?_, ?_, ?_⟩
  · intro id e he
    rw [entry_congr h] at he
    exact hs.below_ne_nil id e he
  · intro id e he
    rw [entry_congr h] at he
    exact hs.below_lt id e he
  · intro id e he next hnext
    rw [entry_congr h] at he
    rw [depth_congr h]
    exact hs.depth_below id e he next hnext

theorem way_congr (id base : EntryId) (values : List α) :
    t.Way id values base ↔ s.Way id values base := by
  constructor
  · intro way
    induction way with
    | stay id => exact .stay id
    | down e entry below _ ih =>
        exact .down e (by rwa [entry_congr h] at entry) below ih
  · intro way
    induction way with
    | stay id => exact .stay id
    | down e entry below _ ih => exact .down e (by rwa [entry_congr h]) below ih

theorem spelled_congr (ids : List EntryId) : t.spelled ids = s.spelled ids := by
  ext w
  simp only [spelled, way_congr h]

theorem holds_congr (v : α) : t.Holds v ↔ s.Holds v := by
  simp only [Holds, entry_congr h]

end Congr

theorem entry_empty (id : EntryId) :
    entry? ({} : StackFamily κ α) id = none := by
  cases id with
  | zero => rfl
  | succ i => simp [ entry?]

theorem not_holds_empty (v : α) : ¬ ({} : StackFamily κ α).Holds v := by
  rintro ⟨id, e, he, _⟩
  simp [entry_empty] at he

@[simp] theorem spelled_bottom (s : StackFamily κ α) :
    s.spelled [bottom] = {[]} := by
  ext w
  constructor
  · rintro ⟨id, hid, way⟩
    rw [List.mem_singleton.1 hid] at way
    exact way.of_bottom.1
  · rintro rfl
    exact ⟨bottom, List.mem_singleton_self _, .stay bottom⟩

/-- Stacks of entries of one depth have one length. -/
theorem Level.uniform {s : StackFamily κ α} (hs : s.Layered)
    {ids : List EntryId} {d : Int} (hne : ids ≠ []) (hl : s.Level ids d)
    {n : Nat} (hn : (n : Int) = d + 1) :
    Uniform (s.spelled ids) n := by
  refine ⟨hl.spelled_nonempty hs hne, ?_⟩
  intro w hw
  have := hl.length_eq hs hw
  omega

/-! ## Keys -/

section Keys

variable [BEq κ]

/-- The stacks of a key; none for a key that holds none. -/
def view (s : StackFamily κ α) (key : κ) : Option (Set (List α)) :=
  (s.head? key).map s.spelled

/-- The arena is layered, and every key has top entries, all of one depth. -/
structure Sound (s : StackFamily κ α) : Prop where
  layered : s.Layered
  level : ∀ key ids, s.head? key = some ids → ids ≠ [] ∧ ∃ d, s.Level ids d

variable {s : StackFamily κ α}

theorem head?_of_view {key : κ} {stackSet : Set (List α)}
    (h : s.view key = some stackSet) :
    ∃ ids, s.head? key = some ids ∧ s.spelled ids = stackSet :=
  Option.map_eq_some_iff.1 h

theorem head?_of_view_none {key : κ} (h : s.view key = none) :
    s.head? key = none :=
  Option.map_eq_none_iff.1 h

theorem view_of_head? {key : κ} {ids : List EntryId}
    (h : s.head? key = some ids) :
    s.view key = some (s.spelled ids) := by
  rw [view, h]
  rfl

theorem Sound.exists_uniform (hs : s.Sound) {key : κ} {stackSet : Set (List α)}
    (h : s.view key = some stackSet) : ∃ n, Uniform stackSet n := by
  obtain ⟨ids, hids, rfl⟩ := head?_of_view h
  obtain ⟨hne, d, hl⟩ := hs.level key ids hids
  obtain ⟨id, hid⟩ := List.exists_mem_of_ne_nil _ hne
  have hneg := hs.layered.neg_one_le_depth id (hl id hid).1
  have hdepth := (hl id hid).2
  exact ⟨(d + 1).toNat, hl.uniform hs.layered hne (by omega)⟩

/-- The depth of top entries is told by the length of their stacks. -/
theorem Sound.level_of_uniform (hs : s.Sound) {key : κ} {ids : List EntryId}
    (hids : s.head? key = some ids) {n : Nat} (hn : Uniform (s.spelled ids) n) :
    ids ≠ [] ∧ s.Level ids (n - 1) := by
  obtain ⟨hne, d, hl⟩ := hs.level key ids hids
  obtain ⟨w, hw⟩ := hn.1
  have hlength := hl.length_eq hs.layered hw
  rw [hn.2 w hw] at hlength
  exact ⟨hne, by rwa [show ((n : Int) - 1) = d by omega]⟩

/-- Pushing entries does nothing to what keys see. -/
theorem view_of_grows (hs : s.Sound) {t : StackFamily κ α} (h : s.Grows t)
    (hheads : t.heads = s.heads) (key : κ) : t.view key = s.view key := by
  have hhead : t.head? key = s.head? key := by rw [head?, hheads, head?]
  rw [view, view, hhead]
  cases hids : s.head? key with
  | none => rfl
  | some ids =>
      obtain ⟨_, d, hl⟩ := hs.level key ids hids
      rw [Option.map_some, Option.map_some,
        spelled_of_grows hs.layered h fun id hid => (hl id hid).1]

theorem Sound.grows (hs : s.Sound) {t : StackFamily κ α} (h : s.Grows t)
    (hlayered : t.Layered) (hheads : t.heads = s.heads) : t.Sound where
  layered := hlayered
  level := by
    intro key ids hids
    rw [head?, hheads] at hids
    obtain ⟨hne, d, hl⟩ := hs.level key ids hids
    exact ⟨hne, d, hl.grows h⟩

/-- The family without keys. -/
theorem sound_empty : ({} : StackFamily κ α).Sound where
  layered := ⟨fun id e he => by simp [entry_empty] at he, fun id e he => by
    simp [entry_empty] at he, fun id e he => by simp [entry_empty] at he⟩
  level := by simp [head?]

/-! ## Forgetting and giving -/

@[simp] theorem entries_erase (s : StackFamily κ α) (key : κ) :
    (s.erase key).entries = s.entries := rfl

@[simp] theorem entries_insert (s : StackFamily κ α) (key : κ)
    (ids : List EntryId) :
    (s.insert key ids).entries = s.entries := rfl

theorem holds_init (s : StackFamily κ α) (key : κ) (v : α) :
    (s.init key).Holds v ↔ s.Holds v :=
  holds_congr rfl v

theorem remove_keyNotFound {key : κ} (h : s.view key = none) :
    s.remove key = .error (.keyNotFound key) := by
  simp only [remove, head, head?_of_view_none h]
  rfl

theorem remove_eq {key : κ} {stackSet : Set (List α)}
    (h : s.view key = some stackSet) :
    s.remove key = .ok (s.erase key) := by
  obtain ⟨ids, hids, _⟩ := head?_of_view h
  simp only [remove, head, hids]
  rfl

variable [LawfulBEq κ]

private theorem lookup_filter_self (heads : List (κ × List EntryId)) (key : κ) :
    (heads.filter fun (k, _) => !(k == key)).lookup key = none := by
  induction heads with
  | nil => rfl
  | cons entry heads ih =>
      obtain ⟨k, ids⟩ := entry
      by_cases hk : k = key
      · simp [hk, ih]
      · have hne : (key == k) = false := by simpa using fun h => hk h.symm
        simp [hk, List.lookup_cons, hne, ih]

private theorem lookup_filter_ne (heads : List (κ × List EntryId))
    {key other : κ} (hother : other ≠ key) :
    (heads.filter fun (k, _) => !(k == key)).lookup other =
      heads.lookup other := by
  induction heads with
  | nil => rfl
  | cons entry heads ih =>
      obtain ⟨k, ids⟩ := entry
      by_cases hk : k = key
      · have hne : (other == k) = false := by simpa [hk] using hother
        simp [hk, List.lookup_cons, ih, hk ▸ hne]
      · simp [hk, List.lookup_cons, ih]

@[simp] theorem head?_erase_self (s : StackFamily κ α) (key : κ) :
    (s.erase key).head? key = none :=
  lookup_filter_self s.heads key

theorem head?_erase_ne (s : StackFamily κ α) {key other : κ} (h : other ≠ key) :
    (s.erase key).head? other = s.head? other :=
  lookup_filter_ne s.heads h

@[simp] theorem head?_insert_self (s : StackFamily κ α) (key : κ)
    (ids : List EntryId) :
    (s.insert key ids).head? key = some ids := by
  simp [head?, insert]

theorem head?_insert_ne (s : StackFamily κ α) {key other : κ}
    (ids : List EntryId) (h : other ≠ key) :
    (s.insert key ids).head? other = s.head? other := by
  have hne : (other == key) = false := by simpa using h
  rw [← head?_erase_ne s h]
  simp only [head?, insert, List.lookup_cons, hne]

@[simp] theorem view_erase_self (s : StackFamily κ α) (key : κ) :
    (s.erase key).view key = none := by
  simp [view]

theorem view_erase_ne (s : StackFamily κ α) {key other : κ} (h : other ≠ key) :
    (s.erase key).view other = s.view other := by
  have hspelled : (s.erase key).spelled = s.spelled :=
    funext (spelled_congr rfl)
  rw [view, view, head?_erase_ne s h, hspelled]

@[simp] theorem view_insert_self (s : StackFamily κ α) (key : κ)
    (ids : List EntryId) :
    (s.insert key ids).view key = some (s.spelled ids) := by
  have hspelled : (s.insert key ids).spelled = s.spelled :=
    funext (spelled_congr rfl)
  simp [view, hspelled]

theorem view_insert_ne (s : StackFamily κ α) {key other : κ}
    (ids : List EntryId) (h : other ≠ key) :
    (s.insert key ids).view other = s.view other := by
  have hspelled : (s.insert key ids).spelled = s.spelled :=
    funext (spelled_congr rfl)
  rw [view, view, head?_insert_ne s ids h, hspelled]

theorem Sound.erase (hs : s.Sound) (key : κ) : (s.erase key).Sound where
  layered := layered_congr (entries_erase s key) hs.layered
  level := by
    intro other ids hids
    by_cases hother : other = key
    · simp [hother] at hids
    · rw [head?_erase_ne s hother] at hids
      obtain ⟨hne, d, hl⟩ := hs.level other ids hids
      exact ⟨hne, d, hl.grows (grows_congr rfl)⟩

theorem Sound.insert (hs : s.Sound) (key : κ) {ids : List EntryId} {d : Int}
    (hne : ids ≠ []) (hl : s.Level ids d) : (s.insert key ids).Sound where
  layered := layered_congr (entries_insert s key ids) hs.layered
  level := by
    intro other others hothers
    by_cases hother : other = key
    · rw [hother, head?_insert_self] at hothers
      obtain rfl := Option.some.inj hothers
      exact ⟨hne, d, hl.grows (grows_congr rfl)⟩
    · rw [head?_insert_ne s ids hother] at hothers
      obtain ⟨hne, d, hl⟩ := hs.level other others hothers
      exact ⟨hne, d, hl.grows (grows_congr rfl)⟩

@[simp] theorem view_init_self (s : StackFamily κ α) (key : κ) :
    (s.init key).view key = some {[]} := by
  simp [init]

theorem view_init_ne (s : StackFamily κ α) {key other : κ} (h : other ≠ key) :
    (s.init key).view other = s.view other :=
  view_insert_ne s _ h

theorem Sound.init (hs : s.Sound) (key : κ) : (s.init key).Sound := by
  refine hs.insert key (d := -1) (by simp) ?_
  intro id hid
  rw [List.mem_singleton.1 hid]
  exact ⟨Nat.zero_le _, rfl⟩

/-- Empty stacks started under several keys. -/
theorem Sound.foldl_init (hs : s.Sound) (keys : List κ) :
    (keys.foldl StackFamily.init s).Sound ∧
      (keys.foldl StackFamily.init s).entries = s.entries := by
  induction keys generalizing s with
  | nil => exact ⟨hs, rfl⟩
  | cons key keys ih => exact ih (hs.init key)

theorem view_foldl_init_not_mem (s : StackFamily κ α) {keys : List κ}
    {other : κ} (h : other ∉ keys) :
    (keys.foldl init s).view other = s.view other := by
  induction keys generalizing s with
  | nil => rfl
  | cons key keys ih =>
      rw [List.mem_cons, not_or] at h
      rw [List.foldl_cons, ih _ h.2, view_init_ne s h.1]

theorem view_foldl_init_mem (s : StackFamily κ α) {keys : List κ} {key : κ}
    (h : key ∈ keys) :
    (keys.foldl init s).view key = some {[]} := by
  induction keys generalizing s with
  | nil => simp at h
  | cons first keys ih =>
      by_cases hlater : key ∈ keys
      · exact ih _ hlater
      · obtain rfl := (List.mem_cons.1 h).resolve_right hlater
        rw [List.foldl_cons, view_foldl_init_not_mem _ hlater, view_init_self]

end Keys

end StackFamily

end TestCost
