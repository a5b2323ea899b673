import TestCost.Method.Slots

/-!
# Which debug name an access gets

A slot can have several debug names, each for a range of offsets, and the ranges
come in any order, may overlap and may be empty. An access takes the name of a
range that it lies in. Outside of all ranges it takes the next one to come,
since a store precedes the range of the variable that it starts, and behind all
of them the one that was left last.

Those three preferences are one number, the distance of an offset from a range:
zero within it, small in front of it, and from `behind` on after it. Distances
are compared as unsigned 32-bit words, so there are two things to see. The three
kinds must not get mixed up, however far away a range is, and no sum or
difference on the way may leave the word. Both hold because a range starts and
ends within the first `2 ^ 17` offsets, far below `behind`.

## Main results

* `firstBest_nearest` — the choice by distance.
* `distance?_eq` — distances are words.
* `name?_by_preference` — the choice in terms of ranges.
-/

namespace TestCost

/-- The first of the elements that no other is better than. -/
def FirstBest {α : Type} (better : α → α → Prop) (l : List α) (a : α) : Prop :=
  ∃ front rest, l = front ++ a :: rest ∧ (∀ b ∈ front, better a b) ∧
    ∀ b ∈ rest, ¬ better b a

theorem FirstBest.mem {α : Type} {better : α → α → Prop} {l : List α} {a : α}
    (h : FirstBest better l a) : a ∈ l := by
  obtain ⟨front, rest, rfl, _⟩ := h
  simp

/-- What is best of all is best of a part that it belongs to. -/
theorem FirstBest.filter {α : Type} {better : α → α → Prop} {l : List α} {a : α}
    (h : FirstBest better l a) {p : α → Bool} (ha : p a = true) :
    FirstBest better (l.filter p) a := by
  obtain ⟨front, rest, rfl, hfront, hrest⟩ := h
  refine ⟨front.filter p, rest.filter p, ?_, ?_, ?_⟩
  · rw [List.filter_append, List.filter_cons, if_pos ha]
  · intro b hb
    exact hfront b (List.mem_filter.1 hb).1
  · intro b hb
    exact hrest b (List.mem_filter.1 hb).1

/-- What is best in one sense is best in another if the two agree on it. -/
theorem FirstBest.congr
    {α : Type} {better better' : α → α → Prop} {l : List α} {a : α}
    (h : FirstBest better l a) (hfront : ∀ b ∈ l, better a b → better' a b)
    (hrest : ∀ b ∈ l, better' b a → better b a) : FirstBest better' l a := by
  obtain ⟨front, rest, rfl, hbest, hnone⟩ := h
  refine ⟨front, rest, rfl, ?_, ?_⟩
  · intro b hb
    exact hfront b (List.mem_append_left _ hb) (hbest b hb)
  · intro b hb hbetter
    exact hnone b hb
      (hrest b (List.mem_append_right _ (List.mem_cons_of_mem _ hb)) hbetter)

namespace DebugName

variable {d e : DebugName} {entries : List DebugName} {offset : Nat}

/-! ## Ranges -/

/-- The first offset behind the range. -/
def stop (d : DebugName) : Nat := d.start + d.length

/-- The offset lies in the range. -/
def covers (offset : Nat) (d : DebugName) : Bool :=
  d.start ≤ offset && offset < d.stop

/-- The range is still to come. -/
def isAhead (offset : Nat) (d : DebugName) : Bool := offset < d.start

/-- Start and length are what a table of a class file can hold. -/
def Fits (d : DebugName) : Prop := d.start < 65536 ∧ d.length < 65536

instance (d : DebugName) : Decidable d.Fits :=
  inferInstanceAs (Decidable (_ ∧ _))

theorem distance_of_covers (h : d.covers offset = true) :
    d.distance offset = 0 := by
  simp only [covers, Bool.and_eq_true, decide_eq_true_eq] at h
  exact if_pos h

theorem distance_of_isAhead (h : d.isAhead offset = true) :
    d.distance offset = d.start - offset := by
  simp only [isAhead, decide_eq_true_eq] at h
  rw [distance, if_neg (by omega), if_pos h]

theorem distance_of_behind (hcovers : d.covers offset = false)
    (hahead : d.isAhead offset = false) :
    d.stop ≤ offset ∧ d.distance offset = behind + (offset - d.stop) := by
  simp only [isAhead, decide_eq_false_iff_not] at hahead
  simp only [covers, Bool.and_eq_false_iff, decide_eq_false_iff_not] at hcovers
  have hstop : d.stop ≤ offset := by omega
  have hout : ¬ (d.start ≤ offset ∧ offset < d.start + d.length) :=
    fun h => absurd h.2 (Nat.not_lt.2 hstop)
  exact ⟨hstop, by rw [distance, if_neg hout, if_neg hahead, stop]⟩

/-- The distance tells on which side of a range an offset lies. -/
theorem distance_eq_zero_iff :
    d.distance offset = 0 ↔ d.covers offset = true := by
  cases hcovers : d.covers offset with
  | true => simp [distance_of_covers hcovers]
  | false =>
      cases hahead : d.isAhead offset with
      | true =>
          have : offset < d.start := of_decide_eq_true hahead
          rw [distance_of_isAhead hahead]
          simp only [Bool.false_eq_true, iff_false]
          omega
      | false =>
          rw [(distance_of_behind hcovers hahead).2, behind]
          simp only [Bool.false_eq_true, iff_false]
          omega

theorem distance_lt_behind_iff (hfits : d.Fits) :
    d.distance offset < behind ↔
      d.covers offset = true ∨ d.isAhead offset = true := by
  cases hcovers : d.covers offset with
  | true => simp [distance_of_covers hcovers, behind]
  | false =>
      cases hahead : d.isAhead offset with
      | true =>
          have := hfits.1
          simp only [distance_of_isAhead hahead, behind, or_true, iff_true]
          omega
      | false => simp [(distance_of_behind hcovers hahead).2]

/-! ## The choice by distance -/

/-- The offset is less far from the first range than from the second one. -/
def Nearer (offset : Nat) (a b : DebugName) : Prop :=
  a.distance offset < b.distance offset

theorem distance_le_of_firstBest (h : FirstBest (Nearer offset) entries d)
    (he : e ∈ entries) :
    d.distance offset ≤ e.distance offset := by
  obtain ⟨front, rest, rfl, hfront, hrest⟩ := h
  rcases List.mem_append.1 he with he | he
  · exact Nat.le_of_lt (hfront e he)
  · rcases List.mem_cons.1 he with rfl | he
    · exact Nat.le_refl _
    · exact Nat.not_lt.1 (hrest e he)

/-- One entry more. -/
theorem firstBest_append {seen : List DebugName}
    (h : FirstBest (Nearer offset) seen d) (e : DebugName) :
    FirstBest (Nearer offset) (seen ++ [e])
      (if e.distance offset < d.distance offset then e else d) := by
  split
  · next hlt =>
    refine ⟨seen, [], rfl, ?_, by simp⟩
    intro b hb
    exact Nat.lt_of_lt_of_le hlt (distance_le_of_firstBest h hb)
  · next hle =>
    obtain ⟨front, rest, rfl, hfront, hrest⟩ := h
    refine ⟨front, rest ++ [e], by simp, hfront, ?_⟩
    intro b hb
    rcases List.mem_append.1 hb with hb | hb
    · exact hrest b hb
    · rwa [List.mem_singleton.1 hb]

/-- The nearest entry is the first one of the least distance. -/
theorem firstBest_nearest (offset : Nat) (h : entries ≠ []) :
    ∃ d, nearest offset entries = some d ∧
      FirstBest (Nearer offset) entries d := by
  have hfold : ∀ (rest seen : List DebugName) (d : DebugName),
      FirstBest (Nearer offset) seen d →
      FirstBest (Nearer offset) (seen ++ rest) (rest.foldl (fun best e =>
        if e.distance offset < best.distance offset then e else best) d) := by
    intro rest
    induction rest with
    | nil =>
        intro seen d hd
        rwa [List.append_nil]
    | cons e rest ih =>
        intro seen d hd
        rw [List.append_cons]
        exact ih (seen ++ [e]) _ (firstBest_append hd e)
  obtain ⟨first, rest, rfl⟩ := List.exists_cons_of_ne_nil h
  exact ⟨_, rfl, hfold rest [first] first ⟨[], [], rfl, by simp, by simp⟩⟩

/-! ## Distances as words -/

/-- Number of values of an unsigned 32-bit word. -/
def wordValues : Nat := 4294967296

/-- The sum of two words, if it is a word. -/
def sum? (a b : Nat) : Option Nat :=
  if a + b < wordValues then some (a + b) else none

/-- The difference of two words, if it is a word. -/
def difference? (a b : Nat) : Option Nat := if b ≤ a then some (a - b) else none

/-- The distance, computed in words only; `none` when a step leaves the word. -/
def distance? (d : DebugName) (offset : Nat) : Option Nat := do
  let stop ← sum? d.start d.length
  if d.start ≤ offset ∧ offset < stop then return 0
  else if offset < d.start then difference? d.start offset
  else sum? behind (← difference? offset stop)

theorem sum?_of_lt {a b : Nat} (h : a + b < wordValues) :
    sum? a b = some (a + b) := if_pos h

theorem difference?_of_le {a b : Nat} (h : b ≤ a) :
    difference? a b = some (a - b) := if_pos h

theorem distance?_eq (hfits : d.Fits) (hoffset : offset < 2147483648) :
    d.distance? offset = some (d.distance offset) := by
  obtain ⟨hstart, hlength⟩ := hfits
  have hstop : sum? d.start d.length = some (d.start + d.length) :=
    sum?_of_lt (by rw [wordValues]; omega)
  simp only [distance?, distance, hstop, Option.bind_eq_bind, Option.bind_some]
  split
  · rfl
  · split
    · next hahead => exact difference?_of_le (Nat.le_of_lt hahead)
    · rw [difference?_of_le (by omega), Option.bind_some]
      exact sum?_of_lt (by rw [wordValues, behind]; omega)

/-! ## The choice by ranges -/

/-- The name that is chosen among the entries of a slot. -/
structure Preference (entries : List DebugName) (offset : Nat)
    (answer : Option String) :
    Prop where
  /-- The first entry whose range the offset lies in. -/
  covering : ∀ d, entries.find? (covers offset) = some d → answer = some d.name
  /-- Outside of all ranges, the first one of those that start next. -/
  ahead : (∀ e ∈ entries, e.covers offset = false) →
    (∃ e ∈ entries, e.isAhead offset = true) →
    ∃ d, FirstBest (fun a b => a.start < b.start)
      (entries.filter (isAhead offset)) d ∧
      answer = some d.name
  /-- Behind all ranges, the first one of those that end last. -/
  last : (∀ e ∈ entries, e.covers offset = false) →
    (∀ e ∈ entries, e.isAhead offset = false) →
    entries ≠ [] → ∃ d, FirstBest (fun a b => b.stop < a.stop) entries d ∧
      answer = some d.name
  none_iff : answer = none ↔ entries = []

/-- If a range covers the offset, then so does the nearest one, and none in
front of it does. -/
theorem eq_of_find? (h : FirstBest (Nearer offset) entries d)
    (he : entries.find? (covers offset) = some e) : e = d := by
  have hle := distance_le_of_firstBest h (List.mem_of_find?_eq_some he)
  rw [distance_of_covers (List.find?_some he), Nat.le_zero] at hle
  obtain ⟨front, rest, rfl, hfront, hrest⟩ := h
  have hout : ∀ b ∈ front, b.covers offset = false := by
    intro b hb
    have hlt : d.distance offset < b.distance offset := hfront b hb
    rw [← Bool.not_eq_true, ← distance_eq_zero_iff]
    omega
  have hfind : (front ++ d :: rest).find? (covers offset) = some d :=
    List.find?_eq_some_iff_append.2
      ⟨distance_eq_zero_iff.1 hle, front, rest, rfl, by simpa using hout⟩
  exact Option.some.inj (he.symm.trans hfind)

/-- In front of a range all distances are below `behind`, so the least one is
that of a range still to come, and among those distances compare as starts do.
-/
theorem firstBest_start (hfits : ∀ e ∈ entries, e.Fits)
    (hout : ∀ e ∈ entries, e.covers offset = false)
    (he : e ∈ entries) (hahead : e.isAhead offset = true)
    (h : FirstBest (Nearer offset) entries d) :
    FirstBest (fun a b => a.start < b.start)
      (entries.filter (isAhead offset)) d := by
  have hle := distance_le_of_firstBest h he
  have hd : d.isAhead offset = true := by
    have hnear := Nat.lt_of_le_of_lt hle
      ((distance_lt_behind_iff (hfits e he)).2 (.inr hahead))
    rcases (distance_lt_behind_iff (hfits d h.mem)).1 hnear with
      hcovers | hahead
    · exact absurd hcovers (by simp [hout d h.mem])
    · exact hahead
  have hstart : offset < d.start := of_decide_eq_true hd
  refine (h.filter hd).congr ?_ ?_
  · intro b hb hlt
    rw [Nearer, distance_of_isAhead hd,
      distance_of_isAhead (List.mem_filter.1 hb).2] at hlt
    omega
  · intro b hb hlt
    rw [Nearer, distance_of_isAhead hd,
      distance_of_isAhead (List.mem_filter.1 hb).2]
    have : offset < b.start := of_decide_eq_true (List.mem_filter.1 hb).2
    omega

/-- Behind all ranges, distances compare as ends do. -/
theorem firstBest_stop (hout : ∀ e ∈ entries, e.covers offset = false)
    (hpast : ∀ e ∈ entries, e.isAhead offset = false)
    (h : FirstBest (Nearer offset) entries d) :
    FirstBest (fun a b => b.stop < a.stop) entries d := by
  have hbehind : ∀ b ∈ entries,
      b.stop ≤ offset ∧ b.distance offset = behind + (offset - b.stop) :=
    fun b hb => distance_of_behind (hout b hb) (hpast b hb)
  obtain ⟨hd, hdistance⟩ := hbehind d h.mem
  refine h.congr ?_ ?_
  · intro b hb hlt
    rw [Nearer, hdistance, (hbehind b hb).2] at hlt
    omega
  · intro b hb hlt
    obtain ⟨hstop, hb'⟩ := hbehind b hb
    rw [Nearer, hdistance, hb']
    omega

theorem preference_nearest (hfits : ∀ e ∈ entries, e.Fits) :
    Preference entries offset
      ((nearest offset entries).map DebugName.name) := by
  by_cases hne : entries = []
  · subst hne
    exact ⟨by simp, by simp, by simp, by simp [nearest]⟩
  · obtain ⟨d, hd, hbest⟩ := firstBest_nearest offset hne
    rw [hd, Option.map_some]
    refine ⟨?_, ?_, ?_, by simp [hne]⟩
    · intro e he
      rw [eq_of_find? hbest he]
    · rintro hout ⟨e, he, hahead⟩
      exact ⟨d, firstBest_start hfits hout he hahead hbest, rfl⟩
    · intro hout hpast _
      exact ⟨d, firstBest_stop hout hpast hbest, rfl⟩

/-- **Debug names are chosen by preference.** For ranges as a class file can
give them, every distance is computed within 32-bit words. The name chosen for a
slot is that of the first range that the offset lies in, else of the first one
among those that start next, else of the first one among those that end last;
only a slot without entries has no name. -/
theorem name?_by_preference {names : List DebugName}
    (hfits : ∀ d ∈ names, d.Fits) (slot : Nat) (hoffset : offset < 2147483648) :
    (∀ d ∈ names, d.distance? offset = some (d.distance offset)) ∧
      Preference (names.filter fun d => d.slot == slot) offset
        (name? names slot offset) :=
  ⟨fun d hd => distance?_eq (hfits d hd) hoffset,
    preference_nearest fun e he => hfits e (List.mem_filter.1 he).1⟩

/-- Four ranges of slot 1, two of which overlap and two of which end together,
one of these without an offset in it; and a range of slot 2 that reaches as far
as one can. -/
def overlapping : List DebugName :=
  [⟨1, 20, 0, "empty", "I"⟩, ⟨2, 65535, 65535, "far", "J"⟩,
    ⟨1, 4, 10, "sum", "I"⟩,
   ⟨1, 8, 6, "part", "I"⟩, ⟨1, 16, 4, "rest", "I"⟩]

theorem overlapping_by_preference :
    (∀ d ∈ overlapping, d.Fits) ∧
      Preference (overlapping.filter fun d => d.slot == 1) 9 (some "sum") ∧
      Preference (overlapping.filter fun d => d.slot == 1) 15 (some "rest") ∧
      Preference (overlapping.filter fun d => d.slot == 1) 2147483647
        (some "empty") ∧
      Preference (overlapping.filter fun d => d.slot == 3) 9 none ∧
      ∀ d ∈ overlapping,
        d.distance? 2147483647 = some (d.distance 2147483647) := by
  have hfits : ∀ d ∈ overlapping, d.Fits := by decide
  have hnear : 9 < 2147483648 := by decide
  have hbetween : 15 < 2147483648 := by decide
  have hfar : 2147483647 < 2147483648 := by decide
  exact ⟨hfits, (name?_by_preference hfits 1 hnear).2,
    (name?_by_preference hfits 1 hbetween).2,
    (name?_by_preference hfits 1 hfar).2, (name?_by_preference hfits 3 hnear).2,
    (name?_by_preference hfits 1 hfar).1⟩

end DebugName

end TestCost
