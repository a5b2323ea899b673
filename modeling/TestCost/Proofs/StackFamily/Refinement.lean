import TestCost.Proofs.StackFamily.Operations

/-!
# A stack family is a map to sets of stacks

A user of a stack family sends it requests and sees answers. This file
compares that with a plain map from keys to sets of stacks. `perform` is one
request, `Reached` are the families that requests can lead to, and for each
kind of request a law (`PopLaw` and so on) says, in terms of the map that
the family stands for, when it is refused and with which fault, what it
answers, and what the map is afterwards.

Two conditions are on the user. A join names at least one key, since a key
without stacks could not be told from one with an empty stack by its depth.
And what a pop puts back has one length, whatever was taken: otherwise the
stacks of one key would differ in length.

## Main results

* `sound_of_reached` — reached families are sound.
* `lawful_of_reached` — reached families obey all laws.
-/

namespace TestCost

/-- A request to a stack family. -/
inductive StackRequest (κ α : Type) where
  | init (key : κ)
  | pop (key : κ) (count : Nat) (f : List α → List α)
  | split (key : κ) (targets : List κ)
  | join (keys : List κ) (target : κ)
  | remove (key : κ)

/-- All stacks have one length. -/
def OneLength {α : Type} (stackSet : Set (List α)) : Prop :=
  ∀ u ∈ stackSet, ∀ w ∈ stackSet, u.length = w.length

theorem Uniform.oneLength {α : Type} {stackSet : Set (List α)} {n : Nat}
    (h : Uniform stackSet n) : OneLength stackSet := by
  intro u hu w hw
  rw [h.2 u hu, h.2 w hw]

namespace StackFamily

variable {κ α : Type} [BEq κ]

section Requests

variable [BEq α]

/-- One request: the family after it, and its answer, which for a pop is the
lists that `f` was applied to. A refused pop, join or removal has not touched
the family; a refused split has. -/
def perform (s : StackFamily κ α) :
    StackRequest κ α → StackFamily κ α × Except (StackFault κ) (List (List α))
  | .init key => (s.init key, .ok [])
  | .pop key count f =>
    match s.pop key count f with
    | .ok (taken, t) => (t, .ok taken)
    | .error fault => (s, .error fault)
  | .split key targets =>
    let (t, outcome) := s.split key targets
    (t, outcome.map fun _ => [])
  | .join keys target =>
    match s.join keys target with
    | .ok t => (t, .ok [])
    | .error fault => (s, .error fault)
  | .remove key =>
    match s.remove key with
    | .ok t => (t, .ok [])
    | .error fault => (s, .error fault)

/-- What is asked of a user: a pop puts back lists of one length for all
that it takes, and a join names a key. -/
def Admits (s : StackFamily κ α) : StackRequest κ α → Prop
  | .pop key count f => ∀ taken, (s.perform (.pop key count f)).2 = .ok taken →
    ∀ t ∈ taken, ∀ u ∈ taken, (f t).length = (f u).length
  | .join keys _ => keys ≠ []
  | _ => True

/-- The families that requests lead to, refused ones among them. -/
inductive Reached : StackFamily κ α → Prop where
  | start : Reached {}
  | perform {s : StackFamily κ α} (h : Reached s) (request : StackRequest κ α)
      (hrequest : s.Admits request) : Reached (s.perform request).1

end Requests

/-! ## The laws -/

/-- The stacks of `target` together with those of `key`, which gives its own
away. -/
def handed (s : StackFamily κ α) (key target : κ) : Set (List α) :=
  {w | ∃ stackSet, w ∈ stackSet ∧
    (s.view key = some stackSet ∨ target ≠ key ∧ s.view target = some stackSet)}

/-- The stacks of several keys. -/
def gathered (s : StackFamily κ α) (keys : List κ) : Set (List α) :=
  {w | ∃ key ∈ keys, ∃ stackSet, s.view key = some stackSet ∧ w ∈ stackSet}

section Laws

variable [BEq α]

structure InitLaw (s : StackFamily κ α) (key : κ) : Prop where
  answer : (s.perform (.init key)).2 = .ok []
  self : (s.perform (.init key)).1.view key = some {[]}
  others : ∀ other, other ≠ key →
    (s.perform (.init key)).1.view other = s.view other

structure PopLaw (s : StackFamily κ α) (key : κ) (count : Nat)
    (f : List α → List α) : Prop where
  keyNotFound_iff : ∀ missing,
    (s.perform (.pop key count f)).2 = .error (.keyNotFound missing) ↔
      missing = key ∧ s.view key = none
  underflow_iff : ∀ short,
    (∃ requested, (s.perform (.pop key count f)).2 =
      .error (.underflow short requested)) ↔
      short = key ∧ ∃ before, s.view key = some before ∧
        ∃ w ∈ before, w.length < count
  /-- The lists that `f` is applied to, each once, and the stacks that are left.
  -/
  taken : ∀ before, s.view key = some before →
    (∀ w ∈ before, count ≤ w.length) →
    ∃ taken, (s.perform (.pop key count f)).2 = .ok taken ∧ taken.Nodup ∧
      (∀ w, w ∈ taken ↔ w.length = count ∧ ∃ lower, lower ++ w ∈ before) ∧
      (s.perform (.pop key count f)).1.view key = some {w | ∃ lower upper,
        lower ++ upper ∈ before ∧ upper.length = count ∧ w = lower ++ f upper} ∧
      ∀ g : List α → List α, (∀ w ∈ taken, g w = f w) →
        s.perform (.pop key count g) = s.perform (.pop key count f)
  others : ∀ other, other ≠ key →
    (s.perform (.pop key count f)).1.view other = s.view other
  refused : ∀ fault, (s.perform (.pop key count f)).2 = .error fault →
    (s.perform (.pop key count f)).1.view = s.view

structure SplitLaw (s : StackFamily κ α) (key : κ) (targets : List κ) :
    Prop where
  keyNotFound_iff : ∀ missing,
    (s.perform (.split key targets)).2 = .error (.keyNotFound missing) ↔
      missing = key ∧ s.view key = none
  uneven_iff :
    (∃ target depths, (s.perform (.split key targets)).2 =
      .error (.unevenSplit target depths)) ↔
      s.view key ≠ none ∧ ∃ target ∈ targets, ¬ OneLength (s.handed key target)
  moved : s.view key ≠ none →
    (∀ target ∈ targets, OneLength (s.handed key target)) →
    (s.perform (.split key targets)).2 = .ok [] ∧
      (∀ target ∈ targets,
        (s.perform (.split key targets)).1.view target =
          some (s.handed key target)) ∧
      (key ∉ targets → (s.perform (.split key targets)).1.view key = none) ∧
      ∀ other, other ∉ targets → other ≠ key →
        (s.perform (.split key targets)).1.view other = s.view other
  /-- A refusal names the first target that does not fit; those before it
  have their stacks, and the key has lost its own. -/
  uneven : ∀ bad depths,
    (s.perform (.split key targets)).2 = .error (.unevenSplit bad depths) →
    ∃ good rest, targets = good ++ bad :: rest ∧
      ¬ OneLength (s.handed key bad) ∧
      (∀ target ∈ good, OneLength (s.handed key target) ∧
        (s.perform (.split key targets)).1.view target =
          some (s.handed key target)) ∧
      (key ∉ good → (s.perform (.split key targets)).1.view key = none) ∧
      ∀ other, other ∉ good → other ≠ key →
        (s.perform (.split key targets)).1.view other = s.view other

structure JoinLaw (s : StackFamily κ α) (keys : List κ) (target : κ) :
    Prop where
  keyNotFound_iff :
    (∃ missing, (s.perform (.join keys target)).2 =
      .error (.keyNotFound missing)) ↔
      ∃ key ∈ keys, s.view key = none
  keyNotFound : ∀ missing,
    (s.perform (.join keys target)).2 = .error (.keyNotFound missing) →
      missing ∈ keys ∧ s.view missing = none
  uneven_iff :
    (∃ depths, (s.perform (.join keys target)).2 =
      .error (.unevenJoin keys depths)) ↔
      (∀ key ∈ keys, s.view key ≠ none) ∧ ¬ OneLength (s.gathered keys)
  joined : (∀ key ∈ keys, s.view key ≠ none) → OneLength (s.gathered keys) →
    (s.perform (.join keys target)).2 = .ok [] ∧
      (s.perform (.join keys target)).1.view target = some (s.gathered keys) ∧
      (∀ key ∈ keys, key ≠ target →
        (s.perform (.join keys target)).1.view key = none) ∧
      ∀ other, other ∉ keys → other ≠ target →
        (s.perform (.join keys target)).1.view other = s.view other
  refused : ∀ fault, (s.perform (.join keys target)).2 = .error fault →
    (s.perform (.join keys target)).1.view = s.view

structure RemoveLaw (s : StackFamily κ α) (key : κ) : Prop where
  keyNotFound_iff : ∀ missing,
    (s.perform (.remove key)).2 = .error (.keyNotFound missing) ↔
      missing = key ∧ s.view key = none
  removed : s.view key ≠ none →
    (s.perform (.remove key)).2 = .ok [] ∧
      (s.perform (.remove key)).1.view key = none
  others : ∀ other, other ≠ key →
    (s.perform (.remove key)).1.view other = s.view other

/-- The family obeys the law of every request. -/
structure Lawful (s : StackFamily κ α) : Prop where
  init : ∀ key, s.InitLaw key
  pop : ∀ key count f, s.PopLaw key count f
  split : ∀ key targets, s.SplitLaw key targets
  join : ∀ keys target, keys ≠ [] → s.JoinLaw keys target
  remove : ∀ key, s.RemoveLaw key

end Laws

/-! ## Outcomes -/

/-- Either all elements have a property or there is a first that has not. -/
private theorem forall_or_first_not {β : Type} (P : β → Prop) (l : List β) :
    (∀ b ∈ l, P b) ∨
      ∃ good bad rest,
        l = good ++ bad :: rest ∧ (∀ b ∈ good, P b) ∧ ¬ P bad := by
  induction l with
  | nil => exact .inl (by simp)
  | cons b l ih =>
      by_cases hb : P b
      · rcases ih with hall | ⟨good, bad, rest, rfl, hgood, hbad⟩
        · exact .inl (List.forall_mem_cons.2 ⟨hb, hall⟩)
        · exact .inr ⟨b :: good, bad, rest, rfl,
            List.forall_mem_cons.2 ⟨hb, hgood⟩, hbad⟩
      · exact .inr ⟨[], b, l, rfl, by simp, hb⟩

section Outcomes

/-- The lists that a pop puts back have a length of their own. -/
private theorem exists_common_length
    {α : Type} {taken : List (List α)} {f : List α → List α}
    (h : ∀ t ∈ taken, ∀ u ∈ taken, (f t).length = (f u).length) :
    ∃ c, ∀ t ∈ taken, (f t).length = c := by
  cases taken with
  | nil => exact ⟨0, by simp⟩
  | cons first rest =>
      exact ⟨(f first).length, fun t ht => h t ht first List.mem_cons_self⟩

variable {s : StackFamily κ α}

/-- A pop depends on its function only through the lists it takes. -/
theorem pop_congr [BEq α] {key : κ} {count : Nat}
    {f g : List α → List α} {taken : List (List α)} {t : StackFamily κ α}
    (h : s.pop key count f = .ok (taken, t)) (hg : ∀ w ∈ taken, g w = f w) :
    s.pop key count g = s.pop key count f := by
  cases hids : s.head? key with
  | none =>
      have hview : s.view key = none := by rw [view, hids]; rfl
      rw [pop_keyNotFound hview, pop_keyNotFound hview]
  | some ids =>
      cases hroutes : s.routes key count ids with
      | error fault => rw [pop_error hids hroutes, pop_error hids hroutes]
      | ok found =>
          rw [pop_eq hids hroutes] at h
          have htaken : found.map StackRoute.values = taken :=
            congrArg Prod.fst (Except.ok.inj h)
          have hsame := replace_congr s found fun r hr =>
            hg r.values (htaken ▸ List.mem_map_of_mem hr)
          rw [pop_eq hids hroutes, pop_eq hids hroutes, hsame]

/-- The three outcomes of a pop. -/
theorem pop_cases [LawfulBEq κ] [BEq α] [ReflBEq α] (hs : s.Sound) (key : κ)
    (count : Nat) (f : List α → List α) :
    (s.view key = none ∧ s.pop key count f = .error (.keyNotFound key)) ∨
      ∃ before n, s.view key = some before ∧ Uniform before n ∧
        ((n < count ∧
          ∃ requested, s.pop key count f = .error (.underflow key requested)) ∨
          (count ≤ n ∧ ∃ taken t after, s.pop key count f = .ok (taken, t) ∧
            s.Popped key count f before n taken t after)) := by
  cases hview : s.view key with
  | none => exact .inl ⟨rfl, pop_keyNotFound hview count f⟩
  | some before =>
      obtain ⟨n, hn⟩ := hs.exists_uniform hview
      refine .inr ⟨before, n, rfl, hn, ?_⟩
      by_cases hcount : n < count
      · exact .inl ⟨hcount, pop_underflow hs hview hn hcount f⟩
      · exact .inr ⟨Nat.le_of_not_lt hcount,
          popped_pop hs hview hn (Nat.le_of_not_lt hcount) f⟩

theorem handed_eq [LawfulBEq κ] {key : κ} {moved : Set (List α)}
    (h : s.view key = some moved) (target : κ) :
    s.handed key target = ((s.erase key).view target).getD ∅ ∪ moved := by
  ext w
  by_cases htarget : target = key
  · subst htarget
    simp [handed, h]
  · rw [view_erase_ne s htarget]
    cases hview : s.view target with
    | none => simp [handed, h, hview]
    | some own =>
        simp [handed, h, hview, htarget, and_or_left, exists_or, or_comm]

/-- A target agrees with the stacks handed to it when the two together have
one length. -/
theorem agrees_iff_oneLength [LawfulBEq κ] (hs : s.Sound)
    {key : κ} {moved : Set (List α)} (h : s.view key = some moved) {n : Nat}
    (hn : Uniform moved n) (target : κ) :
    (s.erase key).Agrees n target ↔ OneLength (s.handed key target) := by
  rw [handed_eq h]
  constructor
  · intro hagrees
    cases hview : (s.erase key).view target with
    | none => simpa using hn.oneLength
    | some own => exact ((hagrees own hview).union hn).oneLength
  · intro hone own hview
    rw [hview] at hone
    obtain ⟨m, hm⟩ := (hs.erase key).exists_uniform hview
    obtain ⟨u, hu⟩ := hn.1
    obtain ⟨w, hw⟩ := hm.1
    have hlength := hone u (.inr hu) w (.inl hw)
    rw [hn.2 u hu, hm.2 w hw] at hlength
    rwa [hlength]

/-- The two outcomes of a split of a key that holds stacks. -/
theorem split_cases [LawfulBEq κ] (hs : s.Sound) {key : κ}
    {moved : Set (List α)} (h : s.view key = some moved) (targets : List κ) :
    (∃ t, s.split key targets = (t, .ok ()) ∧
      (s.erase key).HandedTo moved targets t ∧
      ∀ target ∈ targets, OneLength (s.handed key target)) ∨
    ∃ good bad rest t depths, targets = good ++ bad :: rest ∧
      s.split key targets = (t, .error (.unevenSplit bad depths)) ∧
      (s.erase key).HandedTo moved good t ∧
      (∀ target ∈ good, OneLength (s.handed key target)) ∧
      ¬ OneLength (s.handed key bad) := by
  obtain ⟨n, hn⟩ := hs.exists_uniform h
  have hagrees := agrees_iff_oneLength hs h hn
  rcases forall_or_first_not ((s.erase key).Agrees n) targets with
    hall | ⟨good, bad, rest, rfl, hgood, hbad⟩
  · obtain ⟨t, ht, hhanded⟩ := handedTo_split hs h hn targets hall
    exact .inl ⟨t, ht, hhanded, fun target hmem =>
      (hagrees target).1 (hall target hmem)⟩
  · obtain ⟨t, depths, ht, hhanded⟩ := split_uneven hs h hn good rest hgood hbad
    exact .inr ⟨good, bad, rest, t, depths, rfl, ht, hhanded,
      fun target hmem => (hagrees target).1 (hgood target hmem),
      fun hone => hbad ((hagrees bad).2 hone)⟩

/-- What keys see once the stacks of a key have been handed to others. -/
theorem HandedTo.views [LawfulBEq κ] {t : StackFamily κ α} {key : κ}
    {moved : Set (List α)} {targets : List κ} (h : s.view key = some moved)
    (hhanded : (s.erase key).HandedTo moved targets t) :
    (∀ target ∈ targets, t.view target = some (s.handed key target)) ∧
      (key ∉ targets → t.view key = none) ∧
      ∀ other, other ∉ targets → other ≠ key → t.view other = s.view other := by
  refine ⟨?_, ?_, ?_⟩
  · intro target hmem
    rw [hhanded.view_mem target hmem, handed_eq h]
  · intro hkey
    rw [hhanded.view_not_mem key hkey, view_erase_self]
  · intro other hother hne
    rw [hhanded.view_not_mem other hother, view_erase_ne s hne]

/-- The three outcomes of a join. -/
theorem join_cases [LawfulBEq κ] (hs : s.Sound) {keys : List κ}
    (hne : keys ≠ []) (target : κ) :
    (∃ missing ∈ keys, s.view missing = none ∧
      s.join keys target = .error (.keyNotFound missing)) ∨
    ((∀ key ∈ keys, s.view key ≠ none) ∧
      ((¬ OneLength (s.gathered keys) ∧
        ∃ depths, s.join keys target = .error (.unevenJoin keys depths)) ∨
      (OneLength (s.gathered keys) ∧
        ∃ t, s.join keys target = .ok t ∧ s.Joined keys target t))) := by
  rcases forall_or_first_not (fun key => s.view key ≠ none) keys with
    hlive | ⟨good, missing, rest, rfl, hgood, hmissing⟩
  · refine .inr ⟨hlive, ?_⟩
    by_cases hone : OneLength (s.gathered keys)
    · refine .inr ⟨hone, ?_⟩
      obtain ⟨first, hfirst⟩ := List.exists_mem_of_ne_nil _ hne
      obtain ⟨firstSet, hfirstView⟩ :=
        Option.ne_none_iff_exists'.1 (hlive first hfirst)
      obtain ⟨n, hn⟩ := hs.exists_uniform hfirstView
      refine joined_join hs hne (n := n) ?_ target
      intro key hkey
      obtain ⟨stackSet, hview⟩ := Option.ne_none_iff_exists'.1 (hlive key hkey)
      obtain ⟨m, hm⟩ := hs.exists_uniform hview
      obtain ⟨u, hu⟩ := hn.1
      obtain ⟨w, hw⟩ := hm.1
      have hlength := hone u ⟨first, hfirst, firstSet, hfirstView, hu⟩ w
        ⟨key, hkey, stackSet, hview, hw⟩
      rw [hn.2 u hu, hm.2 w hw] at hlength
      exact ⟨stackSet, hview, hlength ▸ hm⟩
    · refine .inl ⟨hone, ?_⟩
      simp only [OneLength, not_forall] at hone
      obtain ⟨u, ⟨left, hleft, leftSet, hleftView, hu⟩, w,
        ⟨right, hright, rightSet, hrightView, hw⟩, hlength⟩ := hone
      obtain ⟨n, hn⟩ := hs.exists_uniform hleftView
      obtain ⟨m, hm⟩ := hs.exists_uniform hrightView
      rw [hn.2 u hu, hm.2 w hw] at hlength
      exact join_uneven hs hlive hleft hright hleftView hrightView hn hm
        hlength target
  · have hnone : s.view missing = none := not_not.1 hmissing
    exact .inl ⟨missing, by simp, hnone,
      join_keyNotFound good rest hgood hnone target⟩

end Outcomes

/-! ## Reached families are sound -/

section Reached

variable [LawfulBEq κ] [BEq α] {s : StackFamily κ α}

theorem Sound.perform [ReflBEq α] (hs : s.Sound) (request : StackRequest κ α)
    (hrequest : s.Admits request) : (s.perform request).1.Sound := by
  cases request with
  | init key => exact hs.init key
  | pop key count f =>
      rcases pop_cases hs key count f with
        ⟨_, hpop⟩ | ⟨before, n, _, _, ⟨_, requested, hpop⟩ |
          ⟨_, taken, t, after, hpop, hpopped⟩⟩
      · simpa only [StackFamily.perform, hpop] using hs
      · simpa only [StackFamily.perform, hpop] using hs
      · have hanswer : (s.perform (.pop key count f)).2 = .ok taken := by
          simp only [StackFamily.perform, hpop]
        obtain ⟨c, hc⟩ := exists_common_length (hrequest taken hanswer)
        simpa only [StackFamily.perform, hpop] using hpopped.sound c hc
  | split key targets =>
      cases hview : s.view key with
      | none =>
          simpa only [StackFamily.perform, split, head,
            head?_of_view_none hview] using hs
      | some moved =>
          rcases split_cases hs hview targets with
            ⟨t, hsplit, hhanded, _⟩ | ⟨_, _, _, t, _, _, hsplit, hhanded, _⟩
          · simpa only [StackFamily.perform, hsplit] using hhanded.sound
          · simpa only [StackFamily.perform, hsplit] using hhanded.sound
  | join keys target =>
      rcases join_cases hs hrequest target with
        ⟨_, _, _, hjoin⟩ | ⟨_, ⟨_, _, hjoin⟩ | ⟨_, t, hjoin, hjoined⟩⟩
      · simpa only [StackFamily.perform, hjoin] using hs
      · simpa only [StackFamily.perform, hjoin] using hs
      · simpa only [StackFamily.perform, hjoin] using hjoined.sound
  | remove key =>
      cases hview : s.view key with
      | none =>
          simpa only [StackFamily.perform, remove_keyNotFound hview] using hs
      | some stackSet =>
          simpa only [StackFamily.perform, remove_eq hview] using hs.erase key

theorem sound_of_reached [ReflBEq α] (hs : s.Reached) : s.Sound := by
  induction hs with
  | start => exact sound_empty
  | perform _ request hrequest ih => exact ih.perform request hrequest

/-! ## Sound families obey the laws -/

theorem initLaw (s : StackFamily κ α) (key : κ) : s.InitLaw key where
  answer := rfl
  self := view_init_self s key
  others := fun _ hother => view_init_ne s hother

theorem Sound.popLaw [LawfulBEq α] (hs : s.Sound) (key : κ) (count : Nat)
    (f : List α → List α) : s.PopLaw key count f := by
  rcases pop_cases hs key count f with
    ⟨hview, hpop⟩ | ⟨before, n, hview, hn, ⟨hcount, requested, hpop⟩ |
      ⟨hcount, taken, t, after, hpop, hpopped⟩⟩
  · have hperform :
        s.perform (.pop key count f) = (s, .error (.keyNotFound key)) := by
      simp only [StackFamily.perform, hpop]
    refine ⟨?_, ?_, ?_, ?_, ?_⟩ <;> simp [hperform, hview, eq_comm]
  · have hperform : s.perform (.pop key count f) =
        (s, .error (.underflow key requested)) := by
      simp only [StackFamily.perform, hpop]
    obtain ⟨w, hw⟩ := hn.1
    have hshort : ∃ w ∈ before, w.length < count := ⟨w, hw, by rwa [hn.2 w hw]⟩
    refine ⟨by simp [hperform, hview], ?_, ?_, by simp [hperform],
      by simp [hperform]⟩
    · intro short
      simp [hperform, hview, hshort, eq_comm]
    · intro before' hview' hlong
      obtain rfl := Option.some.inj (hview.symm.trans hview')
      have := hlong w hw
      rw [hn.2 w hw] at this
      omega
  · have hperform : s.perform (.pop key count f) = (t, .ok taken) := by
      simp only [StackFamily.perform, hpop]
    have hfaithful : s.Faithful := fun v w _ _ h => eq_of_beq h
    refine ⟨by simp [hperform, hview], ?_, ?_, ?_, by simp [hperform]⟩
    · intro short
      rw [hperform]
      constructor
      · rintro ⟨_, h⟩
        simp at h
      · rintro ⟨_, before', hview', w, hw, hlength⟩
        obtain rfl := Option.some.inj (hview.symm.trans hview')
        rw [hn.2 w hw] at hlength
        omega
    · intro before' hview' _
      obtain rfl := Option.some.inj (hview.symm.trans hview')
      refine ⟨taken, by rw [hperform], hpopped.nodup,
        hpopped.mem_taken hfaithful, ?_, ?_⟩
      · rw [hperform, hpopped.view_self, hpopped.after_eq hfaithful]
      · intro g hg
        simp only [StackFamily.perform, pop_congr hpop hg]
    · intro other hother
      rw [hperform]
      exact hpopped.view_ne other hother

theorem Sound.splitLaw (hs : s.Sound) (key : κ) (targets : List κ) :
    s.SplitLaw key targets := by
  cases hview : s.view key with
  | none =>
      have hperform :
          s.perform (.split key targets) = (s, .error (.keyNotFound key)) := by
        simp only [StackFamily.perform, split, head, head?_of_view_none hview]
        rfl
      refine ⟨?_, ?_, ?_, ?_⟩ <;> simp [hperform, hview, eq_comm]
  | some moved =>
      rcases split_cases hs hview targets with ⟨t, hsplit, hhanded, hone⟩ |
        ⟨good, bad, rest, t, depths, rfl, hsplit, hhanded, hgood, hbad⟩
      · have hperform : s.perform (.split key targets) = (t, .ok []) := by
          simp only [StackFamily.perform, hsplit]
          rfl
        refine ⟨by simp [hperform, hview], ?_, ?_, by simp [hperform]⟩
        · simpa [hperform] using fun _ => hone
        · intro _ _
          rw [hperform]
          exact ⟨rfl, hhanded.views hview⟩
      · have hperform : s.perform (.split key (good ++ bad :: rest)) =
            (t, .error (.unevenSplit bad depths)) := by
          simp only [StackFamily.perform, hsplit]
          rfl
        have hbadMem : bad ∈ good ++ bad :: rest := by simp
        refine ⟨by simp [hperform, hview], ?_, ?_, ?_⟩
        · rw [hperform, hview]
          exact ⟨fun _ => ⟨by simp, bad, hbadMem, hbad⟩, fun _ =>
            ⟨bad, depths, rfl⟩⟩
        · intro _ hall
          exact absurd (hall bad hbadMem) hbad
        · intro bad' depths' h
          rw [hperform] at h ⊢
          obtain ⟨rfl, rfl⟩ : bad = bad' ∧ depths = depths' := by simpa using h
          obtain ⟨htargets, hkey, hothers⟩ := hhanded.views hview
          exact ⟨good, rest, rfl, hbad, fun target hmem =>
            ⟨hgood target hmem, htargets target hmem⟩, hkey, hothers⟩

theorem Sound.joinLaw (hs : s.Sound) {keys : List κ} (hne : keys ≠ [])
    (target : κ) :
    s.JoinLaw keys target := by
  rcases join_cases hs hne target with
    ⟨missing, hmem, hnone, hjoin⟩ |
      ⟨hlive, ⟨huneven, depths, hjoin⟩ | ⟨hone, t, hjoin, hjoined⟩⟩
  · have hperform :
        s.perform (.join keys target) = (s, .error (.keyNotFound missing)) := by
      simp only [StackFamily.perform, hjoin]
    refine ⟨?_, ?_, ?_, ?_, by simp [hperform]⟩
    · rw [hperform]
      exact ⟨fun _ => ⟨missing, hmem, hnone⟩, fun _ => ⟨missing, rfl⟩⟩
    · intro missing' h
      rw [hperform] at h
      obtain rfl : missing = missing' := by simpa using h
      exact ⟨hmem, hnone⟩
    · rw [hperform]
      constructor
      · rintro ⟨_, h⟩
        simp at h
      · rintro ⟨hlive, _⟩
        exact absurd hnone (hlive missing hmem)
    · intro hlive _
      exact absurd hnone (hlive missing hmem)
  · have hperform : s.perform (.join keys target) =
        (s, .error (.unevenJoin keys depths)) := by
      simp only [StackFamily.perform, hjoin]
    refine ⟨?_, by simp [hperform], ?_, ?_, by simp [hperform]⟩
    · simpa [hperform] using hlive
    · rw [hperform]
      exact ⟨fun _ => ⟨hlive, huneven⟩, fun _ => ⟨depths, rfl⟩⟩
    · intro _ hone
      exact absurd hone huneven
  · have hperform : s.perform (.join keys target) = (t, .ok []) := by
      simp only [StackFamily.perform, hjoin]
    refine ⟨?_, by simp [hperform], ?_, ?_, by simp [hperform]⟩
    · simpa [hperform] using hlive
    · simpa [hperform] using fun _ => hone
    · intro _ _
      rw [hperform]
      exact ⟨rfl, hjoined.view_target, hjoined.view_mem, hjoined.view_not_mem⟩

theorem removeLaw (s : StackFamily κ α) (key : κ) : s.RemoveLaw key := by
  cases hview : s.view key with
  | none =>
      have hperform :
          s.perform (.remove key) = (s, .error (.keyNotFound key)) := by
        simp only [StackFamily.perform, remove_keyNotFound hview]
      refine ⟨?_, ?_, ?_⟩ <;> simp [hperform, hview, eq_comm]
  | some stackSet =>
      have hperform : s.perform (.remove key) = (s.erase key, .ok []) := by
        simp only [StackFamily.perform, remove_eq hview]
      refine ⟨by simp [hperform, hview], by simp [hperform], ?_⟩
      intro other hother
      rw [hperform]
      exact view_erase_ne s hother

/-- **A stack family is a map to sets of stacks.** Whatever requests led to
it, refused ones among them, a family answers the next one as the map that
it stands for prescribes. -/
theorem lawful_of_reached [LawfulBEq α] (hs : s.Reached) : s.Lawful := by
  have hsound := sound_of_reached hs
  exact
    { init := initLaw s
      pop := hsound.popLaw
      split := hsound.splitLaw
      join := fun _ target hne => hsound.joinLaw hne target
      remove := removeLaw s }

end Reached

/-- Two keys that got one value each on top of a shared one, joined. -/
def diamond : StackFamily Nat Nat :=
  let root := (({} : StackFamily Nat Nat).perform (.init 0)).1
  let shared := (root.perform (.pop 0 0 fun _ => [7])).1
  let forked := (shared.perform (.split 0 [1, 2])).1
  let left := (forked.perform (.pop 1 0 fun _ => [5])).1
  let right := (left.perform (.pop 2 0 fun _ => [5])).1
  (right.perform (.join [1, 2] 3)).1

private theorem reached_diamond : diamond.Reached := by
  have root := Reached.start.perform (κ := Nat) (α := Nat) (.init 0) trivial
  have shared := root.perform (.pop 0 0 fun _ => [7]) fun _ _ _ _ _ _ => rfl
  have forked := shared.perform (.split 0 [1, 2]) trivial
  have left := forked.perform (.pop 1 0 fun _ => [5]) fun _ _ _ _ _ _ => rfl
  have right := left.perform (.pop 2 0 fun _ => [5]) fun _ _ _ _ _ _ => rfl
  exact right.perform (.join [1, 2] 3) (List.cons_ne_nil _ _)

/-- Equal values of different entries are taken once. -/
theorem diamond_lawful : diamond.Reached ∧ diamond.Lawful ∧
    (diamond.perform (.pop 3 1 fun _ => [])).2 = .ok [[5]] :=
  ⟨reached_diamond, lawful_of_reached reached_diamond, rfl⟩

end StackFamily

end TestCost
