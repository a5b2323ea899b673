import TestCost.Proofs.StackFamily.Evenness

/-!
# Splitting and joining back

A key that is split and joined back under its own name is as it was before: it
has the same top entries in the same order, and no other key has changed. That
hangs on what holds of all families that calls lead to. Top entries have one
depth, or the tests of split and join would refuse them; and no entry is there
twice, or joining would drop the second one.

Only the order in which keys are kept may have changed. No call depends on it,
so families that differ in nothing else are `Alike`: they give the same answers
to the same calls, however many follow.

## Main results

* `Alike.call` — alike families answer alike, and stay alike.
* `handToAll_free`, `join_handed` — splitting to keys without stacks, and
  joining keys that have the same ones.
* `split_join_restores` — a split that is joined back.
-/

namespace TestCost

namespace StackFamily

variable {κ α : Type}

theorem routes_congr [BEq α] {s t : StackFamily κ α} (h : s.entries = t.entries)
    (key : κ) (count : Nat) (ids : List EntryId) :
    s.routes key count ids = t.routes key count ids := by
  induction count generalizing ids with
  | zero => rfl
  | succ count ih => simp only [routes, entry_congr h, ih]

variable [BEq κ]

/-! ## Families that cannot be told apart -/

/-- The families have the same entries and the same keys, in whatever order. -/
structure Alike (s t : StackFamily κ α) : Prop where
  entries_eq : s.entries = t.entries
  head_eq : ∀ key, s.head? key = t.head? key

section Alike

variable {s t : StackFamily κ α}

theorem Alike.head (h : s.Alike t) (key : κ) : s.head key = t.head key := by
  rw [StackFamily.head, StackFamily.head, h.head_eq]

theorem Alike.push (h : s.Alike t) (ids : List EntryId) (value : α) :
    (s.push ids value).2 = (t.push ids value).2 ∧
      (s.push ids value).1.Alike (t.push ids value).1 := by
  simp only [StackFamily.push, h.entries_eq, funext (depth_congr h.entries_eq)]
  exact ⟨trivial, rfl, h.head_eq⟩

theorem Alike.pushAll (h : s.Alike t) (ids : List EntryId) (values : List α) :
    (s.pushAll ids values).2 = (t.pushAll ids values).2 ∧
      (s.pushAll ids values).1.Alike (t.pushAll ids values).1 := by
  induction values generalizing s t ids with
  | nil => exact ⟨rfl, h⟩
  | cons value values ih =>
      obtain ⟨hid, hpushed⟩ := h.push ids value
      have hrest := ih hpushed [(s.push ids value).2]
      simp only [StackFamily.pushAll]
      rwa [← hid]

theorem Alike.replace (h : s.Alike t) (f : List α → List α)
    (found : List (StackRoute α)) :
    (s.replace f found).2 = (t.replace f found).2 ∧
      (s.replace f found).1.Alike (t.replace f found).1 := by
  induction found using List.reverseRecOn with
  | nil => exact ⟨rfl, h⟩
  | append_singleton found r ih =>
      obtain ⟨htops, hreplaced⟩ := ih
      obtain ⟨hmore, hpushed⟩ := hreplaced.pushAll r.bases (f r.values)
      rw [replace_concat, replace_concat, htops, hmore]
      exact ⟨rfl, hpushed⟩

variable [LawfulBEq κ]

theorem Alike.erase (h : s.Alike t) (key : κ) :
    (s.erase key).Alike (t.erase key) := by
  refine ⟨h.entries_eq, ?_⟩
  intro other
  by_cases hother : other = key
  · rw [hother, head?_erase_self, head?_erase_self]
  · rw [head?_erase_ne s hother, head?_erase_ne t hother, h.head_eq]

theorem Alike.insert (h : s.Alike t) (key : κ) (ids : List EntryId) :
    (s.insert key ids).Alike (t.insert key ids) := by
  refine ⟨h.entries_eq, ?_⟩
  intro other
  by_cases hother : other = key
  · rw [hother, head?_insert_self, head?_insert_self]
  · rw [head?_insert_ne s ids hother, head?_insert_ne t ids hother, h.head_eq]

theorem Alike.tryPop [BEq α] (h : s.Alike t) (key : κ) (count : Nat)
    (f : List α → Option (List α)) :
    (s.tryPop key count f).2 = (t.tryPop key count f).2 ∧
      (s.tryPop key count f).1.Alike (t.tryPop key count f).1 := by
  have hfound : s.head key >>= s.routes key count = t.head key >>=
      t.routes key count := by
    rw [h.head, funext (routes_congr h.entries_eq key count)]
  unfold StackFamily.tryPop
  rw [hfound]
  cases t.head key >>= t.routes key count with
  | error fault => exact ⟨rfl, h⟩
  | ok found =>
      obtain ⟨htops, hreplaced⟩ := h.replace (fun w => (f w).getD [])
        (found.takeWhile fun r => (f r.values).isSome)
      dsimp only
      split
      · rw [htops]
        exact ⟨rfl, hreplaced.insert key _⟩
      · exact ⟨rfl, hreplaced⟩

theorem Alike.handTo (h : s.Alike t) (ids : List EntryId) (key : κ) :
    (∃ s' t', s.handTo ids key = .ok s' ∧ t.handTo ids key = .ok t' ∧
      s'.Alike t') ∨
      ∃ fault,
        s.handTo ids key = .error fault ∧ t.handTo ids key = .error fault := by
  have heven := isEven_congr h.entries_eq
  have hruns := depthRuns_congr h.entries_eq
  cases hhead : t.head? key with
  | none =>
      simp only [StackFamily.handTo, h.head_eq key, hhead, heven, hruns]
      split
      · exact .inl ⟨_, _, rfl, rfl, h.insert key _⟩
      · exact .inr ⟨_, rfl, rfl⟩
  | some known =>
      simp only [StackFamily.handTo, h.head_eq key, hhead, heven, hruns]
      split
      · exact .inl ⟨_, _, rfl, rfl, h.insert key _⟩
      · exact .inr ⟨_, rfl, rfl⟩

theorem Alike.handToAll (h : s.Alike t) (ids : List EntryId)
    (targets : List κ) :
    (s.handToAll ids targets).2 = (t.handToAll ids targets).2 ∧
      (s.handToAll ids targets).1.Alike (t.handToAll ids targets).1 := by
  induction targets generalizing s t with
  | nil => exact ⟨rfl, h⟩
  | cons target targets ih =>
      rw [StackFamily.handToAll, StackFamily.handToAll]
      rcases h.handTo ids target with ⟨s', t', hs, ht, hhanded⟩ |
        ⟨fault, hs, ht⟩
      · rw [hs, ht]
        exact ih hhanded
      · rw [hs, ht]
        exact ⟨rfl, h⟩

theorem Alike.split (h : s.Alike t) (key : κ) (targets : List κ) :
    (s.split key targets).2 = (t.split key targets).2 ∧
      (s.split key targets).1.Alike (t.split key targets).1 := by
  unfold StackFamily.split
  rw [h.head key]
  cases t.head key with
  | error fault => exact ⟨rfl, h⟩
  | ok ids => exact (h.erase key).handToAll ids targets

theorem Alike.foldl_erase (h : s.Alike t) (keys : List κ) :
    (keys.foldl StackFamily.erase s).Alike
      (keys.foldl StackFamily.erase t) := by
  induction keys generalizing s t with
  | nil => exact h
  | cons key keys ih => exact ih (h.erase key)

theorem Alike.perform [BEq α] (h : s.Alike t) (request : StackRequest κ α) :
    (s.perform request).2 = (t.perform request).2 ∧
      (s.perform request).1.Alike (t.perform request).1 := by
  cases request with
  | init key => exact ⟨rfl, h.insert key _⟩
  | pop key count f =>
      rw [perform_pop_eq, perform_pop_eq]
      exact h.tryPop key count _
  | split key targets =>
      obtain ⟨hanswer, hsplit⟩ := h.split key targets
      simp only [StackFamily.perform, hanswer]
      exact ⟨trivial, hsplit⟩
  | join keys target =>
      simp only [StackFamily.perform, StackFamily.join, funext h.head]
      cases keys.mapM t.head with
      | error fault => exact ⟨rfl, h⟩
      | ok heads =>
          simp only [bind, Except.bind, isEven_congr h.entries_eq,
            depthRuns_congr h.entries_eq]
          cases t.isEven (heads.foldl union []) with
          | true => exact ⟨rfl, (h.foldl_erase keys).insert target _⟩
          | false => exact ⟨rfl, h⟩
  | remove key =>
      simp only [StackFamily.perform, StackFamily.remove, h.head]
      cases t.head key with
      | error fault => exact ⟨rfl, h⟩
      | ok ids => exact ⟨rfl, h.erase key⟩

/-- Alike families answer a call alike, and stay alike. -/
theorem Alike.call [BEq α] (h : s.Alike t) (c : StackCall κ α) :
    (s.call c).2 = (t.call c).2 ∧ (s.call c).1.Alike (t.call c).1 := by
  cases c with
  | request request => exact h.perform request
  | tryPop key count f => exact h.tryPop key count f

end Alike

/-- The answers to calls, one after the other. -/
def answers [BEq α] (s : StackFamily κ α) :
    List (StackCall κ α) → List (Except (StackFault κ) (List (List α)))
  | [] => []
  | c :: calls => (s.call c).2 :: (s.call c).1.answers calls

theorem Alike.answers_eq [LawfulBEq κ] [BEq α] {s t : StackFamily κ α}
    (h : s.Alike t) (calls : List (StackCall κ α)) :
    s.answers calls = t.answers calls := by
  induction calls generalizing s t with
  | nil => rfl
  | cons c calls ih =>
      obtain ⟨hanswer, hafter⟩ := h.call c
      rw [answers, answers, hanswer, ih hafter]

/-! ## Unions of what is the same -/

theorem union_eq_left {left right : List EntryId}
    (h : ∀ id ∈ right, id ∈ left) :
    union left right = left := by
  induction right with
  | nil => rfl
  | cons id right ih =>
      rw [List.forall_mem_cons] at h
      have hstep : union left (id :: right) =
          union (if left.contains id then left else left ++ [id]) right := rfl
      rw [hstep, if_pos (List.contains_iff_mem.2 h.1)]
      exact ih h.2

theorem union_eq_append {left right : List EntryId}
    (h : (left ++ right).Nodup) :
    union left right = left ++ right := by
  induction right generalizing left with
  | nil => exact (List.append_nil left).symm
  | cons id right ih =>
      have hnew : ¬ left.contains id = true := by
        intro hold
        exact (List.nodup_append.1 h).2.2 id (List.contains_iff_mem.1 hold) id
          List.mem_cons_self rfl
      have hstep : union left (id :: right) =
          union (if left.contains id then left else left ++ [id]) right := rfl
      rw [List.append_cons] at h ⊢
      rw [hstep, if_neg hnew, ih h]

/-- Keys that have the same different entries give these to a join. -/
theorem merged_eq {s : StackFamily κ α} {keys : List κ}
    {ids : List EntryId} (hnodup : ids.Nodup) (hne : keys ≠ [])
    (h : ∀ key ∈ keys, s.head? key = some ids) :
    s.merged keys = ids := by
  obtain ⟨first, rest, rfl⟩ := List.exists_cons_of_ne_nil hne
  have hfirst : union [] ids = ids := union_eq_append hnodup
  have hrest : ∀ keys : List κ, (∀ key ∈ keys, s.head? key = some ids) →
      (keys.map fun key => (s.head? key).getD []).foldl union ids = ids := by
    intro keys hkeys
    induction keys with
    | nil => rfl
    | cons key keys ih =>
        rw [List.forall_mem_cons] at hkeys
        rw [List.map_cons, List.foldl_cons, hkeys.1, Option.getD_some,
          union_eq_left fun _ hid => hid]
        exact ih hkeys.2
  rw [List.forall_mem_cons] at h
  rw [merged, List.map_cons, List.foldl_cons, h.1, Option.getD_some, hfirst]
  exact hrest rest h.2

/-! ## There and back -/

/-- Keys that have the same different entries are joined to one that has these.
-/
theorem join_handed {s : StackFamily κ α} {ids : List EntryId}
    (hnodup : ids.Nodup) (heven : s.isEven ids = true) {keys : List κ}
    (hne : keys ≠ []) (h : ∀ key ∈ keys, s.head? key = some ids) (target : κ) :
    s.join keys target = .ok ((keys.foldl erase s).insert target ids) := by
  have hlive : ∀ key ∈ keys, s.view key ≠ none := by
    intro key hkey
    rw [view_of_head? (h key hkey)]
    exact Option.some_ne_none _
  rw [join_of_live hlive, merged_eq hnodup hne h, heven, if_pos rfl]

section Restoring

variable [LawfulBEq κ] {s : StackFamily κ α} {ids : List EntryId}

/-- Even entries are handed to keys that have none, or that have been handed
them. -/
theorem handToAll_free (heven : s.isEven ids = true)
    (targets : List κ) (hfree : ∀ target ∈ targets, s.head? target = none ∨
      s.head? target = some ids) :
    ∃ t, s.handToAll ids targets = (t, .ok ()) ∧ t.entries = s.entries ∧
      (∀ key ∈ targets, t.head? key = some ids) ∧
      ∀ key, key ∉ targets → t.head? key = s.head? key := by
  induction targets generalizing s with
  | nil => exact ⟨s, rfl, rfl, by simp, fun _ _ => rfl⟩
  | cons target targets ih =>
      have hfirst : s.handTo ids target = .ok (s.insert target ids) := by
        rcases hfree target List.mem_cons_self with hhead | hhead
        · simp only [handTo, hhead, heven, if_true]
        · simp only [handTo, hhead, union_eq_left fun _ hid => hid,
            heven, if_true]
      have hrest : ∀ key ∈ targets, (s.insert target ids).head? key = none ∨
          (s.insert target ids).head? key = some ids := by
        intro key hkey
        by_cases heq : key = target
        · exact .inr (heq ▸ head?_insert_self s target ids)
        · rw [head?_insert_ne s ids heq]
          exact hfree key (List.mem_cons_of_mem _ hkey)
      obtain ⟨t, ht, hentries, hmem, hnot⟩ :=
        ih (isEven_congr rfl ids ▸ heven) hrest
      refine ⟨t, by rw [handToAll, hfirst]; exact ht, hentries, ?_, ?_⟩
      · intro key hkey
        by_cases hlater : key ∈ targets
        · exact hmem key hlater
        · obtain rfl := (List.mem_cons.1 hkey).resolve_right hlater
          rw [hnot key hlater, head?_insert_self]
      · intro key hkey
        rw [List.mem_cons, not_or] at hkey
        rw [hnot key hkey.2, head?_insert_ne s ids hkey.1]

theorem head?_foldl_erase_not_mem {keys : List κ} {key : κ} (h : key ∉ keys) :
    (keys.foldl erase s).head? key = s.head? key := by
  induction keys generalizing s with
  | nil => rfl
  | cons first keys ih =>
      rw [List.mem_cons, not_or] at h
      rw [List.foldl_cons, ih h.2, head?_erase_ne s h.1]

theorem head?_foldl_erase_mem {keys : List κ} {key : κ} (h : key ∈ keys) :
    (keys.foldl erase s).head? key = none := by
  induction keys generalizing s with
  | nil => cases h
  | cons first keys ih =>
      by_cases hlater : key ∈ keys
      · exact ih hlater
      · obtain rfl := (List.mem_cons.1 h).resolve_right hlater
        rw [List.foldl_cons, head?_foldl_erase_not_mem hlater, head?_erase_self]

/-- **Splitting and joining back changes nothing.** In a family that calls lead
to, each of whose pops put back lists of one length, the stacks of a key can be
split to any keys that have none, the key itself among them and as often as one
likes, and joined back. Then every key has the top entries that it had, in their
order, and all calls that follow are answered as they would have been. -/
theorem split_join_restores [BEq α] (hs : s.Attained) {key : κ}
    (hkey : s.head? key = some ids) {targets : List κ} (hne : targets ≠ [])
    (hfree : ∀ target ∈ targets, target ≠ key → s.contains target = false) :
    ∃ t u, s.split key targets = (t, .ok ()) ∧ t.join targets key = .ok u ∧
      u.entries = s.entries ∧ (∀ other, u.head? other = s.head? other) ∧
      ∀ calls, u.answers calls = s.answers calls := by
  obtain ⟨hnodup, d, hrests⟩ := (tidy_of_attained hs).heads key ids hkey
  have heven : s.isEven ids = true := isEven_of_level hrests.level
  have hnone : ∀ target ∈ targets, (s.erase key).head? target = none := by
    intro target htarget
    by_cases heq : target = key
    · rw [heq, head?_erase_self]
    · rw [head?_erase_ne s heq]
      simpa [contains] using hfree target htarget heq
  obtain ⟨t, hsplit, hentries, hmem, hnot⟩ :=
    handToAll_free (s := s.erase key) (isEven_congr (entries_erase s key) ids ▸
    heven) targets fun target htarget =>
      .inl (hnone target htarget)
  have hjoin :=
    join_handed hnodup (isEven_congr hentries ids ▸ heven) hne hmem key
  have hheads : ∀ other,
      ((targets.foldl erase t).insert key ids).head? other = s.head? other := by
    intro other
    by_cases heq : other = key
    · rw [heq, head?_insert_self, hkey]
    · rw [head?_insert_ne _ ids heq]
      by_cases htarget : other ∈ targets
      · rw [head?_foldl_erase_mem htarget, ← head?_erase_ne s heq,
          hnone other htarget]
      · rw [head?_foldl_erase_not_mem htarget, hnot other htarget,
          head?_erase_ne s heq]
  have hsame :
      ((targets.foldl erase t).insert key ids).entries = s.entries := by
    rw [entries_insert, entries_foldl_erase, hentries, entries_erase]
  refine ⟨t, _, ?_, hjoin, hsame, hheads, Alike.answers_eq ⟨hsame, hheads⟩⟩
  rw [split, head, hkey]
  exact hsplit

end Restoring

/-- Two keys got a value each and were joined, beside a key without entries.
Then a pop was broken off at the second list, with a value pushed for the first
one. -/
def interrupted : StackFamily Nat Nat :=
  let root := (({} : StackFamily Nat Nat).call (.request (.init 0))).1
  let forked := (root.call (.request (.split 0 [1, 2]))).1
  let left := (forked.call (.request (.pop 1 0 fun _ => [5]))).1
  let right := (left.call (.request (.pop 2 0 fun _ => [6]))).1
  let joined := (right.call (.request (.join [1, 2] 3))).1
  let beside := (joined.call (.request (.join [] 4))).1
  (beside.call (.tryPop 3 1 fun w => if w = [5] then some [8] else none)).1

private theorem popsEvenly_of_eq {s : StackFamily Nat Nat} {key count : Nat}
    {f : List Nat → Option (List Nat)} (values : List Nat)
    (h : ∀ w a, f w = some a → a = values) : s.PopsEvenly key count f := by
  intro taken _ t _ u _ a b ha hb
  rw [h t a ha, h u b hb]

private theorem attained_interrupted : interrupted.Attained := by
  have root :=
    Attained.start.call (κ := Nat) (α := Nat) (.request (.init 0)) trivial
  have forked := root.call (.request (.split 0 [1, 2])) trivial
  have left := forked.call (.request (.pop 1 0 fun _ => [5]))
    (popsEvenly_of_eq [5] fun _ _ h => (Option.some.inj h).symm)
  have right := left.call (.request (.pop 2 0 fun _ => [6]))
    (popsEvenly_of_eq [6] fun _ _ h => (Option.some.inj h).symm)
  have joined := right.call (.request (.join [1, 2] 3)) trivial
  have beside := joined.call (.request (.join [] 4)) trivial
  refine beside.call (.tryPop 3 1 fun w => if w = [5] then some [8] else none)
    (popsEvenly_of_eq [8] ?_)
  intro w a h
  split at h
  · exact (Option.some.inj h).symm
  · cases h

/-- The stacks of a key go to itself and, twice, to another one, and come back.
-/
theorem interrupted_restored :
    interrupted.Attained ∧ interrupted.head? 3 = some [1, 2] ∧
      ∃ t u, interrupted.split 3 [5, 3, 5] = (t, .ok ()) ∧
        t.join [5, 3, 5] 3 = .ok u ∧
        u.entries = interrupted.entries ∧ u.head? 3 = some [1, 2] ∧
          u.head? 4 = some [] ∧
        u.head? 5 = none ∧
        ∀ calls, u.answers calls = interrupted.answers calls := by
  have hhead : interrupted.head? 3 = some [1, 2] := rfl
  have hfree : ∀ target ∈ [5, 3, 5],
      target ≠ 3 → interrupted.contains target = false := by
    decide
  obtain ⟨t, u, hsplit, hjoin, hentries, hheads, hanswers⟩ :=
    split_join_restores attained_interrupted hhead (List.cons_ne_nil _ _) hfree
  exact ⟨attained_interrupted, hhead,
    t, u, hsplit, hjoin, hentries, (hheads 3).trans hhead, (hheads 4).trans rfl,
    (hheads 5).trans rfl, hanswers⟩

end StackFamily

end TestCost
