/-!
# Computations that may fail

What is known of the parts of a computation in `Except` once the whole of it
has succeeded, or failed. Decoding, loading and symbolic execution are all
written as such computations, and every proof about their results starts by
taking them apart.

## Main results

* `exists_of_bind_eq_ok` — both parts of a sequence have succeeded.
* `mapM_eq_ok_cons_iff` — so has every step of a traversal, from which its
  length and its members follow.
* `bind_eq_error_iff`, `exists_of_mapM_eq_error`,
  `exists_of_foldlM_eq_error` — one of the parts has failed with the fault of
  the whole.
-/

namespace TestCost

variable {ε δ α β : Type}

theorem exists_of_bind_eq_ok {r : Except ε α} {f : α → Except ε β} {b : β}
    (h : r >>= f = .ok b) : ∃ a, r = .ok a ∧ f a = .ok b := by
  cases r with
  | error e => exact absurd h (by simp [bind, Except.bind])
  | ok a => exact ⟨a, rfl, h⟩

theorem bind_eq_ok {r : Except ε α} {f : α → Except ε β} {a : α} {b : β}
    (hr : r = .ok a) (hf : f a = .ok b) : r >>= f = .ok b := by
  rw [hr]
  exact hf

/-- A sequence fails by its first part, or by its second one after the first
has succeeded. -/
theorem bind_eq_error_iff {r : Except ε α} {f : α → Except ε β} {e : ε} :
    r >>= f = .error e ↔ r = .error e ∨ ∃ a, r = .ok a ∧ f a = .error e := by
  cases r with
  | error e' => simp [bind, Except.bind]
  | ok a => simp [bind, Except.bind]

theorem eq_error_of_bind_eq_error {r : Except ε α} {f : α → Except ε β} {e : ε}
    (h : r >>= f = .error e) : r = .error e ∨ ∃ a, f a = .error e := by
  rcases bind_eq_error_iff.1 h with hr | ⟨a, _, ha⟩
  · exact .inl hr
  · exact .inr ⟨a, ha⟩

theorem mapError_eq_error_iff {r : Except ε α} {f : ε → δ} {e : δ} :
    r.mapError f = .error e ↔ ∃ e', r = .error e' ∧ f e' = e := by
  cases r with
  | error e' =>
      constructor
      · intro h
        exact ⟨e', rfl, Except.error.inj h⟩
      · rintro ⟨_, ⟨⟩, rfl⟩
        rfl
  | ok a =>
      constructor
      · intro h
        cases h
      · rintro ⟨_, ⟨⟩, _⟩

theorem toOption_eq_some_iff {r : Except ε α} {a : α} :
    r.toOption = some a ↔ r = .ok a := by
  cases r with
  | error e => simp [Except.toOption]
  | ok b => simp [Except.toOption]

theorem mapError_eq_ok_iff {r : Except ε α} {f : ε → δ} {a : α} :
    r.mapError f = .ok a ↔ r = .ok a := by
  cases r with
  | error e =>
      constructor
      · intro h
        cases h
      · intro h
        cases h
  | ok b =>
      constructor
      · intro h
        exact congrArg _ (Except.ok.inj h)
      · intro h
        exact congrArg _ (Except.ok.inj h)

theorem map_eq_ok_iff {r : Except ε α} {f : α → β} {b : β} :
    r.map f = .ok b ↔ ∃ a, r = .ok a ∧ f a = b := by
  cases r with
  | error e => simp [Except.map]
  | ok a => simp [Except.map]

theorem mapM_eq_ok_cons_iff {f : α → Except ε β} {x : α} {xs : List α}
    {ys : List β} :
    (x :: xs).mapM f = .ok ys ↔
      ∃ first rest,
        f x = .ok first ∧ xs.mapM f = .ok rest ∧ ys = first :: rest := by
  rw [List.mapM_cons]
  constructor
  · intro h
    obtain ⟨first, hfirst, h⟩ := exists_of_bind_eq_ok h
    obtain ⟨rest, hrest, h⟩ := exists_of_bind_eq_ok h
    exact ⟨first, rest, hfirst, hrest, (Except.ok.inj h).symm⟩
  · rintro ⟨first, rest, hfirst, hrest, rfl⟩
    rw [hfirst, hrest]
    rfl

theorem length_of_mapM_eq_ok {f : α → Except ε β} {xs : List α} {ys : List β}
    (h : xs.mapM f = .ok ys) : ys.length = xs.length := by
  induction xs generalizing ys with
  | nil =>
      obtain rfl := Except.ok.inj h
      rfl
  | cons x xs ih =>
      obtain ⟨first, rest, _, hrest, rfl⟩ := mapM_eq_ok_cons_iff.1 h
      simp [ih hrest]

theorem exists_of_mem_mapM {f : α → Except ε β} {xs : List α} {ys : List β}
    (h : xs.mapM f = .ok ys) {y : β} (hy : y ∈ ys) : ∃ x ∈ xs, f x = .ok y := by
  induction xs generalizing ys with
  | nil =>
      obtain rfl := Except.ok.inj h
      simp at hy
  | cons x xs ih =>
      obtain ⟨first, rest, hfirst, hrest, rfl⟩ := mapM_eq_ok_cons_iff.1 h
      rcases List.mem_cons.1 hy with rfl | hmem
      · exact ⟨x, List.mem_cons_self, hfirst⟩
      · obtain ⟨x', hx', hy'⟩ := ih hrest hmem
        exact ⟨x', List.mem_cons_of_mem _ hx', hy'⟩

theorem exists_of_mapM_of_mem {f : α → Except ε β} {xs : List α} {ys : List β}
    (h : xs.mapM f = .ok ys) {x : α} (hx : x ∈ xs) : ∃ y, f x = .ok y := by
  induction xs generalizing ys with
  | nil => cases hx
  | cons first xs ih =>
      obtain ⟨y, rest, hy, hrest, rfl⟩ := mapM_eq_ok_cons_iff.1 h
      rcases List.mem_cons.1 hx with rfl | hx
      · exact ⟨y, hy⟩
      · exact ih hrest hx

theorem exists_mapM_eq_ok {f : α → Except ε β} {xs : List α}
    (h : ∀ x ∈ xs, ∃ y, f x = .ok y) :
    ∃ ys, xs.mapM f = .ok ys := by
  induction xs with
  | nil => exact ⟨[], rfl⟩
  | cons x xs ih =>
      obtain ⟨first, hfirst⟩ := h x List.mem_cons_self
      obtain ⟨rest, hrest⟩ := ih fun x' hx' => h x' (List.mem_cons_of_mem _ hx')
      exact ⟨first :: rest,
        mapM_eq_ok_cons_iff.2 ⟨first, rest, hfirst, hrest, rfl⟩⟩

theorem exists_of_mapM_eq_error {f : α → Except ε β} {xs : List α} {e : ε}
    (h : xs.mapM f = .error e) : ∃ x ∈ xs, f x = .error e := by
  induction xs with
  | nil => cases h
  | cons x xs ih =>
      rw [List.mapM_cons] at h
      rcases eq_error_of_bind_eq_error h with hfirst | ⟨_, h⟩
      · exact ⟨x, List.mem_cons_self, hfirst⟩
      · rcases eq_error_of_bind_eq_error h with hrest | ⟨_, h⟩
        · obtain ⟨y, hy, hfail⟩ := ih hrest
          exact ⟨y, List.mem_cons_of_mem _ hy, hfail⟩
        · cases h

/-- A fold that fails has succeeded up to the step that fails. -/
theorem exists_split_of_foldlM_eq_error {f : β → α → Except ε β} {xs : List α}
    {b : β} {e : ε} (h : xs.foldlM f b = .error e) :
    ∃ before x after c, xs = before ++ x :: after ∧ before.foldlM f b = .ok c ∧
      f c x = .error e := by
  induction xs generalizing b with
  | nil => cases h
  | cons x xs ih =>
      rw [List.foldlM_cons] at h
      rcases bind_eq_error_iff.1 h with hfirst | ⟨c, hc, hrest⟩
      · exact ⟨[], x, xs, b, rfl, rfl, hfirst⟩
      · obtain ⟨before, y, after, d, rfl, hd, hfail⟩ := ih hrest
        refine ⟨x :: before, y, after, d, rfl, ?_, hfail⟩
        rw [List.foldlM_cons, hc]
        exact hd

theorem exists_of_foldlM_eq_error {f : β → α → Except ε β} {xs : List α} {b : β}
    {e : ε} (h : xs.foldlM f b = .error e) :
    ∃ x ∈ xs, ∃ c, f c x = .error e := by
  obtain ⟨before, x, after, c, rfl, _, hfail⟩ :=
    exists_split_of_foldlM_eq_error h
  exact ⟨x, by simp, c, hfail⟩

/-- What every step of a fold that succeeds keeps, behind the steps before it,
the fold keeps. -/
theorem foldlM_keeps_behind {P : β → Prop} {f : β → α → Except ε β}
    {xs : List α} {b c : β} (hstep : ∀ before x after d e, xs = before ++ x ::
      after → before.foldlM f b = .ok d → P d → f d x = .ok e → P e) (hb : P b)
    (h : xs.foldlM f b = .ok c) : P c := by
  induction xs generalizing b with
  | nil => exact Except.ok.inj h ▸ hb
  | cons x xs ih =>
      rw [List.foldlM_cons] at h
      obtain ⟨mid, hmid, h⟩ := exists_of_bind_eq_ok h
      refine ih ?_ (hstep [] x xs b mid rfl rfl hb hmid) h
      intro before y after d e hxs hbefore
      apply hstep (x :: before) y after d e (by rw [hxs, List.cons_append])
      rw [List.foldlM_cons, hmid]
      exact hbefore

theorem foldlM_keeps_of_mem {P : β → Prop} {f : β → α → Except ε β}
    {xs : List α} (hstep : ∀ x ∈ xs, ∀ b c, P b → f b x = .ok c → P c) {b c : β}
    (hb : P b) (h : xs.foldlM f b = .ok c) : P c := by
  refine foldlM_keeps_behind ?_ hb h
  intro before x after d e hxs _
  exact hstep x (by simp [hxs]) d e

theorem foldlM_keeps {P : β → Prop} {f : β → α → Except ε β}
    (hstep : ∀ b x c, P b → f b x = .ok c → P c) {xs : List α} {b c : β}
    (hb : P b) (h : xs.foldlM f b = .ok c) : P c :=
  foldlM_keeps_of_mem (fun x _ b c => hstep b x c) hb h

end TestCost
