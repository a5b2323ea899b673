import TestCost.Analysis.Visit
import TestCost.Proofs.Repository

/-!
# Walks up the superclasses

A call names a class that need not declare the method: the method is looked for
in that class, then in its superclass, and so on. `ClassSource.Walk` is that
search without a bound on its length, together with the names that are asked for
on the way. `Analysis.resolve` bounds it by the number of files.

Where no class is its own ancestor the bound is never met. A class that a walk
has passed does not come up again: its superclass would be its own ancestor. The
classes of a walk are therefore distinct, and a source does not have more of
them than files, whatever names it gives them under.

## Main results

* `ClassSource.Walk.unique` — a walk is determined by where it starts.
* `Analysis.asks_resolve`, `Analysis.walk_resolve` — without cycles, `resolve`
  asks and answers as the walk.
* `Analysis.exists_load_of_resolve` — with or without, the class that it finds
  is one of the source.
-/

namespace TestCost

namespace ClassSource

/-- The class of the first name has the class of the second one as its
superclass. -/
def Parent (s : ClassSource) (name parent : String) : Prop :=
  ∃ c p, s.load name = .ok c ∧ c.superName = some p ∧
    parent = ClassName.dotted p

/-- No class is its own ancestor. -/
def Acyclic (s : ClassSource) : Prop :=
  ∀ name, ¬ Relation.TransGen s.Parent name name

/-- There is no cycle where a superclass that can be loaded has none of its own.
A way back to the start would begin at the superclass. -/
theorem acyclic_of_shallow
    {s : ClassSource} (h : ∀ c ∈ s.classes, ∀ p, c.superName = some p →
      ∀ d, s.load (ClassName.dotted p) = .ok d → d.superName = none) :
    s.Acyclic := by
  intro name hcycle
  obtain ⟨parent, ⟨c, p, hload, hparent, rfl⟩, hpath⟩ :=
    Relation.TransGen.head'_iff.1 hcycle
  rcases Relation.ReflTransGen.cases_head hpath with heq |
    ⟨_, ⟨d, _, hload', hsuper, _⟩, _⟩
  · have hnone := h c (mem_classes hload) p hparent c (heq ▸ hload)
    cases hnone.symm.trans hparent
  · have hnone := h c (mem_classes hload) p hparent d hload'
    cases hnone.symm.trans hsuper

/-- There is no cycle where no superclass can be loaded. -/
theorem acyclic_of_orphans {s : ClassSource} (h : ∀ c ∈ s.classes, ∀ p,
      c.superName = some p → ∀ d, s.load (ClassName.dotted p) ≠ .ok d) :
    s.Acyclic :=
  acyclic_of_shallow fun c hc p hp d hd => absurd hd (h c hc p hp d)

/-- The search for a method that starts at the class of a name: the names
that are asked for, in order, and what comes of it. -/
inductive Walk (s : ClassSource) (w : Whitelist) (signature : String) :
    String → List String → Except LoadFault (Option ClassModel) → Prop where
  | broken {name : String} {fault : LoadFault} :
      s.load (ClassName.dotted name) = .error fault →
      Walk s w signature name [ClassName.dotted name] (.error fault)
  | found {name : String} {c : ClassModel} :
      s.load (ClassName.dotted name) = .ok c →
        (c.method? signature).isSome = true →
      Walk s w signature name [ClassName.dotted name] (.ok (some c))
  | ended {name : String} {c : ClassModel} :
      s.load (ClassName.dotted name) = .ok c →
        (c.method? signature).isSome = false →
      (∀ parent, c.superName = some parent → w.covers parent = true) →
      Walk s w signature name [ClassName.dotted name] (.ok none)
  | up {name parent : String} {c : ClassModel} {asked : List String}
      {answer : Except LoadFault (Option ClassModel)} :
      s.load (ClassName.dotted name) = .ok c →
        (c.method? signature).isSome = false →
      c.superName = some parent → w.covers parent = false →
      Walk s w signature parent asked answer →
      Walk s w signature name (ClassName.dotted name :: asked) answer

variable {s : ClassSource} {w : Whitelist} {signature : String}

theorem Walk.unique {name : String} {asked asked' : List String}
    {answer answer' : Except LoadFault (Option ClassModel)}
    (h : s.Walk w signature name asked answer)
    (h' : s.Walk w signature name asked' answer') :
    asked = asked' ∧ answer = answer' := by
  induction h generalizing asked' answer' with
  | broken hload =>
      cases h' with
      | broken hload' => simp_all
      | found hload' _ | ended hload' _ _ | up hload' _ _ _ _ =>
          simp [hload] at hload'
  | found hload hfound =>
      cases h' with
      | broken hload' => simp [hload] at hload'
      | found hload' _ => simp_all
      | ended hload' hnone _ | up hload' hnone _ _ _ => simp_all
  | ended hload hnone hlast =>
      cases h' with
      | broken hload' => simp [hload] at hload'
      | found hload' hfound => simp_all
      | ended hload' _ _ => simp_all
      | up hload' _ hsuper hcovers _ =>
          obtain rfl := Except.ok.inj (hload.symm.trans hload')
          simp [hlast _ hsuper] at hcovers
  | up hload hnone hsuper hcovers _ ih =>
      cases h' with
      | broken hload' => simp [hload] at hload'
      | found hload' hfound => simp_all
      | ended hload' _ hlast =>
          obtain rfl := Except.ok.inj (hload.symm.trans hload')
          simp [hlast _ hsuper] at hcovers
      | up hload' _ hsuper' _ hwalk =>
          obtain rfl := Except.ok.inj (hload.symm.trans hload')
          obtain rfl := Option.some.inj (hsuper.symm.trans hsuper')
          obtain ⟨rfl, rfl⟩ := ih hwalk
          exact ⟨rfl, rfl⟩

/-- A walk that fails ends with the class that could not be loaded. -/
theorem Walk.exists_last {name : String} {names : List String}
    {fault : LoadFault} (h : s.Walk w signature name names (.error fault)) :
    ∃ before last, names = before ++ [last] ∧ s.load last = .error fault := by
  generalize hanswer : Except.error fault = answer at h
  induction h with
  | broken hload =>
      obtain rfl := Except.error.inj hanswer
      exact ⟨[], _, rfl, hload⟩
  | found | ended => cases hanswer
  | up _ _ _ _ _ ih =>
      obtain ⟨before, last, rfl, hload⟩ := ih hanswer
      exact ⟨_ :: before, last, rfl, hload⟩

end ClassSource

namespace Analysis

variable {w : Whitelist} {signature : String} {r : Repository}

/-! ## One step of a search -/

/-- What a search with steps left can do: fail, find the method, end, or go on
with the superclass. -/
theorem resolveWithin_succ (w : Whitelist) (signature : String) (steps : Nat)
    (r : Repository) (name : String) :
    (∃ fault, (r.get name).2 = .error fault ∧
      resolveWithin w signature (steps + 1) r name =
        ((r.get name).1, .error fault)) ∨
    (∃ c, (r.get name).2 = .ok c ∧ (c.method? signature).isSome = true ∧
      resolveWithin w signature (steps + 1) r name =
        ((r.get name).1, .ok (some c))) ∨
    (∃ c, (r.get name).2 = .ok c ∧ (c.method? signature).isSome = false ∧
      (∀ parent, c.superName = some parent → w.covers parent = true) ∧
      resolveWithin w signature (steps + 1) r name =
        ((r.get name).1, .ok none)) ∨
    (∃ c parent, (r.get name).2 = .ok c ∧ (c.method? signature).isSome = false ∧
      c.superName = some parent ∧ w.covers parent = false ∧
      resolveWithin w signature (steps + 1) r name =
        resolveWithin w signature steps (r.get name).1 parent) := by
  rw [resolveWithin]
  rcases hget : r.get name with ⟨r', fault | c⟩
  · exact .inl ⟨fault, rfl, rfl⟩
  · cases hmethod : (c.method? signature).isSome with
    | true => exact .inr (.inl ⟨c, rfl, hmethod, by simp [hmethod]⟩)
    | false =>
        cases hsuper : c.superName with
        | none =>
            exact .inr (.inr (.inl ⟨c, rfl, hmethod, by simp [hsuper],
              by simp [hmethod, hsuper]⟩))
        | some parent =>
            cases hcovers : w.covers parent with
            | true =>
                exact .inr (.inr (.inl ⟨c, rfl, hmethod, by
                  simp [hsuper, hcovers], by simp [hmethod, hsuper, hcovers]⟩))
            | false =>
                exact .inr (.inr (.inr ⟨c, parent, rfl, hmethod, hsuper,
                  hcovers, by simp [hmethod, hsuper, hcovers]⟩))

/-- What asking for a class keeps, a search keeps. -/
theorem resolveWithin_keeps {P : Repository → Prop}
    (hget : ∀ r name, P r → P (r.get name).1) (steps : Nat) (h : P r)
    (name : String) : P (resolveWithin w signature steps r name).1 := by
  induction steps generalizing r name with
  | zero => exact h
  | succ steps ih =>
      have hnext := hget r name h
      rcases resolveWithin_succ w signature steps r name with
        ⟨_, _, hstep⟩ | ⟨_, _, _, hstep⟩ | ⟨_, _, _, _, hstep⟩ |
          ⟨_, parent, _, _, _, _, hstep⟩
      · rwa [hstep]
      · rwa [hstep]
      · rwa [hstep]
      · rw [hstep]
        exact ih hnext parent

/-! ## Searches are walks -/

/-- The invariant is on the classes that the search has passed: they are
distinct, and the superclass of each is where the search is now, or one of its
descendants. The names of the walk are what the repository is asked for. -/
theorem walk_resolveWithin {s : ClassSource} (hacyclic : s.Acyclic)
    (hr : r.Faithful) (hsource : r.source = s) {passed : List ClassModel}
    (hnodup : passed.Nodup) (hpassed : passed ⊆ s.classes) {name : String}
    (hleads : ∀ c ∈ passed, ∃ p, c.superName = some p ∧ Relation.ReflTransGen
      s.Parent (ClassName.dotted p) (ClassName.dotted name)) {steps : Nat}
    (hsteps : s.size < steps + passed.length) :
    ∃ asked,
      s.Walk w signature name asked (resolveWithin w signature steps r name).2 ∧
      (resolveWithin w signature steps r name).1 =
        asked.foldl Repository.ask r := by
  induction steps generalizing r passed name with
  | zero =>
      have hlength :=
        (hnodup.length_le_of_subset hpassed).trans s.length_classes_le
      omega
  | succ steps ih =>
      have hload := hr.get_eq name
      rw [hsource] at hload
      have hask : r.ask (ClassName.dotted name) = (r.get name).1 :=
        congrArg Prod.fst (r.get_dotted name)
      rcases resolveWithin_succ w signature steps r name with
        ⟨fault, hget, hstep⟩ | ⟨c, hget, hfound, hstep⟩ |
          ⟨c, hget, hnone, hlast, hstep⟩ |
        ⟨c, parent, hget, hnone, hsuper, hcovers, hstep⟩
      · rw [hstep]
        exact ⟨_, .broken (hload.symm.trans hget), hask.symm⟩
      · rw [hstep]
        exact ⟨_, .found (hload.symm.trans hget) hfound, hask.symm⟩
      · rw [hstep]
        exact ⟨_, .ended (hload.symm.trans hget) hnone hlast, hask.symm⟩
      · rw [hget] at hload
        have hparent : s.Parent (ClassName.dotted name)
            (ClassName.dotted parent) := ⟨c, parent, hload.symm, hsuper, rfl⟩
        have hfresh : c ∉ passed := by
          intro hmem
          obtain ⟨p, hp, hpath⟩ := hleads c hmem
          obtain rfl := Option.some.inj (hsuper.symm.trans hp)
          exact hacyclic _ (Relation.TransGen.tail' hpath hparent)
        have hnext : ∀ d ∈ c :: passed, ∃ p, d.superName = some p ∧
            Relation.ReflTransGen s.Parent (ClassName.dotted p)
              (ClassName.dotted parent) := by
          intro d hd
          rcases List.mem_cons.1 hd with rfl | hd
          · exact ⟨parent, hsuper, .refl⟩
          · obtain ⟨p, hp, hpath⟩ := hleads d hd
            exact ⟨p, hp, hpath.tail hparent⟩
        obtain ⟨asked, hwalk, hasked⟩ := ih (hr.get name)
          ((r.source_get name).trans hsource) (List.nodup_cons.2 ⟨hfresh,
          hnodup⟩) (List.cons_subset.2 ⟨ClassSource.mem_classes hload.symm,
          hpassed⟩) hnext (by rw [List.length_cons]; omega)
        rw [hstep]
        refine ⟨_, .up hload.symm hnone hsuper hcovers hwalk, ?_⟩
        rw [hasked, List.foldl_cons, hask]

theorem exists_load_of_resolveWithin
    (hr : r.Faithful) {steps : Nat} {name : String} {c : ClassModel}
    (h : (resolveWithin w signature steps r name).2 = .ok (some c)) :
    ∃ found, r.source.load found = .ok c := by
  induction steps generalizing r name with
  | zero => cases h
  | succ steps ih =>
      have hload := hr.get_eq name
      rcases resolveWithin_succ w signature steps r name with
        ⟨_, _, hstep⟩ | ⟨d, hget, _, hstep⟩ | ⟨_, _, _, _, hstep⟩ |
          ⟨_, parent, _, _, _, _, hstep⟩
      · rw [hstep] at h
        cases h
      · rw [hstep] at h
        obtain rfl := Option.some.inj (Except.ok.inj h)
        exact ⟨_, hload.symm.trans hget⟩
      · rw [hstep] at h
        cases h
      · rw [hstep] at h
        have hfound := ih (hr.get name) h
        rwa [r.source_get name] at hfound

/-! ## Resolving a call -/

variable {a : Analysis}

theorem resolve_eq (a : Analysis) (owner signature : String) :
    a.resolve owner signature =
      ({ a with repository := (resolveWithin a.whitelist signature
        (a.repository.source.size + 1)
          a.repository owner).1 },
        (resolveWithin a.whitelist signature (a.repository.source.size +
          1) a.repository owner).2) :=
  rfl

/-- What asking for a class keeps, resolving a call keeps. -/
theorem resolve_keeps {P : Repository → Prop}
    (hget : ∀ r name, P r → P (r.get name).1) (h : P a.repository)
    (owner signature : String) :
    P (a.resolve owner signature).1.repository := by
  rw [resolve_eq]
  exact resolveWithin_keeps hget _ h owner

@[simp] theorem source_resolve (a : Analysis) (owner signature : String) :
    (a.resolve owner signature).1.repository.source = a.repository.source :=
  resolve_keeps (P := fun r => r.source = a.repository.source)
    (fun r name h => (r.source_get name).trans h) rfl owner signature

theorem faithful_resolve (h : a.repository.Faithful)
    (owner signature : String) :
    (a.resolve owner signature).1.repository.Faithful :=
  resolve_keeps (fun _ name h => h.get name) h owner signature

theorem asks_resolve (hacyclic : a.repository.source.Acyclic)
    (h : a.repository.Faithful) (owner signature : String) :
    ∃ asked, a.repository.source.Walk a.whitelist signature owner asked
        (a.resolve owner signature).2 ∧
      (a.resolve owner signature).1.repository =
        asked.foldl Repository.ask a.repository := by
  rw [resolve_eq]
  exact walk_resolveWithin hacyclic h rfl List.nodup_nil (List.nil_subset _)
    (by simp) (Nat.lt_succ_self _)

theorem walk_resolve (hacyclic : a.repository.source.Acyclic)
    (h : a.repository.Faithful) (owner signature : String) :
    ∃ asked, a.repository.source.Walk a.whitelist signature owner asked
      (a.resolve owner signature).2 := by
  obtain ⟨asked, hwalk, _⟩ := asks_resolve hacyclic h owner signature
  exact ⟨asked, hwalk⟩

theorem exists_load_of_resolve
    (h : a.repository.Faithful) {owner signature : String} {c : ClassModel}
    (hc : (a.resolve owner signature).2 = .ok (some c)) :
    ∃ name, a.repository.source.load name = .ok c := by
  rw [resolve_eq] at hc
  exact exists_load_of_resolveWithin h hc

end Analysis

end TestCost
