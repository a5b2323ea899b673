import Mathlib.Data.List.Nodup
import TestCost.Cost.Class

/-!
# The order of a report

A report lists the most complex class first, then the one with more global
state, then goes by name. `ClassCost.precedes` compares two classes in this
way. It never leaves two classes unranked and it is transitive, so sorting
gives a list in which every class precedes all that follow.

Two classes can stand level only if they have the same name. Where names are
distinct the order is strict, and a sorted list does not depend on the order
in which its entries came.

## Main results

* `precedes_iff` — the comparison, one key after the other.
* `pairwise_sorted`, `sublist_sorted` — what sorting gives, and that it keeps
  the order of what was in order.
* `sorted_eq_of_perm` — distinct names are sorted in one way only.
-/

namespace TestCost

namespace ClassCost

variable {a b : ClassCost}

theorem precedes_iff : a.precedes b = true ↔
    b.totalComplexity < a.totalComplexity ∨
      a.totalComplexity = b.totalComplexity ∧
        (b.totalGlobals < a.totalGlobals ∨ a.totalGlobals = b.totalGlobals ∧
          a.name ≤ b.name) := by
  unfold precedes
  by_cases hcomplexity : a.totalComplexity = b.totalComplexity
  · by_cases hglobals : a.totalGlobals = b.totalGlobals
    · rw [if_neg (not_not.2 hcomplexity), if_neg (not_not.2 hglobals),
        Bool.not_eq_true', decide_eq_false_iff_not, String.not_lt]
      simp [hcomplexity, hglobals]
    · simp [hcomplexity, hglobals]
  · simp [hcomplexity]

theorem precedes_trans (a b c : ClassCost) (h : a.precedes b = true)
    (h' : b.precedes c = true) :
    a.precedes c = true := by
  rw [precedes_iff] at h h' ⊢
  rcases h with hless | ⟨hcomplexity, hrest⟩
  · exact .inl (by omega)
  · rcases h' with hless | ⟨hcomplexity', hrest'⟩
    · exact .inl (by omega)
    · refine .inr ⟨hcomplexity.trans hcomplexity', ?_⟩
      rcases hrest with hless | ⟨hglobals, hname⟩
      · exact .inl (by omega)
      · rcases hrest' with hless | ⟨hglobals', hname'⟩
        · exact .inl (by omega)
        · exact .inr ⟨hglobals.trans hglobals', String.le_trans hname hname'⟩

theorem precedes_total (a b : ClassCost) :
    (a.precedes b || b.precedes a) = true := by
  rw [Bool.or_eq_true, precedes_iff, precedes_iff]
  rcases Nat.lt_trichotomy a.totalComplexity b.totalComplexity with hless |
    hcomplexity | hless
  · exact .inr (.inl hless)
  · rcases Nat.lt_trichotomy a.totalGlobals b.totalGlobals with hless |
      hglobals | hless
    · exact .inr (.inr ⟨hcomplexity.symm, .inl hless⟩)
    · rcases String.le_total a.name b.name with hname | hname
      · exact .inl (.inr ⟨hcomplexity, .inr ⟨hglobals, hname⟩⟩)
      · exact .inr (.inr ⟨hcomplexity.symm, .inr ⟨hglobals.symm, hname⟩⟩)
    · exact .inl (.inr ⟨hcomplexity, .inl hless⟩)
  · exact .inl (.inl hless)

/-- Classes that stand level have one name. -/
theorem name_eq_of_precedes (h : a.precedes b = true)
    (h' : b.precedes a = true) :
    a.name = b.name := by
  rw [precedes_iff] at h h'
  obtain ⟨_, hrest⟩ := h.resolve_left (by omega)
  obtain ⟨_, hrest'⟩ := h'.resolve_left (by omega)
  obtain ⟨_, hname⟩ := hrest.resolve_left (by omega)
  obtain ⟨_, hname'⟩ := hrest'.resolve_left (by omega)
  exact String.le_antisymm hname hname'

/-! ## Sorting -/

theorem perm_sorted (classes : List ClassCost) :
    (sorted classes).Perm classes :=
  List.mergeSort_perm classes precedes

theorem pairwise_sorted (classes : List ClassCost) :
    (sorted classes).Pairwise fun a b => a.precedes b = true :=
  List.pairwise_mergeSort precedes_trans precedes_total classes

theorem sublist_sorted {some classes : List ClassCost}
    (hordered : some.Pairwise fun a b => a.precedes b = true)
    (h : some.Sublist classes) :
    some.Sublist (sorted classes) :=
  List.sublist_mergeSort precedes_trans precedes_total hordered h

theorem sorted_eq_of_perm {classes others : List ClassCost}
    (h : classes.Perm others) (hnames : (classes.map ClassCost.name).Nodup) :
    sorted classes = sorted others := by
  refine List.Perm.eq_of_pairwise ?_ (pairwise_sorted classes)
    (pairwise_sorted others)
    ((perm_sorted classes).trans (h.trans (perm_sorted others).symm))
  intro a b ha hb hab hba
  have hmem : b ∈ classes := h.mem_iff.2 ((perm_sorted others).mem_iff.1 hb)
  exact List.inj_on_of_nodup_map hnames ((perm_sorted classes).mem_iff.1 ha)
    hmem (name_eq_of_precedes hab hba)

end ClassCost

end TestCost
