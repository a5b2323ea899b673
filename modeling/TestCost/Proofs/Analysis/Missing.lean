import TestCost.Proofs.Analysis.ClassRun

/-!
# Classes that could not be loaded

A call whose class or one of its superclasses cannot be loaded is given up,
and a class is told of: once in the result and once in the log, however many
calls are given up because of it.

Which class that is depends on the fault. If a class is not there, the fault
names it, and it is the one told of. Any other fault is put down to the class
that the call names, although the walk may have passed it and failed further
up. The list is therefore not always that of the classes that could not be
loaded: it has the subclass in place of a broken superclass.

## Main results

* `Quiet` — what neither tells of a class nor warns.
* `told_preserved` — every step keeps the account of the classes told of.
* `missing_classes_told_once` — the account of a run.
-/

namespace TestCost

namespace Repository

/-- The warnings in the log. -/
def warnings (r : Repository) : List LogEvent :=
  r.log.toList.filter fun event => event.level = .warn

theorem warnings_note (r : Repository) (event : LogEvent) :
    (r.note event).warnings = r.warnings ++ if event.level = .warn then [event]
      else [] := by
  simp [warnings, note, List.filter_cons]

theorem warnings_get (r : Repository) (name : String) :
    (r.get name).1.warnings = r.warnings := by
  unfold get
  dsimp only
  split
  · rfl
  · split
    · rfl
    · rw [warnings_note]
      simp [LogEvent.level, warnings]

end Repository

/-- A class that a call is given up for, as the result shows it. -/
def MissingClass.of (entry : String × LoadFault) : MissingClass :=
  { name := entry.1, reason := entry.2.message }

/-- The warning about a class that a call is given up for. -/
def LogEvent.dependency (analysed : String) (entry : String × LoadFault) :
    LogEvent :=
  match entry.2 with
  | .notFound _ => .dependencyMissing analysed entry.1
  | fault => .dependencyBroken analysed entry.1 fault

theorem LogEvent.level_dependency (analysed : String)
    (entry : String × LoadFault) :
    (dependency analysed entry).level = .warn := by
  unfold dependency
  split <;> rfl

/-- The statement is a call that is given up, and the class told of: the one
that could not be loaded when it is not there, else the one that the call
names. -/
def Moment.Blames (x : Moment) (name : String) : Prop :=
  ∃ call before last fault, x.statement = .invoke call ∧
    x.state.Fails call (before ++ [last]) fault ∧
    name = if fault.missingClass?.isSome then last else call.owner

namespace Analysis

variable {a b c : Analysis}

/-! ## Steps that tell nothing -/

/-- No class is told of, and there is no warning. -/
structure Quiet (a b : Analysis) : Prop where
  missing : b.missing = a.missing
  warnings : b.repository.warnings = a.repository.warnings

theorem Quiet.trans (h : Quiet a b) (h' : Quiet b c) : Quiet a c :=
  ⟨h'.missing.trans h.missing, h'.warnings.trans h.warnings⟩

theorem FactsOnly.quiet (h : FactsOnly a b) : Quiet a b :=
  ⟨h.missing, by rw [h.repository]⟩

theorem quiet_putField (a : Analysis) (writer : NodeId) (line : Nat)
    (receiver : Option Variable) (target : Field) (value : Variable) :
    Quiet a (a.putField writer line receiver target value) := by
  have hassign := (factsOnly_assign a (.field target) value).quiet
  unfold putField
  dsimp only
  split
  · exact hassign.trans ⟨rfl, rfl⟩
  · exact hassign

theorem quiet_putElement (a : Analysis) (writer : NodeId) (line : Nat)
    (array value : Variable) :
    Quiet a (a.putElement writer line array value) := by
  have hassign := (factsOnly_assign a array value).quiet
  unfold putElement
  dsimp only
  split
  · exact hassign.trans ⟨rfl, rfl⟩
  · exact hassign

theorem quiet_enqueue (a : Analysis) (c : ClassModel) (m : Method) :
    Quiet a (a.enqueue c m).1 := by
  unfold enqueue
  split <;> exact ⟨rfl, rfl⟩

theorem quiet_begin (a : Analysis) (op : Operation) : Quiet a (a.begin op) := by
  cases op with
  | setInjectable v => exact (factsOnly_setInjectable a v).quiet
  | setMethodInjectable m => exact (factsOnly_setMethodInjectable a m).quiet
  | assign target source => exact (factsOnly_assign a target source).quiet
  | putField writer line receiver target value =>
      exact quiet_putField a writer line receiver target value
  | putElement writer line array value =>
      exact quiet_putElement a writer line array value
  | addCall caller line callee => exact ⟨rfl, rfl⟩
  | visit c m => exact quiet_enqueue a c m

theorem quiet_opened (a : Analysis) (m : Method) : Quiet a (a.opened m) := by
  refine ⟨rfl, ?_⟩
  show (a.repository.note _).warnings = a.repository.warnings
  rw [Repository.warnings_note]
  simp [LogEvent.level]

theorem quiet_asked (a : Analysis) (call : Invocation) :
    Quiet a (a.asked call) := by
  unfold asked
  split
  · exact ⟨rfl, rfl⟩
  · exact ⟨rfl, resolve_keeps (P := fun r => r.warnings = a.repository.warnings)
      (fun r name h => (r.warnings_get name).trans h) rfl _ _⟩

/-! ## Steps that tell of a class -/

/-- The class that a call is given up for, with the fault. -/
def given? (a : Analysis) : Statement → Option (String × LoadFault)
  | .invoke call =>
    (a.fault? call).map fun fault =>
      (fault.missingClass?.getD call.owner, fault)
  | _ => none

/-- Tell of a class, unless that has been done. -/
def tell (a : Analysis) (entry : String × LoadFault) : Analysis :=
  if entry.1 ∈ a.missing.map MissingClass.name then a
  else
    { a.note (.dependency a.className entry) with
      missing := a.missing ++ [.of entry] }

theorem reportMissing_eq (a : Analysis) (owner : String) (fault : LoadFault) :
    a.reportMissing owner fault =
      a.tell (fault.missingClass?.getD owner, fault) := by
  have hknown : ∀ name, (a.missing.any fun m => m.name == name) = true ↔
      name ∈ a.missing.map MissingClass.name := by
    intro name
    simp
  unfold reportMissing tell
  dsimp only
  simp only [hknown]
  split
  · rfl
  · cases fault <;> rfl

/-- A statement tells of the class that it is given up for, if any. -/
theorem apply_tells (node : NodeId) (a : Analysis) (s : Statement) :
    (a.given? s = none ∧ Quiet a (apply node a s)) ∨
    ∃ entry b, a.given? s = some entry ∧ Quiet a b ∧ Grows a [] b ∧
      apply node a s = b.tell entry := by
  cases s with
  | assign line target value =>
      exact .inl ⟨rfl, (factsOnly_assign a target value).quiet⟩
  | putField line receiver target value =>
      exact .inl ⟨rfl, quiet_putField a node line receiver target value⟩
  | putElement line array index value =>
      exact .inl ⟨rfl, quiet_putElement a node line array value⟩
  | invoke call =>
      have hasked := a.quiet_asked call
      rcases a.invoke_cases node call with
        ⟨fault, hfault, _, h⟩ | ⟨c, m, hfault, _, h⟩ | ⟨hfault, _, h⟩
      · refine .inr ⟨(fault.missingClass?.getD call.owner, fault), a.asked call,
          ?_, hasked, a.grows_asked call, ?_⟩
        · simp only [given?, hfault, Option.map_some]
        · show a.invoke node call = _
          rw [h, reportMissing_eq]
      · refine .inl ⟨by simp only [given?, hfault, Option.map_none], ?_⟩
        show Quiet a (a.invoke node call)
        rw [h]
        exact (hasked.trans ((a.asked call).factsOnly_passArguments m
          call).quiet).trans ((quiet_enqueue _ c m).trans ⟨rfl, rfl⟩)
      · refine .inl ⟨by simp only [given?, hfault, Option.map_none], ?_⟩
        show Quiet a (a.invoke node call)
        rw [h]
        exact hasked

theorem blames_iff {x : Moment} (hacyclic : x.state.repository.source.Acyclic)
    (hfaithful : x.state.repository.Faithful) (name : String) :
    x.Blames name ↔ ∃ fault,
      x.state.given? x.statement = some (name, fault) := by
  have hnamed : ∀ {call : Invocation} {before : List String} {last : String}
      {fault : LoadFault},
      x.state.Fails call (before ++ [last]) fault →
      (if fault.missingClass?.isSome then last else call.owner) =
        fault.missingClass?.getD call.owner := by
    intro call before last fault hfails
    obtain ⟨before', last', hnames, hload⟩ := hfails.walk.exists_last
    obtain ⟨_, heq⟩ := List.append_inj' hnames rfl
    obtain rfl := List.singleton_inj.1 heq
    rcases ClassSource.missingClass?_of_load hload with hnone | hsome
    · simp [hnone]
    · simp [hsome]
  unfold Moment.Blames
  cases hstatement : x.statement with
  | invoke call =>
      simp only [given?, Option.map_eq_some_iff]
      constructor
      · rintro ⟨call', before, last, fault, hcall, hfails, rfl⟩
        obtain rfl := Statement.invoke.inj hcall
        exact ⟨fault, fault, (fails_iff hacyclic hfaithful).1 ⟨_, hfails⟩,
          by rw [hnamed hfails]⟩
      · rintro ⟨fault, fault', hfault, heq⟩
        obtain ⟨names, hfails⟩ := (fails_iff hacyclic hfaithful).2 hfault
        obtain ⟨before, last, rfl, _⟩ := hfails.walk.exists_last
        exact ⟨call, before, last, fault', rfl, hfails, by
          rw [hnamed hfails]
          exact (congrArg Prod.fst heq).symm⟩
  | assign | putField | putElement => simp [given?]

/-! ## The account of a run -/

/-- The classes told of since a run began, each once, in the result as in
the log; they are those that calls were given up for. -/
structure Told (r : Repository) (className : String) (past : History)
    (a : Analysis) : Prop where
  className_eq : a.className = className
  account : ∃ told : List (String × LoadFault), (told.map Prod.fst).Nodup ∧
    a.missing = told.map .of ∧
    a.repository.warnings = r.warnings ++ told.map (.dependency className) ∧
    ∀ name, name ∈ told.map Prod.fst ↔ ∃ x ∈ past.moments, x.Blames name

variable {r : Repository} {className : String} {past next : History}

theorem told_empty (r : Repository) (w : Whitelist) (className : String) :
    Told r className {} { repository := r, whitelist := w, className } where
  className_eq := rfl
  account := ⟨[], List.nodup_nil, rfl, (List.append_nil _).symm, by simp⟩

theorem Told.quiet (h : Told r className past a) (hquiet : Quiet a b)
    (hname : b.className = a.className)
    (hblames : ∀ name, (∃ x ∈ next.moments, x.Blames name) ↔
      ∃ x ∈ past.moments, x.Blames name) :
    Told r className next b := by
  obtain ⟨told, hnodup, hmissing, hwarnings, hnames⟩ := h.account
  exact ⟨hname.trans h.className_eq, told, hnodup,
    hquiet.missing.trans hmissing, hquiet.warnings.trans hwarnings,
    fun name => (hnames name).trans (hblames name).symm⟩

theorem Told.tell (h : Told r className past a) (entry : String × LoadFault)
    (hblames : ∀ name, (∃ x ∈ next.moments, x.Blames name) ↔
      (∃ x ∈ past.moments, x.Blames name) ∨ name = entry.1) :
    Told r className next (a.tell entry) := by
  obtain ⟨told, hnodup, hmissing, hwarnings, hnames⟩ := h.account
  have hlisted : a.missing.map MissingClass.name = told.map Prod.fst := by
    rw [hmissing, List.map_map]
    rfl
  unfold Analysis.tell
  rw [hlisted]
  split
  · next hknown =>
    refine ⟨h.className_eq, told, hnodup, hmissing, hwarnings, ?_⟩
    intro name
    rw [hblames, ← hnames]
    constructor
    · exact .inl
    · rintro (hname | rfl)
      · exact hname
      · exact hknown
  · next hnew =>
    refine ⟨h.className_eq, told ++ [entry], ?_, ?_, ?_, ?_⟩
    · rw [List.map_append]
      exact List.nodup_append.2 ⟨hnodup, List.nodup_singleton _, by
        rintro name hname _ hentry rfl
        exact hnew (List.mem_singleton.1 hentry ▸ hname)⟩
    · simp [hmissing]
    · show (a.repository.note _).warnings = _
      rw [Repository.warnings_note, LogEvent.level_dependency, if_pos rfl,
        hwarnings, h.className_eq]
      simp
    · intro name
      rw [hblames, ← hnames]
      simp

theorem told_preserved {allowed : Operation → Prop} {w : Whitelist}
    (hacyclic : r.source.Acyclic) :
    Preserves allowed fun past a =>
      Over r.source w a ∧ Told r className past a := by
  refine over_preserved.and ?_
  constructor
  case operation =>
    intro past a op _ _ h
    exact h.quiet (a.quiet_begin op) (a.grows_begin op).className fun _ =>
      Iff.rfl
  case skip =>
    intro past a c signature rest _ h _ _
    exact h.quiet ⟨rfl, rfl⟩ rfl fun _ => Iff.rfl
  case turn =>
    intro past a c signature rest m _ h _ _
    have hquiet := quiet_opened (a.withQueue rest) m
    exact h.quiet ⟨hquiet.missing, hquiet.warnings⟩ rfl fun _ => Iff.rfl
  case moment =>
    intro past t x hover h _ _
    have hblames := blames_iff (hover.source ▸ hacyclic) hover.faithful
    rcases apply_tells x.node x.state x.statement with
      ⟨hnone, hquiet⟩ | ⟨entry, b, hsome, hquiet, hasked, heq⟩
    · refine h.quiet hquiet
        (grows_apply x.node x.state x.statement).className ?_
      intro name
      simp only [List.mem_append, List.mem_singleton, or_and_right, exists_or,
        exists_eq_left, hblames, hnone]
      simp
    · rw [heq]
      have hbefore : Told r className past b :=
        h.quiet hquiet hasked.className fun _ => Iff.rfl
      apply hbefore.tell entry
      intro name
      simp only [List.mem_append, List.mem_singleton, or_and_right, exists_or,
        exists_eq_left, hblames, hsome]
      obtain ⟨told, fault⟩ := entry
      simp [eq_comm]

end Analysis

/-- Of a run over a source without cycles: the missing classes are distinct,
there is a warning for each and no other, and they are the classes told of by
the calls that were given up. -/
theorem missing_classes_told_once {r r' : Repository} (hfaithful : r.Faithful)
    (hacyclic : r.source.Acyclic) {w : Whitelist} {name : String}
    {cost : ClassCost} (h : r.classCost w name = (r', .ok cost)) :
    ∃ c turns a, ∃ told : List (String × LoadFault),
      r.source.load (ClassName.dotted name) = .ok c ∧
        ClassRun (r.get name).1 w c turns a ∧
      cost.missing = told.map .of ∧
      (told.map Prod.fst).Nodup ∧
      r'.warnings = r.warnings ++ told.map (.dependency c.name) ∧
      ∀ missing, missing ∈ told.map Prod.fst ↔
        ∃ x ∈ turns.flatMap Turn.moments, ∃ call before last fault,
          x.statement = .invoke call ∧
            x.state.Fails call (before ++ [last]) fault ∧
          missing = if fault.missingClass?.isSome then last
            else call.owner := by
  obtain ⟨c, turns, a, ids, hload, hrun, rfl, rfl, _⟩ :=
    Repository.exists_classRun hfaithful h
  have hacyclic' : (r.get name).1.source.Acyclic := by rwa [r.source_get]
  obtain ⟨⟨past, hpast, _, htold⟩, _⟩ :=
    (Analysis.told_preserved (w := w) hacyclic').classRun
      ⟨Analysis.over_empty (hfaithful.get name) w c.name,
        Analysis.told_empty _ w c.name⟩ hrun
  obtain ⟨told, hnodup, hmissing, hwarnings, hnames⟩ := htold.account
  refine ⟨c, turns, a, told, hload, hrun, hmissing, hnodup, ?_, ?_⟩
  · rw [Repository.warnings_note, hwarnings, r.warnings_get]
    simp [LogEvent.level]
  · rw [← hpast]
    exact hnames

/-! ## A broken superclass -/

namespace BrokenParent

/-- `p.A`, whose static method `run` calls `foo` of `p.B`. -/
def callerBytes : Bytes :=
  #[202, 254, 186, 190, 0, 0, 0, 52, 0, 11, 1, 0, 3, 112, 47, 65, 7, 0, 1, 1, 0,
    3, 112, 47, 66,
    7, 0, 3, 1, 0, 3, 102, 111, 111, 1, 0, 3, 40, 41, 86, 12, 0, 5, 0, 6, 10, 0,
      4, 0, 7, 1, 0,
    3, 114, 117, 110, 1, 0, 4, 67, 111, 100, 101, 0, 33, 0, 2, 0, 0, 0, 0, 0, 0,
      0, 1, 0, 9, 0,
    9, 0, 6, 0, 1, 0, 10, 0, 0, 0, 16, 0, 8, 0, 8, 0, 0, 0, 4, 184, 0, 8, 177,
      0, 0, 0, 0, 0, 0]

/-- `p.B`, which extends `p.C` and declares nothing. -/
def childBytes : Bytes :=
  #[202, 254, 186, 190, 0, 0, 0, 52, 0, 5, 1, 0, 3, 112, 47, 66, 7, 0, 1, 1, 0,
    3, 112, 47, 67,
    7, 0, 3, 0, 33, 0, 2, 0, 4, 0, 0, 0, 0, 0, 0, 0, 0]

/-- The file of `p.C` is no class file. -/
def repository : Repository where
  source := .table [("p.A", callerBytes), ("p.B", childBytes), ("p.C", #[0])]

def callerFile : ClassFile where
  pool := #[.empty, .utf8 "p/A", .classRef 1, .utf8 "p/B", .classRef 3,
    .utf8 "foo", .utf8 "()V",
    .nameAndType 5 6, .methodRef 4 7, .utf8 "run", .utf8 "Code"]
  thisClass := 2
  superClass := 0
  fields := []
  methods :=
    [{ access := 9, name := 9, descriptor := 6
       attributes :=
         [.code { code := #[184, 0, 8, 177], handlers := [], tables := [] }] }]

def caller : ClassModel where
  name := "p.A"
  superName := none
  fields := []
  methods :=
    [{ owner := "p.A", name := "run", descriptor := "()V",
       visibility := .publicAccess
       isStatic := true, receiver := none, parameters := [], locals :=
         [], complexity := 1
       startingLine := 0
       statements :=
        [.invoke
          { line := 0, owner := "p.B", name := "foo", descriptor := "()V"
            receiver := none, arguments := [] }] }]

def childFile : ClassFile where
  pool := #[.empty, .utf8 "p/B", .classRef 1, .utf8 "p/C", .classRef 3]
  thisClass := 2
  superClass := 4
  fields := []
  methods := []

def child : ClassModel :=
  { name := "p.B", superName := some "p.C", fields := [], methods := [] }

theorem parse_caller (requested : String) :
    ClassModel.parse requested callerBytes = .ok caller := by
  have hfile : (ClassFile.parse callerBytes).toOption = some callerFile := by
    decide +kernel
  have hclass : ClassModel.ofClassFile callerFile = .ok caller := by cbv
  exact ClassModel.parse_of_file hfile hclass requested

theorem parse_child (requested : String) :
    ClassModel.parse requested childBytes = .ok child := by
  have hfile : (ClassFile.parse childBytes).toOption = some childFile := by
    decide +kernel
  have hclass : ClassModel.ofClassFile childFile = .ok child := by cbv
  exact ClassModel.parse_of_file hfile hclass requested

theorem load_parent (c : ClassModel) :
    repository.source.load "p.C" ≠ .ok c := by
  have hload : (repository.source.load "p.C").toOption = none := by
    decide +kernel
  intro h
  simp [h, Except.toOption] at hload

theorem acyclic : repository.source.Acyclic := by
  apply ClassSource.acyclic_of_orphans
  intro c hc p hparent
  obtain ⟨bytes, hbytes, hparse⟩ := ClassSource.exists_parse_of_mem_classes hc
  have hcases : bytes = callerBytes ∨ bytes = childBytes ∨ bytes = #[0] := by
    simpa [repository, ClassSource.contents] using hbytes
  rcases hcases with rfl | rfl | rfl
  · obtain rfl := Except.ok.inj ((parse_caller "").symm.trans hparse)
    cases hparent
  · obtain rfl := Except.ok.inj ((parse_child "").symm.trans hparse)
    obtain rfl := Option.some.inj hparent
    exact load_parent
  · cases hparse

/-- The repository once it has decoded `p.A`. -/
def loaded : Repository :=
  { repository with cache := [("p.A", caller)] }.note (.decodedClass "p.A" 1)

theorem dotted_caller : ClassName.dotted "p.A" = "p.A" := by decide +kernel

theorem load_caller :
    repository.source.load (ClassName.dotted "p.A") = .ok caller := by
  have hread : repository.source.read "p.A" = .ok (some callerBytes) := rfl
  rw [dotted_caller]
  exact (ClassSource.load_of_read hread).trans (parse_caller "p.A")

theorem get_caller : repository.get "p.A" = (loaded, .ok caller) := by
  rw [Repository.get_of_load rfl load_caller, dotted_caller]
  rfl

theorem exists_cost :
    ∃ r' cost, repository.classCost .standard "p.A" = (r', .ok cost) ∧
      cost.missing.map MissingClass.name = ["p.B"] := by
  have hmissing : ((Analysis.ofClass loaded .standard caller).visitClass
      caller).1.missing.map MissingClass.name = ["p.B"] := by
    decide +kernel
  have hcost := Repository.classCost_of_get get_caller .standard
  generalize (Analysis.ofClass loaded .standard caller).visitClass caller =
    visited at hcost hmissing
  exact ⟨_, _, hcost, hmissing⟩

theorem child_told_once :
    repository.source.Acyclic ∧
      ∃ r' cost, repository.classCost .standard "p.A" = (r', .ok cost) ∧
      ∃ told : List (String × LoadFault), cost.missing = told.map .of ∧
        told.map Prod.fst = ["p.B"] ∧ r'.warnings =
          told.map (.dependency "p.A") := by
  obtain ⟨r', cost, hcost, hnames⟩ := exists_cost
  obtain ⟨c, turns, a, told, hload, hrun, hmissing, _, hwarnings, _⟩ :=
    missing_classes_told_once (Repository.faithful_empty repository.source #[])
    acyclic hcost
  obtain rfl := Except.ok.inj (load_caller.symm.trans hload)
  refine ⟨acyclic, r', cost, hcost, told, hmissing, ?_, hwarnings⟩
  rw [hmissing, List.map_map] at hnames
  exact hnames

/-- The class that could not be loaded is `p.C`; the one told of is `p.B`,
which could. -/
theorem child_told_for_parent :
    (∃ c, repository.source.load "p.B" = .ok c) ∧
      (∀ c, repository.source.load "p.C" ≠ .ok c) ∧
      ∃ r' cost, repository.classCost .standard "p.A" = (r', .ok cost) ∧
        cost.missing.map MissingClass.name = ["p.B"] := by
  have hread : repository.source.read "p.B" = .ok (some childBytes) := rfl
  exact ⟨⟨child, (ClassSource.load_of_read hread).trans (parse_child "p.B")⟩,
    load_parent, exists_cost⟩

end BrokenParent

end TestCost
