import TestCost.Proofs.Analysis.Resolution
import TestCost.Proofs.Cost.Records

/-!
# What a statement does to an analysis

A statement moves facts about variables, records costs, and may bring a method
into the analysis. The three have little to do with each other, and the
lemmas here keep them apart: most of what runs changes facts only
(`FactsOnly`), records change no name, and a method comes in only as the callee
of a call that is charged (`charged?`), if it has no node yet (`fresh`).

`Charges` and `Fails` say what is charged and what fails in terms of the walk
up the superclasses alone. Where no class is its own ancestor they agree with
what the analysis computes.

## Main results

* `invoke_cases` — the three things that a call can do.
* `grows_apply` — which methods a statement brings in, and where they wait.
* `graph_putField`, `graph_putElement`, `graph_invoke` — what is recorded.
* `charges_iff`, `fails_iff` — what a call comes to, without bounds.
-/

namespace TestCost

namespace Analysis

variable {a b c : Analysis}

/-! ## Changes of facts -/

/-- The two states agree but for the facts about variables. -/
structure FactsOnly (a b : Analysis) : Prop where
  repository : b.repository = a.repository
  whitelist : b.whitelist = a.whitelist
  className : b.className = a.className
  graph : b.graph = a.graph
  queue : b.queue = a.queue
  missing : b.missing = a.missing

theorem FactsOnly.refl (a : Analysis) : FactsOnly a a :=
  ⟨rfl, rfl, rfl, rfl, rfl, rfl⟩

theorem FactsOnly.trans (h : FactsOnly a b) (h' : FactsOnly b c) :
    FactsOnly a c where
  repository := h'.repository.trans h.repository
  whitelist := h'.whitelist.trans h.whitelist
  className := h'.className.trans h.className
  graph := h'.graph.trans h.graph
  queue := h'.queue.trans h.queue
  missing := h'.missing.trans h.missing

theorem FactsOnly.foldl {α : Type} {f : Analysis → α → Analysis}
    (h : ∀ a x, FactsOnly a (f a x)) (xs : List α) (a : Analysis) :
    FactsOnly a (xs.foldl f a) := by
  induction xs generalizing a with
  | nil => exact .refl a
  | cons x xs ih => exact (h a x).trans (ih (f a x))

theorem factsOnly_setInjectable (a : Analysis) (v : Variable) :
    FactsOnly a (a.setInjectable v) :=
  ⟨rfl, rfl, rfl, rfl, rfl, rfl⟩

theorem factsOnly_setGlobal (a : Analysis) (v : Variable) :
    FactsOnly a (a.setGlobal v) :=
  ⟨rfl, rfl, rfl, rfl, rfl, rfl⟩

theorem factsOnly_setMethodInjectable (a : Analysis) (m : Method) :
    FactsOnly a (a.setMethodInjectable m) :=
  .foldl factsOnly_setInjectable _ a

theorem factsOnly_assign (a : Analysis) (target source : Variable) :
    FactsOnly a (a.assign target source) := by
  have hinjected : FactsOnly a (if a.isInjectable source then
      a.setInjectable target else a) := by
    split
    · exact factsOnly_setInjectable a target
    · exact .refl a
  unfold assign
  dsimp only
  split
  · exact hinjected.trans (factsOnly_setGlobal _ target)
  · exact hinjected

theorem factsOnly_passArguments (a : Analysis) (callee : Method)
    (call : Invocation) :
    FactsOnly a (a.passArguments callee call) := by
  have harguments : FactsOnly a ((callee.parameters.zip call.arguments).foldl
      (fun a p => a.assign p.1 p.2) a) :=
    .foldl (fun a (p : Variable × Variable) => factsOnly_assign a p.1 p.2) _ a
  unfold passArguments
  dsimp only
  split
  · exact harguments.trans (factsOnly_assign _ _ _)
  · exact harguments

/-! ## What a call comes to -/

/-- The state after the classes that a call asks for have been loaded. -/
def asked (a : Analysis) (call : Invocation) : Analysis :=
  if a.ignores call.owner then a else (a.resolve call.owner call.signature).1

/-- Why the class that a call is made on cannot be told. -/
def fault? (a : Analysis) (call : Invocation) : Option LoadFault :=
  if a.ignores call.owner then none
  else
    match (a.resolve call.owner call.signature).2 with
    | .error fault => some fault
    | .ok _ => none

/-- The method that a call is charged for, with the class that declares it. -/
def charged? (a : Analysis) (call : Invocation) :
    Option (ClassModel × Method) :=
  if a.ignores call.owner then none
  else
    match (a.resolve call.owner call.signature).2 with
    | .ok (some c) =>
      (c.method? call.signature).bind fun m =>
        if m.canOverride && a.hasInjectableReceiver call then none
        else some (c, m)
    | _ => none

/-- A call reports a class, charges a callee, or does neither. -/
theorem invoke_cases (a : Analysis) (caller : NodeId) (call : Invocation) :
    (∃ fault, a.fault? call = some fault ∧ a.charged? call = none ∧
      a.invoke caller call = (a.asked call).reportMissing call.owner fault) ∨
    (∃ c m, a.fault? call = none ∧ a.charged? call = some (c, m) ∧
      a.invoke caller call =
        (((a.asked call).passArguments m call).enqueue c m).1.addCall
          caller call.line
          (((a.asked call).passArguments m call).enqueue c m).2) ∨
    (a.fault? call = none ∧ a.charged? call = none ∧
      a.invoke caller call = a.asked call) := by
  unfold invoke asked fault? charged?
  cases hignores : a.ignores call.owner with
  | true => exact .inr (.inr ⟨rfl, rfl, rfl⟩)
  | false =>
      have hreceiver :
          (a.resolve call.owner call.signature).1.hasInjectableReceiver call =
          a.hasInjectableReceiver call := rfl
      rcases hresolve : a.resolve call.owner call.signature with
        ⟨a', fault | _ | c⟩
      · exact .inl ⟨fault, rfl, rfl, rfl⟩
      · exact .inr (.inr ⟨rfl, rfl, rfl⟩)
      · rw [hresolve] at hreceiver
        cases hmethod : c.method? call.signature with
        | none => exact .inr (.inr ⟨rfl, by simp [hmethod], by simp [hmethod]⟩)
        | some m =>
            cases hinject : m.canOverride && a.hasInjectableReceiver call with
            | true =>
                exact .inr
                  (.inr ⟨rfl, by simp [hmethod, hinject, -Bool.and_eq_true], by
                  simp [hmethod, hreceiver, hinject, -Bool.and_eq_true]⟩)
            | false =>
                exact .inr (.inl ⟨c, m, rfl,
                  by simp [hmethod, hinject, -Bool.and_eq_true], by
                  simp [hmethod, hreceiver, hinject, -Bool.and_eq_true]⟩)

theorem charged?_eq_some {call : Invocation} {c : ClassModel} {m : Method}
    (h : a.charged? call = some (c, m)) :
    a.ignores call.owner = false ∧ (a.resolve call.owner call.signature).2 =
      .ok (some c) ∧
      c.method? call.signature = some m ∧
      (m.canOverride && a.hasInjectableReceiver call) = false := by
  unfold charged? at h
  split at h
  · cases h
  · next hignores =>
    split at h
    · next d hresolve =>
      obtain ⟨m', hmethod, h⟩ := Option.bind_eq_some_iff.1 h
      split at h
      · cases h
      · next hinject =>
        obtain ⟨rfl, rfl⟩ := Prod.mk.inj (Option.some.inj h)
        exact ⟨by simpa using hignores, hresolve, hmethod,
          by simpa using hinject⟩
    · cases h

theorem fault?_eq_some {call : Invocation} {fault : LoadFault}
    (h : a.fault? call = some fault) :
    a.ignores call.owner = false ∧ (a.resolve call.owner call.signature).2 =
      .error fault := by
  unfold fault? at h
  split at h
  · cases h
  · next hignores =>
    split at h
    · next fault' hresolve =>
      obtain rfl := Option.some.inj h
      exact ⟨by simpa using hignores, hresolve⟩
    · cases h

/-- A call is charged for a method: the walk from its class ends at the one
that declares the method, and a test cannot step in between. -/
structure Charges (a : Analysis) (call : Invocation) (c : ClassModel)
    (m : Method) : Prop where
  counts : a.ignores call.owner = false
  walk : ∃ asked, a.repository.source.Walk a.whitelist call.signature call.owner
    asked (.ok (some c))
  declares : c.method? call.signature = some m
  fixed : (m.canOverride && a.hasInjectableReceiver call) = false

/-- The walk from the class of a call fails, at the last of the names that
are asked for. -/
structure Fails (a : Analysis) (call : Invocation) (names : List String)
    (fault : LoadFault) :
    Prop where
  counts : a.ignores call.owner = false
  walk : a.repository.source.Walk a.whitelist call.signature call.owner names
    (.error fault)

theorem charges_iff (hacyclic : a.repository.source.Acyclic)
    (h : a.repository.Faithful) {call : Invocation} {c : ClassModel}
    {m : Method} :
    a.Charges call c m ↔ a.charged? call = some (c, m) := by
  obtain ⟨names, hwalk⟩ := walk_resolve hacyclic h call.owner call.signature
  constructor
  · rintro ⟨hcounts, ⟨asked, hfound⟩, hdeclares, hfixed⟩
    have hanswer := (hwalk.unique hfound).2
    simp [charged?, hcounts, hanswer, hdeclares, hfixed, -Bool.and_eq_true]
  · intro hcharged
    obtain ⟨hcounts, hresolve, hdeclares, hfixed⟩ := charged?_eq_some hcharged
    rw [hresolve] at hwalk
    exact ⟨hcounts, ⟨names, hwalk⟩, hdeclares, hfixed⟩

theorem fails_iff (hacyclic : a.repository.source.Acyclic)
    (h : a.repository.Faithful) {call : Invocation} {fault : LoadFault} :
    (∃ names, a.Fails call names fault) ↔ a.fault? call = some fault := by
  obtain ⟨names, hwalk⟩ := walk_resolve hacyclic h call.owner call.signature
  constructor
  · rintro ⟨asked, hcounts, hfail⟩
    have hanswer := (hwalk.unique hfail).2
    simp [fault?, hcounts, hanswer]
  · intro hfault
    obtain ⟨hcounts, hresolve⟩ := fault?_eq_some hfault
    rw [hresolve] at hwalk
    exact ⟨names, hcounts, hwalk⟩

/-! ## What is recorded -/

theorem graph_putField (a : Analysis) (writer : NodeId) (line : Nat)
    (receiver : Option Variable) (target : Field) (value : Variable) :
    (a.putField writer line receiver target value).graph =
      if receiver.all (a.assign (.field target) value).isGlobal then
        a.graph.addTouch writer line (.field target)
      else a.graph := by
  have hassign := (factsOnly_assign a (.field target) value).graph
  unfold putField
  dsimp only
  split
  · exact congrArg (·.addTouch writer line (.field target)) hassign
  · exact hassign

theorem graph_putElement (a : Analysis) (writer : NodeId) (line : Nat)
    (array value : Variable) :
    (a.putElement writer line array value).graph =
      if (a.assign array value).isGlobal array then
        a.graph.addTouch writer line array
      else a.graph := by
  have hassign := (factsOnly_assign a array value).graph
  unfold putElement
  dsimp only
  split
  · exact congrArg (·.addTouch writer line array) hassign
  · exact hassign

theorem graph_reportMissing (a : Analysis) (owner : String)
    (fault : LoadFault) :
    (a.reportMissing owner fault).graph = a.graph := by
  unfold reportMissing
  dsimp only
  split <;> rfl

theorem graph_enqueue (a : Analysis) (c : ClassModel) (m : Method) :
    (a.enqueue c m).1.graph = (a.graph.add m).1 ∧ (a.enqueue c m).2 =
      (a.graph.add m).2 := by
  unfold enqueue CostGraph.add
  cases a.graph.find? m.fullName with
  | none => exact ⟨rfl, rfl⟩
  | some id => exact ⟨rfl, rfl⟩

/-- A call that is charged adds its callee and the call, and any other call
nothing. -/
theorem graph_invoke (a : Analysis) (caller : NodeId) (call : Invocation) :
    (a.invoke caller call).graph =
      ((a.charged? call).map fun entry =>
        (a.graph.add entry.2).1.addCall caller call.line
          (a.graph.add entry.2).2).getD a.graph := by
  have hasked : (a.asked call).graph = a.graph := by
    unfold asked
    split <;> rfl
  rcases a.invoke_cases caller call with
    ⟨fault, _, hcharged, h⟩ | ⟨c, m, _, hcharged, h⟩ | ⟨_, hcharged, h⟩
  · rw [hcharged, h, graph_reportMissing]
    exact hasked
  · have hpass : ((a.asked call).passArguments m call).graph = a.graph :=
      (factsOnly_passArguments _ m call).graph.trans hasked
    obtain ⟨hgraph, hid⟩ :=
      graph_enqueue ((a.asked call).passArguments m call) c m
    rw [hpass] at hgraph hid
    rw [hcharged, h]
    show (((a.asked call).passArguments m call).enqueue c m).1.graph.addCall
      caller call.line _ = _
    rw [hgraph, hid]
    rfl
  · rw [hcharged, h]
    exact hasked

/-! ## Methods that come in -/

/-- The second state has the methods `new` more than the first one: they have
their nodes behind all others and wait in front of all others. -/
structure Grows (a : Analysis) (new : List (ClassModel × Method))
    (b : Analysis) : Prop where
  source : b.repository.source = a.repository.source
  faithful : a.repository.Faithful → b.repository.Faithful
  whitelist : b.whitelist = a.whitelist
  className : b.className = a.className
  names : b.graph.names = a.graph.names ++ new.map fun entry => entry.2.fullName
  queue : b.queue =
    (new.map fun entry => (entry.1, entry.2.signature)) ++ a.queue

theorem FactsOnly.grows (h : FactsOnly a b) : Grows a [] b where
  source := by rw [h.repository]
  faithful hfaithful := by rwa [h.repository]
  whitelist := h.whitelist
  className := h.className
  names := by rw [h.graph, List.map_nil, List.append_nil]
  queue := h.queue

theorem Grows.after {new : List (ClassModel × Method)} (h : Grows a [] b)
    (h' : Grows b new c) :
    Grows a new c where
  source := h'.source.trans h.source
  faithful hfaithful := h'.faithful (h.faithful hfaithful)
  whitelist := h'.whitelist.trans h.whitelist
  className := h'.className.trans h.className
  names := by rw [h'.names, h.names, List.map_nil, List.append_nil]
  queue := by rw [h'.queue, h.queue, List.map_nil, List.nil_append]

theorem Grows.before {new : List (ClassModel × Method)} (h : Grows a new b)
    (h' : Grows b [] c) :
    Grows a new c where
  source := h'.source.trans h.source
  faithful hfaithful := h'.faithful (h.faithful hfaithful)
  whitelist := h'.whitelist.trans h.whitelist
  className := h'.className.trans h.className
  names := by rw [h'.names, h.names, List.map_nil, List.append_nil]
  queue := by rw [h'.queue, h.queue, List.map_nil, List.nil_append]

theorem grows_touch (a : Analysis) (writer : NodeId) (line : Nat)
    (target : Variable) :
    Grows a [] (a.touch writer line target) where
  source := rfl
  faithful := id
  whitelist := rfl
  className := rfl
  names := by simp [touch]
  queue := rfl

theorem grows_putField (a : Analysis) (writer : NodeId) (line : Nat)
    (receiver : Option Variable) (target : Field) (value : Variable) :
    Grows a [] (a.putField writer line receiver target value) := by
  have hassign := (factsOnly_assign a (.field target) value).grows
  unfold putField
  dsimp only
  split
  · exact (hassign.after (grows_touch _ _ _ _)).after
      (factsOnly_setGlobal _ _).grows
  · exact hassign

theorem grows_putElement (a : Analysis) (writer : NodeId) (line : Nat)
    (array value : Variable) :
    Grows a [] (a.putElement writer line array value) := by
  have hassign := (factsOnly_assign a array value).grows
  unfold putElement
  dsimp only
  split
  · exact hassign.after (grows_touch _ _ _ _)
  · exact hassign

theorem grows_asked (a : Analysis) (call : Invocation) :
    Grows a [] (a.asked call) := by
  unfold asked
  split
  · exact (FactsOnly.refl a).grows
  · exact ⟨source_resolve a _ _, fun h => faithful_resolve h _ _, rfl, rfl,
      by simp; rfl, rfl⟩

theorem grows_reportMissing (a : Analysis) (owner : String)
    (fault : LoadFault) :
    Grows a [] (a.reportMissing owner fault) := by
  unfold reportMissing
  dsimp only
  split
  · exact (FactsOnly.refl a).grows
  · exact ⟨rfl, fun h => h.note _, rfl, rfl, by simp [note], rfl⟩

/-- A method comes in unless it has a node. -/
def fresh (a : Analysis) :
    Option (ClassModel × Method) → List (ClassModel × Method)
  | none => []
  | some (c, m) => if m.fullName ∈ a.graph.names then [] else [(c, m)]

theorem fresh_cases (a : Analysis) (met : Option (ClassModel × Method)) :
    (a.fresh met = [] ∧ ∀ c m, met = some (c, m) → m.fullName ∈ a.graph.names) ∨
    (∃ c m, a.fresh met = [(c, m)] ∧ met = some (c, m) ∧
      m.fullName ∉ a.graph.names) := by
  cases met with
  | none => exact .inl ⟨rfl, by simp⟩
  | some entry =>
      obtain ⟨c, m⟩ := entry
      by_cases hmem : m.fullName ∈ a.graph.names
      · exact .inl ⟨if_pos hmem, by rintro _ _ ⟨⟩; exact hmem⟩
      · exact .inr ⟨c, m, if_neg hmem, rfl, hmem⟩

/-- What holds of the classes that methods wait with, and of the one that comes
in, holds of those that they wait with then. -/
theorem Grows.forall_queue
    {P : ClassModel → Prop} {met : Option (ClassModel × Method)}
    (h : Grows a (a.fresh met) b) (hmet : ∀ c m, met = some (c, m) → P c)
    (hqueue : ∀ entry ∈ a.queue, P entry.1) : ∀ entry ∈ b.queue, P entry.1 := by
  intro entry hentry
  rw [h.queue, List.mem_append] at hentry
  rcases hentry with hentry | hentry
  · rcases a.fresh_cases met with ⟨hnone, _⟩ | ⟨c, m, hone, hsome, _⟩
    · rw [hnone] at hentry
      cases hentry
    · rw [hone] at hentry
      obtain rfl := List.mem_singleton.1 hentry
      exact hmet c m hsome
  · exact hqueue entry hentry

theorem grows_enqueue (a : Analysis) (c : ClassModel) (m : Method) :
    Grows a (a.fresh (some (c, m))) (a.enqueue c m).1 := by
  unfold enqueue fresh
  dsimp only
  by_cases hmem : m.fullName ∈ a.graph.names
  · obtain ⟨id, hid⟩ :=
      Option.isSome_iff_exists.1 (a.graph.find?_isSome_iff.2 hmem)
    rw [if_pos hmem, hid]
    exact (FactsOnly.refl a).grows
  · rw [if_neg hmem, a.graph.find?_eq_none_iff.2 hmem]
    exact ⟨rfl, id, rfl, rfl, by simp [a.graph.names_add, hmem], rfl⟩

theorem grows_addCall (a : Analysis) (caller : NodeId) (line : Nat)
    (callee : NodeId) :
    Grows a [] (a.addCall caller line callee) :=
  ⟨rfl, id, rfl, rfl, by simp [addCall], rfl⟩

/-- The method that a statement is charged for. -/
def chargedBy? (a : Analysis) : Statement → Option (ClassModel × Method)
  | .invoke call => a.charged? call
  | _ => none

theorem grows_invoke (a : Analysis) (caller : NodeId) (call : Invocation) :
    Grows a (a.fresh (a.charged? call)) (a.invoke caller call) := by
  rcases a.invoke_cases caller call with
    ⟨fault, _, hcharged, h⟩ | ⟨c, m, _, hcharged, h⟩ | ⟨_, hcharged, h⟩
  · rw [hcharged, h]
    exact (a.grows_asked call).after (grows_reportMissing _ _ _)
  · have hpass := (a.grows_asked call).after
      ((a.asked call).factsOnly_passArguments m call).grows
    have hfresh : ((a.asked call).passArguments m call).fresh (some (c, m)) =
        a.fresh (some (c, m)) := by
      simp [fresh, hpass.names]
    have henqueue :=
      hpass.after (grows_enqueue ((a.asked call).passArguments m call) c m)
    rw [hfresh] at henqueue
    rw [hcharged, h]
    exact henqueue.before (grows_addCall _ _ _ _)
  · rw [hcharged, h]
    exact a.grows_asked call

theorem grows_apply (node : NodeId) (a : Analysis) (s : Statement) :
    Grows a (a.fresh (a.chargedBy? s)) (apply node a s) := by
  cases s with
  | assign line target value => exact (factsOnly_assign a target value).grows
  | putField line receiver target value =>
      exact grows_putField a node line receiver target value
  | putElement line array index value =>
      exact grows_putElement a node line array value
  | invoke call => exact grows_invoke a node call

theorem Grows.lt_size {new : List (ClassModel × Method)} (h : Grows a new b)
    {node : NodeId} (hnode : node < a.graph.nodes.size) :
    node < b.graph.nodes.size := by
  have hlength := congrArg List.length h.names
  simp only [CostGraph.names, List.length_append, List.length_map,
    Array.length_toList] at hlength
  exact Nat.lt_of_lt_of_le hnode (hlength ▸ Nat.le_add_right _ _)

theorem signature_of_method? {c : ClassModel} {signature : String} {m : Method}
    (h : c.method? signature = some m) : m.signature = signature := by
  have hfound := List.find?_some h
  simpa using hfound

theorem mem_methods_of_method? {c : ClassModel} {signature : String}
    {m : Method} (h : c.method? signature = some m) : m ∈ c.methods :=
  List.mem_reverse.1 (List.mem_of_find?_eq_some h)

/-- A method that a statement is charged for is one of the source, and its
class has it under its own signature. -/
theorem declared_of_chargedBy? (hfaithful : a.repository.Faithful)
    {s : Statement} {c : ClassModel} {m : Method}
    (h : a.chargedBy? s = some (c, m)) :
    c ∈ a.repository.source.classes ∧ m ∈ c.methods ∧ c.method? m.signature =
      some m := by
  cases s with
  | invoke call =>
      obtain ⟨_, hresolve, hmethod, _⟩ := charged?_eq_some h
      obtain ⟨name, hload⟩ := exists_load_of_resolve hfaithful hresolve
      refine ⟨ClassSource.mem_classes hload, mem_methods_of_method? hmethod, ?_⟩
      rw [signature_of_method? hmethod]
      exact hmethod
  | assign | putField | putElement => cases h

end Analysis

end TestCost
