import TestCost.Proofs.Analysis.Independence
import TestCost.Proofs.Class.Names

/-!
# What a whitelist keeps out

A call on a class that the whitelist covers is not looked into: its class is not
asked for, so nothing of it can count or be missing. The search for the method
of any other call goes up the superclasses and ends before the first one that is
covered. This is all that an analysis asks its repository for, besides the class
it is about.

Prefixes are held against names as class files give them, and a repository is
asked for dotted names. That both are the same is a fact about class files
(`ClassModel.Named`). A class is charged for under the name that it carries, not
the one that it was found by, so the classes of the source have to carry the
names they are looked up by (`ClassSource.NamesAgree`).

## Main results

* `ClassSource.Walk.covers_eq_false` — a walk passes no covered class.
* `Analysis.exists_asks` — the repository after a statement is the one that has
  been asked for the names of a walk.
* `Analysis.spared_preserved` — every step keeps covered classes out.
* `whitelisted_classes_spared` — the account of a run.
-/

namespace TestCost

/-- No prefix of the whitelist is the beginning of the name. -/
def Whitelist.Omits (w : Whitelist) (name : String) : Prop :=
  ∀ pre ∈ w.prefixes, ¬ pre.toList <+: name.toList

theorem Whitelist.covers_eq_false_iff {w : Whitelist} {name : String} :
    w.covers name = false ↔ w.Omits name := by
  simp [covers, Omits, Text.startsWith, List.isPrefixOf_iff_prefix,
    ← Bool.not_eq_true]

/-! ## Walks -/

namespace ClassSource

variable {s : ClassSource} {w : Whitelist} {signature name : String}
  {names : List String}

/-- Classes carry the names that they are looked up by. -/
def NamesAgree (s : ClassSource) : Prop :=
  ∀ name c, s.load (ClassName.dotted name) = .ok c →
    c.name = ClassName.dotted name

theorem named_of_mem_classes {c : ClassModel} (h : c ∈ s.classes) :
    c.Named := by
  obtain ⟨bytes, _, hparse⟩ := exists_parse_of_mem_classes h
  exact ClassModel.named_of_parse hparse

/-- A walk that begins at a class that is not covered passes none that is. -/
theorem Walk.covers_eq_false {answer : Except LoadFault (Option ClassModel)}
    (h : s.Walk w signature name names answer)
    (hname : w.covers (ClassName.dotted name) = false) :
    ∀ n ∈ names, w.covers n = false := by
  induction h with
  | broken _ | found _ _ | ended _ _ _ =>
      intro n hn
      rwa [List.mem_singleton.1 hn]
  | up hload _ hsuper hcovers _ ih =>
      have hdotted := (named_of_mem_classes (mem_classes hload)).parent _ hsuper
      intro n hn
      rcases List.mem_cons.1 hn with rfl | hn
      · exact hname
      · exact ih (hdotted.symm ▸ hcovers) n hn

/-- The class that a walk finds has been loaded under one of the names. -/
theorem Walk.exists_found {c : ClassModel}
    (h : s.Walk w signature name names (.ok (some c))) :
    ∃ n, ClassName.dotted n ∈ names ∧ s.load (ClassName.dotted n) = .ok c := by
  generalize hanswer : Except.ok (some c) = answer at h
  induction h with
  | @found n d hload _ =>
      obtain rfl := Option.some.inj (Except.ok.inj hanswer)
      exact ⟨n, List.mem_cons_self, hload⟩
  | broken | ended => cases hanswer
  | up _ _ _ _ _ ih =>
      obtain ⟨n, hn, hload⟩ := ih hanswer
      exact ⟨n, List.mem_cons_of_mem _ hn, hload⟩

end ClassSource

/-! ## Owners -/

namespace CostGraph

variable (g : CostGraph)

/-- The classes whose methods have nodes, in the order of nodes. -/
def owners (g : CostGraph) : List String := g.nodes.toList.map MethodCost.owner

theorem owners_add_subset (m : Method) :
    (g.add m).1.owners ⊆ m.owner :: g.owners := by
  by_cases h : m.fullName ∈ g.names
  · rw [g.add_of_mem h]
    exact List.subset_cons_self _ _
  · rw [g.add_of_not_mem h]
    simp [owners]

theorem owners_addCall (caller : NodeId) (line : Nat) (callee : NodeId) :
    (g.addCall caller line callee).owners = g.owners := by
  apply map_modify
  intro m
  rfl

theorem owners_addTouch (writer : NodeId) (line : Nat) (target : Variable) :
    (g.addTouch writer line target).owners = g.owners := by
  apply map_modify
  intro m
  rfl

theorem owners_link : g.link.owners = g.owners := by
  apply List.ext_getElem?
  intro i
  simp only [owners, link, List.getElem?_map, Array.getElem?_toList,
    Array.getElem?_mapIdx, Option.map_map]
  rfl

end CostGraph

/-! ## Requests -/

/-- The names that a statement asks the repository for: those of the walk from
the class of a call, unless the call leads nowhere that counts. -/
inductive Moment.Asks (x : Moment) : List String → Prop where
  | nothing : (∀ call, x.statement = .invoke call →
      x.state.ignores call.owner = true) → Asks x []
  | walk {call : Invocation} {names : List String}
      {answer : Except LoadFault (Option ClassModel)} :
      x.statement = .invoke call → x.state.ignores call.owner = false →
      x.state.repository.source.Walk x.state.whitelist call.signature call.owner
        names answer →
      Asks x names

namespace Analysis

variable {a b : Analysis}

theorem covers_of_ignores {owner : String} (h : a.ignores owner = false) :
    a.whitelist.covers owner = false := by
  rw [ignores, Bool.or_eq_false_iff] at h
  exact h.1

theorem repository_enqueue (a : Analysis) (c : ClassModel) (m : Method) :
    (a.enqueue c m).1.repository = a.repository := by
  unfold enqueue
  split <;> rfl

theorem repository_begin (a : Analysis) (op : Operation) :
    (a.begin op).repository = a.repository := by
  cases op with
  | setInjectable v => rfl
  | setMethodInjectable m =>
      exact (factsOnly_setMethodInjectable a m).repository
  | assign target source => exact (factsOnly_assign a target source).repository
  | putField writer line receiver target value =>
      exact (detached_putField writer line receiver target value).repository a
  | putElement writer line array value =>
      exact (detached_putElement writer line array value).repository a
  | addCall caller line callee => rfl
  | visit c m => exact repository_enqueue a c m

/-- A call asks for no more than its walk does. -/
theorem sameClasses_invoke (a : Analysis) (caller : NodeId)
    (call : Invocation) :
    (a.asked call).repository.SameClasses
      (a.invoke caller call).repository := by
  rcases a.invoke_cases caller call with
    ⟨fault, _, _, h⟩ | ⟨c, m, _, _, h⟩ | ⟨_, _, h⟩
  · rw [h, reportMissing_eq, tell]
    split
    · exact .refl _
    · exact Repository.sameClasses_note _ _
  · have hpass := ((a.asked call).factsOnly_passArguments m call).repository
    have henqueue :=
      repository_enqueue ((a.asked call).passArguments m call) c m
    rw [h]
    show (a.asked call).repository.SameClasses
      (((a.asked call).passArguments m call).enqueue c m).1.repository
    rw [henqueue, hpass]
    exact .refl _
  · rw [h]
    exact .refl _

/-- What a statement asks for is all that becomes of the repository. -/
theorem exists_asks {x : Moment} (hacyclic : x.state.repository.source.Acyclic)
    (hfaithful : x.state.repository.Faithful) :
    ∃ names, x.Asks names ∧
      (names.foldl Repository.ask x.state.repository).SameClasses
        (apply x.node x.state x.statement).repository := by
  obtain ⟨a, node, statement⟩ := x
  cases statement with
  | assign line target value =>
      refine ⟨[], .nothing (by simp), ?_⟩
      show a.repository.SameClasses (a.assign target value).repository
      rw [(factsOnly_assign a target value).repository]
      exact .refl _
  | putField line receiver target value =>
      refine ⟨[], .nothing (by simp), ?_⟩
      show a.repository.SameClasses
        (a.putField node line receiver target value).repository
      rw [(detached_putField node line receiver target value).repository a]
      exact .refl _
  | putElement line array index value =>
      refine ⟨[], .nothing (by simp), ?_⟩
      show a.repository.SameClasses
        (a.putElement node line array value).repository
      rw [(detached_putElement node line array value).repository a]
      exact .refl _
  | invoke call =>
      have hinvoke := a.sameClasses_invoke node call
      cases hignores : a.ignores call.owner with
      | true =>
          rw [asked, if_pos hignores] at hinvoke
          refine ⟨[], .nothing ?_, hinvoke⟩
          rintro _ ⟨⟩
          exact hignores
      | false =>
          obtain ⟨names, hwalk, hrepository⟩ :=
            asks_resolve hacyclic hfaithful call.owner call.signature
          rw [asked, if_neg (by simp [hignores]), hrepository] at hinvoke
          exact ⟨names, .walk rfl hignores hwalk, hinvoke⟩

/-! ## What a call brings in -/

/-- A class that a statement is charged for is not covered. -/
theorem covers_of_chargedBy?
    (hacyclic : a.repository.source.Acyclic) (hfaithful : a.repository.Faithful)
    (hnames : a.repository.source.NamesAgree) {s : Statement} (hdotted : ∀ call,
      s = .invoke call → ClassName.dotted call.owner = call.owner)
    {c : ClassModel} {m : Method} (h : a.chargedBy? s = some (c, m)) :
    a.whitelist.covers c.name = false := by
  cases s with
  | invoke call =>
      obtain ⟨hignores, hresolve, _, _⟩ := charged?_eq_some h
      obtain ⟨names, hwalk⟩ :=
        walk_resolve hacyclic hfaithful call.owner call.signature
      rw [hresolve] at hwalk
      obtain ⟨n, hn, hload⟩ := hwalk.exists_found
      rw [hnames n c hload]
      exact hwalk.covers_eq_false
        ((hdotted call rfl).symm ▸ covers_of_ignores hignores) _ hn
  | assign | putField | putElement => cases h

/-- A class that a call is given up for is not covered. -/
theorem covers_of_given? (hacyclic : a.repository.source.Acyclic)
    (hfaithful : a.repository.Faithful) {s : Statement} (hdotted : ∀ call,
      s = .invoke call → ClassName.dotted call.owner = call.owner)
    {entry : String × LoadFault} (h : a.given? s = some entry) :
    a.whitelist.covers entry.1 = false := by
  cases s with
  | invoke call =>
      obtain ⟨fault, hfault, rfl⟩ := Option.map_eq_some_iff.1 h
      obtain ⟨hignores, hresolve⟩ := fault?_eq_some hfault
      have howner := covers_of_ignores hignores
      obtain ⟨names, hwalk⟩ :=
        walk_resolve hacyclic hfaithful call.owner call.signature
      rw [hresolve] at hwalk
      obtain ⟨before, last, rfl, hload⟩ := hwalk.exists_last
      have hlast :=
        hwalk.covers_eq_false ((hdotted call rfl).symm ▸ howner) last (by simp)
      rcases ClassSource.missingClass?_of_load hload with hnone | hsome
      · simpa [hnone] using howner
      · simpa [hsome] using hlast
  | assign | putField | putElement => cases h

/-- A statement adds to the missing classes at most the one that it is given up
for. -/
theorem forall_missing_apply {P : String → Prop} (node : NodeId)
    {s : Statement} (hgiven : ∀ entry, a.given? s = some entry → P entry.1)
    (h : ∀ m ∈ a.missing, P m.name) :
    ∀ m ∈ (apply node a s).missing, P m.name := by
  rcases apply_tells node a s with ⟨_, hquiet⟩ |
    ⟨entry, b, hentry, hquiet, _, heq⟩
  · rw [hquiet.missing]
    exact h
  · rw [heq, tell]
    split
    · rw [hquiet.missing]
      exact h
    · intro m hm
      rcases List.mem_append.1 hm with hm | hm
      · exact h m (hquiet.missing ▸ hm)
      · obtain rfl := List.mem_singleton.1 hm
        exact hgiven entry hentry

theorem owners_begin_subset (a : Analysis) (op : Operation) :
    (a.begin op).graph.owners ⊆
      (op.visited?.map fun entry => entry.2.owner).toList ++
      a.graph.owners := by
  cases op with
  | setInjectable v => exact List.Subset.refl _
  | setMethodInjectable m =>
      show (a.setMethodInjectable m).graph.owners ⊆ _
      rw [(factsOnly_setMethodInjectable a m).graph]
      exact List.Subset.refl _
  | assign target source =>
      show (a.assign target source).graph.owners ⊆ _
      rw [(factsOnly_assign a target source).graph]
      exact List.Subset.refl _
  | putField writer line receiver target value =>
      show (a.putField writer line receiver target value).graph.owners ⊆ _
      rw [graph_putField]
      split
      · rw [CostGraph.owners_addTouch]
        exact List.Subset.refl _
      · exact List.Subset.refl _
  | putElement writer line array value =>
      show (a.putElement writer line array value).graph.owners ⊆ _
      rw [graph_putElement]
      split
      · rw [CostGraph.owners_addTouch]
        exact List.Subset.refl _
      · exact List.Subset.refl _
  | addCall caller line callee =>
      show (a.graph.addCall caller line callee).owners ⊆ _
      rw [CostGraph.owners_addCall]
      exact List.Subset.refl _
  | visit c m =>
      show (a.enqueue c m).1.graph.owners ⊆ _
      rw [(graph_enqueue a c m).1]
      exact a.graph.owners_add_subset m

theorem owners_apply_subset (node : NodeId) (a : Analysis) (s : Statement) :
    (apply node a s).graph.owners ⊆
      ((a.chargedBy? s).map fun entry => entry.2.owner).toList ++
      a.graph.owners := by
  cases s with
  | assign line target value =>
      exact a.owners_begin_subset (.assign target value)
  | putField line receiver target value =>
      exact a.owners_begin_subset (.putField node line receiver target value)
  | putElement line array index value =>
      exact a.owners_begin_subset (.putElement node line array value)
  | invoke call =>
      show (a.invoke node call).graph.owners ⊆ _
      rw [graph_invoke, chargedBy?]
      cases a.charged? call with
      | none => exact List.Subset.refl _
      | some entry =>
          show ((a.graph.add entry.2).1.addCall node call.line _).owners ⊆ _
          rw [CostGraph.owners_addCall]
          exact a.graph.owners_add_subset entry.2

/-! ## The account of a run -/

/-- The class is the analysed one or not covered. -/
def Counts (w : Whitelist) (analysed owner : String) : Prop :=
  owner = analysed ∨ w.covers owner = false

/-- Covered classes have been kept out since a run over the repository began. -/
structure Spared (r : Repository) (w : Whitelist) (c : ClassModel)
    (past : History) (a : Analysis) : Prop where
  waiting : ∀ entry ∈ a.queue, entry.1 ∈ r.source.classes ∧
    Counts w c.name entry.1.name
  turns : ∀ t ∈ past.turns, ∃ d ∈ r.source.classes, t.method ∈ d.methods
  owners : ∀ owner ∈ a.graph.owners, Counts w c.name owner
  missing : ∀ m ∈ a.missing, w.covers m.name = false
  requests : ∃ requests, List.Forall₂ Moment.Asks past.moments requests ∧
    (∀ n ∈ requests.flatten, w.covers n = false) ∧
    (requests.flatten.foldl Repository.ask r).SameClasses a.repository

variable {r : Repository} {w : Whitelist} {c : ClassModel}

theorem spared_empty (r : Repository) (w : Whitelist) (c : ClassModel) :
    Spared r w c {}
      { repository := r, whitelist := w, className := c.name } where
  waiting := by simp
  turns := by simp
  owners := by simp [CostGraph.owners]
  missing := by simp
  requests := ⟨[], .nil, by simp, .refl r⟩

theorem Spared.operation {past : History} (h : Spared r w c past a)
    (hc : c ∈ r.source.classes) {op : Operation} (hop : op.Of c) :
    Spared r w c { past with operations := past.operations ++ [op] }
      (a.begin op) := by
  have hgrows := a.grows_begin op
  have hvisited : ∀ d m, op.visited? = some (d, m) → d = c ∧ m ∈ c.methods := by
    intro d m hsome
    cases hop with
    | visit hm =>
        obtain ⟨rfl, rfl⟩ := Prod.mk.inj (Option.some.inj hsome)
        exact ⟨rfl, hm⟩
    | field | method | call => cases hsome
  refine ⟨?_, h.turns, ?_, ?_, ?_⟩
  · refine hgrows.forall_queue
      (P := fun d => d ∈ r.source.classes ∧ Counts w c.name d.name) ?_ h.waiting
    intro d m hsome
    obtain ⟨rfl, _⟩ := hvisited d m hsome
    exact ⟨hc, .inl rfl⟩
  · intro owner howner
    rcases List.mem_append.1 (a.owners_begin_subset op howner) with
      howner | howner
    · obtain ⟨⟨d, m⟩, hsome, rfl⟩ :=
        Option.map_eq_some_iff.1 (Option.mem_toList.1 howner)
      obtain ⟨rfl, hm⟩ := hvisited d m hsome
      exact .inl ((ClassSource.named_of_mem_classes hc).owner m hm)
    · exact h.owners owner howner
  · rw [(a.quiet_begin op).missing]
    exact h.missing
  · rw [repository_begin]
    exact h.requests

theorem Spared.turn {past : History} (h : Spared r w c past a) {d : ClassModel}
    {signature : String} {rest : List (ClassModel × String)} {m : Method}
    (hqueue : a.queue = (d, signature) :: rest)
    (hm : d.method? signature = some m) :
    Spared r w c { past with turns := past.turns ++ [⟨a.withQueue rest, m⟩] }
      ((a.withQueue rest).opened m) := by
  obtain ⟨hd, hcounts⟩ :=
    h.waiting (d, signature) (by rw [hqueue]; exact List.mem_cons_self)
  have hmem := mem_methods_of_method? hm
  refine ⟨forall_mem_rest hqueue h.waiting, ?_, ?_, h.missing, ?_⟩
  · intro t ht
    rcases List.mem_append.1 ht with ht | ht
    · exact h.turns t ht
    · obtain rfl := List.mem_singleton.1 ht
      exact ⟨d, hd, hmem⟩
  · intro owner howner
    rcases List.mem_cons.1 (a.graph.owners_add_subset m howner) with
      rfl | howner
    · rw [(ClassSource.named_of_mem_classes hd).owner m hmem]
      exact hcounts
    · exact h.owners owner howner
  · obtain ⟨requests, hasks, hcovers, hsame⟩ := h.requests
    exact ⟨requests, hasks, hcovers,
      hsame.trans (Repository.sameClasses_note _ _)⟩

/-- One more statement asks for one more list of names. -/
theorem Spared.requests_append {past : History} {x : Moment}
    (h : Spared r w c past x.state) {names : List String} (hasks : x.Asks names)
    (hcovers : ∀ n ∈ names, w.covers n = false)
    (hsame : (names.foldl Repository.ask x.state.repository).SameClasses
      b.repository) :
    ∃ requests, List.Forall₂ Moment.Asks (past.moments ++ [x]) requests ∧
      (∀ n ∈ requests.flatten, w.covers n = false) ∧
      (requests.flatten.foldl Repository.ask r).SameClasses b.repository := by
  obtain ⟨requests, hearlier, hcovered, hkept⟩ := h.requests
  refine ⟨requests ++ [names], ?_, ?_, ?_⟩
  · exact List.rel_append hearlier (.cons hasks .nil)
  · intro n hn
    rw [List.flatten_append, List.flatten_singleton, List.mem_append] at hn
    rcases hn with hn | hn
    · exact hcovered n hn
    · exact hcovers n hn
  · rw [List.flatten_append, List.flatten_singleton, List.foldl_append]
    exact (hkept.foldl_ask names).trans hsame

/-- A statement comes from a class file, so its call names a class as the
repository does. -/
theorem Spared.moment {past : History} {x : Moment}
    (h : Spared r w c past x.state) (hover : Over r.source w x.state)
    (hacyclic : r.source.Acyclic) (hnames : r.source.NamesAgree) {t : Turn}
    (ht : t ∈ past.turns) (hstatement : x.statement ∈ t.method.statements) :
    Spared r w c { past with moments := past.moments ++ [x] }
      (apply x.node x.state x.statement) := by
  have hacyclic' : x.state.repository.source.Acyclic := hover.source ▸ hacyclic
  have hnames' : x.state.repository.source.NamesAgree := hover.source ▸ hnames
  obtain ⟨d, hd, hmethod⟩ := h.turns t ht
  have hdotted : ∀ call, x.statement = .invoke call →
      ClassName.dotted call.owner = call.owner := by
    intro call hcall
    exact (ClassSource.named_of_mem_classes hd).calls t.method hmethod call
      (hcall ▸ hstatement)
  have hgrows := grows_apply x.node x.state x.statement
  have hcharged : ∀ d m, x.state.chargedBy? x.statement = some (d, m) →
      d ∈ r.source.classes ∧ m.owner = d.name ∧ Counts w c.name d.name := by
    intro d m hsome
    obtain ⟨hclass, hm, _⟩ := declared_of_chargedBy? hover.faithful hsome
    have hcovers :=
      covers_of_chargedBy? hacyclic' hover.faithful hnames' hdotted hsome
    rw [hover.source] at hclass
    rw [hover.whitelist] at hcovers
    exact ⟨hclass, (ClassSource.named_of_mem_classes hclass).owner m hm,
      .inr hcovers⟩
  obtain ⟨names, hasks, hsame⟩ := exists_asks hacyclic' hover.faithful
  have hcovers : ∀ n ∈ names, w.covers n = false := by
    cases hasks with
    | nothing _ => simp
    | walk hcall hignores hwalk =>
        rw [← hover.whitelist]
        exact hwalk.covers_eq_false
          ((hdotted _ hcall).symm ▸ covers_of_ignores hignores)
  refine ⟨?_, h.turns, ?_, ?_, h.requests_append hasks hcovers hsame⟩
  · refine hgrows.forall_queue
      (P := fun d => d ∈ r.source.classes ∧ Counts w c.name d.name) ?_ h.waiting
    intro d m hsome
    obtain ⟨hclass, _, hcounts⟩ := hcharged d m hsome
    exact ⟨hclass, hcounts⟩
  · intro owner howner
    rcases List.mem_append.1
      (owners_apply_subset x.node x.state x.statement howner) with
      howner | howner
    · obtain ⟨⟨d, m⟩, hsome, rfl⟩ :=
        Option.map_eq_some_iff.1 (Option.mem_toList.1 howner)
      obtain ⟨_, hm, hcounts⟩ := hcharged d m hsome
      show Counts w c.name m.owner
      rw [hm]
      exact hcounts
    · exact h.owners owner howner
  · refine forall_missing_apply (P := fun name => w.covers name = false) x.node
      ?_ h.missing
    intro entry hgiven
    rw [← hover.whitelist]
    exact covers_of_given? hacyclic' hover.faithful hdotted hgiven

theorem spared_preserved (hacyclic : r.source.Acyclic)
    (hnames : r.source.NamesAgree) (hc : c ∈ r.source.classes) :
    Preserves (Operation.Of c) fun past a =>
      Over r.source w a ∧ Spared r w c past a :=
  over_preserved.and
    { operation := fun hop _ h => h.operation hc hop
      skip := fun _ h hqueue _ =>
        { h with waiting := forall_mem_rest hqueue h.waiting }
      turn := fun _ h hqueue hm => h.turn hqueue hm
      moment := fun hover h ht hstatement =>
        h.moment hover hacyclic hnames ht hstatement }

end Analysis

/-- Of a source without cycles whose classes carry the names they are looked up
by: besides the analysed class, no class whose name begins with a prefix of the
whitelist has a node, is asked for, or is missing. The names asked for are those
of the walks that the statements of the run lead to, and they are all that the
repository has been asked for. -/
theorem whitelisted_classes_spared {r r' : Repository} (hfaithful : r.Faithful)
    (hacyclic : r.source.Acyclic) (hnames : r.source.NamesAgree) {w : Whitelist}
    {name : String} {answer : Except LoadFault ClassCost}
    (h : r.classCost w name = (r', answer)) :
    (∀ fault, answer = .error fault → r' = r.ask name) ∧
    ∀ cost, answer = .ok cost → ∃ c turns a requests,
      r.source.load (ClassName.dotted name) = .ok c ∧
        ClassRun (r.get name).1 w c turns a ∧
      (∀ node ∈ cost.graph.nodes, node.owner = ClassName.dotted name ∨
        w.Omits node.owner) ∧
      List.Forall₂ Moment.Asks (turns.flatMap Turn.moments) requests ∧
      ((name :: requests.flatten).foldl Repository.ask r).SameClasses r' ∧
      (∀ asked ∈ requests.flatten, w.Omits asked) ∧
      ∀ missing ∈ cost.missing, w.Omits missing.name := by
  constructor
  · rintro fault rfl
    unfold Repository.classCost at h
    split at h
    · next hget =>
      rw [Repository.ask, hget]
      exact (Prod.mk.inj h).1.symm
    · cases h
  · rintro cost rfl
    obtain ⟨c, turns, a, ids, hload, hrun, rfl, rfl, _⟩ :=
      Repository.exists_classRun hfaithful h
    have hsource := r.source_get name
    have hc : c ∈ (r.get name).1.source.classes :=
      hsource.symm ▸ ClassSource.mem_classes hload
    obtain ⟨⟨past, hpast, _, hspared⟩, _⟩ :=
      (Analysis.spared_preserved (w := w) (hsource.symm ▸ hacyclic)
        (hsource.symm ▸ hnames) hc).classRun
        ⟨Analysis.over_empty (hfaithful.get name) w c.name,
          Analysis.spared_empty _ w c⟩ hrun
    obtain ⟨requests, hasks, hcovers, hsame⟩ := hspared.requests
    rw [hpast] at hasks
    refine ⟨c, turns, a, requests, hload, hrun, ?_, hasks, ?_, ?_, ?_⟩
    · intro node hnode
      have howner : node.owner ∈ a.graph.link.owners :=
        List.mem_map_of_mem (Array.mem_toList_iff.2 hnode)
      rw [a.graph.owners_link] at howner
      rw [← hnames name c hload, ← Whitelist.covers_eq_false_iff]
      exact hspared.owners node.owner howner
    · exact hsame.trans (Repository.sameClasses_note _ _)
    · intro asked hasked
      exact Whitelist.covers_eq_false_iff.1 (hcovers asked hasked)
    · intro missing hmissing
      exact Whitelist.covers_eq_false_iff.1 (hspared.missing missing hmissing)

namespace BrokenParent

theorem namesAgree : repository.source.NamesAgree := by
  intro name c hload
  generalize ClassName.dotted name = dotted at hload ⊢
  obtain ⟨bytes?, hread, hparse⟩ := exists_of_bind_eq_ok hload
  cases bytes? with
  | none => cases hparse
  | some bytes =>
      have hmem := mem_of_lookup (Except.ok.inj hread)
      have hcases : (dotted, bytes) = ("p.A", callerBytes) ∨ (dotted, bytes) =
          ("p.B", childBytes) ∨ (dotted, bytes) = ("p.C", #[0]) := by
        simpa using hmem
      rcases hcases with heq | heq | heq
      · obtain ⟨rfl, rfl⟩ := Prod.mk.inj heq
        obtain rfl := Except.ok.inj ((parse_caller _).symm.trans hparse)
        rfl
      · obtain ⟨rfl, rfl⟩ := Prod.mk.inj heq
        obtain rfl := Except.ok.inj ((parse_child _).symm.trans hparse)
        rfl
      · obtain ⟨rfl, rfl⟩ := Prod.mk.inj heq
        cases hparse

/-- With the broken class on the whitelist, its subclass is asked for and
nothing is missing. -/
theorem parent_spared :
    repository.Faithful ∧ repository.source.Acyclic ∧
      repository.source.NamesAgree ∧
      ∃ r' cost requests, repository.classCost ⟨["p.C"]⟩ "p.A" =
        (r', .ok cost) ∧
        (∀ node ∈ cost.graph.nodes,
          node.owner = "p.A" ∨ Whitelist.Omits ⟨["p.C"]⟩ node.owner) ∧
        (("p.A" :: requests).foldl Repository.ask repository).SameClasses r' ∧
        r'.cache.map Prod.fst = ["p.B", "p.A"] ∧
        (∀ asked ∈ requests, Whitelist.Omits ⟨["p.C"]⟩ asked) ∧
          cost.missing.isEmpty = true := by
  have hfaithful : repository.Faithful :=
    Repository.faithful_empty repository.source #[]
  have hmissing : ((Analysis.ofClass loaded ⟨["p.C"]⟩ caller).visitClass
      caller).1.missing.isEmpty = true := by decide +kernel
  have hcache : ((Analysis.ofClass loaded ⟨["p.C"]⟩ caller).visitClass
      caller).1.repository.cache.map Prod.fst = ["p.B", "p.A"] := by
    decide +kernel
  have hcost := Repository.classCost_of_get get_caller ⟨["p.C"]⟩
  generalize (Analysis.ofClass loaded ⟨["p.C"]⟩ caller).visitClass caller =
    visited at hcost hmissing hcache
  obtain ⟨_, hspared⟩ :=
    whitelisted_classes_spared hfaithful acyclic namesAgree hcost
  obtain ⟨c, turns, a, requests, _, _, hnodes, _, hsame, hasked, _⟩ :=
    hspared _ rfl
  rw [dotted_caller] at hnodes
  exact ⟨hfaithful, acyclic, namesAgree, _, _, requests.flatten, hcost, hnodes,
    hsame, hcache, hasked, hmissing⟩

end BrokenParent

end TestCost
