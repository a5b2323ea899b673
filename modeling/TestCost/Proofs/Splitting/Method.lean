import Mathlib
import TestCost.Proofs.Method.Complexity
import TestCost.Proofs.Method.Fields
import TestCost.Proofs.Splitting.Builder
import TestCost.Proofs.Splitting.Stacks

/-!
# Labels that nothing names

A listing has a label where control can be sent to. A label that nothing sends
control to changes the graph of the body all the same: it ends a block, names
the later blocks anew, and moves ways out from one block to another, which
changes the order in which blocks are run. What is decoded does not change. The
method is the same, but for the order of its statements.

A body is decoded with and without the label side by side. What an instruction
adds hangs on slots and lines only (`BodyState.instruction_eq`), so both bodies
get the same, with the label as one more event in one of them (`Beside`). Then
the graph with the label is a cut of the graph without it.

## Main results

* `BodyState.run_split` — bodies with and without the label.
* `Method.decode_eq_ok_iff` — the parts of a decoded method.
* `labels_split_neutrally` — the methods with and without the label.
-/

namespace TestCost

/-- Nothing but the listing's own place for it names the label: no event places
it, no instruction sends control to it, and it starts no protected range and no
handler. -/
structure Listing.Unnamed (listing : Listing) (l : Label) : Prop where
  unplaced : .label l ∉ listing.events
  untargeted : ∀ i, .instruction i ∈ listing.events → l ∉ i.operand.targets
  unhandled : ∀ range ∈ listing.handlers, l ≠ range.start ∧ l ≠ range.handler

theorem Listing.FieldsConsistent.split {listing : Listing}
    {before after : List CodeEvent} (h : listing.FieldsConsistent)
    (hevents : listing.events = before ++ after) (l : Label) :
    Listing.FieldsConsistent
      { listing with events := before ++ .label l :: after } := by
  have hmem : ∀ i, .instruction i ∈ before ++ CodeEvent.label l :: after →
      .instruction i ∈ listing.events := by
    intro i hi
    rw [hevents]
    simpa using hi
  intro i j member member' isStatic isStatic' hi hj
  exact h i j member member' isStatic isStatic' (hmem i hi) (hmem j hj)

namespace BodyState

/-! ## Two bodies side by side -/

/-- The bodies differ in their first events only. -/
def Beside (first first' : List FlowEvent) (s s' : BodyState) : Prop :=
  ∃ added, s.events.toList = first ++ added ∧
    s' = { s with events := (first' ++ added).toArray }

variable {first first' : List FlowEvent} {s s' : BodyState}

/-- An event of the listing is refused in both bodies, with the same fault, or
in none. -/
theorem Beside.step (h : Beside first first' s s') (event : CodeEvent) :
    (∃ fault, s.step event = .error fault ∧ s'.step event = .error fault) ∨
      ∃ t t', s.step event = .ok t ∧ s'.step event = .ok t' ∧
        Beside first first' t t' := by
  obtain ⟨added, hadded, rfl⟩ := h
  cases event with
  | label l =>
      refine .inr ⟨_, _, rfl, rfl, added ++ [.label l], ?_, ?_⟩
      · simp [BodyState.add, hadded]
      · simp [BodyState.add]
  | line n => exact .inr ⟨_, _, rfl, rfl, added, hadded, rfl⟩
  | instruction i =>
      have hfirst := s.instruction_eq i
      have hsecond :
          BodyState.instruction { s with events := (first' ++ added).toArray }
          i = (s.bare.instruction i).map _ := instruction_eq _ i
      simp only [BodyState.step]
      rw [hfirst, hsecond]
      cases s.bare.instruction i with
      | error fault => exact .inl ⟨(s.line, fault), rfl, rfl⟩
      | ok d =>
          refine .inr ⟨_, _, rfl, rfl, added ++ d.events.toList, ?_, ?_⟩
          · simp [after, hadded]
          · simp [after]

theorem Beside.foldlM (h : Beside first first' s s') (events : List CodeEvent) :
    (∃ fault, events.foldlM BodyState.step s = .error fault ∧
      events.foldlM BodyState.step s' = .error fault) ∨
    ∃ t t', events.foldlM BodyState.step s = .ok t ∧
      events.foldlM BodyState.step s' = .ok t' ∧
      Beside first first' t t' := by
  induction events generalizing s s' with
  | nil => exact .inr ⟨s, s', rfl, rfl, h⟩
  | cons event events ih =>
      rw [List.foldlM_cons, List.foldlM_cons]
      rcases h.step event with ⟨fault, herror, herror'⟩ |
        ⟨t, t', hok, hok', hbeside⟩
      · rw [herror, herror']
        exact .inl ⟨fault, rfl, rfl⟩
      · rw [hok, hok']
        exact ih hbeside

theorem beside_label (s : BodyState) (l : Label) :
    Beside s.events.toList (s.events.toList ++ [.label l]) s
      (s.add (.label l)) := by
  refine ⟨[], by simp, ?_⟩
  have hevents : s.events.push (.label l) = (s.events.toList ++
      [FlowEvent.label l] ++ []).toArray := Array.toList_inj.1 (by simp)
  rw [← hevents]
  rfl

/-- A body with a label more is decoded like the body without it, and has the
same events but for the label. -/
theorem run_split {listing : Listing} {before after : List CodeEvent}
    (hevents : listing.events = before ++ after) (l : Label) (s : BodyState) :
    (∃ fault, s.run listing = .error fault ∧
      s.run { listing with events := before ++ .label l :: after } =
        .error fault) ∨
    ∃ t first second ways ways', s.run listing = .ok t ∧
      t.events.toList = s.events.toList ++
        (listing.handlers.map protection ++ first) ++ second ∧
      Decoded before first ways ∧ Decoded after second ways' ∧
      s.run { listing with events := before ++ .label l :: after } =
        .ok { t with
        events := (s.events.toList ++ (listing.handlers.map protection ++
          first) ++ .label l :: second).toArray } := by
  unfold BodyState.run
  rw [hevents, List.foldlM_append, List.foldlM_append]
  cases hbefore : before.foldlM BodyState.step
    (listing.handlers.foldl handler s) with
  | error fault => exact .inl ⟨fault, rfl, rfl⟩
  | ok u =>
      obtain ⟨first, ways, hfirst, hdecoded⟩ := exists_decoded hbefore
      have hu := ((gains_handlers listing.handlers s).trans hfirst).events
      have hfold : (CodeEvent.label l :: after).foldlM BodyState.step u =
          after.foldlM BodyState.step (u.add (.label l)) := rfl
      rcases (u.beside_label l).foldlM after with
        ⟨fault, herror, herror'⟩ | ⟨t, t', hok, hok', second, hsecond, rfl⟩
      · exact .inl ⟨fault, herror, hfold.trans herror'⟩
      · obtain ⟨added, ways', hgains, hdecoded'⟩ := exists_decoded hok
        obtain rfl : added = second :=
          List.append_cancel_left (hgains.events.symm.trans hsecond)
        refine .inr ⟨t, first, added, ways, ways', hok, ?_, hdecoded,
          hdecoded', ?_⟩
        · rw [hsecond, hu]
        · rw [hu, List.append_assoc (_ ++ _), List.singleton_append] at hok'
          exact hfold.trans hok'

/-! ## The labels of the events -/

/-- The events of an instruction name its targets only, and protect nothing. -/
theorem Added.labels_subset {i : Instruction} {events : List FlowEvent}
    {ways : Nat} (h : Added i events ways) {e : FlowEvent} (he : e ∈ events) :
    e.isProtect = false ∧ ∀ l ∈ e.labels, l ∈ i.operand.targets := by
  cases h with
  | nothing => cases he
  | op o =>
      obtain rfl := List.mem_singleton.1 he
      exact ⟨rfl, by simp [FlowEvent.labels]⟩
  | jump hoperand | subroutine _ _ hoperand =>
      obtain rfl := List.mem_singleton.1 he
      exact ⟨rfl, by simp [FlowEvent.labels, Operand.targets, hoperand]⟩
  | branch o hoperand | tableSwitch o _ hoperand | lookupSwitch o _ hoperand =>
      rcases List.mem_cons.1 he with rfl | he
      · exact ⟨rfl, by simp [FlowEvent.labels]⟩
      · obtain rfl := List.mem_singleton.1 he
        exact ⟨rfl,
          by simp [FlowEvent.labels, Operand.targets, hoperand, or_comm]⟩

/-- The events of a part of a listing name its labels and the targets of its
instructions only, and protect nothing. -/
theorem Decoded.labels_subset {code : List CodeEvent} {events : List FlowEvent}
    {ways : Nat} (h : Decoded code events ways) {e : FlowEvent}
    (he : e ∈ events) :
    e.isProtect = false ∧ ∀ l ∈ e.labels,
      .label l ∈ code ∨ ∃ i, .instruction i ∈ code ∧ l ∈ i.operand.targets := by
  have hmore : ∀ {first : CodeEvent} {rest : List CodeEvent} {l : Label},
      (.label l ∈ rest ∨ ∃ i, .instruction i ∈ rest ∧ l ∈ i.operand.targets) →
      .label l ∈ first :: rest ∨ ∃ i,
        .instruction i ∈ first :: rest ∧ l ∈ i.operand.targets :=
    fun hl => hl.imp (List.mem_cons_of_mem _) fun ⟨i, hi, ht⟩ =>
      ⟨i, List.mem_cons_of_mem _ hi, ht⟩
  induction h with
  | nil => cases he
  | label k _ ih =>
      rcases List.mem_cons.1 he with rfl | he
      · refine ⟨rfl, fun l hl => .inl ?_⟩
        rw [List.mem_singleton.1 hl]
        exact List.mem_cons_self
      · exact ⟨(ih he).1, fun l hl => hmore ((ih he).2 l hl)⟩
  | line _ _ ih => exact ⟨(ih he).1, fun l hl => hmore ((ih he).2 l hl)⟩
  | instruction hadded _ ih =>
      rcases List.mem_append.1 he with he | he
      · obtain ⟨hprotect, hlabels⟩ := hadded.labels_subset he
        exact ⟨hprotect, fun l hl => .inr ⟨_, List.mem_cons_self, hlabels l hl⟩⟩
      · exact ⟨(ih he).1, fun l hl => hmore ((ih he).2 l hl)⟩

/-- The graphs of the two bodies: one is a cut of the other. -/
theorem exists_cut_of_decoded
    {listing : Listing} {before after : List CodeEvent}
    {l : Label} (hevents : listing.events = before ++ after)
    (honce : (listing.events.filterMap CodeEvent.label?).Nodup)
    (hunnamed : listing.Unnamed l) {first second : List FlowEvent}
    {ways ways' : Nat} (hfirst : Decoded before first ways)
    (hsecond : Decoded after second ways') :
    ∃ ρ cut fresh, FlowGraph.Cut ρ cut fresh
      (FlowGraph.ofEvents
        ((listing.handlers.map protection ++ first) ++ second))
      (FlowGraph.ofEvents
        ((listing.handlers.map protection ++ first) ++
          .label l :: second)) := by
  apply FlowGraph.exists_cut_ofEvents
  · rw [FlowEvent.PlacedOnce, List.filterMap_append, List.filterMap_append,
      (quiet_protections listing.handlers).1, hfirst.placed_eq,
      hsecond.placed_eq, List.nil_append, ← List.filterMap_append, ← hevents]
    exact honce
  · intro e he hl
    have hdecoded : ∀ {code events ways}, Decoded code events ways →
        e ∈ events →
        (∀ event ∈ code, event ∈ listing.events) → False := by
      intro code events ways hdecoded he hcode
      rcases (hdecoded.labels_subset he).2 l hl with hlabel | ⟨i, hi, htarget⟩
      · exact hunnamed.unplaced (hcode _ hlabel)
      · exact hunnamed.untargeted i (hcode _ hi) htarget
    rcases List.mem_append.1 he with he | he
    · rcases List.mem_append.1 he with he | he
      · obtain ⟨range, hrange, rfl⟩ := List.mem_map.1 he
        obtain ⟨hstart, hhandler⟩ := hunnamed.unhandled range hrange
        simp [protection, FlowEvent.labels, hstart, hhandler] at hl
      · exact hdecoded hfirst he fun event hevent =>
          hevents ▸ List.mem_append_left _ hevent
    · exact hdecoded hsecond he fun event hevent =>
        hevents ▸ List.mem_append_right _ hevent
  · intro e he
    exact (hsecond.labels_subset he).1

/-- A body with a label more is decoded if the body without it is, and its graph
is a cut of the graph of that. -/
theorem exists_cut_of_run {listing : Listing} {before after : List CodeEvent}
    {l : Label} (hevents : listing.events = before ++ after)
    (honce : (listing.events.filterMap CodeEvent.label?).Nodup)
    (hunnamed : listing.Unnamed l) (slots : Slots) :
    (∃ fault, run { slots } listing = .error fault ∧
      run { slots } { listing with events := before ++ .label l :: after } =
        .error fault) ∨
    ∃ t t', run { slots } listing = .ok t ∧
      run { slots } { listing with events := before ++ .label l :: after } =
        .ok t' ∧
      t' = { t with events := t'.events } ∧
      ∃ ρ cut fresh, FlowGraph.Cut ρ cut fresh t.graph t'.graph := by
  rcases run_split hevents l { slots } with
    herror | ⟨t, first, second, ways, ways', ht, htevents, hfirst, hsecond, ht'⟩
  · exact .inl herror
  · have hcut := exists_cut_of_decoded hevents honce hunnamed hfirst hsecond
    have hgraph : FlowGraph.ofEvents
        ((listing.handlers.map protection ++ first) ++ second) = t.graph := by
      rw [graph, htevents]
      rfl
    rw [hgraph] at hcut
    exact .inr ⟨t, _, ht, ht', rfl, hcut⟩

end BodyState

/-! ## Methods -/

namespace Method

/-- The parts that a decoded method is made of. -/
theorem decode_eq_ok_iff {header : MethodHeader} {listing : Listing}
    {m : Method} :
    decode header (some listing) = .ok m ↔ ∃ type body statements,
      BodyState.typeOf header.descriptor = .ok type ∧
      BodyState.run { slots := (parametersOf header type listing.names).1 }
        listing = .ok body ∧
      body.graph.statements = .ok statements ∧
      m = { header with
        receiver := (parametersOf header type listing.names).2.1
        parameters := (parametersOf header type listing.names).2.2
        locals := body.slots.locals, complexity := body.complexity
        startingLine := body.startingLine.getD 0, statements } := by
  constructor
  · intro h
    obtain ⟨type, htype, h⟩ := exists_of_bind_eq_ok h
    obtain ⟨body, hbody, h⟩ := exists_of_bind_eq_ok h
    obtain ⟨statements, hstatements, h⟩ := exists_of_bind_eq_ok h
    exact ⟨type, body, statements, mapError_eq_ok_iff.1 htype,
      mapError_eq_ok_iff.1 hbody, mapError_eq_ok_iff.1 hstatements,
      (Except.ok.inj h).symm⟩
  · rintro ⟨type, body, statements, htype, hbody, hstatements, rfl⟩
    refine bind_eq_ok (mapError_eq_ok_iff.2 htype) ?_
    refine bind_eq_ok (mapError_eq_ok_iff.2 hbody) ?_
    exact bind_eq_ok (mapError_eq_ok_iff.2 hstatements) rfl

variable {header : MethodHeader} {listing : Listing} {type : MethodType}
  {body : BodyState}
  {m : Method}

/-- A method whose body is decoded hangs on execution only. -/
theorem eq_of_decode (htype : BodyState.typeOf header.descriptor = .ok type)
    (hbody : BodyState.run
      { slots := (parametersOf header type listing.names).1 } listing =
      .ok body) (h : decode header (some listing) = .ok m) :
    body.graph.statements = .ok m.statements ∧
      m = { header with
        receiver := (parametersOf header type listing.names).2.1
        parameters := (parametersOf header type listing.names).2.2
        locals := body.slots.locals, complexity := body.complexity
        startingLine := body.startingLine.getD 0, statements :=
          m.statements } := by
  obtain ⟨type', body', statements, htype', hbody', hstatements, rfl⟩ :=
    decode_eq_ok_iff.1 h
  obtain rfl := Except.ok.inj (htype.symm.trans htype')
  obtain rfl := Except.ok.inj (hbody.symm.trans hbody')
  exact ⟨hstatements, rfl⟩

theorem exists_decode_iff
    (htype : BodyState.typeOf header.descriptor = .ok type)
    (hbody : BodyState.run
      { slots := (parametersOf header type listing.names).1 } listing =
      .ok body) :
    (∃ m, decode header (some listing) = .ok m) ↔
      ∃ answer, body.graph.statements = .ok answer := by
  constructor
  · rintro ⟨m, hm⟩
    exact ⟨m.statements, (eq_of_decode htype hbody hm).1⟩
  · rintro ⟨answer, hanswer⟩
    exact ⟨_,
      decode_eq_ok_iff.2 ⟨type, body, answer, htype, hbody, hanswer, rfl⟩⟩

/-- A method whose descriptor is refused is refused. -/
theorem decode_ne_ok_of_descriptor {fault : CodeFault}
    (htype : BodyState.typeOf header.descriptor = .error fault)
    (listing : Listing) (m : Method) :
    decode header (some listing) ≠ .ok m := by
  intro h
  obtain ⟨type, _, _, htype', _⟩ := decode_eq_ok_iff.1 h
  rw [htype] at htype'
  cases htype'

/-- A method whose body is refused is refused. -/
theorem decode_ne_ok {fault : Nat × CodeFault}
    (htype : BodyState.typeOf header.descriptor = .ok type)
    (hbody : BodyState.run
      { slots := (parametersOf header type listing.names).1 } listing =
      .error fault) (m : Method) : decode header (some listing) ≠ .ok m := by
  intro h
  obtain ⟨type', body, _, htype', hbody', _⟩ := decode_eq_ok_iff.1 h
  obtain rfl := Except.ok.inj (htype.symm.trans htype')
  rw [hbody] at hbody'
  cases hbody'

end Method

/-- **Labels split blocks without a trace.** Take a listing that places no label
twice and is consistent about its fields, and put a label that nothing names at
any place of it. The method is decoded with the label if it is decoded without
it. Then both methods are the same, but for the order of their statements. -/
theorem labels_split_neutrally
    (header : MethodHeader) {listing : Listing} {before after : List CodeEvent}
    {l : Label} (hevents : listing.events = before ++ after)
    (honce : (listing.events.filterMap CodeEvent.label?).Nodup)
    (hfields : listing.FieldsConsistent) (hunnamed : listing.Unnamed l) :
    ((∃ m, Method.decode header (some listing) = .ok m) ↔
      ∃ m, Method.decode header
        (some { listing with events := before ++ .label l :: after }) = .ok m) ∧
    ∀ m m', Method.decode header (some listing) = .ok m →
      Method.decode header
        (some { listing with events := before ++ .label l :: after }) = .ok m' →
      m'.toMethodHeader = m.toMethodHeader ∧ m'.complexity = m.complexity ∧
        m'.startingLine = m.startingLine ∧ m'.receiver = m.receiver ∧
        m'.parameters = m.parameters ∧ m'.locals = m.locals ∧
        m'.statements.Perm m.statements := by
  cases htype : BodyState.typeOf header.descriptor with
  | error fault =>
      have hnone := Method.decode_ne_ok_of_descriptor htype
      exact ⟨iff_of_false (fun ⟨m, h⟩ => hnone _ m h) (fun ⟨m, h⟩ =>
        hnone _ m h), fun m _ h => absurd h (hnone _ m)⟩
  | ok type =>
      have hslots := Method.servesNoField_parametersOf header type listing.names
      rcases BodyState.exists_cut_of_run hevents honce hunnamed
          (Method.parametersOf header type listing.names).1 with
        ⟨fault, hbody, hbody'⟩ |
          ⟨t, t', hbody, hbody', hsame, ρ, cut, fresh, hcut⟩
      · have hnone := Method.decode_ne_ok htype hbody
        have hnone' : ∀ m, Method.decode header
            (some { listing with events := before ++ .label l :: after }) ≠
              .ok m :=
          Method.decode_ne_ok htype hbody'
        exact ⟨iff_of_false (fun ⟨m, h⟩ => hnone m h) (fun ⟨m, h⟩ =>
          hnone' m h), fun m _ h => absurd h (hnone m)⟩
      · have hg : t.graph.WellFormed := FlowGraph.wellFormed_ofEvents _
        have hg' : t'.graph.WellFormed := FlowGraph.wellFormed_ofEvents _
        have hnone : BodyState.effects
            { slots := (Method.parametersOf header type listing.names).1 } =
              [] := rfl
        have hagree := BodyState.fieldsAgree_of_run
          ⟨hslots, by simp [hnone]⟩ hbody hfields
        have hagree' := BodyState.fieldsAgree_of_run
          ⟨hslots, by simp [hnone]⟩ hbody' (hfields.split hevents l)
        constructor
        · rw [Method.exists_decode_iff htype hbody,
            Method.exists_decode_iff htype hbody']
          exact hcut.exists_statements_iff hg hg' hagree hagree'
        · intro m m' hm hm'
          obtain ⟨hanswer, hparts⟩ := Method.eq_of_decode htype hbody hm
          obtain ⟨hanswer', hparts'⟩ := Method.eq_of_decode htype hbody' hm'
          have hperm := hcut.perm_statements hg hagree hagree' hanswer hanswer'
          rw [hparts', hparts, hsame]
          exact ⟨rfl, rfl, rfl, rfl, rfl, rfl, hperm.symm⟩

namespace ProtectedCopy

/-- A method of a class `p.A` that copies a parameter and a field to locals,
with a handler for both copies. -/
def header : MethodHeader where
  owner := "p.A"
  name := "run"
  descriptor := "(I)V"
  visibility := .publicAccess
  isStatic := true

/-- The copy of the parameter. -/
def before : List CodeEvent :=
  [.label 0, .instruction ⟨0, 0x15, .slot 0⟩, .instruction ⟨1, 0x36, .slot 1⟩]

/-- The copy of the field, and the handler. -/
def after : List CodeEvent :=
  [.instruction ⟨2, 0xb2, .field ⟨"p.A", "count", "I"⟩⟩,
    .instruction ⟨5, 0x36, .slot 2⟩,
    .instruction ⟨6, 0xb1, .none⟩, .label 10, .instruction ⟨10, 0x3a, .slot 3⟩,
    .instruction ⟨11, 0xb1, .none⟩]

def listing : Listing where
  events := before ++ after
  handlers := [⟨0, 10, 10, none⟩]

def slotVariable (ordinal : Nat) (name : String) (type : ValueType) :
    LocalVariable :=
  { scope := "p.A.run(I)V", ordinal, name, type }

def copyParameter : Statement :=
  .assign 0 (.localVar (slotVariable 1 "local_1" .int))
    (.parameter (slotVariable 0 "param_0" .int))

def copyField : Statement :=
  .assign 0 (.localVar (slotVariable 2 "local_2" .int))
    (.field { owner := "p.A", name := "count", type := .int, isStatic := true,
              isPrivate := false })

def copyException : Statement :=
  .assign 0 (.localVar (slotVariable 3 "local_3" .reference))
    (.constant { value := "java.lang.Throwable", type := .reference })

def method (statements : List Statement) : Method where
  toMethodHeader := header
  receiver := none
  parameters := [.parameter (slotVariable 0 "param_0" .int)]
  locals := [.localVar (slotVariable 1 "local_1" .int),
    .localVar (slotVariable 2 "local_2" .int),
    .localVar (slotVariable 3 "local_3" .reference)]
  complexity := 1
  startingLine := 0
  statements := statements

/-- A label between the two copies puts the copy of the field behind the
handler. -/
theorem copies_split_neutrally :
    Method.decode header (some listing) =
        .ok (method [copyParameter, copyField, copyException]) ∧
      Method.decode header
        (some { listing with events := before ++ .label 2 :: after }) =
        .ok (method [copyParameter, copyException, copyField]) ∧
      (method [copyParameter, copyException, copyField]).statements.Perm
        (method [copyParameter, copyField, copyException]).statements := by
  have hwhole : Method.decode header (some listing) =
      .ok (method [copyParameter, copyField, copyException]) := by cbv
  have hsplit : Method.decode header
      (some { listing with events := before ++ .label 2 :: after }) =
      .ok (method [copyParameter, copyException, copyField]) := by
    cbv
  have hevents : listing.events = before ++ after := rfl
  have huses : (listing.events.filterMap CodeEvent.instruction?).filterMap
      Instruction.fieldUse? = [(⟨"p.A", "count", "I"⟩, true)] := by
    decide
  have hfields : listing.FieldsConsistent := by
    intro i j member member' isStatic isStatic' hi hj huse huse' _ _
    have honly : ∀ {i use}, .instruction i ∈ listing.events →
        i.fieldUse? = some use →
        use ∈ [((⟨"p.A", "count", "I"⟩ : MemberRef), true)] := by
      intro i use hi huse
      rw [← huses]
      exact List.mem_filterMap.2 ⟨i, List.mem_filterMap.2 ⟨_, hi, rfl⟩, huse⟩
    obtain ⟨rfl, rfl⟩ := Prod.mk.inj (List.mem_singleton.1 (honly hi huse))
    obtain ⟨rfl, rfl⟩ := Prod.mk.inj (List.mem_singleton.1 (honly hj huse'))
    exact ⟨rfl, rfl⟩
  have hunnamed : listing.Unnamed 2 := by
    refine ⟨by decide, ?_, ?_⟩
    · simp [listing, before, after, Operand.targets]
    · simp [listing]
  obtain ⟨_, hboth⟩ :=
    labels_split_neutrally header hevents (by decide) hfields hunnamed
  exact ⟨hwhole, hsplit, (hboth _ _ hwhole hsplit).2.2.2.2.2.2⟩

end ProtectedCopy

end TestCost
