import Mathlib
import TestCost.Proofs.Method
import TestCost.Proofs.Method.Fields

/-!
# The variables of a method

A method has a receiver, parameters and locals, and every one of them is made
once: by a slot that is a parameter's, or by an access of a slot that has no
variable to serve. Making one gives it the scope of the method and the next
number, so the variables of a method are told apart by their numbers.

Statements name variables. On their way there values go from slots onto the
operand stack, through copies, swaps and joins, but no step makes a variable of
its own. So what a statement names is a variable of the method, a field that an
instruction of the method refers to, or a constant.

## Main results

* `Slots.Numbered.access` — an access keeps the numbering and gives one of the
  variables.
* `BodyState.Means.keeps_scope`, `BodyState.inScope_run` — what an instruction,
  and then a listing, may name.
* `StackOp.mem_of_statement?` — a statement names operands and what its
  operation writes to.
* `Method.variables_in_scope` — the variables of decoded methods.
-/

namespace TestCost

/-- The variables that a statement names. -/
def Statement.variables : Statement → List Variable
  | assign _ target value => [target, value]
  | putField _ receiver target value =>
    receiver.toList ++ [.field target, value]
  | putElement _ array index value => [array, index, value]
  | invoke call => call.receiver.toList ++ call.arguments

/-- The variable is one of these, or a field that one of the instructions refers
to, or a constant. -/
def Variable.InScope (events : List CodeEvent)
    (parameters locals : List LocalVariable) :
    Variable → Prop
  | parameter v => v ∈ parameters
  | localVar v => v ∈ locals
  | field f => ∃ i, .instruction i ∈ events ∧ i.Uses f
  | constant _ => True

theorem Variable.InScope.append {events : List CodeEvent}
    {parameters locals : List LocalVariable} {v : Variable}
    (h : v.InScope events parameters locals) (more : List LocalVariable) :
    v.InScope events parameters (locals ++ more) := by
  cases v with
  | localVar v => exact List.mem_append_left more h
  | parameter v => exact h
  | field f => exact h
  | constant c => trivial

/-! ## Statements -/

namespace StackEffect

/-- What the statement of the effect writes to, other than an element. -/
def written : StackEffect → List Variable
  | store v => [v]
  | putField f => [.field f]
  | _ => []

/-- The variables that the effect names itself. -/
def named (effect : StackEffect) : List Variable :=
  effect.pushed ++ effect.written

theorem mem_of_arguments {input found : List Variable} {position : Nat}
    {types : List ValueType} (h : arguments input position types = some found)
    {v : Variable} (hv : v ∈ found) :
    v ∈ input := by
  induction types generalizing position found with
  | nil =>
      obtain rfl := Option.some.inj h
      cases hv
  | cons type types ih =>
      obtain ⟨first, hfirst, h⟩ := Option.bind_eq_some_iff.1 h
      obtain ⟨rest, hrest, h⟩ := Option.bind_eq_some_iff.1 h
      obtain rfl := Option.some.inj h
      rcases List.mem_cons.1 hv with rfl | hv
      · exact List.mem_of_getElem? hfirst
      · exact ih hrest hv

end StackEffect

/-- A statement names operands, and what its operation writes to. -/
theorem StackOp.mem_of_statement? {op : StackOp} {input : List Variable}
    {s : Statement} (h : op.statement? input = some (some s)) {v : Variable}
    (hv : v ∈ s.variables) :
    v ∈ input ∨ v ∈ op.effect.written := by
  obtain ⟨line, effect⟩ := op
  cases effect with
  | store target =>
      obtain ⟨value, hvalue, h⟩ := Option.bind_eq_some_iff.1 h
      obtain rfl := Option.some.inj (Option.some.inj h)
      rcases List.mem_pair.1 hv with rfl | rfl
      · exact .inr List.mem_cons_self
      · exact .inl (List.mem_of_getElem? hvalue)
  | putField f =>
      simp only [StackOp.statement?, StackEffect.statement?] at h
      split at h
      · obtain ⟨value, hvalue, h⟩ := Option.bind_eq_some_iff.1 h
        obtain rfl := Option.some.inj (Option.some.inj h)
        rcases List.mem_pair.1 hv with rfl | rfl
        · exact .inr List.mem_cons_self
        · exact .inl (List.mem_of_getElem? hvalue)
      · obtain ⟨receiver, hreceiver, h⟩ := Option.bind_eq_some_iff.1 h
        obtain ⟨value, hvalue, h⟩ := Option.bind_eq_some_iff.1 h
        obtain rfl := Option.some.inj (Option.some.inj h)
        rcases List.mem_cons.1 hv with rfl | hv
        · exact .inl (List.mem_of_getElem? hreceiver)
        · rcases List.mem_pair.1 hv with rfl | rfl
          · exact .inr List.mem_cons_self
          · exact .inl (List.mem_of_getElem? hvalue)
  | arrayStore element =>
      obtain ⟨array, harray, h⟩ := Option.bind_eq_some_iff.1 h
      obtain ⟨index, hindex, h⟩ := Option.bind_eq_some_iff.1 h
      obtain ⟨value, hvalue, h⟩ := Option.bind_eq_some_iff.1 h
      obtain rfl := Option.some.inj (Option.some.inj h)
      rcases List.mem_cons.1 hv with rfl | hv
      · exact .inl (List.mem_of_getElem? harray)
      · rcases List.mem_pair.1 hv with rfl | rfl
        · exact .inl (List.mem_of_getElem? hindex)
        · exact .inl (List.mem_of_getElem? hvalue)
  | invoke target =>
      simp only [StackOp.statement?, StackEffect.statement?] at h
      split at h
      · obtain ⟨found, hfound, h⟩ := Option.bind_eq_some_iff.1 h
        obtain rfl := Option.some.inj (Option.some.inj h)
        exact .inl (StackEffect.mem_of_arguments hfound hv)
      · obtain ⟨receiver, hreceiver, h⟩ := Option.bind_eq_some_iff.1 h
        obtain ⟨found, hfound, h⟩ := Option.bind_eq_some_iff.1 h
        obtain rfl := Option.some.inj (Option.some.inj h)
        rcases List.mem_cons.1 hv with rfl | hv
        · exact .inl (List.mem_of_getElem? hreceiver)
        · exact .inl (StackEffect.mem_of_arguments hfound hv)
  | load | transform | getField | arrayLoad | duplicate | duplicatePair | swap
  | pop | leave
  | raise => cases h

/-! ## Slots -/

namespace Slots

variable {scope : String} {parameters locals : List LocalVariable} {s : Slots}

/-- The variables made so far are these parameters and locals of one scope,
numbered in order, and slots serve no others. -/
structure Numbered (scope : String) (parameters locals : List LocalVariable)
    (s : Slots) :
    Prop where
  scope_eq : s.scope = scope
  locals_eq : s.locals = locals.map .localVar
  ordinals : (parameters ++ locals).map LocalVariable.ordinal =
    List.range s.count
  scopes : ∀ v ∈ parameters ++ locals, v.scope = scope
  served : ∀ entry ∈ s.current,
    (∃ v ∈ parameters, entry.2 = .parameter v) ∨
      ∃ v ∈ locals, entry.2 = .localVar v

theorem numbered_empty (scope : String) (names : List DebugName) :
    Numbered scope [] [] { scope, names } :=
  ⟨rfl, rfl, rfl, by simp, by simp⟩

/-- The variable that is made next has the next number and the scope of the
others. -/
theorem Numbered.fresh (h : s.Numbered scope parameters locals) (name : String)
    (type : ValueType) :
    (parameters ++ locals ++ [s.fresh name type]).map LocalVariable.ordinal =
        List.range (s.count + 1) ∧
      ∀ v ∈ parameters ++ locals ++ [s.fresh name type], v.scope = scope := by
  constructor
  · rw [List.map_append, h.ordinals, List.range_succ]
    rfl
  · intro v hv
    rcases List.mem_append.1 hv with hv | hv
    · exact h.scopes v hv
    · rw [List.mem_singleton.1 hv]
      exact h.scope_eq

/-- A parameter comes before all locals. -/
theorem Numbered.parameter (h : s.Numbered scope parameters []) (slot : Nat)
    (type : ValueType) (fallback : String) :
    ∃ v : LocalVariable, (s.parameter slot type fallback).2 = .parameter v ∧
      (s.parameter slot type fallback).1.Numbered scope
        (parameters ++ [v]) [] := by
  have hfresh := h.fresh ((DebugName.name? s.names slot 0).getD fallback) type
  rw [List.append_nil] at hfresh
  refine ⟨_, rfl, h.scope_eq, h.locals_eq, ?_, ?_, ?_⟩
  · rw [List.append_nil]
    exact hfresh.1
  · rw [List.append_nil]
    exact hfresh.2
  · intro entry hentry
    rcases List.mem_cons.1 hentry with rfl | hentry
    · exact .inl ⟨_, List.mem_append_right _ List.mem_cons_self, rfl⟩
    · rcases h.served entry hentry with ⟨v, hv, heq⟩ | ⟨v, hv, _⟩
      · exact .inl ⟨v, List.mem_append_left _ hv, heq⟩
      · cases hv

theorem Numbered.addParameters (h : s.Numbered scope parameters [])
    (slot rank : Nat) (types : List ValueType) :
    ∃ more : List LocalVariable, (s.addParameters slot rank types).2 =
      more.map .parameter ∧
      (s.addParameters slot rank types).1.Numbered scope
        (parameters ++ more) [] := by
  induction types generalizing s slot rank parameters with
  | nil => exact ⟨[], rfl, by rwa [List.append_nil]⟩
  | cons type types ih =>
      obtain ⟨v, hv, hfirst⟩ :=
        h.parameter slot type ("param_" ++ toString rank)
      obtain ⟨more, hmore, hrest⟩ := ih hfirst (slot + type.slots) (rank + 1)
      refine ⟨v :: more, ?_, ?_⟩
      · exact congrArg₂ List.cons hv hmore
      · rwa [List.append_assoc] at hrest

/-- An access gives a variable that is there, or makes one. -/
theorem Numbered.access (h : s.Numbered scope parameters locals) (slot : Nat)
    (type : ValueType) (offset : Nat) (events : List CodeEvent) :
    ∃ more,
      (s.access slot type offset).1.Numbered scope parameters (locals ++ more) ∧
      (s.access slot type offset).2.InScope events parameters
        (locals ++ more) := by
  unfold Slots.access
  dsimp only
  split
  · next v hv =>
    obtain ⟨hlookup, _⟩ := Option.filter_eq_some_iff.1 hv
    obtain ⟨before, after, heq, _⟩ := List.lookup_eq_some_iff.1 hlookup
    refine ⟨[], ?_, ?_⟩
    · rwa [List.append_nil]
    · rw [List.append_nil]
      rcases h.served (slot, v) (by simp [heq]) with ⟨w, hw, rfl⟩ | ⟨w, hw, rfl⟩
      · exact hw
      · exact hw
  · refine ⟨[s.fresh _ type], ⟨h.scope_eq, ?_, ?_, ?_, ?_⟩,
      List.mem_append_right _ List.mem_cons_self⟩
    · rw [List.map_append, ← h.locals_eq]
      rfl
    · rw [← List.append_assoc]
      exact (h.fresh _ type).1
    · rw [← List.append_assoc]
      exact (h.fresh _ type).2
    · intro entry hentry
      rcases List.mem_cons.1 hentry with rfl | hentry
      · exact .inr ⟨_, List.mem_append_right _ List.mem_cons_self, rfl⟩
      · rcases h.served entry hentry with hparameter | ⟨v, hv, heq⟩
        · exact .inl hparameter
        · exact .inr ⟨v, List.mem_append_left _ hv, heq⟩

end Slots

/-- The receiver and the parameters of a method are its first variables. -/
theorem Method.exists_numbered_parametersOf (header : MethodHeader)
    (type : MethodType) (names : List DebugName) :
    ∃ parameters : List LocalVariable,
      (parametersOf header type names).2.1.toList ++
        (parametersOf header type names).2.2 =
        parameters.map .parameter ∧
      (parametersOf header type names).1.Numbered header.fullName
        parameters [] := by
  have hempty := Slots.numbered_empty header.fullName names
  unfold parametersOf
  dsimp only
  split
  · obtain ⟨more, hmore, hslots⟩ := hempty.addParameters 0 0 type.parameters
    exact ⟨more, hmore, hslots⟩
  · obtain ⟨v, hv, hreceiver⟩ := hempty.parameter 0 .reference "this"
    obtain ⟨more, hmore, hslots⟩ := hreceiver.addParameters 1 0 type.parameters
    exact ⟨v :: more, congrArg₂ List.cons hv hmore, hslots⟩

/-! ## Instructions -/

/-- The variable is a constant. -/
def Variable.isConstant : Variable → Bool
  | .constant _ => true
  | .parameter _ | .localVar _ | .field _ => false

/-- The meaning is not an effect that names anything but constants. -/
def Meaning.namesConstants : Meaning → Bool
  | .effect e => e.named.all Variable.isConstant
  | _ => true

theorem Meaning.isConstant_of_ofOpcode? {opcode : Nat} {effect : StackEffect}
    (h : ofOpcode? opcode = some (.effect effect)) {v : Variable}
    (hv : v ∈ effect.named) :
    v.isConstant = true := by
  have hall : ∀ opcode < 0xca, ∀ m ∈ ofOpcode? opcode,
      m.namesConstants = true := by
    decide +kernel
  by_cases hlt : opcode < 0xca
  · have hconstants := hall opcode hlt _ h
    rw [namesConstants, List.all_eq_true] at hconstants
    exact hconstants v hv
  · rw [ofOpcode?_of_le (by omega)] at h
    cases h

namespace BodyState

variable {scope : String} {parameters locals : List LocalVariable}
  {s t : BodyState}
  {listing : Listing} {events : List CodeEvent}

/-- An instruction keeps the numbering of variables, and its operations name
what is in scope behind it. Only an access of a slot makes a variable. -/
theorem Means.keeps_scope
    {slots slots' : Slots} {i : Instruction} {effects : List StackEffect}
    (h : Means slots i slots' effects) (hi : .instruction i ∈ events)
    (hslots : slots.Numbered scope parameters locals) :
    ∃ more, slots'.Numbered scope parameters (locals ++ more) ∧
      ∀ effect ∈ effects, ∀ v ∈ effect.named,
        v.InScope events parameters (locals ++ more) := by
  have hkept : ∀ {effects : List StackEffect},
      (∀ effect ∈ effects, ∀ v ∈ effect.named,
        v.InScope events parameters locals) →
      ∃ more, slots.Numbered scope parameters (locals ++ more) ∧
        ∀ effect ∈ effects, ∀ v ∈ effect.named,
          v.InScope events parameters (locals ++ more) :=
    fun heffects => ⟨[], by rwa [List.append_nil], by rwa [List.append_nil]⟩
  cases h with
  | nothing | pop | leave =>
      exact hkept
        (by simp [StackEffect.named, StackEffect.pushed, StackEffect.written])
  | table hm =>
      apply hkept
      intro effect heffect v hv
      obtain rfl := List.mem_singleton.1 heffect
      have hconstant := Meaning.isConstant_of_ofOpcode? hm hv
      cases v with
      | constant c => trivial
      | _ => cases hconstant
  | constant c => exact hkept (by simp [StackEffect.named, StackEffect.pushed,
      StackEffect.written, Variable.InScope])
  | compute operands result =>
      apply hkept
      cases result <;> simp [StackEffect.named, StackEffect.pushed,
        StackEffect.written, Variable.InScope]
  | load slot type =>
      obtain ⟨more, hafter, hscope⟩ := hslots.access slot type i.offset events
      exact ⟨more, hafter, by simpa [StackEffect.named, StackEffect.pushed,
        StackEffect.written] using hscope⟩
  | store slot type =>
      obtain ⟨more, hafter, hscope⟩ := hslots.access slot type i.offset events
      exact ⟨more, hafter, by simpa [StackEffect.named, StackEffect.pushed,
        StackEffect.written] using hscope⟩
  | increment slot =>
      obtain ⟨more, hafter, _⟩ := hslots.access slot .int i.offset events
      exact ⟨more, hafter, by simp⟩
  | @read isStatic member f hm hoperand hf =>
      apply hkept
      intro effect heffect v hv
      obtain rfl := List.mem_singleton.1 heffect
      obtain rfl := List.mem_singleton.1 hv
      exact ⟨i, hi, member, isStatic,
        by simp [Instruction.fieldUse?, hm, hoperand], hf⟩
  | @write isStatic member f hm hoperand hf =>
      apply hkept
      intro effect heffect v hv
      obtain rfl := List.mem_singleton.1 heffect
      obtain rfl := List.mem_singleton.1 hv
      exact ⟨i, hi, member, isStatic,
        by simp [Instruction.fieldUse?, hm, hoperand], hf⟩
  | call hoperand htype =>
      exact hkept (by simp [StackEffect.named, StackEffect.pushed,
        StackEffect.written, Variable.InScope])

/-! ## Bodies -/

/-- The variables so far are numbered, and effects name nothing else that is a
variable of a method. -/
def InScope (events : List CodeEvent)
    (scope : String) (parameters : List LocalVariable) (slots : Slots)
    (effects : List StackEffect) : Prop :=
  ∃ locals, slots.Numbered scope parameters locals ∧
    ∀ effect ∈ effects, ∀ v ∈ effect.named, v.InScope events parameters locals

theorem inScope_run
    (h : InScope listing.events scope parameters s.slots s.effects)
    (hrun : s.run listing = .ok t) :
    InScope listing.events scope parameters t.slots t.effects := by
  refine run_induction (H := InScope listing.events scope parameters)
    ?_ ?_ h hrun
  · rintro slots effects value ⟨locals, hslots, hnamed⟩
    refine ⟨locals, hslots, ?_⟩
    intro effect heffect v hv
    rcases List.mem_append.1 heffect with heffect | heffect
    · exact hnamed effect heffect v hv
    · obtain rfl := List.mem_singleton.1 heffect
      obtain rfl := List.mem_singleton.1 hv
      trivial
  · rintro i slots slots' effects added hi ⟨locals, hslots, hnamed⟩ hmeans
    obtain ⟨more, hslots', hadded⟩ := hmeans.keeps_scope hi hslots
    refine ⟨locals ++ more, hslots', ?_⟩
    intro effect heffect v hv
    rcases List.mem_append.1 heffect with heffect | heffect
    · exact (hnamed effect heffect v hv).append more
    · exact hadded effect heffect v hv

end BodyState

/-! ## Methods -/

namespace Method

/-- Receiver, parameters and locals of a decoded method have the scope of the
method and are numbered from zero on. A statement names none but these, fields
that an instruction of the method refers to, and constants. -/
theorem variables_in_scope {header : MethodHeader} {listing : Option Listing}
    {m : Method} (h : decode header listing = .ok m) :
    ∃ parameters locals : List LocalVariable,
      m.receiver.toList ++ m.parameters = parameters.map .parameter ∧
      m.locals = locals.map .localVar ∧
      (parameters ++ locals).map LocalVariable.ordinal =
        List.range (parameters ++ locals).length ∧
      (∀ v ∈ parameters ++ locals, v.scope = m.fullName) ∧
      ∀ s ∈ m.statements, ∀ v ∈ s.variables,
        v.InScope (listing.getD {}).events parameters locals := by
  obtain ⟨type, body, _, hrun, hstatements, hreceiver, hparameters, hlocals,
    hheader⟩ := exists_of_decode h
  obtain ⟨parameters, hmade, hslots⟩ :=
    exists_numbered_parametersOf header type (listing.getD {}).names
  have hstart : BodyState.InScope (listing.getD {}).events header.fullName
      parameters (parametersOf header type (listing.getD {}).names).1 [] :=
    ⟨[], hslots, by simp⟩
  obtain ⟨locals, hslots', hnamed⟩ := BodyState.inScope_run hstart hrun
  have hcount : body.slots.count = (parameters ++ locals).length := by
    rw [← List.length_range (n := body.slots.count), ← hslots'.ordinals,
      List.length_map]
  refine ⟨parameters, locals, ?_, ?_, ?_, ?_, ?_⟩
  · rw [hreceiver, hparameters, hmade]
  · rw [hlocals, hslots'.locals_eq]
  · rw [hslots'.ordinals, hcount]
  · intro v hv
    rw [hslots'.scopes v hv, ← hheader]
  · intro s hs v hv
    obtain ⟨b, op, input, hop, hstatement, hpushed⟩ :=
      FlowGraph.exists_op_of_mem_statements hstatements hs
    rcases StackOp.mem_of_statement? hstatement hv with hinput | hwritten
    · obtain ⟨block, hblock, op', hop', hv'⟩ := hpushed v hinput
      exact hnamed _ (BodyState.effect_mem_of_blocks hblock hop') v
        (List.mem_append_left _ hv')
    · exact hnamed _ (BodyState.effect_mem_of_block hop) v
        (List.mem_append_right _ hwritten)

end Method

namespace SlotReuse

/-- A method that keeps its parameter and then its receiver in slot 2. -/
def header : MethodHeader where
  owner := "p.A"
  name := "run"
  descriptor := "(I)V"
  visibility := .publicAccess
  isStatic := false

def listing : Listing where
  events :=
    [.line 1, .instruction ⟨0, 21, .slot 1⟩, .instruction ⟨1, 54, .slot 2⟩,
     .line 2, .instruction ⟨2, 25, .slot 0⟩, .instruction ⟨3, 21, .slot 2⟩,
     .instruction ⟨4, 181, .field ⟨"p.A", "count", "I"⟩⟩,
     .line 3, .instruction ⟨7, 25, .slot 0⟩, .instruction ⟨8, 58, .slot 2⟩,
     .instruction ⟨9, 177, .none⟩]

def receiver : Variable := .parameter ⟨"p.A.run(I)V", 0, "this", .reference⟩

def count : Variable := .parameter ⟨"p.A.run(I)V", 1, "param_0", .int⟩

def kept : Variable := .localVar ⟨"p.A.run(I)V", 2, "local_2", .int⟩

def keptThis : Variable := .localVar ⟨"p.A.run(I)V", 3, "local_2", .reference⟩

def field : Field :=
  { owner := "p.A", name := "count", type := .int, isStatic := false,
    isPrivate := false }

def method : Method where
  toMethodHeader := header
  receiver := some receiver
  parameters := [count]
  locals := [kept, keptThis]
  complexity := 1
  startingLine := 1
  statements :=
    [.assign 1 kept count, .putField 2 (some receiver) field kept,
      .assign 3 keptThis receiver]

/-- One slot serves two locals, with numbers of their own. -/
theorem kept_in_scope :
    Method.decode header (some listing) = .ok method ∧
      ∃ parameters locals : List LocalVariable,
        [receiver, count] = parameters.map .parameter ∧
        [kept, keptThis] = locals.map .localVar ∧
        (parameters ++ locals).map LocalVariable.ordinal =
          List.range (parameters ++ locals).length ∧
        (∀ v ∈ parameters ++ locals, v.scope = method.fullName) ∧
        ∀ s ∈ method.statements, ∀ v ∈ s.variables,
          v.InScope listing.events parameters locals := by
  have hdecode : Method.decode header (some listing) = .ok method := by cbv
  exact ⟨hdecode, Method.variables_in_scope hdecode⟩

end SlotReuse

end TestCost
