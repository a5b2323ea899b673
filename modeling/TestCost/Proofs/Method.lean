import TestCost.Method.Decoding
import TestCost.Proofs.Except
import TestCost.Proofs.Flow.Statements
import TestCost.Proofs.Method.Additions

/-!
# What decoding gives

Decoding a method turns its listing into flow events, the events into a graph,
and the graph into statements. What can be said of the statements follows from
what can be said of single instructions: an operation is in the graph because
an instruction or a handler put it there, and a statement is in the method
because an operation of the graph stands for it.

So decoding assigns only to variables that slots serve. These are parameters
and locals: a constant never is the target of an assignment, and neither is it
the receiver or a parameter of a method (`Method.Placed`).

## Main results

* `Method.exists_of_decode` — the parts of a method that has been decoded.
* `FlowGraph.exists_statement?_of_mem_emittedAt`,
  `FlowGraph.exists_op_of_mem_statements` — the operation behind a statement.
* `Method.placed_of_decode` — where a decoded method lets values flow.
-/

namespace TestCost

/-- The variable is a place that holds values: it is not a constant. -/
def Variable.IsPlace (v : Variable) : Prop := ∀ c, v ≠ .constant c

/-- A method takes values, and assigns them, only at places. -/
structure Method.Placed (m : Method) : Prop where
  receiver : ∀ v, m.receiver = some v → v.IsPlace
  parameters : ∀ v ∈ m.parameters, v.IsPlace
  targets : ∀ line target value, .assign line target value ∈ m.statements →
    target.IsPlace

theorem Variable.isPlace_parameter (v : LocalVariable) :
    (Variable.parameter v).IsPlace := by
  intro c h
  cases h

theorem Variable.isPlace_localVar (v : LocalVariable) :
    (Variable.localVar v).IsPlace := by
  intro c h
  cases h

theorem Variable.isPlace_field (f : Field) : (Variable.field f).IsPlace := by
  intro c h
  cases h

/-! ## Slots -/

namespace Slots

/-- All slots serve places. -/
def Placed (s : Slots) : Prop := ∀ entry ∈ s.current, entry.2.IsPlace

theorem Placed.serve {s : Slots} (h : s.Placed) (slot : Nat) {v : Variable}
    (hv : v.IsPlace) :
    (s.serve slot v).Placed := by
  intro entry hentry
  rcases List.mem_cons.1 hentry with rfl | hentry
  · exact hv
  · exact h entry hentry

theorem Placed.access {s : Slots} (h : s.Placed) (slot : Nat) (type : ValueType)
    (offset : Nat) :
    (s.access slot type offset).1.Placed ∧
      (s.access slot type offset).2.IsPlace := by
  unfold Slots.access
  dsimp only
  split
  · next v hv =>
    obtain ⟨hlookup, _⟩ := Option.filter_eq_some_iff.1 hv
    obtain ⟨before, after, heq, _⟩ := List.lookup_eq_some_iff.1 hlookup
    exact ⟨h, h (slot, v) (by simp [heq])⟩
  · exact ⟨h.serve slot (Variable.isPlace_localVar _),
      Variable.isPlace_localVar _⟩

theorem Placed.addParameters {s : Slots} (h : s.Placed) (slot rank : Nat)
    (types : List ValueType) :
    (s.addParameters slot rank types).1.Placed ∧
      ∀ v ∈ (s.addParameters slot rank types).2, v.IsPlace := by
  induction types generalizing s slot rank with
  | nil => exact ⟨h, by simp [Slots.addParameters]⟩
  | cons type types ih =>
      have hserve := h.serve slot (Variable.isPlace_parameter
        (s.fresh ((DebugName.name? s.names slot 0).getD
          ("param_" ++ toString rank)) type))
      obtain ⟨hrest, hvars⟩ := ih hserve (slot + type.slots) (rank + 1)
      refine ⟨hrest, ?_⟩
      intro v hv
      rcases List.mem_cons.1 hv with rfl | hv
      · exact Variable.isPlace_parameter _
      · exact hvars v hv

end Slots

theorem Method.placed_parametersOf (header : MethodHeader) (type : MethodType)
    (names : List DebugName) :
    (parametersOf header type names).1.Placed ∧
      (∀ v, (parametersOf header type names).2.1 = some v → v.IsPlace) ∧
      ∀ v ∈ (parametersOf header type names).2.2, v.IsPlace := by
  have hempty : Slots.Placed { scope := header.fullName, names } := by
    simp [Slots.Placed]
  unfold parametersOf
  dsimp only
  split
  · obtain ⟨hslots, hparameters⟩ := hempty.addParameters 0 0 type.parameters
    exact ⟨hslots, by simp, hparameters⟩
  · have hreceiver := Variable.isPlace_parameter
      (Slots.fresh { scope := header.fullName, names }
      ((DebugName.name? names 0 0).getD "this") .reference)
    obtain ⟨hslots, hparameters⟩ :=
      (hempty.serve 0 hreceiver).addParameters 1 0 type.parameters
    refine ⟨hslots, ?_, hparameters⟩
    intro v hv
    obtain rfl := Option.some.inj hv
    exact hreceiver

/-! ## Instructions -/

/-- The effect stores into a place, if it stores. -/
def StackEffect.Placed (effect : StackEffect) : Prop :=
  ∀ v, effect = .store v → v.IsPlace

/-- The meaning, if there is one, is no store whose target the opcode decides.
-/
def Meaning.Placed (meaning : Option Meaning) : Prop :=
  ∀ effect, meaning = some (.effect effect) → effect.Placed

theorem Meaning.placed_ite {c : Prop} [Decidable c] {x y : Option Meaning}
    (hx : Placed x) (hy : Placed y) : Placed (if c then x else y) := by
  split
  · exact hx
  · exact hy

/-- No line of the table stores into anything but a place. -/
theorem Meaning.placed_ofOpcode? (opcode : Nat) :
    Placed (ofOpcode? opcode) := by
  unfold ofOpcode?
  with_reducible repeat' apply placed_ite
  all_goals simp [Placed, StackEffect.Placed, push, compute, binary, convert]
  rintro _ _ _ _ rfl _ ⟨⟩

namespace BodyState

variable {s t : BodyState}

/-- Slots serve places, and stores are into places. -/
structure Placed (slots : Slots) (effects : List StackEffect) : Prop where
  slots : slots.Placed
  stores : ∀ effect ∈ effects, effect.Placed

/-- An instruction stores into places only, since slots serve places. -/
theorem Means.placed {slots slots' : Slots} {i : Instruction}
    {effects : List StackEffect} (h : Means slots i slots' effects)
    (hslots : slots.Placed) : Placed slots' effects := by
  have hother : ∀ {effect : StackEffect}, (∀ v, effect ≠ .store v) →
      ∀ e ∈ [effect], e.Placed := by
    intro effect heffect e he v hv
    obtain rfl := List.mem_singleton.1 he
    exact absurd hv (heffect v)
  cases h with
  | nothing => exact ⟨hslots, by simp⟩
  | table hm =>
      refine ⟨hslots, ?_⟩
      intro effect heffect
      obtain rfl := List.mem_singleton.1 heffect
      exact Meaning.placed_ofOpcode? _ _ hm
  | constant | compute | pop | leave | read | write | call =>
      exact ⟨hslots, hother (by simp)⟩
  | load slot type =>
      exact ⟨(hslots.access slot type i.offset).1, hother (by simp)⟩
  | increment slot => exact ⟨(hslots.access slot .int i.offset).1, by simp⟩
  | store slot type =>
      obtain ⟨hafter, hv⟩ := hslots.access slot type i.offset
      refine ⟨hafter, ?_⟩
      intro effect heffect v hstore
      obtain rfl := List.mem_singleton.1 heffect
      obtain rfl := StackEffect.store.inj hstore
      exact hv

theorem placed_run {listing : Listing} (h : Placed s.slots s.effects)
    (hrun : s.run listing = .ok t) : Placed t.slots t.effects := by
  refine run_induction (H := Placed) ?_ ?_ h hrun
  · intro slots effects value h
    refine ⟨h.slots, ?_⟩
    intro effect heffect v hv
    rcases List.mem_append.1 heffect with heffect | heffect
    · exact h.stores effect heffect v hv
    · obtain rfl := List.mem_singleton.1 heffect
      cases hv
  · intro i slots slots' effects added _ h hmeans
    have hadded := hmeans.placed h.slots
    refine ⟨hadded.slots, ?_⟩
    intro effect heffect
    rcases List.mem_append.1 heffect with heffect | heffect
    · exact h.stores effect heffect
    · exact hadded.stores effect heffect

end BodyState

/-! ## Statements -/

namespace Method

variable {header : MethodHeader} {listing : Option Listing} {m : Method}

theorem store_of_statement? {op : StackOp}
    {input : List Variable} {line : Nat} {target value : Variable}
    (h : op.statement? input = some (some (.assign line target value))) :
    op.effect = .store target := by
  obtain ⟨opLine, effect⟩ := op
  cases effect with
  | store v =>
      obtain ⟨found, _, h⟩ := Option.bind_eq_some_iff.1 h
      have hassign := Option.some.inj (Option.some.inj h)
      rw [(Statement.assign.inj hassign).2.1]
  | putField f =>
      simp only [StackOp.statement?, StackEffect.statement?] at h
      split at h <;> simp [Option.bind_eq_some_iff] at h
  | invoke target =>
      simp only [StackOp.statement?, StackEffect.statement?] at h
      split at h <;> simp [Option.bind_eq_some_iff] at h
  | arrayStore element =>
      simp [StackOp.statement?, StackEffect.statement?,
        Option.bind_eq_some_iff] at h
  | load | transform | getField | arrayLoad | duplicate | duplicatePair | swap
  | pop | leave
  | raise => cases h

/-- Where the parts of a decoded method come from. -/
theorem exists_of_decode (h : decode header listing = .ok m) :
    ∃ type body, BodyState.typeOf header.descriptor = .ok type ∧
      BodyState.run
        { slots := (parametersOf header type (listing.getD {}).names).1 }
        (listing.getD {}) = .ok body ∧
      body.graph.statements = .ok m.statements ∧
      m.receiver = (parametersOf header type (listing.getD {}).names).2.1 ∧
      m.parameters = (parametersOf header type (listing.getD {}).names).2.2 ∧
      m.locals = body.slots.locals ∧ m.toMethodHeader = header := by
  obtain ⟨type, htype, h⟩ := exists_of_bind_eq_ok h
  obtain ⟨body, hbody, h⟩ := exists_of_bind_eq_ok h
  obtain ⟨statements, hstatements, h⟩ := exists_of_bind_eq_ok h
  obtain rfl := Except.ok.inj h
  exact ⟨type, body, mapError_eq_ok_iff.1 htype, mapError_eq_ok_iff.1 hbody,
    mapError_eq_ok_iff.1 hstatements, rfl, rfl, rfl, rfl⟩

theorem placed_of_decode (h : decode header listing = .ok m) : m.Placed := by
  obtain ⟨type, body, _, hrun, hstatements, hreceiver, hparameters, _⟩ :=
    exists_of_decode h
  obtain ⟨hslots, hreceiver', hparameters'⟩ :=
    placed_parametersOf header type (listing.getD {}).names
  refine ⟨hreceiver ▸ hreceiver', hparameters ▸ hparameters', ?_⟩
  intro line target value hmem
  obtain ⟨b, op, input, hop, hstatement, _⟩ :=
    FlowGraph.exists_op_of_mem_statements hstatements hmem
  have hbody := BodyState.placed_run ⟨hslots, by simp [BodyState.effects]⟩ hrun
  exact hbody.stores _ (BodyState.effect_mem_of_block hop) _
    (store_of_statement? hstatement)

end Method

end TestCost
