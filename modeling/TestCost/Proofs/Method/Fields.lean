import Mathlib
import TestCost.Proofs.Flow.Paths
import TestCost.Proofs.Method.Additions

/-!
# Fields in a body

Where the fields on the operand stack of a body come from. An instruction that
reads a field puts it there, and nothing else does: slots serve parameters and
locals, and what other instructions put on the stack are constants or copies of
what is there. So the fields of a graph are those that its listing reads.

Fields are told apart by owner and name. A body that refers to each of its
fields with one descriptor, and either as a static field or as one of an object,
does not confuse two fields on the stack (`FlowGraph.FieldsAgree`).

## Main results

* `BodyState.Means.reads` — the fields that an instruction puts on the stack.
* `BodyState.fieldsAgree_of_run` — fields agree in the graph of a consistent
  listing.
-/

namespace TestCost

/-- The field that the instruction reads or writes, and whether as a static one.
-/
def Instruction.fieldUse? (i : Instruction) : Option (MemberRef × Bool) :=
  match Meaning.ofOpcode? i.opcode, i.operand with
  | some (.readField isStatic), .field member => some (member, isStatic)
  | some (.writeField isStatic), .field member => some (member, isStatic)
  | _, _ => none

/-- The instruction refers to the field. -/
def Instruction.Uses (i : Instruction) (f : Field) : Prop :=
  ∃ member isStatic, i.fieldUse? = some (member, isStatic) ∧
    BodyState.fieldOf member isStatic = .ok f

/-- The listing refers to each field with one descriptor, and always as a static
field or never. -/
def Listing.FieldsConsistent (listing : Listing) : Prop :=
  ∀ i j member member' isStatic isStatic', .instruction i ∈ listing.events →
    .instruction j ∈ listing.events → i.fieldUse? = some (member, isStatic) →
    j.fieldUse? = some (member', isStatic') → member.owner = member'.owner →
    member.name = member'.name →
      member.descriptor = member'.descriptor ∧ isStatic = isStatic'

/-- The effect puts no field on the stack. -/
def StackEffect.PushesNoField (effect : StackEffect) : Prop :=
  ∀ f, .field f ∉ effect.pushed

/-! ## The table of meanings -/

/-- The variable is a field. -/
def Variable.isField : Variable → Bool
  | .field _ => true
  | .parameter _ | .localVar _ | .constant _ => false

/-- The meaning is not an effect that puts a field on the stack. -/
def Meaning.pushesNoField : Meaning → Bool
  | .effect e => e.pushed.all fun v => !v.isField
  | _ => true

theorem Meaning.pushesNoField_ofOpcode? {opcode : Nat} {effect : StackEffect}
    (h : ofOpcode? opcode = some (.effect effect)) : effect.PushesNoField := by
  have hall : ∀ opcode < 0xca, ∀ m ∈ ofOpcode? opcode,
      m.pushesNoField = true := by
    decide +kernel
  by_cases hlt : opcode < 0xca
  · intro f hf
    have hnone := hall opcode hlt _ h
    rw [pushesNoField, List.all_eq_true] at hnone
    exact absurd (hnone _ hf) (by simp [Variable.isField])
  · rw [ofOpcode?_of_le (by omega)] at h
    cases h

/-! ## Slots -/

namespace Slots

/-- No slot serves a field. -/
def ServesNoField (s : Slots) : Prop :=
  ∀ entry ∈ s.current, ∀ f, entry.2 ≠ .field f

theorem ServesNoField.serve {s : Slots} (h : s.ServesNoField) (slot : Nat)
    {v : Variable} (hv : ∀ f, v ≠ .field f) :
    (s.serve slot v).ServesNoField := by
  intro entry hentry
  rcases List.mem_cons.1 hentry with rfl | hentry
  · exact hv
  · exact h entry hentry

theorem ServesNoField.access {s : Slots} (h : s.ServesNoField) (slot : Nat)
    (type : ValueType) (offset : Nat) :
    (s.access slot type offset).1.ServesNoField ∧
      ∀ f, (s.access slot type offset).2 ≠ .field f := by
  unfold Slots.access
  dsimp only
  split
  · next v hv =>
    obtain ⟨hlookup, _⟩ := Option.filter_eq_some_iff.1 hv
    obtain ⟨before, after, heq, _⟩ := List.lookup_eq_some_iff.1 hlookup
    exact ⟨h, h (slot, v) (by simp [heq])⟩
  · exact ⟨h.serve slot (by simp), by simp⟩

theorem ServesNoField.addParameters {s : Slots} (h : s.ServesNoField)
    (slot rank : Nat) (types : List ValueType) :
    (s.addParameters slot rank types).1.ServesNoField := by
  induction types generalizing s slot rank with
  | nil => exact h
  | cons type types ih =>
      exact ih (h.serve slot (by simp)) (slot + type.slots) (rank + 1)

end Slots

theorem Method.servesNoField_parametersOf (header : MethodHeader)
    (type : MethodType) (names : List DebugName) :
    (parametersOf header type names).1.ServesNoField := by
  have hempty : Slots.ServesNoField { scope := header.fullName, names } := by
    simp [Slots.ServesNoField]
  unfold parametersOf
  dsimp only
  split
  · exact hempty.addParameters 0 0 type.parameters
  · exact (hempty.serve 0 (by simp)).addParameters 1 0 type.parameters

/-! ## Bodies -/

namespace BodyState

variable {s t : BodyState} {listing : Listing}

/-- Slots serve no field, and fields on the stack are among those that the
instructions refer to. -/
structure ReadsOf (events : List CodeEvent) (slots : Slots)
    (effects : List StackEffect) : Prop where
  slots : slots.ServesNoField
  reads : ∀ effect ∈ effects, ∀ f, .field f ∈ effect.pushed →
    ∃ i, .instruction i ∈ events ∧ i.Uses f

/-- What an instruction puts on the stack is a field only if it refers to it. -/
theorem Means.reads {slots slots' : Slots} {i : Instruction}
    {effects : List StackEffect} (h : Means slots i slots' effects)
    (hslots : slots.ServesNoField) :
    slots'.ServesNoField ∧ ∀ effect ∈ effects, ∀ f,
      .field f ∈ effect.pushed → i.Uses f := by
  cases h with
  | nothing | pop | leave | write | constant | call =>
      exact ⟨hslots, by simp [StackEffect.pushed]⟩
  | compute operands result =>
      refine ⟨hslots, ?_⟩
      cases result <;> simp [StackEffect.pushed]
  | table hm =>
      refine ⟨hslots, ?_⟩
      intro effect heffect f hf
      obtain rfl := List.mem_singleton.1 heffect
      exact absurd hf (Meaning.pushesNoField_ofOpcode? hm f)
  | load slot type =>
      obtain ⟨hafter, hv⟩ := hslots.access slot type i.offset
      refine ⟨hafter, ?_⟩
      intro effect heffect f hf
      obtain rfl := List.mem_singleton.1 heffect
      exact absurd (List.mem_singleton.1 hf).symm (hv f)
  | store slot type =>
      exact ⟨(hslots.access slot type i.offset).1, by simp [StackEffect.pushed]⟩
  | increment slot => exact ⟨(hslots.access slot .int i.offset).1, by simp⟩
  | @read isStatic member f hm hoperand hf =>
      refine ⟨hslots, ?_⟩
      intro effect heffect g hg
      obtain rfl := List.mem_singleton.1 heffect
      obtain rfl := Variable.field.inj (List.mem_singleton.1 hg)
      exact ⟨member, isStatic, by simp [Instruction.fieldUse?, hm, hoperand],
        hf⟩

theorem readsOf_run (h : ReadsOf listing.events s.slots s.effects)
    (hrun : s.run listing = .ok t) :
    ReadsOf listing.events t.slots t.effects := by
  refine run_induction (H := ReadsOf listing.events) ?_ ?_ h hrun
  · intro slots effects value h
    refine ⟨h.slots, ?_⟩
    intro effect heffect f hf
    rcases List.mem_append.1 heffect with heffect | heffect
    · exact h.reads effect heffect f hf
    · obtain rfl := List.mem_singleton.1 heffect
      cases List.mem_singleton.1 hf
  · intro i slots slots' effects added hi h hmeans
    obtain ⟨hslots, hreads⟩ := hmeans.reads h.slots
    refine ⟨hslots, ?_⟩
    intro effect heffect f hf
    rcases List.mem_append.1 heffect with heffect | heffect
    · exact h.reads effect heffect f hf
    · exact ⟨i, hi, hreads effect heffect f hf⟩

theorem identity_of_fieldOf {member : MemberRef} {isStatic : Bool} {f : Field}
    (h : fieldOf member isStatic = .ok f) :
    f.owner = member.owner ∧ f.name = member.name := by
  unfold fieldOf at h
  split at h
  · obtain rfl := Except.ok.inj h
    exact ⟨rfl, rfl⟩
  · cases h

/-- Fields agree in the graph of a listing that is consistent about its fields.
-/
theorem fieldsAgree_of_run (h : ReadsOf listing.events s.slots s.effects)
    (hrun : s.run listing = .ok t) (hconsistent : listing.FieldsConsistent) :
    t.graph.FieldsAgree := by
  have hbody := readsOf_run h hrun
  have hpushed : ∀ f, t.graph.Pushes (.field f) →
      ∃ i, .instruction i ∈ listing.events ∧ i.Uses f := by
    rintro f ⟨block, hblock, op, hop, hf⟩
    exact hbody.reads _ (effect_mem_of_blocks hblock hop) f hf
  intro f f' hf hf' howner hname
  obtain ⟨i, hi, member, isStatic, huse, hfield⟩ := hpushed f hf
  obtain ⟨j, hj, member', isStatic', huse', hfield'⟩ := hpushed f' hf'
  obtain ⟨hownerOf, hnameOf⟩ := identity_of_fieldOf hfield
  obtain ⟨hownerOf', hnameOf'⟩ := identity_of_fieldOf hfield'
  have howner : member.owner = member'.owner := by
    rw [← hownerOf, ← hownerOf', howner]
  have hname : member.name = member'.name := by
    rw [← hnameOf, ← hnameOf', hname]
  obtain ⟨hdescriptor, hstatic⟩ := hconsistent i j member member' isStatic
    isStatic' hi hj huse huse' howner hname
  have hmember : member = member' := by
    cases member
    cases member'
    congr
  rw [← hmember, ← hstatic, hfield] at hfield'
  exact Except.ok.inj hfield'

end BodyState

end TestCost
