import TestCost.Proofs.Method

/-!
# Faults of decoding

Decoding a method fails at its own descriptor, at an instruction, or when the
flow graph of the body is executed. This module takes a failed decoding apart.

At an instruction there are two reasons. The instruction may not be mapped: its
opcode has no meaning, or a meaning that works on another kind of operand than
the instruction has. A mapped instruction only fails when the descriptor of the
member that it names cannot be read.

## Main results

* `Instruction.Mapped.instruction` — a mapped instruction is decoded, or has a
  bad descriptor.
* `BodyState.exists_of_run_eq_error` — the instruction that a body fails at.
* `Method.cases_of_decode_eq_error` — where a method fails.
-/

namespace TestCost

/-- Kinds of operands. -/
inductive OperandKind where
  | none
  | slot
  | increment
  | int
  | constant
  | classRef
  | field
  | method
  | callSite
  | jump
  | switch
  | multiArray
  deriving DecidableEq

def Operand.kind : Operand → OperandKind
  | .none => .none
  | .slot _ => .slot
  | .increment _ _ => .increment
  | .int _ => .int
  | .constant _ => .constant
  | .classRef _ => .classRef
  | .field _ => .field
  | .method _ => .method
  | .callSite _ _ => .callSite
  | .jump _ => .jump
  | .switch _ _ => .switch
  | .multiArray _ _ => .multiArray

/-- The descriptor of the member that the operand names. -/
def Operand.descriptor? : Operand → Option String
  | .field member | .method member => some member.descriptor
  | .callSite _ descriptor => some descriptor
  | .none | .slot _ | .increment _ _ | .int _ | .constant _ | .classRef _
  | .jump _ | .switch _ _
  | .multiArray _ _ => Option.none

/-- The meaning works on operands of this kind. -/
def Meaning.takes : Meaning → OperandKind → Bool
  | .nothing, _ | .effect _, _ => true
  | .pushInt, kind => kind = .int
  | .pushConstant, kind => kind = .constant
  | .loadSlot _, kind | .storeSlot _, kind | .subroutineReturn, kind =>
    kind = .slot
  | .increment, kind => kind = .increment
  | .branch _, kind | .jump, kind | .subroutine, kind => kind = .jump
  | .tableSwitch, kind | .lookupSwitch, kind => kind = .switch
  | .readField _, kind | .writeField _, kind => kind = .field
  | .call _, kind => kind = .method
  | .dynamicCall, kind => kind = .callSite
  | .create, kind => kind = .classRef
  | .createMulti, kind => kind = .multiArray

/-- The opcode has a meaning that works on the operand. -/
def Instruction.Mapped (i : Instruction) : Prop :=
  ∃ m, Meaning.ofOpcode? i.opcode = some m ∧ m.takes i.operand.kind = true

namespace BodyState

theorem exists_of_typeOf_eq_error {descriptor : String} {fault : CodeFault}
    (h : typeOf descriptor = .error fault) :
    Descriptor.methodType? descriptor = none ∧
      fault = .badDescriptor descriptor := by
  unfold typeOf at h
  split at h
  · cases h
  · next hnone => exact ⟨hnone, (Except.error.inj h).symm⟩

theorem eq_badDescriptor_of_fieldOf {member : MemberRef} {isStatic : Bool}
    {fault : CodeFault} (h : fieldOf member isStatic = .error fault) :
    fault = .badDescriptor member.descriptor := by
  unfold fieldOf at h
  split at h
  · cases h
  · exact (Except.error.inj h).symm

end BodyState

/-- A mapped instruction is decoded, or the descriptor that it names is bad. A
meaning and an operand of its kind give a state, except where a descriptor is
read. -/
theorem Instruction.Mapped.instruction
    {i : Instruction} (h : i.Mapped) {s : BodyState} {fault : CodeFault}
    (hfault : s.instruction i = .error fault) :
    ∃ d, i.operand.descriptor? = some d ∧ fault = .badDescriptor d := by
  obtain ⟨offset, opcode, operand⟩ := i
  obtain ⟨m, hm, htakes⟩ := h
  unfold BodyState.instruction at hfault
  simp only at hm hfault
  rw [hm] at hfault
  cases m with
  | nothing | effect _ => cases hfault
  | pushInt =>
      cases operand with
      | int _ => cases hfault
      | _ => cases htakes
  | pushConstant =>
      cases operand with
      | constant _ => cases hfault
      | _ => cases htakes
  | loadSlot _ | storeSlot _ | subroutineReturn =>
      cases operand with
      | slot _ => cases hfault
      | _ => cases htakes
  | increment =>
      cases operand with
      | increment _ _ => cases hfault
      | _ => cases htakes
  | branch _ | jump | subroutine =>
      cases operand with
      | jump _ => cases hfault
      | _ => cases htakes
  | tableSwitch | lookupSwitch =>
      cases operand with
      | switch _ _ => cases hfault
      | _ => cases htakes
  | create =>
      cases operand with
      | classRef _ => cases hfault
      | _ => cases htakes
  | createMulti =>
      cases operand with
      | multiArray _ _ => cases hfault
      | _ => cases htakes
  | readField isStatic | writeField isStatic =>
      cases operand with
      | field member =>
          rcases bind_eq_error_iff.1 hfault with hfield | ⟨_, _, hdone⟩
          · exact ⟨_, rfl, BodyState.eq_badDescriptor_of_fieldOf hfield⟩
          · cases hdone
      | _ => cases htakes
  | call isStatic =>
      cases operand with
      | method member =>
          rcases bind_eq_error_iff.1 hfault with htype | ⟨_, _, hdone⟩
          · exact ⟨_, rfl, (BodyState.exists_of_typeOf_eq_error htype).2⟩
          · cases hdone
      | _ => cases htakes
  | dynamicCall =>
      cases operand with
      | callSite name descriptor =>
          rcases bind_eq_error_iff.1 hfault with htype | ⟨_, _, hdone⟩
          · exact ⟨_, rfl, (BodyState.exists_of_typeOf_eq_error htype).2⟩
          · cases hdone
      | _ => cases htakes

namespace BodyState

/-- An instruction that is not mapped is refused. -/
theorem instruction_of_not_mapped (s : BodyState) {i : Instruction}
    (h : ¬ i.Mapped) :
    s.instruction i = .error (.unmappedOpcode i.opcode i.offset) := by
  unfold instruction
  split
  · next hm => exact absurd ⟨_, hm, rfl⟩ h
  · next hm => exact absurd ⟨_, hm, rfl⟩ h
  iterate 17
    · next hm hoperand => exact absurd ⟨_, hm, by rw [hoperand]; rfl⟩ h
  · rfl

/-- Why an instruction is refused. -/
theorem cases_of_instruction_eq_error {s : BodyState} {i : Instruction}
    {fault : CodeFault} (h : s.instruction i = .error fault) :
    (¬ i.Mapped ∧ fault = .unmappedOpcode i.opcode i.offset) ∨
      ∃ d, i.operand.descriptor? = some d ∧ fault = .badDescriptor d := by
  by_cases hmapped : i.Mapped
  · exact .inr (hmapped.instruction h)
  · rw [s.instruction_of_not_mapped hmapped] at h
    exact .inl ⟨hmapped, (Except.error.inj h).symm⟩

/-- The instruction at which decoding a body fails. -/
theorem exists_of_run_eq_error {s : BodyState} {listing : Listing} {line : Nat}
    {fault : CodeFault} (h : s.run listing = .error (line, fault)) :
    ∃ i t,
      .instruction i ∈ listing.events ∧ instruction t i = .error fault := by
  obtain ⟨event, hmem, t, hstep⟩ := exists_of_foldlM_eq_error h
  cases event with
  | label _ | line _ => cases hstep
  | instruction i =>
      obtain ⟨cause, hcause, heq⟩ := mapError_eq_error_iff.1 hstep
      obtain ⟨_, rfl⟩ := Prod.mk.inj heq
      exact ⟨i, t, hmem, hcause⟩

end BodyState

/-- Decoding a method fails at its descriptor, at an instruction, or when its
graph is executed. -/
theorem Method.cases_of_decode_eq_error {header : MethodHeader}
    {listing : Option Listing} {fault : LoadFault}
    (h : decode header listing = .error fault) :
    (∃ cause, BodyState.typeOf header.descriptor = .error cause ∧
      fault = .declaration cause) ∨
      ∃ type line cause,
        fault = .body header.owner header.signature line cause ∧
        (BodyState.run
          { slots := (parametersOf header type (listing.getD {}).names).1 }
            (listing.getD {}) = .error (line, cause) ∨
          ∃ body, BodyState.run
            { slots := (parametersOf header type (listing.getD {}).names).1 }
            (listing.getD {}) = .ok body ∧ body.graph.statements =
              .error cause) := by
  rcases bind_eq_error_iff.1 h with htype | ⟨type, _, h⟩
  · obtain ⟨cause, hcause, rfl⟩ := mapError_eq_error_iff.1 htype
    exact .inl ⟨cause, hcause, rfl⟩
  · refine .inr ⟨type, ?_⟩
    rcases bind_eq_error_iff.1 h with hrun | ⟨body, hbody, h⟩
    · obtain ⟨⟨line, cause⟩, hcause, rfl⟩ := mapError_eq_error_iff.1 hrun
      exact ⟨line, cause, rfl, .inl hcause⟩
    · rcases bind_eq_error_iff.1 h with hstatements | ⟨_, _, hdone⟩
      · obtain ⟨cause, hcause, rfl⟩ := mapError_eq_error_iff.1 hstatements
        exact ⟨_, cause, rfl, .inr ⟨body, mapError_eq_ok_iff.1 hbody, hcause⟩⟩
      · cases hdone

end TestCost
