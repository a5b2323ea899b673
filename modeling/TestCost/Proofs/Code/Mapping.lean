import Mathlib
import TestCost.Proofs.Code.Reading
import TestCost.Proofs.Method.Operands

/-!
# Reader and decoder agree

Two tables know the instruction set. `Form.ofOpcode?` says how an instruction
is written, and with that which kind of operand it is read with;
`Meaning.ofOpcode?` says what it does, and with that which kind of operand it
works on. Between the two lies the normal form: an instruction may be read under
one opcode and decoded under another.

The tables agree on every byte, so the decoder refuses nothing that has been
read. What is left to go wrong with a listing are descriptors, operand stacks
and wide values.

## Main results

* `Form.tables_agree` — the tables agree.
* `Code.mapped_of_readInstruction` — whatever is read is mapped.
* `faults_of_readable_methods` — which faults a readable method can have.
-/

namespace TestCost

namespace Form

/-- The kind of operand that an instruction of the form has; `wide` stands in
front of forms of its own. -/
def kind : Form → OperandKind
  | .plain => .none
  | .impliedSlot _ _ | .slot | .wide => .slot
  | .increment => .increment
  | .byteValue | .shortValue | .arrayCode => .int
  | .nearConstant | .farConstant _ => .constant
  | .classRef => .classRef
  | .field => .field
  | .method _ => .method
  | .callSite => .callSite
  | .multiArray => .multiArray
  | .nearJump | .farJump _ => .jump
  | .tableSwitch | .lookupSwitch => .switch

/-- The opcode of the basic form. -/
def basicOpcode (opcode : Nat) : Form → Nat
  | .impliedSlot base _ | .farConstant base | .farJump base => base
  | _ => opcode

/-- The opcode has a meaning that works on operands of the kind. -/
def hasMeaning (opcode : Nat) (kind : OperandKind) : Bool :=
  (Meaning.ofOpcode? opcode).any fun m => m.takes kind

/-- The two tables, byte by byte. -/
theorem tables_agree :
    ∀ opcode ≤ 0xc9, ∀ form ∈ ofOpcode? opcode,
      form ≠ .wide → hasMeaning (form.basicOpcode opcode) form.kind = true := by
  decide +kernel

theorem hasMeaning_of_takesSlot {opcode : Nat} (h : takesSlot opcode = true) :
    hasMeaning opcode .slot = true := by
  have hall : ∀ opcode ≤ 0xa9,
      takesSlot opcode = true → hasMeaning opcode .slot = true := by
    decide +kernel
  apply hall opcode ?_ h
  simp only [takesSlot, Bool.or_eq_true, Bool.and_eq_true,
    decide_eq_true_eq] at h
  omega

end Form

namespace Code

variable {pool : Pool} {code : Bytes} {offset opcode base following : Nat}
  {operand : Operand}

/-- The forms other than `wide` fix the kind of the operand and the opcode. -/
theorem kind_of_readForm {form : Form}
    (hform : form ≠ .wide) (h : readForm pool code offset opcode form =
      .ok (base, operand, following)) :
    base = form.basicOpcode opcode ∧ operand.kind = form.kind := by
  cases form with
  | plain | impliedSlot _ _ =>
      cases h
      exact ⟨rfl, rfl⟩
  | slot | byteValue | shortValue | arrayCode =>
      obtain ⟨_, _, h⟩ := exists_of_bind_eq_ok h
      cases h
      exact ⟨rfl, rfl⟩
  | increment | nearConstant | farConstant _ | classRef | field | method _
  | callSite | nearJump
  | farJump _ =>
      obtain ⟨_, _, h⟩ := exists_of_bind_eq_ok h
      obtain ⟨_, _, h⟩ := exists_of_bind_eq_ok h
      cases h
      exact ⟨rfl, rfl⟩
  | multiArray =>
      obtain ⟨_, _, h⟩ := exists_of_bind_eq_ok h
      obtain ⟨_, _, h⟩ := exists_of_bind_eq_ok h
      obtain ⟨_, _, h⟩ := exists_of_bind_eq_ok h
      cases h
      exact ⟨rfl, rfl⟩
  | tableSwitch =>
      obtain ⟨_, _, h⟩ := exists_of_bind_eq_ok h
      obtain ⟨_, _, h⟩ := exists_of_bind_eq_ok h
      obtain ⟨_, _, h⟩ := exists_of_bind_eq_ok h
      obtain ⟨_, _, h⟩ := exists_of_bind_eq_ok h
      split at h
      · cases h
      · obtain ⟨_, _, h⟩ := exists_of_bind_eq_ok h
        obtain ⟨_, _, h⟩ := exists_of_bind_eq_ok h
        cases h
        exact ⟨rfl, rfl⟩
  | lookupSwitch =>
      obtain ⟨_, _, h⟩ := exists_of_bind_eq_ok h
      obtain ⟨_, _, h⟩ := exists_of_bind_eq_ok h
      obtain ⟨_, _, h⟩ := exists_of_bind_eq_ok h
      split at h
      · cases h
      · obtain ⟨_, _, h⟩ := exists_of_bind_eq_ok h
        obtain ⟨_, _, h⟩ := exists_of_bind_eq_ok h
        cases h
        exact ⟨rfl, rfl⟩
  | wide => exact absurd rfl hform

theorem kind_of_readForm_wide (h : readForm pool code offset opcode .wide =
      .ok (base, operand, following)) :
    (base = Form.incrementOpcode ∧ operand.kind = .increment) ∨
      (Form.takesSlot base = true ∧ operand.kind = .slot) := by
  obtain ⟨widened, _, h⟩ := exists_of_bind_eq_ok h
  obtain ⟨slot, _, h⟩ := exists_of_bind_eq_ok h
  split at h
  · next hincrement =>
    obtain ⟨_, _, h⟩ := exists_of_bind_eq_ok h
    cases h
    exact .inl ⟨hincrement, rfl⟩
  · split at h
    · next htakes =>
      cases h
      exact .inr ⟨htakes, rfl⟩
    · cases h

/-- Whatever is read is mapped. -/
theorem mapped_of_readInstruction {i : Instruction} {stop : Nat}
    (h : readInstruction pool code offset = .ok (i, stop)) : i.Mapped := by
  obtain ⟨opcode, form, following, _, hform, hread, _⟩ :=
    exists_of_readInstruction h
  have hmeaning : Form.hasMeaning i.opcode i.operand.kind = true := by
    by_cases hwide : form = .wide
    · subst hwide
      rcases kind_of_readForm_wide hread with ⟨hbase, hkind⟩ | ⟨htakes, hkind⟩
      · rw [hbase, hkind]
        rfl
      · rw [hkind]
        exact Form.hasMeaning_of_takesSlot htakes
    · obtain ⟨hbase, hkind⟩ := kind_of_readForm hwide hread
      rw [hbase, hkind]
      exact Form.tables_agree opcode (Form.opcode_le_of_ofOpcode? hform)
        form hform hwide
  exact (Option.any_eq_true _ _).1 hmeaning

end Code

theorem Listing.mapped_of_read {pool : Pool} {body : CodeBody}
    {listing : Listing} (h : read pool body = .ok listing) {i : Instruction}
    (hi : .instruction i ∈ listing.events) :
    i.Mapped := by
  obtain ⟨instructions, handlers, names, hinstructions, _, _, _, hevents, _⟩ :=
    exists_of_read h
  rw [hevents, instruction_mem_events_iff] at hi
  obtain ⟨start, stop, hread⟩ :=
    Code.exists_of_mem_readInstructions hinstructions hi
  exact Code.mapped_of_readInstruction hread

/-- What can be wrong with a method whose body is this listing, once the body
has been read. Four faults are errors of the method: its own descriptor, or,
within the body, a descriptor that an instruction names, a wide value, or the
operand stacks. The fifth is no such error: an instruction omits an operand of
its statement, and decoding cannot go on without it. -/
inductive Method.ReadableFault (header : MethodHeader) (listing : Listing) :
    LoadFault → Prop where
  | declaration : Descriptor.methodType? header.descriptor = none →
      ReadableFault header listing
        (.declaration (.badDescriptor header.descriptor))
  | descriptor {i : Instruction} {d : String} (line : Nat) :
      .instruction i ∈ listing.events → i.operand.descriptor? = some d →
      ReadableFault header listing
        (.body header.owner header.signature line (.badDescriptor d))
  | wide (line : Nat) (v : Variable) :
      ReadableFault header listing
        (.body header.owner header.signature line (.unpairedWide v))
  | stack (line : Nat) (why : StackFault Place) :
      ReadableFault header listing
        (.body header.owner header.signature line (.stack why))
  | operand {i : Instruction} (line operandLine : Nat) :
      .instruction i ∈ listing.events → i.omitsOperand = true →
      ReadableFault header listing
        (.body header.owner header.signature line (.missingOperand operandLine))

/-- **Reader and decoder agree.** A method whose body has been read never fails
for want of a meaning of an instruction, and only a bad descriptor of its own is
reported without naming the method. -/
theorem faults_of_readable_methods {pool : Pool} {body : CodeBody}
    {listing : Listing} (hread : Listing.read pool body = .ok listing)
    {header : MethodHeader} {fault : LoadFault}
    (h : Method.decode header (some listing) = .error fault) :
    Method.ReadableFault header listing fault := by
  rcases Method.cases_of_decode_eq_error h with
    ⟨cause, hcause, rfl⟩ | ⟨type, line, cause, rfl, hbody⟩
  · obtain ⟨hnone, rfl⟩ := BodyState.exists_of_typeOf_eq_error hcause
    exact .declaration hnone
  · rcases hbody with hrun | ⟨body, hrun, hstatements⟩
    · obtain ⟨i, t, hi, hfault⟩ := BodyState.exists_of_run_eq_error hrun
      obtain ⟨d, hd, rfl⟩ :=
        (Listing.mapped_of_read hread hi).instruction hfault
      exact .descriptor line hi hd
    · have hrefused := FlowGraph.refused_of_statements hstatements
      cases cause with
      | unpairedWide v => exact .wide line v
      | stack why => exact .stack line why
      | missingOperand operandLine =>
          obtain ⟨i, hi, homits⟩ := Method.exists_omits_of_decode h trivial
          exact .operand line operandLine hi homits
      | unmappedOpcode _ _ | malformed _ _ | badConstant _ _
      | badDescriptor _ =>
          exact hrefused.elim

namespace EmptyStack

/-- A method of a class `p.A` that pops from an empty stack, after a short form
and a wide one. -/
def header : MethodHeader where
  owner := "p.A"
  name := "run"
  descriptor := "(I)V"
  visibility := .publicAccess
  isStatic := true

def body : CodeBody where
  code := #[0x1a, 0xc4, 0x36, 0x00, 0x05, 0x57, 0xb1]
  handlers := []
  tables := []

def listing : Listing where
  events := [.instruction ⟨0, 0x15, .slot 0⟩, .instruction ⟨1, 0x36, .slot 5⟩,
    .instruction ⟨5, 0x57, .none⟩, .instruction ⟨6, 0xb1, .none⟩]

def fault : LoadFault :=
  .body "p.A" "run(I)V" 0 (.stack (.underflow (.block 0) 1))

theorem fault_of_readable_method :
    Listing.read #[] body = .ok listing ∧
      Method.decode header (some listing) = .error fault ∧
      Method.ReadableFault header listing fault := by
  have hread : Listing.read #[] body = .ok listing := by cbv
  have hdecode : Method.decode header (some listing) = .error fault := by cbv
  exact ⟨hread, hdecode, faults_of_readable_methods hread hdecode⟩

end EmptyStack

end TestCost
