import Mathlib
import TestCost.Code.Reading
import TestCost.Proofs.Flow.Operands
import TestCost.Proofs.Method.Additions
import TestCost.Proofs.Method.Faults

/-!
# Operands of decoded instructions

Which operations a decoded instruction adds depends on descriptors, and these
come from the class file unchecked. A descriptor may give a field, or any
parameter of a method, the kind `void`, which takes no slot. This module says
what that does to the operands of the operations.

All operations find the operands that they put back. A statement finds the
operands that it names, too, unless the instruction writes a field of kind
`void` or calls a method whose last parameter is of kind `void`
(`Instruction.omitsOperand`). Stores never miss theirs: a slot only goes on
serving a variable of the kind that is stored.

## Main results

* `BodyState.Means.omitsOperand_iff`, `BodyState.adds_instruction` — the
  operations that miss an operand are those of instructions that omit one.
* `Method.exists_omits_of_decode` — a body that misses an operand has such an
  instruction.
* `decoding_finds_operands` — both for whole methods.
-/

namespace TestCost

/-- The instruction writes a field that takes no slot, or calls a method whose
last parameter takes none. -/
def Instruction.omitsOperand (i : Instruction) : Bool :=
  match Meaning.ofOpcode? i.opcode, i.operand with
  | some (.writeField _), .field member =>
    Descriptor.fieldType? member.descriptor = some .void
  | some (.call _), .method member =>
    (Descriptor.methodType? member.descriptor).any fun type =>
      type.parameters.getLast? = some .void
  | _, _ => false

/-- Other instructions omit nothing. -/
theorem Instruction.not_omitsOperand {i : Instruction} {m : Meaning}
    (h : Meaning.ofOpcode? i.opcode = some m) (hplain : m.isPlain = true) :
    ¬ i.omitsOperand = true := by
  unfold omitsOperand
  rw [h]
  split
  · next hm _ =>
    rw [Option.some.inj hm] at hplain
    cases hplain
  · next hm _ =>
    rw [Option.some.inj hm] at hplain
    cases hplain
  · exact Bool.false_ne_true

/-- The fault is a statement that misses an operand. -/
def LoadFault.MissesOperand : LoadFault → Prop
  | .declaration (.missingOperand _) | .body _ _ _ (.missingOperand _) => True
  | _ => False

/-! ## Kinds in the table of meanings -/

theorem Meaning.computational_ne_void (n : Nat) : computational n ≠ .void := by
  unfold computational
  split <;> simp

theorem Meaning.element_ne_void (n : Nat) : element n ≠ .void := by
  unfold element
  split
  · simp
  · simp
  · simp
  · exact computational_ne_void _

/-- The meaning, if there is one, stores a value that takes a slot, if it
stores. -/
def Meaning.Whole (meaning : Option Meaning) : Prop :=
  (∀ effect, meaning = some (.effect effect) → ¬ effect.OmitsOperand) ∧
    ∀ type, meaning = some (.storeSlot type) → type ≠ .void

theorem Meaning.whole_ite {c : Prop} [Decidable c] {x y : Option Meaning}
    (hx : Whole x) (hy : Whole y) : Whole (if c then x else y) := by
  split
  · exact hx
  · exact hy

/-- No line of the table omits an operand. -/
theorem Meaning.whole_ofOpcode? (opcode : Nat) : Whole (ofOpcode? opcode) := by
  unfold ofOpcode?
  with_reducible repeat' apply whole_ite
  all_goals simp [Whole, StackEffect.OmitsOperand, push, compute, binary,
    convert, computational_ne_void, element_ne_void]
  rintro _ _ _ _ rfl
  exact id

/-! ## Slots -/

theorem Slots.type_access_ne_void (s : Slots) (slot : Nat) {type : ValueType}
    (offset : Nat) (h : type ≠ .void) :
    (s.access slot type offset).2.type ≠ .void := by
  unfold Slots.access
  dsimp only
  split
  · next v hv =>
    obtain ⟨_, hkind⟩ := Option.filter_eq_some_iff.1 hv
    intro hvoid
    rw [hvoid] at hkind
    cases type <;> simp_all [ValueType.stackKind]
  · exact h

/-! ## Instructions -/

namespace BodyState

variable {P : StackOp → Prop} {s t u : BodyState}

/-- The second body has the events of the first one and further ones, whose
operations have `P`. -/
def Adds (P : StackOp → Prop) (s t : BodyState) : Prop :=
  ∃ added, t.events.toList = s.events.toList ++ added ∧
    ∀ e ∈ added, ∀ op ∈ e.ops, P op

theorem adds_of_events (h : t.events = s.events) : Adds P s t :=
  ⟨[], by simp [h], by simp⟩

theorem adds_add {e : FlowEvent} (h : ∀ op ∈ e.ops, P op) :
    Adds P s (s.add e) :=
  ⟨[e], by simp [BodyState.add], by simpa using h⟩

theorem Adds.trans (h : Adds P s t) (h' : Adds P t u) : Adds P s u := by
  obtain ⟨added, hadded, hops⟩ := h
  obtain ⟨more, hmore, hops'⟩ := h'
  refine ⟨added ++ more, by rw [hmore, hadded, List.append_assoc], ?_⟩
  intro e he
  rcases List.mem_append.1 he with he | he
  · exact hops e he
  · exact hops' e he

theorem omitsOperand_fieldOf
    {i : Instruction} {isStatic : Bool} {member : MemberRef} {f : Field}
    (hm : Meaning.ofOpcode? i.opcode = some (.writeField isStatic))
    (hoperand : i.operand = .field member)
    (hf : fieldOf member isStatic = .ok f) :
    (StackEffect.putField f).OmitsOperand ↔ i.omitsOperand = true := by
  unfold fieldOf at hf
  split at hf
  · next type htype =>
    obtain rfl := Except.ok.inj hf
    simp [Instruction.omitsOperand, hm, hoperand, htype,
      StackEffect.OmitsOperand]
  · cases hf

theorem omitsOperand_typeOf {i : Instruction} {isStatic : Bool}
    {member : MemberRef} {type : MethodType}
    (hm : Meaning.ofOpcode? i.opcode = some (.call isStatic))
    (hoperand : i.operand = .method member)
    (htype : typeOf member.descriptor = .ok type) :
    (StackEffect.invoke
      { owner := member.owner, name := member.name
        descriptor := member.descriptor, isStatic, type }).OmitsOperand ↔
      i.omitsOperand = true := by
  unfold typeOf at htype
  split at htype
  · next type' hread =>
    obtain rfl := Except.ok.inj htype
    simp [Instruction.omitsOperand, hm, hoperand, hread,
      StackEffect.OmitsOperand]
  · cases htype

/-- What an operation takes is fixed by the meaning of the instruction, but for
stores, writes and calls. A store takes the kind of the variable that its slot
serves. -/
theorem Means.omitsOperand_iff {slots slots' : Slots} {i : Instruction}
    {effects : List StackEffect} (h : Means slots i slots' effects)
    {effect : StackEffect} (heffect : effect ∈ effects) :
    effect.OmitsOperand ↔ i.omitsOperand = true := by
  cases h with
  | nothing | increment => cases heffect
  | table hm =>
      obtain rfl := List.mem_singleton.1 heffect
      have hwhole := (Meaning.whole_ofOpcode? _).1 _ hm
      exact iff_of_false hwhole (i.not_omitsOperand hm rfl)
  | constant _ hm hplain | compute _ _ hm hplain | pop hm hplain
  | leave hm hplain =>
      obtain rfl := List.mem_singleton.1 heffect
      exact iff_of_false id (i.not_omitsOperand hm hplain)
  | load slot type hm =>
      obtain rfl := List.mem_singleton.1 heffect
      exact iff_of_false id (i.not_omitsOperand hm rfl)
  | store slot type hm =>
      obtain rfl := List.mem_singleton.1 heffect
      have htype := (Meaning.whole_ofOpcode? _).2 type hm
      have hvoid := slots.type_access_ne_void slot i.offset htype
      exact iff_of_false hvoid (i.not_omitsOperand hm rfl)
  | read hm =>
      obtain rfl := List.mem_singleton.1 heffect
      exact iff_of_false id (i.not_omitsOperand hm rfl)
  | write hm hoperand hf =>
      obtain rfl := List.mem_singleton.1 heffect
      exact omitsOperand_fieldOf hm hoperand hf
  | call hm hoperand htype =>
      obtain rfl := List.mem_singleton.1 heffect
      exact omitsOperand_typeOf hm hoperand htype

/-- The operations that an instruction adds omit an operand if the instruction
does, and not otherwise. -/
theorem adds_instruction {i : Instruction} (h : s.instruction i = .ok t) :
    Adds (fun op => op.effect.OmitsOperand ↔ i.omitsOperand = true) s t := by
  obtain ⟨effects, hmeans, added, hadded, hops⟩ := exists_means h
  refine ⟨added, hadded, ?_⟩
  intro e he op hop
  have hmem : op ∈ effects.map (StackOp.mk s.line) := by
    rw [← hops]
    exact List.mem_flatMap.2 ⟨e, he, hop⟩
  obtain ⟨effect, heffect, rfl⟩ := List.mem_map.1 hmem
  exact hmeans.omitsOperand_iff heffect

/-- No operation so far omits an operand. -/
def Whole (s : BodyState) : Prop :=
  ∀ e ∈ s.events.toList, ∀ op ∈ e.ops, ¬ op.effect.OmitsOperand

theorem Adds.whole (h : Adds (fun op => ¬ op.effect.OmitsOperand) s t)
    (hs : s.Whole) :
    t.Whole := by
  obtain ⟨added, hadded, hops⟩ := h
  intro e he
  rw [hadded] at he
  rcases List.mem_append.1 he with he | he
  · exact hs e he
  · exact hops e he

theorem Whole.handler (h : s.Whole) (range : HandlerRange) :
    (s.handler range).Whole := by
  refine Adds.whole (t := s.handler range) ?_ h
  refine (adds_of_events rfl).trans (adds_add ?_)
  intro op hop
  rw [List.mem_singleton.1 hop]
  exact id

theorem Whole.step (h : s.Whole) {event : CodeEvent}
    (hevent : ∀ i, event = .instruction i → ¬ i.omitsOperand = true)
    (hstep : s.step event = .ok t) : t.Whole := by
  cases event with
  | label label =>
      obtain rfl := Except.ok.inj hstep
      exact (adds_add (by simp [FlowEvent.ops])).whole h
  | line line =>
      obtain rfl := Except.ok.inj hstep
      exact h
  | instruction i =>
      obtain ⟨added, hadded, hops⟩ :=
        adds_instruction (mapError_eq_ok_iff.1 hstep)
      refine Adds.whole ⟨added, hadded, ?_⟩ h
      intro e he op hop homits
      exact hevent i rfl ((hops e he op hop).1 homits)

/-- A body of instructions that omit nothing has operations that omit nothing.
-/
theorem Whole.run (h : s.Whole) {listing : Listing}
    (hlisting : ∀ i, .instruction i ∈ listing.events → ¬ i.omitsOperand = true)
    (hrun : s.run listing = .ok t) : t.Whole := by
  have hhandlers : ∀ (ranges : List HandlerRange) {s : BodyState}, s.Whole →
      (ranges.foldl BodyState.handler s).Whole := by
    intro ranges
    induction ranges with
    | nil => exact fun hs => hs
    | cons range ranges ih => exact fun hs => ih (hs.handler range)
  refine foldlM_keeps_of_mem ?_ (hhandlers listing.handlers h) hrun
  intro event hmem s t hs hstep
  exact hs.step (fun i hi => hlisting i (hi ▸ hmem)) hstep

end BodyState

/-! ## Methods -/

/-- A method that misses an operand has an instruction that omits one. -/
theorem Method.exists_omits_of_decode {header : MethodHeader}
    {listing : Listing}
    {fault : LoadFault} (h : decode header (some listing) = .error fault)
    (hmisses : fault.MissesOperand) :
    ∃ i, .instruction i ∈ listing.events ∧ i.omitsOperand = true := by
  by_contra hnone
  have hlisting : ∀ i, .instruction i ∈ listing.events →
      ¬ i.omitsOperand = true :=
    fun i hi homits => hnone ⟨i, hi, homits⟩
  rcases cases_of_decode_eq_error h with ⟨cause, hcause, rfl⟩ |
    ⟨type, line, cause, rfl, hbody⟩
  · rw [(BodyState.exists_of_typeOf_eq_error hcause).2] at hmisses
    exact hmisses
  · rcases hbody with hrun | ⟨body, hrun, hstatements⟩
    · obtain ⟨i, t, _, hfault⟩ := BodyState.exists_of_run_eq_error hrun
      rcases BodyState.cases_of_instruction_eq_error hfault with
        ⟨_, rfl⟩ | ⟨d, _, rfl⟩
      · exact hmisses
      · exact hmisses
    · cases cause with
      | missingOperand operandLine =>
          obtain ⟨b, op, hop, homits⟩ :=
            FlowGraph.exists_omits_of_statements hstatements
          have hwhole : body.Whole :=
            BodyState.Whole.run (by simp [BodyState.Whole]) hlisting hrun
          exact FlowGraph.ops_ofEvents hwhole hop homits
      | _ => exact hmisses

/-- **Where decoding finds its operands.** Given as many operands as it takes,
every operation that a decoded instruction adds finds all those that it puts
back, and all that its statement names, unless the instruction omits one. A
method without such an instruction never misses an operand. -/
theorem decoding_finds_operands (header : MethodHeader) (listing : Listing) :
    (∀ (s t : BodyState) (i : Instruction), s.instruction i = .ok t →
      BodyState.Adds
        (fun op => ∀ input : List Variable, input.length = op.operands →
        op.effect.results? input = some (op.results input) ∧
          (op.statement? input = none ↔ i.omitsOperand = true)) s t) ∧
      ((∀ i, .instruction i ∈ listing.events → ¬ i.omitsOperand = true) →
        ∀ fault, Method.decode header (some listing) = .error fault →
          ¬ fault.MissesOperand) := by
  refine ⟨?_, ?_⟩
  · intro s t i h
    obtain ⟨added, hadded, hops⟩ := BodyState.adds_instruction h
    refine ⟨added, hadded, ?_⟩
    intro e he op hop input hinput
    refine ⟨op.effect.results?_eq hinput, ?_⟩
    exact (op.effect.statement?_eq_none_iff op.line hinput).trans
      (hops e he op hop)
  · intro hlisting fault h hmisses
    obtain ⟨i, hi, homits⟩ := Method.exists_omits_of_decode h hmisses
    exact hlisting i hi homits

namespace VoidKinds

/-- A method of a class `p.A`. -/
def header : MethodHeader where
  owner := "p.A"
  name := "run"
  descriptor := "()V"
  visibility := .publicAccess
  isStatic := true

/-- A call whose first parameter takes no slot. -/
def calling : Listing where
  events :=
    [.line 1, .instruction ⟨0, 0x04, .none⟩,
     .instruction ⟨1, 0xb8, .method ⟨"p.A", "take", "(VI)V"⟩⟩,
       .instruction ⟨4, 0xb1, .none⟩]

/-- A void parameter in front of another one is no reason to miss an operand. -/
theorem call_finds_operands :
    (∀ i, .instruction i ∈ calling.events → ¬ i.omitsOperand = true) ∧
      ∀ fault, Method.decode header (some calling) = .error fault →
        ¬ fault.MissesOperand := by
  have hcalling : ∀ i, .instruction i ∈ calling.events →
      ¬ i.omitsOperand = true := by
    intro i hi
    simp only [calling, List.mem_cons, List.not_mem_nil, or_false, reduceCtorEq,
      false_or, CodeEvent.instruction.injEq] at hi
    rw [Bool.not_eq_true]
    rcases hi with rfl | rfl | rfl
    · rfl
    · cbv
    · rfl
  exact ⟨hcalling, (decoding_finds_operands header calling).2 hcalling⟩

/-- The pool and the code of a method that writes `p.A.X`, a field of kind
`void`. -/
def pool : Pool :=
  #[.empty, .utf8 "p/A", .classRef 1, .utf8 "X", .utf8 "V", .nameAndType 3 4,
    .fieldRef 2 5]

def body : CodeBody where
  code := #[0xb3, 0x00, 0x06, 0xb1]
  handlers := []
  tables := [.lines [⟨0, 1⟩]]

def writing : Listing where
  events :=
    [.line 1, .instruction ⟨0, 0xb3, .field ⟨"p.A", "X", "V"⟩⟩,
      .instruction ⟨3, 0xb1, .none⟩]

/-- The body can be read, and the write misses its operand. -/
theorem write_misses_operand :
    Listing.read pool body = .ok writing ∧
      Method.decode header (some writing) =
        .error (.body "p.A" "run()V" 1 (.missingOperand 1)) :=
  ⟨by cbv, by cbv⟩

end VoidKinds

end TestCost
