import Mathlib
import TestCost.Proofs.Class
import TestCost.Proofs.Code.Mapping
import TestCost.Proofs.Method
import TestCost.Proofs.Method.Additions

/-!
# Names in loaded classes

A class file names classes through its pool, and the pool gives dotted names
only. So a name that comes out of a class file is one that a repository keeps
classes under, and one that can be held against the prefixes of a whitelist:
the name of the superclass, and the classes that methods make calls on. A call
of a method comes from an instruction of its body, whose operand is a member of
the pool.

## Main results

* `Code.dotted_of_readForm` — an instruction that names a method names its class
  in dotted form.
* `Method.exists_instruction_of_call` — the instruction behind a call.
* `ClassModel.named_of_parse` — the names in a loaded class.
-/

namespace TestCost

namespace Pool

variable {pool : Pool} {index : Nat}

theorem dotted_className {name : String} (h : pool.className index = .ok name) :
    ClassName.dotted name = name := by
  unfold className at h
  split at h
  · obtain ⟨text, _, rfl⟩ := map_eq_ok_iff.1 h
    exact ClassName.dotted_dotted text
  · cases h

theorem dotted_member {member : MemberRef}
    (h : pool.member index = .ok member) :
    ClassName.dotted member.owner = member.owner := by
  unfold Pool.member at h
  split at h
  case h_4 => cases h
  all_goals
    obtain ⟨_, _, h⟩ := exists_of_bind_eq_ok h
    obtain ⟨owner, howner, h⟩ := exists_of_bind_eq_ok h
    obtain rfl := Except.ok.inj h
    exact dotted_className howner

end Pool

/-! ## Code -/

/-- An instruction names the class of a method with dots; only one form has
operands of this kind. -/
theorem Code.dotted_of_readForm {pool : Pool}
    {code : Bytes} {offset opcode base following : Nat} {form : Form}
    {member : MemberRef} (h : readForm pool code offset opcode form =
      .ok (base, .method member, following)) :
    ClassName.dotted member.owner = member.owner := by
  have hkind : form.kind = .method := by
    by_cases hwide : form = .wide
    · subst hwide
      rcases kind_of_readForm_wide h with ⟨_, hkind⟩ |
        ⟨_, hkind⟩ <;> cases hkind
    · exact (kind_of_readForm hwide h).2.symm
  cases form with
  | method padding =>
      obtain ⟨index, _, h⟩ := exists_of_bind_eq_ok h
      obtain ⟨found, hfound, h⟩ := exists_of_bind_eq_ok h
      cases h
      exact Pool.dotted_member hfound
  | _ => cases hkind

theorem Listing.dotted_of_read {pool : Pool} {body : CodeBody}
    {listing : Listing} (h : read pool body = .ok listing) {i : Instruction}
    (hi : .instruction i ∈ listing.events) {member : MemberRef}
    (hoperand : i.operand = .method member) :
    ClassName.dotted member.owner = member.owner := by
  obtain ⟨instructions, handlers, names, hinstructions, _, _, _, hevents, _⟩ :=
    exists_of_read h
  rw [hevents, instruction_mem_events_iff] at hi
  obtain ⟨start, stop, hread⟩ :=
    Code.exists_of_mem_readInstructions hinstructions hi
  obtain ⟨opcode, form, following, _, _, hform, _⟩ :=
    Code.exists_of_readInstruction hread
  rw [hoperand] at hform
  exact Code.dotted_of_readForm hform

/-! ## Calls -/

/-- The effect is no call. -/
def StackEffect.callsNothing : StackEffect → Bool
  | .invoke _ => false
  | _ => true

/-- The meaning is not an effect that is a call. -/
def Meaning.callsNothing : Meaning → Bool
  | .effect e => e.callsNothing
  | _ => true

theorem Meaning.callsNothing_of_ofOpcode? {opcode : Nat} {effect : StackEffect}
    (h : ofOpcode? opcode = some (.effect effect)) :
    effect.callsNothing = true := by
  have hall : ∀ opcode < 0xca, ∀ m ∈ ofOpcode? opcode,
      m.callsNothing = true := by
    decide +kernel
  by_cases hlt : opcode < 0xca
  · exact hall opcode hlt _ h
  · rw [ofOpcode?_of_le (by omega)] at h
    cases h

namespace BodyState

variable {s t : BodyState} {listing : Listing} {target : CallTarget}

theorem Means.operand_of_call {slots slots' : Slots} {i : Instruction}
    {effects : List StackEffect} (h : Means slots i slots' effects)
    (hcall : .invoke target ∈ effects) :
    ∃ member, i.operand = .method member ∧ target.owner = member.owner := by
  cases h with
  | @call isStatic member type _ hoperand _ =>
      obtain rfl := StackEffect.invoke.inj (List.mem_singleton.1 hcall)
      exact ⟨member, hoperand, rfl⟩
  | table hm =>
      have hnone := Meaning.callsNothing_of_ofOpcode? hm
      rw [← List.mem_singleton.1 hcall] at hnone
      cases hnone
  | nothing | increment => cases hcall
  | constant | compute | pop | leave | load | store | read | write =>
      cases List.mem_singleton.1 hcall

/-- The calls of a body are made by instructions of its listing. -/
theorem exists_instruction_of_call (hstart : s.effects = [])
    (hrun : s.run listing = .ok t) (hcall : .invoke target ∈ t.effects) :
    ∃ i member, .instruction i ∈ listing.events ∧ i.operand = .method member ∧
      target.owner = member.owner := by
  refine run_induction (H := fun _ effects => ∀ target,
    .invoke target ∈ effects → ∃ i member, .instruction i ∈ listing.events ∧
    i.operand = .method member ∧ target.owner = member.owner) ?_ ?_
    (by simp [hstart]) hrun target hcall
  · intro slots effects value h target htarget
    rcases List.mem_append.1 htarget with htarget | htarget
    · exact h target htarget
    · cases List.mem_singleton.1 htarget
  · intro i slots slots' effects added hi h hmeans target htarget
    rcases List.mem_append.1 htarget with htarget | htarget
    · exact h target htarget
    · obtain ⟨member, hoperand, howner⟩ := hmeans.operand_of_call htarget
      exact ⟨i, member, hi, hoperand, howner⟩

end BodyState

/-- A statement that is a call comes from the operation that is one. -/
theorem StackOp.exists_target_of_statement?
    {op : StackOp} {input : List Variable} {call : Invocation}
    (h : op.statement? input = some (some (.invoke call))) :
    ∃ target, op.effect = .invoke target ∧ call.owner = target.owner := by
  obtain ⟨line, effect⟩ := op
  cases effect with
  | invoke target =>
      refine ⟨target, rfl, ?_⟩
      simp only [StackOp.statement?, StackEffect.statement?] at h
      split at h
      · obtain ⟨found, _, h⟩ := Option.bind_eq_some_iff.1 h
        obtain rfl := Statement.invoke.inj (Option.some.inj (Option.some.inj h))
        rfl
      · obtain ⟨receiver, _, h⟩ := Option.bind_eq_some_iff.1 h
        obtain ⟨found, _, h⟩ := Option.bind_eq_some_iff.1 h
        obtain rfl := Statement.invoke.inj (Option.some.inj (Option.some.inj h))
        rfl
  | putField f =>
      simp only [StackOp.statement?, StackEffect.statement?] at h
      split at h <;> simp [Option.bind_eq_some_iff] at h
  | store v =>
      simp [StackOp.statement?, StackEffect.statement?,
        Option.bind_eq_some_iff] at h
  | arrayStore element =>
      simp [StackOp.statement?, StackEffect.statement?,
        Option.bind_eq_some_iff] at h
  | load | transform | getField | arrayLoad | duplicate | duplicatePair | swap
  | pop | leave
  | raise => cases h

theorem Method.exists_instruction_of_call {header : MethodHeader}
    {listing : Option Listing} {m : Method} (h : decode header listing = .ok m)
    {call : Invocation} (hcall : .invoke call ∈ m.statements) :
    ∃ i member, .instruction i ∈ (listing.getD {}).events ∧
      i.operand = .method member ∧
      call.owner = member.owner := by
  obtain ⟨type, body, _, hrun, hstatements, _⟩ := exists_of_decode h
  obtain ⟨b, op, input, hop, hstatement, _⟩ :=
    FlowGraph.exists_op_of_mem_statements hstatements hcall
  obtain ⟨target, heffect, howner⟩ :=
    StackOp.exists_target_of_statement? hstatement
  have hmem := BodyState.effect_mem_of_block hop
  rw [heffect] at hmem
  rw [howner]
  exact BodyState.exists_instruction_of_call rfl hrun hmem

/-! ## Classes -/

/-- The names that the class gives other classes are dotted, and its methods
know the class by its name. -/
structure ClassModel.Named (c : ClassModel) : Prop where
  parent : ∀ p, c.superName = some p → ClassName.dotted p = p
  owner : ∀ m ∈ c.methods, m.owner = c.name
  calls : ∀ m ∈ c.methods, ∀ call, .invoke call ∈ m.statements →
    ClassName.dotted call.owner = call.owner

namespace ClassModel

theorem named_of_loadMethod {pool : Pool} {owner : String} {entry : MemberEntry}
    {m : Method} (h : loadMethod pool owner entry = .ok m) :
    m.owner = owner ∧ ∀ call, .invoke call ∈ m.statements →
      ClassName.dotted call.owner = call.owner := by
  obtain ⟨header, listing, howner, hdecode, hlisting⟩ :=
    exists_decode_of_loadMethod h
  obtain ⟨_, _, _, _, _, _, _, _, hparts⟩ := Method.exists_of_decode hdecode
  refine ⟨by rw [hparts, howner], ?_⟩
  intro call hcall
  obtain ⟨i, member, hi, hoperand, hcallee⟩ :=
    Method.exists_instruction_of_call hdecode hcall
  cases listing with
  | none => cases hi
  | some listing =>
      obtain ⟨body, hread⟩ := hlisting listing rfl
      rw [hcallee]
      exact Listing.dotted_of_read hread hi hoperand

theorem named_of_parse {requested : String} {bytes : Bytes} {c : ClassModel}
    (h : parse requested bytes = .ok c) : c.Named := by
  obtain ⟨file, _, hclass⟩ := exists_file_of_parse h
  obtain ⟨_, hsuper, _⟩ := exists_of_ofClassFile hclass
  have hmethods : ∀ m ∈ c.methods, m.owner = c.name ∧
      ∀ call, .invoke call ∈ m.statements →
        ClassName.dotted call.owner = call.owner := by
    intro m hm
    obtain ⟨pool, entry, hentry⟩ := exists_method_of_parse h hm
    exact named_of_loadMethod hentry
  exact ⟨fun p hp => Pool.dotted_className (hsuper p hp), fun m hm =>
    (hmethods m hm).1, fun m hm => (hmethods m hm).2⟩

end ClassModel

end TestCost
