import Mathlib
import TestCost.Method.Decoding
import TestCost.Proofs.Except
import TestCost.Proofs.Flow.Builder

/-!
# What a body gets from an instruction

Decoding goes through a listing and adds to a body: flow events at the end, ways
to its complexity, variables for slots. What an instruction adds hangs on the
slots and on the line that decoding has come to, and on nothing else that has
been decoded. So it can be looked at in a body that is `bare`, and put behind
any other one (`after`).

Then two bodies with the same slots and lines get the same from the same part of
a listing, whatever else they are made of.

## Main results

* `Meaning.isAt_of_ofOpcode?` — the opcodes of some meanings.
* `BodyState.instruction_eq` — an instruction, from a bare body.
* `BodyState.described_of_bare` — all that an instruction does: its events and
  ways, its effects, and the slots behind it.
* `BodyState.added_of_bare`, `BodyState.exists_means` — the two views of it.
* `BodyState.run_induction` — what instructions keep, a listing keeps.
* `BodyState.exists_of_run` — those of a listing.
-/

namespace TestCost

/-! ## Opcodes -/

namespace Meaning

/-- The opcode is the one of the meaning, for meanings that have a single one.
-/
def isAt (opcode : Nat) : Meaning → Bool
  | subroutine => opcode = 0xa8
  | tableSwitch => opcode = 0xaa
  | lookupSwitch => opcode = 0xab
  | readField true => opcode = 0xb2
  | writeField true => opcode = 0xb3
  | readField false => opcode = 0xb4
  | writeField false => opcode = 0xb5
  | _ => true

/-- It neither writes a field nor calls a method. -/
def isPlain : Meaning → Bool
  | writeField _ | call _ => false
  | _ => true

theorem ofOpcode?_of_le {opcode : Nat} (h : 0xca ≤ opcode) :
    ofOpcode? opcode = none := by
  unfold ofOpcode?
  repeat rw [if_neg (by omega)]

theorem isAt_of_ofOpcode? {opcode : Nat} {m : Meaning}
    (h : ofOpcode? opcode = some m) :
    m.isAt opcode = true := by
  have hall : ∀ opcode < 0xca, ∀ m ∈ ofOpcode? opcode,
      m.isAt opcode = true := by
    decide +kernel
  by_cases hlt : opcode < 0xca
  · exact hall opcode hlt m h
  · rw [ofOpcode?_of_le (by omega)] at h
    cases h

end Meaning

namespace BodyState

variable {s t u d : BodyState}

/-- Nothing is decoded yet; slots and the line are as they are. -/
def bare (s : BodyState) : BodyState :=
  { slots := s.slots, line := s.line, complexity := 0 }

/-- The second body, decoded from where the first one ends, behind the first
one. -/
def after (s d : BodyState) : BodyState :=
  { s with
    slots := d.slots, events := s.events ++ d.events, complexity :=
      s.complexity + d.complexity }

theorem after_bare (s : BodyState) : s.after s.bare = s := by
  simp [after, bare]

theorem after_add (s d : BodyState) (e : FlowEvent) :
    s.after (d.add e) = (s.after d).add e := by
  simp [after, add]

theorem after_addWays (s d : BodyState) (ways : Nat) :
    s.after (d.addWays ways) = (s.after d).addWays ways := by
  simp [after, addWays, Nat.add_assoc]

theorem after_addEffect (h : d.line = s.line) (effect : StackEffect) :
    s.after (d.addEffect effect) = (s.after d).addEffect effect := by
  rw [addEffect, addEffect, after_add, h]
  rfl

theorem after_bare_addEffect (s : BodyState) (effect : StackEffect) :
    s.after (s.bare.addEffect effect) = s.addEffect effect := by
  have hline : s.bare.line = s.line := rfl
  rw [after_addEffect hline, after_bare]

theorem after_bare_slots (s : BodyState) (slots : Slots) :
    s.after { s.bare with slots } = { s with slots } := by
  simp [after, bare]

theorem after_bare_slots_addEffect (s : BodyState) (slots : Slots)
    (effect : StackEffect) :
    s.after ({ s.bare with slots }.addEffect effect) =
      { s with slots }.addEffect effect := by
  have hline : { s.bare with slots }.line = s.line := rfl
  rw [after_addEffect hline, after_bare_slots]

theorem after_bare_switch (s : BodyState) (default : Label) (cases : List Label)
    (ways : Nat) :
    s.after (s.bare.switch default cases ways) =
      s.switch default cases ways := by
  rw [switch, after_add, after_addWays, after_bare_addEffect]
  rfl

theorem complexity_switch (s : BodyState) (default : Label)
    (cases : List Label) (ways : Nat) :
    (s.bare.switch default cases ways).complexity = ways := by
  simp [switch, addEffect, addWays, BodyState.add, bare]

/-- What an instruction adds hangs on the slots and the line alone. -/
theorem instruction_eq (s : BodyState) (i : Instruction) :
    s.instruction i = (s.bare.instruction i).map s.after := by
  unfold instruction
  cases Meaning.ofOpcode? i.opcode with
  | none => rfl
  | some m =>
      cases m with
      | nothing => exact congrArg Except.ok s.after_bare.symm
      | effect effect =>
          exact congrArg Except.ok (s.after_bare_addEffect effect).symm
      | pushInt | pushConstant | subroutineReturn | create | createMulti =>
          cases i.operand <;>
            first
            | exact congrArg Except.ok (s.after_bare_addEffect _).symm
            | rfl
      | loadSlot type | storeSlot type =>
          cases i.operand with
          | slot slot =>
              exact congrArg Except.ok (s.after_bare_slots_addEffect _ _).symm
          | _ => rfl
      | increment =>
          cases i.operand with
          | increment slot amount =>
              exact congrArg Except.ok (s.after_bare_slots _).symm
          | _ => rfl
      | branch operands =>
          cases i.operand with
          | jump target =>
              refine congrArg Except.ok ?_
              rw [after_addWays, after_add, after_bare_addEffect]
          | _ => rfl
      | jump =>
          cases i.operand with
          | jump target =>
              refine congrArg Except.ok ?_
              rw [after_add, after_bare]
          | _ => rfl
      | subroutine =>
          cases i.operand with
          | jump target =>
              refine congrArg Except.ok ?_
              rw [after_add, after_bare]
              rfl
          | _ => rfl
      | tableSwitch | lookupSwitch =>
          cases i.operand with
          | switch default cases =>
              exact congrArg Except.ok (s.after_bare_switch _ _ _).symm
          | _ => rfl
      | readField isStatic | writeField isStatic =>
          cases i.operand with
          | field member =>
              dsimp only
              cases fieldOf member isStatic with
              | error fault => rfl
              | ok f => exact congrArg Except.ok (s.after_bare_addEffect _).symm
          | _ => rfl
      | call isStatic =>
          cases i.operand with
          | method member =>
              dsimp only
              cases typeOf member.descriptor with
              | error fault => rfl
              | ok type =>
                  exact congrArg Except.ok (s.after_bare_addEffect _).symm
          | _ => rfl
      | dynamicCall =>
          cases i.operand with
          | callSite name descriptor =>
              dsimp only
              cases typeOf descriptor with
              | error fault => rfl
              | ok type =>
                  exact congrArg Except.ok (s.after_bare_addEffect _).symm
          | _ => rfl

/-- What an instruction adds: flow events, and ways besides going on. -/
inductive Added (i : Instruction) : List FlowEvent → Nat → Prop where
  | nothing : Added i [] 0
  | op (o : StackOp) : Added i [.op o] 0
  | branch (o : StackOp) {target : Label} : i.operand = .jump target →
      Added i [.op o, .branch target] 1
  | jump {target : Label} : i.operand = .jump target → Added i [.jump target] 0
  | subroutine (returnAddress : StackOp) {target : Label} : i.opcode = 0xa8 →
      i.operand = .jump target → Added i [.subroutine target returnAddress] 0
  | tableSwitch (o : StackOp) {default : Label} {cases : List Label} :
      i.opcode = 0xaa →
      i.operand = .switch default cases →
      Added i [.op o, .switch default cases]
        (cases.filter (· != default)).length
  | lookupSwitch (o : StackOp) {default : Label} {cases : List Label} :
      i.opcode = 0xab →
      i.operand = .switch default cases →
        Added i [.op o, .switch default cases] cases.length

/-- What an instruction means: the slots behind it, and the effects of the
operations that it adds. -/
inductive Means (slots : Slots) (i : Instruction) :
    Slots → List StackEffect → Prop where
  | nothing : Means slots i slots []
  | table {effect : StackEffect} :
      Meaning.ofOpcode? i.opcode = some (.effect effect) →
      Means slots i slots [effect]
  | constant {m : Meaning} (c : Constant) :
      Meaning.ofOpcode? i.opcode = some m → m.isPlain = true →
      Means slots i slots [.load (.constant c)]
  | compute {m : Meaning} (operands : Nat) (result : Option Constant) :
      Meaning.ofOpcode? i.opcode = some m → m.isPlain = true →
      Means slots i slots [.transform operands (result.map .constant)]
  | pop {m : Meaning} :
      Meaning.ofOpcode? i.opcode = some m → m.isPlain = true →
      Means slots i slots [.pop 1]
  | leave {m : Meaning} :
      Meaning.ofOpcode? i.opcode = some m → m.isPlain = true →
      Means slots i slots [.leave .void]
  | load (slot : Nat) (type : ValueType) :
      Meaning.ofOpcode? i.opcode = some (.loadSlot type) →
      i.operand = .slot slot →
      Means slots i (slots.access slot type i.offset).1
        [.load (slots.access slot type i.offset).2]
  | store (slot : Nat) (type : ValueType) :
      Meaning.ofOpcode? i.opcode = some (.storeSlot type) →
      i.operand = .slot slot →
      Means slots i (slots.access slot type i.offset).1
        [.store (slots.access slot type i.offset).2]
  | increment (slot : Nat) {amount : Int} :
      Meaning.ofOpcode? i.opcode = some .increment →
      i.operand = .increment slot amount →
      Means slots i (slots.access slot .int i.offset).1 []
  | read {isStatic : Bool} {member : MemberRef} {f : Field} :
      Meaning.ofOpcode? i.opcode = some (.readField isStatic) →
      i.operand = .field member → fieldOf member isStatic = .ok f →
      Means slots i slots [.getField f]
  | write {isStatic : Bool} {member : MemberRef} {f : Field} :
      Meaning.ofOpcode? i.opcode = some (.writeField isStatic) →
      i.operand = .field member → fieldOf member isStatic = .ok f →
      Means slots i slots [.putField f]
  | call {isStatic : Bool} {member : MemberRef} {type : MethodType} :
      Meaning.ofOpcode? i.opcode = some (.call isStatic) →
      i.operand = .method member → typeOf member.descriptor = .ok type →
      Means slots i slots [.invoke
        { owner := member.owner, name := member.name
          descriptor := member.descriptor, isStatic, type }]

/-- All that an instruction does, seen in a bare body: one case for each line of
the definition. -/
theorem described_of_bare {i : Instruction}
    (h : s.bare.instruction i = .ok d) :
    Added i d.events.toList d.complexity ∧
      ∃ effects, Means s.slots i d.slots effects ∧
        d.events.toList.flatMap FlowEvent.ops =
          effects.map (StackOp.mk s.line) := by
  unfold BodyState.instruction at h
  split at h
  · obtain rfl := Except.ok.inj h
    exact ⟨.nothing, [], .nothing, rfl⟩
  · next hm =>
    obtain rfl := Except.ok.inj h
    exact ⟨.op _, _, .table hm, rfl⟩
  · next hm _ =>
    obtain rfl := Except.ok.inj h
    exact ⟨.op _, _, .constant _ hm rfl, rfl⟩
  · next hm _ =>
    obtain rfl := Except.ok.inj h
    exact ⟨.op _, _, .constant _ hm rfl, rfl⟩
  · next type slot hm hoperand =>
    obtain rfl := Except.ok.inj h
    exact ⟨.op _, _, .load slot type hm hoperand, rfl⟩
  · next type slot hm hoperand =>
    obtain rfl := Except.ok.inj h
    exact ⟨.op _, _, .store slot type hm hoperand, rfl⟩
  · next slot _ hm hoperand =>
    obtain rfl := Except.ok.inj h
    exact ⟨.nothing, [], .increment slot hm hoperand, rfl⟩
  · next operands _ hm hoperand =>
    obtain rfl := Except.ok.inj h
    exact ⟨.branch _ hoperand, _, .compute operands none hm rfl, rfl⟩
  · next hoperand =>
    obtain rfl := Except.ok.inj h
    exact ⟨.jump hoperand, [], .nothing, rfl⟩
  · next hm hoperand =>
    obtain rfl := Except.ok.inj h
    have hopcode := of_decide_eq_true (Meaning.isAt_of_ofOpcode? hm)
    exact ⟨.subroutine _ hopcode hoperand, _, .constant _ hm rfl, rfl⟩
  · next hm _ =>
    obtain rfl := Except.ok.inj h
    exact ⟨.op _, _, .leave hm rfl, rfl⟩
  · next hm hoperand =>
    obtain rfl := Except.ok.inj h
    have hopcode := of_decide_eq_true (Meaning.isAt_of_ofOpcode? hm)
    refine ⟨?_, _, .pop hm rfl, rfl⟩
    rw [complexity_switch]
    exact .tableSwitch _ hopcode hoperand
  · next hm hoperand =>
    obtain rfl := Except.ok.inj h
    have hopcode := of_decide_eq_true (Meaning.isAt_of_ofOpcode? hm)
    refine ⟨?_, _, .pop hm rfl, rfl⟩
    rw [complexity_switch]
    exact .lookupSwitch _ hopcode hoperand
  · next hm hoperand =>
    obtain ⟨f, hf, h⟩ := exists_of_bind_eq_ok h
    obtain rfl := Except.ok.inj h
    exact ⟨.op _, _, .read hm hoperand hf, rfl⟩
  · next hm hoperand =>
    obtain ⟨f, hf, h⟩ := exists_of_bind_eq_ok h
    obtain rfl := Except.ok.inj h
    exact ⟨.op _, _, .write hm hoperand hf, rfl⟩
  · next hm hoperand =>
    obtain ⟨type, htype, h⟩ := exists_of_bind_eq_ok h
    obtain rfl := Except.ok.inj h
    exact ⟨.op _, _, .call hm hoperand htype, rfl⟩
  · next hm _ =>
    obtain ⟨type, _, h⟩ := exists_of_bind_eq_ok h
    obtain rfl := Except.ok.inj h
    refine ⟨.op _, _, .compute type.parameterSlots
      (if type.result = .void then none else some (.unknown type.result))
      hm rfl, ?_⟩
    rw [apply_ite (Option.map Variable.constant)]
    rfl
  · next hm _ =>
    obtain rfl := Except.ok.inj h
    exact ⟨.op _, _, .constant _ hm rfl, rfl⟩
  · next hm _ =>
    obtain rfl := Except.ok.inj h
    exact ⟨.op _, _, .compute _ (some (.unknown .reference)) hm rfl, rfl⟩
  · cases h

theorem added_of_bare {i : Instruction} (h : s.bare.instruction i = .ok d) :
    Added i d.events.toList d.complexity :=
  (described_of_bare h).1

/-- The second body is the first one with further events, whose operations have
these effects and stand at the line of the first one. -/
def Performs (effects : List StackEffect) (s t : BodyState) : Prop :=
  ∃ added, t.events.toList = s.events.toList ++ added ∧
    added.flatMap FlowEvent.ops = effects.map (StackOp.mk s.line)

theorem performs_addEffect (s : BodyState) (effect : StackEffect) :
    Performs [effect] s (s.addEffect effect) :=
  ⟨[.op ⟨s.line, effect⟩], by simp [addEffect, BodyState.add], rfl⟩

theorem exists_means {i : Instruction} (h : s.instruction i = .ok t) :
    ∃ effects, Means s.slots i t.slots effects ∧ Performs effects s t := by
  rw [instruction_eq] at h
  obtain ⟨d, hd, rfl⟩ := map_eq_ok_iff.1 h
  obtain ⟨_, effects, hmeans, hops⟩ := described_of_bare hd
  exact ⟨effects, hmeans, d.events.toList, by simp [after], hops⟩

/-! ## Listings -/

/-- The effects of the operations of a body, in the order of its events. -/
def effects (s : BodyState) : List StackEffect :=
  s.events.toList.flatMap fun e => e.ops.map StackOp.effect

theorem Performs.effects_eq {added : List StackEffect}
    (h : Performs added s t) :
    t.effects = s.effects ++ added := by
  obtain ⟨events, hevents, hops⟩ := h
  have hadded : events.flatMap (fun e => e.ops.map StackOp.effect) = added := by
    rw [← List.map_flatMap, hops, List.map_map]
    exact List.map_id _
  rw [effects, effects, hevents, List.flatMap_append, hadded]

theorem effects_handler (s : BodyState) (range : HandlerRange) :
    (s.handler range).effects =
      s.effects ++ [loadReference (range.catchType.getD anyException)] := by
  simp [effects, handler, addWays, BodyState.add, FlowEvent.ops]

/-- What holds of the slots and the effects of a body at first, and is kept by
handlers and by whatever an instruction means, holds when a listing has been
decoded. -/
theorem run_induction {H : Slots → List StackEffect → Prop} {listing : Listing}
    (hhandler : ∀ {slots effects} (value : String), H slots effects →
      H slots (effects ++ [loadReference value]))
    (hmeans : ∀ {i slots slots' effects added},
      .instruction i ∈ listing.events → H slots effects →
      Means slots i slots' added → H slots' (effects ++ added))
    (hstart : H s.slots s.effects) (hrun : s.run listing = .ok t) :
    H t.slots t.effects := by
  have hhandlers : ∀ (ranges : List HandlerRange) {s : BodyState},
      H s.slots s.effects →
      H (ranges.foldl handler s).slots (ranges.foldl handler s).effects := by
    intro ranges
    induction ranges with
    | nil => exact fun h => h
    | cons range ranges ih =>
        intro s h
        have hfirst : H (s.handler range).slots (s.handler range).effects := by
          rw [effects_handler]
          exact hhandler _ h
        exact ih hfirst
  refine foldlM_keeps_of_mem (P := fun s => H s.slots s.effects) ?_
    (hhandlers listing.handlers hstart) hrun
  intro event hevent s t hs hstep
  cases event with
  | label l =>
      obtain rfl := Except.ok.inj hstep
      simpa [effects, BodyState.add, FlowEvent.ops] using hs
  | line n =>
      obtain rfl := Except.ok.inj hstep
      exact hs
  | instruction i =>
      obtain ⟨added, hadded, hperforms⟩ :=
        exists_means (mapError_eq_ok_iff.1 hstep)
      rw [hperforms.effects_eq]
      exact hmeans hevent hs hadded

/-- The operations of a graph have the effects of its body. -/
theorem effect_mem_of_blocks {block : Block} (hblock : block ∈ s.graph.blocks)
    {op : StackOp} (hop : op ∈ block.ops) : op.effect ∈ s.effects := by
  have hevents : ∀ e ∈ s.events.toList, ∀ op ∈ e.ops,
      op.effect ∈ s.effects := by
    intro e he op hop
    exact List.mem_flatMap.2 ⟨e, he, List.mem_map_of_mem hop⟩
  exact ((FlowBuilder.sound_start fun op => op.effect ∈
    s.effects).run hevents).ops block hblock op hop

theorem effect_mem_of_block {b : BlockId} {op : StackOp}
    (hop : op ∈ (s.graph.block b).ops) :
    op.effect ∈ s.effects := by
  rcases s.graph.block_mem_or_eq b with hblock | hblock
  · exact effect_mem_of_blocks hblock hop
  · rw [hblock] at hop
    cases hop

/-- What a part of a listing adds. -/
inductive Decoded : List CodeEvent → List FlowEvent → Nat → Prop where
  | nil : Decoded [] [] 0
  | label (l : Label) {rest : List CodeEvent} {events : List FlowEvent}
      {ways : Nat} :
      Decoded rest events ways →
        Decoded (.label l :: rest) (.label l :: events) ways
  | line (n : Nat) {rest : List CodeEvent} {events : List FlowEvent}
      {ways : Nat} :
      Decoded rest events ways → Decoded (.line n :: rest) events ways
  | instruction {i : Instruction} {rest : List CodeEvent}
      {first events : List FlowEvent}
      {own ways : Nat} : Added i first own → Decoded rest events ways →
      Decoded (.instruction i :: rest) (first ++ events) (own + ways)

/-- The second body is the first one with further events and ways. -/
structure Gains (events : List FlowEvent) (ways : Nat) (s t : BodyState) :
    Prop where
  events : t.events.toList = s.events.toList ++ events
  complexity : t.complexity = s.complexity + ways

theorem Gains.trans {first second : List FlowEvent} {n k : Nat}
    (h : Gains first n s t) (h' : Gains second k t u) :
    Gains (first ++ second) (n + k) s u where
  events := by rw [h'.events, h.events, List.append_assoc]
  complexity := by rw [h'.complexity, h.complexity, Nat.add_assoc]

theorem gains_after (s d : BodyState) :
    Gains d.events.toList d.complexity s (s.after d) where
  events := by simp [after]
  complexity := rfl

theorem exists_decoded {events : List CodeEvent}
    (h : events.foldlM step s = .ok t) :
    ∃ added ways, Gains added ways s t ∧ Decoded events added ways := by
  induction events generalizing s with
  | nil =>
      obtain rfl := Except.ok.inj h
      exact ⟨[], 0, ⟨by simp, rfl⟩, .nil⟩
  | cons e events ih =>
      rw [List.foldlM_cons] at h
      obtain ⟨u, hstep, h⟩ := exists_of_bind_eq_ok h
      obtain ⟨added, ways, hgains, hdecoded⟩ := ih h
      cases e with
      | label l =>
          obtain rfl := Except.ok.inj hstep
          refine ⟨.label l :: added, ways, ⟨?_, hgains.complexity⟩,
            .label l hdecoded⟩
          rw [hgains.events]
          simp [BodyState.add]
      | line n =>
          obtain rfl := Except.ok.inj hstep
          exact ⟨added, ways, ⟨hgains.events, hgains.complexity⟩,
            .line n hdecoded⟩
      | instruction i =>
          have hi := mapError_eq_ok_iff.1 hstep
          rw [instruction_eq] at hi
          obtain ⟨d, hd, rfl⟩ := map_eq_ok_iff.1 hi
          exact ⟨_, _, (s.gains_after d).trans hgains,
            .instruction (added_of_bare hd) hdecoded⟩

/-- The event of a protected range. -/
def protection (range : HandlerRange) : FlowEvent :=
  .protect range.start range.handler
    { line := 0, effect := loadReference (range.catchType.getD anyException) }

theorem gains_handlers (ranges : List HandlerRange) (s : BodyState) :
    Gains (ranges.map protection) (ranges.filter fun r =>
      r.catchType.isSome).length s
      (ranges.foldl handler s) := by
  induction ranges generalizing s with
  | nil => exact ⟨by simp, rfl⟩
  | cons range ranges ih =>
      have hfirst : Gains [protection range]
          (if range.catchType.isSome then 1 else 0) s (s.handler range) :=
        ⟨by simp [handler, BodyState.add, addWays, protection], rfl⟩
      have hboth := hfirst.trans (ih (s.handler range))
      have hcount : (if range.catchType.isSome then 1 else 0) +
          (ranges.filter fun r => r.catchType.isSome).length =
            ((range :: ranges).filter fun r => r.catchType.isSome).length := by
        rw [List.filter_cons]
        split
        · rw [List.length_cons, Nat.add_comm]
        · rw [Nat.zero_add]
      rw [hcount] at hboth
      exact hboth

/-- The events and the complexity of a body, from its listing. -/
theorem exists_of_run {listing : Listing} (h : s.run listing = .ok t) :
    ∃ added ways, Decoded listing.events added ways ∧
      Gains (listing.handlers.map protection ++ added)
        ((listing.handlers.filter fun r => r.catchType.isSome).length +
          ways) s t := by
  obtain ⟨added, ways, hgains, hdecoded⟩ := exists_decoded h
  exact ⟨added, ways, hdecoded,
    (gains_handlers listing.handlers s).trans hgains⟩

end BodyState

end TestCost
