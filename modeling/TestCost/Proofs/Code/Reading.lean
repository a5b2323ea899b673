import TestCost.Code.Reading
import TestCost.Proofs.Except

/-!
# What reading gives

A code array is read one instruction after the other, and an instruction by the
form that its first byte has. This module takes a listing that has been read
apart into the instructions behind it.

## Main results

* `Code.exists_of_readInstruction` — the form behind an instruction.
* `Code.exists_of_mem_readInstructions` — every instruction has been read at
  some offset.
* `Listing.exists_of_read` — the parts of a listing.
* `Listing.instruction_mem_events_iff` — its instructions are those read.
-/

namespace TestCost

/-- No opcode is greater than that of `jsr_w`. -/
theorem Form.opcode_le_of_ofOpcode? {opcode : Nat} {form : Form}
    (h : ofOpcode? opcode = some form) : opcode ≤ 0xc9 := by
  rcases Nat.lt_or_ge 0xc9 opcode with hgt | hle
  · have hnone : ofOpcode? opcode = none := by
      unfold ofOpcode?
      repeat rw [if_neg (by omega)]
    rw [hnone] at h
    cases h
  · exact hle

namespace Code

variable {pool : Pool} {code : Bytes} {offset stop : Nat} {i : Instruction}

theorem exists_of_readInstruction
    (h : readInstruction pool code offset = .ok (i, stop)) :
    ∃ opcode form following, wordAt code 1 offset = .ok opcode ∧
      Form.ofOpcode? opcode = some form ∧
      readForm pool code offset opcode form =
        .ok (i.opcode, i.operand, following) ∧
      i.offset = offset ∧ stop = offset + 1 + following := by
  obtain ⟨opcode, hopcode, h⟩ := exists_of_bind_eq_ok h
  cases hform : Form.ofOpcode? opcode with
  | none =>
      rw [hform] at h
      cases h
  | some form =>
      rw [hform] at h
      obtain ⟨⟨base, operand, following⟩, hread, h⟩ := exists_of_bind_eq_ok h
      obtain ⟨rfl, rfl⟩ := Prod.mk.inj (Except.ok.inj h)
      exact ⟨opcode, form, following, hopcode, hform, hread, rfl, rfl⟩

theorem readInstruction_of_form {opcode base following : Nat} {form : Form}
    {operand : Operand} (hopcode : wordAt code 1 offset = .ok opcode)
    (hform : Form.ofOpcode? opcode = some form) (h : readForm pool code offset
      opcode form = .ok (base, operand, following)) :
    readInstruction pool code offset =
      .ok (⟨offset, base, operand⟩, offset + 1 + following) := by
  simp only [readInstruction, bind, Except.bind, hopcode, hform, h]
  rfl

theorem readInstructions_of_le (h : code.size ≤ offset) :
    readInstructions pool code offset = .ok [] := by
  rw [readInstructions, if_neg (Nat.not_lt.2 h)]

theorem readInstructions_of_ok (hlt : offset < code.size)
    (h : readInstruction pool code offset = .ok (i, stop)) :
    readInstructions pool code offset = (readInstructions pool code stop).map
      (i :: ·) := by
  rw [readInstructions, if_pos hlt]
  split
  · next hfault => cases hfault.symm.trans h
  · next i' stop' hread =>
    obtain ⟨rfl, rfl⟩ := Prod.mk.inj (Except.ok.inj (hread.symm.trans h))
    rfl

theorem exists_of_mem_readInstructions {instructions : List Instruction}
    (h : readInstructions pool code offset = .ok instructions)
    (hi : i ∈ instructions) :
    ∃ start stop, readInstruction pool code start = .ok (i, stop) := by
  fun_induction readInstructions pool code offset generalizing instructions with
  | case1 offset hlt fault hfault => cases h
  | case2 offset hlt first stop hread ih =>
      obtain ⟨rest, hrest, rfl⟩ := map_eq_ok_iff.1 h
      rcases List.mem_cons.1 hi with rfl | hi
      · exact ⟨offset, stop, hread⟩
      · exact ih hrest hi
  | case3 offset hle =>
      obtain rfl := Except.ok.inj h
      cases hi

end Code

namespace Listing

variable {pool : Pool} {body : CodeBody} {listing : Listing}

theorem exists_of_read (h : read pool body = .ok listing) :
    ∃ instructions handlers names,
      Code.readInstructions pool body.code 0 = .ok instructions ∧
      body.handlers.mapM (readHandler pool) = .ok handlers ∧
      strayLabel? instructions (labels instructions handlers) = none ∧
      (localEntries body.tables).mapM (readName pool) = .ok names ∧
      listing.events =
        instructions.flatMap
          (eventsOf (labels instructions handlers) (lineEntries body.tables)) ∧
      listing.handlers = handlers ∧ listing.names = names := by
  obtain ⟨instructions, hinstructions, h⟩ := exists_of_bind_eq_ok h
  obtain ⟨handlers, hhandlers, h⟩ := exists_of_bind_eq_ok h
  cases hstray : strayLabel? instructions (labels instructions handlers) with
  | some label =>
      simp only [hstray] at h
      cases h
  | none =>
      simp only [hstray] at h
      obtain ⟨names, hnames, h⟩ := exists_of_bind_eq_ok h
      obtain rfl := Except.ok.inj h
      exact ⟨instructions, handlers, names, hinstructions, hhandlers, hstray,
        hnames, rfl, rfl, rfl⟩

theorem read_of_parts {instructions : List Instruction}
    {handlers : List HandlerRange} {names : List DebugName}
    (hinstructions : Code.readInstructions pool body.code 0 = .ok instructions)
    (hhandlers : body.handlers.mapM (readHandler pool) = .ok handlers)
    (hstray : strayLabel? instructions (labels instructions handlers) = none)
    (hnames : (localEntries body.tables).mapM (readName pool) = .ok names) :
    read pool body = .ok
      { events := instructions.flatMap
          (eventsOf (labels instructions handlers) (lineEntries body.tables))
        handlers, names } := by
  simp only [read, bind, Except.bind, hinstructions, hhandlers, hstray, hnames]
  rfl

theorem instruction_mem_eventsOf_iff {labels : List Label}
    {lines : List LineEntry} {i j : Instruction} :
    .instruction i ∈ eventsOf labels lines j ↔ i = j := by
  unfold eventsOf
  simp only [List.mem_append, List.mem_singleton, CodeEvent.instruction.injEq]
  constructor
  · rintro ((h | h) | h)
    · split at h <;> simp at h
    · simp at h
    · exact h
  · exact .inr

/-- The instructions of a listing are those that have been read. -/
theorem instruction_mem_events_iff {labels : List Label}
    {lines : List LineEntry} {instructions : List Instruction}
    {i : Instruction} :
    .instruction i ∈ instructions.flatMap (eventsOf labels lines) ↔
      i ∈ instructions := by
  simp [List.mem_flatMap, instruction_mem_eventsOf_iff]

end Listing

end TestCost
