import TestCost.ClassFile.Attribute
import TestCost.Code.Form
import TestCost.Code.Instruction

/-!
# Reading code

`Listing.read` turns the code array of a method into its listing.

All instructions are read first, from the front of the array to its end;
an instruction may not end beyond the array as far as its bytes are looked
at. Then the labels are gathered: the targets of jumps and switches, and
the starts and handlers of protected ranges. Every label must be the start
of an instruction. Last come the tables for debuggers. Of several lines for
one offset, the last one listed counts.

## Main results

* `readInstruction_length_pos` — every instruction has a length, which is
  why reading a code array ends.
-/

namespace TestCost

namespace Code

/-- A fault at an offset. -/
private def malformedAt {α : Type} (offset : Nat) (why : Malformation) :
    Except CodeFault α :=
  .error (.malformed offset why)

/-- `size` bytes at an offset, big-endian. -/
def wordAt (code : Bytes) (size offset : Nat) : Except CodeFault Nat :=
  if offset + size ≤ code.size then
    .ok (Bytes.toNat (code.extract offset (offset + size)))
  else malformedAt offset .truncated

/-- A signed number of `size` bytes at an offset. -/
def signedAt (code : Bytes) (size offset : Nat) : Except CodeFault Int :=
  (wordAt code size offset).map (signed (8 * size))

/-- The label at a distance from an instruction. -/
def target (code : Bytes) (offset : Nat) (distance : Int) :
    Except CodeFault Label :=
  let place := (offset : Int) + distance
  if place < 0 ∨ (code.size : Int) ≤ place then
    malformedAt offset (.jumpOutside place)
  else .ok place.toNat

/-- Bytes between the opcode of a switch and its table, which starts at a
multiple of four. -/
def padding (offset : Nat) : Nat := (4 - (offset + 1) % 4) % 4

/-- The table of a switch must end within the code. -/
def checkTable (code : Bytes) (offset start count entrySize : Nat) :
    Except CodeFault Unit :=
  if (code.size - start) / entrySize < count then
    malformedAt offset (.tableTooLong count)
  else .ok ()

/-- Targets of `count` table entries of `entrySize` bytes each, the first
distance at `start`. -/
def tableTargets (code : Bytes) (offset start entrySize count : Nat) :
    Except CodeFault (List Label) :=
  (List.range count).mapM fun i => do
    target code offset (← signedAt code 4 (start + i * entrySize))

/-- Number of cases from `low` to `high`, unless it exceeds a signed word. -/
def caseCount? (low high : Int) : Option Nat :=
  let range := high - low
  if -1 ≤ range ∧ range + 1 < Nat.pow 2 31 then some (range + 1).toNat else none

/-- The normal opcode, the operand and the number of bytes after the opcode
of the instruction at an offset, by its form. -/
def readForm (pool : Pool) (code : Bytes) (offset opcode : Nat) :
    Form → Except CodeFault (Nat × Operand × Nat)
  | .plain => .ok (opcode, .none, 0)
  | .impliedSlot base slot => .ok (base, .slot slot, 0)
  | .slot => do
    return (opcode, .slot (← wordAt code 1 (offset + 1)), 1)
  | .increment => do
    let slot ← wordAt code 1 (offset + 1)
    let amount ← signedAt code 1 (offset + 2)
    return (opcode, .increment slot amount, 2)
  | .byteValue => do
    return (opcode, .int (← signedAt code 1 (offset + 1)), 1)
  | .shortValue => do
    return (opcode, .int (← signedAt code 2 (offset + 1)), 2)
  | .arrayCode => do
    return (opcode, .int (← wordAt code 1 (offset + 1)), 1)
  | .nearConstant => do
    return (opcode, .constant (← pool.loadable (← wordAt code 1 (offset + 1))),
      1)
  | .farConstant base => do
    return (base, .constant (← pool.loadable (← wordAt code 2 (offset + 1))), 2)
  | .classRef => do
    return (opcode, .classRef (← pool.className (← wordAt code 2 (offset + 1))),
      2)
  | .field => do
    return (opcode, .field (← pool.member (← wordAt code 2 (offset + 1))), 2)
  | .method padding => do
    return (opcode, .method (← pool.member (← wordAt code 2 (offset + 1))),
      2 + padding)
  | .callSite => do
    let (name, descriptor) ← pool.callSite (← wordAt code 2 (offset + 1))
    return (opcode, .callSite name descriptor, 4)
  | .multiArray => do
    let name ← pool.className (← wordAt code 2 (offset + 1))
    let dimensions ← wordAt code 1 (offset + 3)
    return (opcode, .multiArray name dimensions, 3)
  | .nearJump => do
    return (opcode,
      .jump (← target code offset (← signedAt code 2 (offset + 1))), 2)
  | .farJump base => do
    return (base, .jump (← target code offset (← signedAt code 4 (offset + 1))),
      4)
  | .tableSwitch => do
    let base := offset + 1 + padding offset
    let default ← target code offset (← signedAt code 4 base)
    let low ← signedAt code 4 (base + 4)
    let high ← signedAt code 4 (base + 8)
    match caseCount? low high with
    | none => malformedAt offset (.tableRange low high)
    | some count =>
      checkTable code offset (base + 12) count 4
      let cases ← tableTargets code offset (base + 12) 4 count
      return (opcode, .switch default cases, padding offset + 12 + count * 4)
  | .lookupSwitch => do
    let base := offset + 1 + padding offset
    let default ← target code offset (← signedAt code 4 base)
    let pairs ← signedAt code 4 (base + 4)
    if pairs < 0 then malformedAt offset (.negativePairs pairs)
    else
      let count := pairs.toNat
      checkTable code offset (base + 8) count 8
      let cases ← tableTargets code offset (base + 12) 8 count
      return (opcode, .switch default cases, padding offset + 8 + count * 8)
  | .wide => do
    let widened ← wordAt code 1 (offset + 1)
    let slot ← wordAt code 2 (offset + 2)
    if widened = Form.incrementOpcode then
      return (widened, .increment slot (← signedAt code 2 (offset + 4)), 5)
    else if Form.takesSlot widened then return (widened, .slot slot, 3)
    else .error (.unmappedOpcode widened offset)

/-- The instruction at an offset and the offset at which it ends. -/
def readInstruction (pool : Pool) (code : Bytes) (offset : Nat) :
    Except CodeFault (Instruction × Nat) := do
  let opcode ← wordAt code 1 offset
  match Form.ofOpcode? opcode with
  | none => .error (.unmappedOpcode opcode offset)
  | some form =>
    let (opcode, operand, following) ← readForm pool code offset opcode form
    return ({ offset, opcode, operand }, offset + 1 + following)

theorem readInstruction_length_pos
    {pool : Pool} {code : Bytes} {offset stop : Nat} {i : Instruction}
    (h : readInstruction pool code offset = .ok (i, stop)) : offset < stop := by
  simp only [readInstruction, bind, Except.bind] at h
  split at h
  · cases h
  · split at h
    · cases h
    · split at h
      · cases h
      · simp only [pure, Except.pure, Except.ok.injEq, Prod.mk.injEq] at h
        omega

/-- The instructions from an offset on. -/
def readInstructions (pool : Pool) (code : Bytes) (offset : Nat) :
    Except CodeFault (List Instruction) :=
  if offset < code.size then
    match _h : readInstruction pool code offset with
    | .error fault => .error fault
    | .ok (i, stop) => (readInstructions pool code stop).map (i :: ·)
  else .ok []
termination_by code.size - offset
decreasing_by
  have := readInstruction_length_pos _h
  omega

end Code

namespace Listing

/-- A protected range with its class of exceptions by name. -/
def readHandler (pool : Pool) (entry : HandlerEntry) :
    Except CodeFault HandlerRange := do
  let catchType ←
    if entry.catchType = 0 then pure none
    else some <$> pool.className entry.catchType
  return { start := entry.start, stop := entry.stop,
           handler := entry.handler, catchType }

/-- A debug name with its text. -/
def readName (pool : Pool) (entry : LocalEntry) :
    Except CodeFault DebugName := do
  let name ← pool.utf8 entry.name
  let descriptor ← pool.utf8 entry.descriptor
  return { slot := entry.slot, start := entry.start, length := entry.length,
           name, descriptor }

/-- The entries of all line tables, in order. -/
def lineEntries (tables : List DebugTable) : List LineEntry :=
  tables.flatMap fun
    | .lines entries => entries
    | .locals _ => []

/-- The entries of all tables of names, in order. -/
def localEntries (tables : List DebugTable) : List LocalEntry :=
  tables.flatMap fun
    | .locals entries => entries
    | .lines _ => []

/-- The line given for exactly this offset; the last entry counts. -/
def lineAt? (lines : List LineEntry) (offset : Nat) : Option Nat :=
  (lines.reverse.find? fun entry => entry.start == offset).map LineEntry.line

/-- The labels of a body: targets of jumps, and starts and handlers of
protected ranges. -/
def labels (instructions : List Instruction) (handlers : List HandlerRange) :
    List Label :=
  instructions.flatMap (fun i => i.operand.targets) ++ handlers.flatMap fun r =>
    [r.start, r.handler]

/-- The smallest label that no instruction starts at. -/
def strayLabel? (instructions : List Instruction) (labels : List Label) :
    Option Label :=
  let starts := instructions.map Instruction.offset
  (labels.filter fun label => !starts.contains label).min?

/-- The events of an instruction. -/
def eventsOf (labels : List Label) (lines : List LineEntry) (i : Instruction) :
    List CodeEvent :=
  (if labels.contains i.offset then [.label i.offset] else [])
    ++ ((lineAt? lines i.offset).map CodeEvent.line).toList ++ [.instruction i]

/-- The listing of a body. -/
def read (pool : Pool) (body : CodeBody) : Except CodeFault Listing := do
  let instructions ← Code.readInstructions pool body.code 0
  let handlers ← body.handlers.mapM (readHandler pool)
  let labels := labels instructions handlers
  match strayLabel? instructions labels with
  | some label => throw (.malformed label .strayLabel)
  | none =>
    let names ← (localEntries body.tables).mapM (readName pool)
    let events :=
      instructions.flatMap (eventsOf labels (lineEntries body.tables))
    return { events, handlers, names }

end Listing

end TestCost
