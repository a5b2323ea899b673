import TestCost.Code.Meaning
import TestCost.Fault
import TestCost.Flow.Execution
import TestCost.Method.Basic
import TestCost.Method.Slots

/-!
# Decoding methods

From the listing of a body to a method: the variables that its slots
serve, the flow events that its instructions stand for, its complexity,
and its statements.

Complexity counts one for the method and one for every way that control
can take besides going on: a conditional jump, a case of a switch, a
handler for one class of exceptions. A case of a table switch that goes
where the default goes is a gap in the table and does not count.
-/

namespace TestCost

/-- A body while it is decoded. -/
structure BodyState where
  slots : Slots
  /-- Flow events so far, in order. -/
  events : Array FlowEvent := #[]
  complexity : Nat := 1
  /-- The source line that decoding has come to. -/
  line : Nat := 0
  /-- The first source line met. -/
  startingLine : Option Nat := none

namespace BodyState

def add (s : BodyState) (event : FlowEvent) : BodyState :=
  { s with events := s.events.push event }

/-- Add an effect at the current line. -/
def addEffect (s : BodyState) (effect : StackEffect) : BodyState :=
  s.add (.op { line := s.line, effect })

/-- Count ways besides going on. -/
def addWays (s : BodyState) (ways : Nat) : BodyState :=
  { s with complexity := s.complexity + ways }

/-- The effect of loading a reference that only its text is known of. -/
def loadReference (value : String) : StackEffect :=
  .load (.constant { value, type := .reference })

/-- What a handler for all exceptions catches. -/
def anyException : String := "java.lang.Throwable"

/-- A protected range: its handler starts with the exception. -/
def handler (s : BodyState) (range : HandlerRange) : BodyState :=
  let exception : StackOp :=
    { line := 0, effect := loadReference (range.catchType.getD anyException) }
  (s.addWays (if range.catchType.isSome then 1 else 0)).add
    (.protect range.start range.handler exception)

/-- A use of a field; a use does not know whether the field is private. -/
def fieldOf (member : MemberRef) (isStatic : Bool) : Except CodeFault Field :=
  match Descriptor.fieldType? member.descriptor with
  | some type =>
    .ok { owner := member.owner, name := member.name, type, isStatic,
          isPrivate := false }
  | none => .error (.badDescriptor member.descriptor)

/-- The kinds of a method with this descriptor. -/
def typeOf (descriptor : String) : Except CodeFault MethodType :=
  match Descriptor.methodType? descriptor with
  | some type => .ok type
  | none => .error (.badDescriptor descriptor)

/-- Pop a value and jump to one of the cases or to the default. -/
def switch (s : BodyState) (default : Label) (cases : List Label) (ways : Nat) :
    BodyState :=
  ((s.addEffect (.pop 1)).addWays ways).add (.switch default cases)

/-- What an instruction adds to a body. -/
def instruction (s : BodyState) (i : Instruction) :
    Except CodeFault BodyState :=
  match Meaning.ofOpcode? i.opcode, i.operand with
  | some .nothing, _ => .ok s
  | some (.effect effect), _ => .ok (s.addEffect effect)
  | some .pushInt, .int value =>
    .ok (s.addEffect
      (.load (.constant { value := toString value, type := .int })))
  | some .pushConstant, .constant value =>
    .ok (s.addEffect (.load (.constant value)))
  | some (.loadSlot type), .slot slot =>
    let (slots, v) := s.slots.access slot type i.offset
    .ok ({ s with slots }.addEffect (.load v))
  | some (.storeSlot type), .slot slot =>
    let (slots, v) := s.slots.access slot type i.offset
    .ok ({ s with slots }.addEffect (.store v))
  | some .increment, .increment slot _ =>
    let (slots, _) := s.slots.access slot .int i.offset
    .ok { s with slots }
  | some (.branch operands), .jump target =>
    .ok (((s.addEffect (.transform operands none)).add
      (.branch target)).addWays 1)
  | some .jump, .jump target => .ok (s.add (.jump target))
  | some .subroutine, .jump target =>
    .ok (s.add (.subroutine target
      { line := s.line, effect := loadReference "returnAddress" }))
  | some .subroutineReturn, .slot _ => .ok (s.addEffect (.leave .void))
  | some .tableSwitch, .switch default cases =>
    .ok (s.switch default cases (cases.filter (· != default)).length)
  | some .lookupSwitch, .switch default cases =>
    .ok (s.switch default cases cases.length)
  | some (.readField isStatic), .field member => do
    let f ← fieldOf member isStatic
    return s.addEffect (.getField f)
  | some (.writeField isStatic), .field member => do
    let f ← fieldOf member isStatic
    return s.addEffect (.putField f)
  | some (.call isStatic), .method member => do
    let type ← typeOf member.descriptor
    return s.addEffect (.invoke
      { owner := member.owner, name := member.name,
        descriptor := member.descriptor
        isStatic, type })
  | some .dynamicCall, .callSite _ descriptor => do
    let type ← typeOf descriptor
    let result :=
      if type.result = .void then none
      else some (Variable.constant (.unknown type.result))
    return s.addEffect (.transform type.parameterSlots result)
  | some .create, .classRef name =>
    .ok (s.addEffect (loadReference ("new " ++ name)))
  | some .createMulti, .multiArray _ dimensions =>
    .ok (s.addEffect
      (.transform dimensions (some (.constant (.unknown .reference)))))
  | _, _ => .error (.unmappedOpcode i.opcode i.offset)

/-- What an event of the listing adds to a body. A fault comes with the
line that decoding has come to. -/
def step (s : BodyState) : CodeEvent → Except (Nat × CodeFault) BodyState
  | .label label => .ok (s.add (.label label))
  | .line line =>
    .ok { s with line, startingLine := s.startingLine.or (some line) }
  | .instruction i => (s.instruction i).mapError fun fault => (s.line, fault)

/-- A whole body. -/
def run (s : BodyState) (listing : Listing) :
    Except (Nat × CodeFault) BodyState :=
  listing.events.foldlM step (listing.handlers.foldl handler s)

/-- The flow graph of what has been decoded. -/
def graph (s : BodyState) : FlowGraph := FlowGraph.ofEvents s.events.toList

end BodyState

namespace Method

/-- The receiver and the parameters of a method, and the slots they take. -/
def parametersOf (header : MethodHeader) (type : MethodType)
    (names : List DebugName) :
    Slots × Option Variable × List Variable :=
  let slots : Slots := { scope := header.fullName, names }
  if header.isStatic then
    let (slots, parameters) := slots.addParameters 0 0 type.parameters
    (slots, none, parameters)
  else
    let (slots, receiver) := slots.parameter 0 .reference "this"
    let (slots, parameters) := slots.addParameters 1 0 type.parameters
    (slots, some receiver, parameters)

/-- Decode a method. One without a body has complexity `1` and no
statements. -/
def decode (header : MethodHeader) (listing : Option Listing) :
    Except LoadFault Method := do
  let type ← (BodyState.typeOf header.descriptor).mapError .declaration
  let listing := listing.getD {}
  let (slots, receiver, parameters) := parametersOf header type listing.names
  let inBody (line : Nat) (fault : CodeFault) : LoadFault :=
    .body header.owner header.signature line fault
  let body ← (BodyState.run { slots } listing).mapError fun (line, fault) =>
    inBody line fault
  let startingLine := body.startingLine.getD 0
  let statements ← body.graph.statements.mapError (inBody startingLine)
  return { header with
    receiver, parameters, locals := body.slots.locals
    complexity := body.complexity, startingLine, statements }

end Method

end TestCost
