import TestCost.ClassFile.Pool
import TestCost.Flow.Event

/-!
# Instructions

An instruction in normal form: the opcode of its basic encoding, the
operand that its bytes spell, and its offset in the code array. Short
forms such as `iload_2`, the `wide` prefix, and the long forms of jumps
are gone; operands that index the constant pool are resolved, and jump
distances are offsets.

The listing of a method is the body that the decoder of methods works on:
instructions in program order, with a label in front of every instruction
that control can be sent to and a line where the source line changes.
-/

namespace TestCost

/-- What an instruction works on, besides the operand stack. -/
inductive Operand where
  | none
  | slot (index : Nat)
  | increment (slot : Nat) (amount : Int)
  | int (value : Int)
  | constant (value : Constant)
  | classRef (name : String)
  | field (member : MemberRef)
  | method (member : MemberRef)
  | callSite (name descriptor : String)
  | jump (target : Label)
  | switch (default : Label) (cases : List Label)
  | multiArray (name : String) (dimensions : Nat)
  deriving DecidableEq, Inhabited

/-- The labels that an operand sends control to. -/
def Operand.targets : Operand → List Label
  | jump target => [target]
  | switch default cases => default :: cases
  | _ => []

/-- An instruction in normal form. -/
structure Instruction where
  offset : Nat
  opcode : Nat
  operand : Operand
  deriving DecidableEq, Inhabited

/-- One entry of a listing. -/
inductive CodeEvent where
  /-- Control can be sent to the next instruction. -/
  | label (label : Label)
  /-- The next instruction starts a source line. -/
  | line (line : Nat)
  | instruction (instruction : Instruction)
  deriving DecidableEq

/-- Exceptions from `start` to `stop` go to `handler`. -/
structure HandlerRange where
  start : Label
  stop : Label
  handler : Label
  /-- Class of the exceptions; `none` for all. -/
  catchType : Option String
  deriving DecidableEq, Inhabited

/-- The name of a slot within a range of offsets. -/
structure DebugName where
  slot : Nat
  start : Nat
  length : Nat
  name : String
  descriptor : String
  deriving DecidableEq, Inhabited

/-- The body of a method in program order. -/
structure Listing where
  events : List CodeEvent := []
  handlers : List HandlerRange := []
  names : List DebugName := []

end TestCost
