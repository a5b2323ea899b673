import TestCost.Flow.Graph
import TestCost.StackFamily

/-!
# Faults of code

Everything that can be wrong with the code of a method, or with the pool
entries that code and members refer to. A fault is a cause;
`CodeFault.message` words it.
-/

namespace TestCost

/-- What a reader expected of a pool entry. -/
inductive PoolKind where
  | utf8
  | classRef
  | nameAndType
  | memberRef
  | invokeDynamic
  | loadable
  deriving DecidableEq

def PoolKind.text : PoolKind → String
  | utf8 => "Utf8"
  | classRef => "Class"
  | nameAndType => "NameAndType"
  | memberRef => "member reference"
  | invokeDynamic => "InvokeDynamic"
  | loadable => "loadable constant"

/-- Why a code array cannot be read. -/
inductive Malformation where
  /-- The array ends inside an instruction. -/
  | truncated
  | jumpOutside (target : Int)
  | tableRange (low high : Int)
  | negativePairs (pairs : Int)
  | tableTooLong (count : Nat)
  /-- A label lies inside an instruction or outside the array. -/
  | strayLabel
  deriving DecidableEq

def Malformation.message : Malformation → String
  | truncated => "truncated instruction"
  | jumpOutside target =>
    "jump target " ++ toString target ++ " outside of code"
  | tableRange low high =>
    "invalid tableswitch range " ++ toString low ++ ".." ++ toString high
  | negativePairs pairs => "negative lookupswitch pair count " ++ toString pairs
  | tableTooLong count =>
    "switch table of " ++ toString count ++ " entries exceeds the code length"
  | strayLabel => "label does not start an instruction"

/-- What is wrong with the code of a method or with what it refers to. -/
inductive CodeFault where
  /-- The opcode means nothing, or not with the operand it has. -/
  | unmappedOpcode (opcode offset : Nat)
  | malformed (offset : Nat) (why : Malformation)
  | badConstant (index : Nat) (expected : PoolKind)
  | badDescriptor (descriptor : String)
  /-- A wide value lies on the stack without its second half. -/
  | unpairedWide (value : Variable)
  | stack (fault : StackFault Place)
  /-- A statement names an operand that its instruction does not take. -/
  | missingOperand (line : Nat)

/-- An opcode as two hexadecimal digits or more. -/
def opcodeText (opcode : Nat) : String :=
  let digits := Nat.toDigits 16 opcode
  "0x" ++ String.ofList (List.replicate (2 - digits.length) '0' ++ digits)

/-- The fault as it is shown to a reader. -/
def CodeFault.message : CodeFault → String
  | unmappedOpcode opcode offset =>
    "no stack mapping for opcode " ++ opcodeText opcode ++ " at offset " ++
      toString offset
  | malformed offset why =>
    "malformed code at offset " ++ toString offset ++ ": " ++ why.message
  | badConstant index expected =>
    "constant pool entry " ++ toString index ++ " is not a valid " ++
      expected.text
  | badDescriptor descriptor => "invalid descriptor '" ++ descriptor ++ "'"
  | unpairedWide value =>
    "wide value must be followed by its duplicate, got " ++ value.text
  | stack fault => fault.message Place.text
  | missingOperand line =>
    "missing operand of a statement on line " ++ toString line

end TestCost
