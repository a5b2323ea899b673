import TestCost.Flow.Event

/-!
# Meanings of opcodes

What an instruction in normal form does, as a table from its opcode. Most
instructions have a stack effect that the opcode alone decides; the others
need their operand, and `Meaning` says in which way.

Opcodes that only occur in other encodings (`iload_2`, `ldc_w`, `goto_w`,
`wide`) have no meaning here: the normal form does not contain them.
-/

namespace TestCost

/-- What an instruction does. -/
inductive Meaning where
  /-- Nothing that the analysis sees. -/
  | nothing
  /-- A stack effect that does not hang on the operand. -/
  | effect (effect : StackEffect)
  /-- Push the integer operand. -/
  | pushInt
  /-- Push the constant operand. -/
  | pushConstant
  | loadSlot (type : ValueType)
  | storeSlot (type : ValueType)
  /-- Change a slot in place. -/
  | increment
  /-- Pop operands and jump or go on. -/
  | branch (operands : Nat)
  | jump
  | subroutine
  | subroutineReturn
  | tableSwitch
  | lookupSwitch
  | readField (isStatic : Bool)
  | writeField (isStatic : Bool)
  | call (isStatic : Bool)
  | dynamicCall
  /-- Push a new object. -/
  | create
  /-- Push a new array of several dimensions. -/
  | createMulti

namespace Meaning

/-- The kinds in the order in which load, store, return and arithmetic
instructions come. -/
def computational : Nat → ValueType
  | 0 => .int
  | 1 => .long
  | 2 => .float
  | 3 => .double
  | _ => .reference

/-- The kinds in the order in which array instructions come. -/
def element : Nat → ValueType
  | 5 => .byte
  | 6 => .char
  | 7 => .short
  | i => computational i

/-- Logical and shift instructions alternate between two kinds. -/
def integral (i : Nat) : ValueType := if i % 2 = 0 then .int else .long

/-- Source and target kinds in the order in which conversions come. -/
def conversions : List (ValueType × ValueType) :=
  [(.int, .long), (.int, .float), (.int, .double),
   (.long, .int), (.long, .float), (.long, .double),
   (.float, .int), (.float, .long), (.float, .double),
   (.double, .int), (.double, .long), (.double, .float),
   (.int, .byte), (.int, .char), (.int, .short)]

/-- Push a constant. -/
def push (value : String) (type : ValueType) : Meaning :=
  .effect (.load (.constant { value, type }))

/-- Pop operands and push a value of this kind that is not tracked. -/
def compute (operands : Nat) (type : ValueType) : Meaning :=
  .effect (.transform operands (some (.constant (.unknown type))))

/-- Pop two values of a kind and push one. -/
def binary (type : ValueType) : Meaning := compute (type.slots * 2) type

/-- Pop a value of a kind and push one of another. -/
def convert (conversion : ValueType × ValueType) : Meaning :=
  compute conversion.1.slots conversion.2

/-- The meaning of an opcode in normal form. -/
def ofOpcode? (opcode : Nat) : Option Meaning :=
  if opcode = 0x00 then some .nothing           -- nop
  else if opcode = 0x01 then some (push "null" .reference)
  else if opcode ≤ 0x08 then                    -- iconst_m1 to iconst_5
    some (push (toString ((opcode : Int) - 3)) .int)
  else if opcode ≤ 0x0a then some (push (toString (opcode - 0x09)) .long)
  else if opcode ≤ 0x0d then
    some (push (toString (opcode - 0x0b) ++ ".0") .float)
  else if opcode ≤ 0x0f then
    some (push (toString (opcode - 0x0e) ++ ".0") .double)
  else if opcode ≤ 0x11 then some .pushInt      -- bipush, sipush
  else if opcode = 0x12 then some .pushConstant  -- ldc
  else if opcode ≤ 0x14 then none
  else if opcode ≤ 0x19 then some (.loadSlot (computational (opcode - 0x15)))
  else if opcode ≤ 0x2d then none
  else if opcode ≤ 0x35 then
    some (.effect (.arrayLoad (element (opcode - 0x2e))))
  else if opcode ≤ 0x3a then some (.storeSlot (computational (opcode - 0x36)))
  else if opcode ≤ 0x4e then none
  else if opcode ≤ 0x56 then
    some (.effect (.arrayStore (element (opcode - 0x4f))))
  else if opcode ≤ 0x58 then some (.effect (.pop (opcode - 0x56)))
  else if opcode ≤ 0x5b then some (.effect (.duplicate (opcode - 0x59)))
  else if opcode ≤ 0x5e then some (.effect (.duplicatePair (opcode - 0x5c)))
  else if opcode = 0x5f then some (.effect .swap)
  else if opcode ≤ 0x73 then some (binary (computational ((opcode - 0x60) % 4)))
  else if opcode ≤ 0x77 then                    -- ineg to dneg
    let type := computational (opcode - 0x74)
    some (compute type.slots type)
  else if opcode ≤ 0x7d then                    -- ishl to lushr
    let type := integral (opcode - 0x78)
    some (compute (type.slots + 1) type)
  else if opcode ≤ 0x83 then some (binary (integral (opcode - 0x7e)))
  else if opcode = 0x84 then some .increment    -- iinc
  else if opcode ≤ 0x93 then (conversions[opcode - 0x85]?).map convert
  else if opcode = 0x94 then some (compute 4 .int)  -- lcmp
  else if opcode ≤ 0x96 then some (compute 2 .int)  -- fcmpl, fcmpg
  else if opcode ≤ 0x98 then some (compute 4 .int)  -- dcmpl, dcmpg
  else if opcode ≤ 0x9e then some (.branch 1)   -- ifeq to ifle
  else if opcode ≤ 0xa6 then some (.branch 2)   -- if_icmpeq to if_acmpne
  else if opcode = 0xa7 then some .jump         -- goto
  else if opcode = 0xa8 then some .subroutine   -- jsr
  else if opcode = 0xa9 then some .subroutineReturn  -- ret
  else if opcode = 0xaa then some .tableSwitch
  else if opcode = 0xab then some .lookupSwitch
  else if opcode ≤ 0xb0 then
    some (.effect (.leave (computational (opcode - 0xac))))
  else if opcode = 0xb1 then some (.effect (.leave .void))
  else if opcode = 0xb2 then some (.readField true)  -- getstatic
  else if opcode = 0xb3 then some (.writeField true)  -- putstatic
  else if opcode = 0xb4 then some (.readField false)  -- getfield
  else if opcode = 0xb5 then some (.writeField false)  -- putfield
  else if opcode ≤ 0xb7 then some (.call false)  -- invokevirtual, invokespecial
  else if opcode = 0xb8 then some (.call true)  -- invokestatic
  else if opcode = 0xb9 then some (.call false)  -- invokeinterface
  else if opcode = 0xba then some .dynamicCall  -- invokedynamic
  else if opcode = 0xbb then some .create       -- new
  else if opcode ≤ 0xbd then some (compute 1 .reference)  -- newarray, anewarray
  else if opcode = 0xbe then some (compute 1 .int)  -- arraylength
  else if opcode = 0xbf then some (.effect .raise)  -- athrow
  else if opcode = 0xc0 then some .nothing      -- checkcast
  else if opcode = 0xc1 then some (compute 1 .int)  -- instanceof
  else if opcode ≤ 0xc3 then                    -- monitorenter, monitorexit
    some (.effect (.pop 1))
  else if opcode = 0xc5 then some .createMulti  -- multianewarray
  else if opcode = 0xc6 ∨ opcode = 0xc7 then    -- ifnull, ifnonnull
    some (.branch 1)
  else none

end Meaning

end TestCost
