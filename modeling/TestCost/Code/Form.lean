/-!
# Forms of instructions

The first byte of an instruction fixes how the rest of it is written: how
many bytes it has and what they spell. `Form.ofOpcode?` is that table. A
form whose opcode is not the basic one also says which opcode is.
-/

namespace TestCost

/-- How an instruction is written after its opcode. -/
inductive Form where
  /-- Nothing follows. -/
  | plain
  /-- Nothing follows; the opcode implies a slot. -/
  | impliedSlot (opcode slot : Nat)
  /-- A slot of one byte. -/
  | slot
  /-- A slot and a signed amount, one byte each. -/
  | increment
  /-- A signed value of one byte. -/
  | byteValue
  /-- A signed value of two bytes. -/
  | shortValue
  /-- An unsigned value of one byte. -/
  | arrayCode
  /-- A pool index of one byte, for a constant. -/
  | nearConstant
  /-- A pool index of two bytes, for a constant. -/
  | farConstant (opcode : Nat)
  | classRef
  | field
  /-- A method; `padding` bytes follow that say nothing. -/
  | method (padding : Nat)
  | callSite
  | multiArray
  /-- A signed distance of two bytes. -/
  | nearJump
  /-- A signed distance of four bytes. -/
  | farJump (opcode : Nat)
  | tableSwitch
  | lookupSwitch
  /-- An opcode and a slot of two bytes, or an increment of two and two. -/
  | wide
  deriving DecidableEq

namespace Form

/-- The opcode takes a slot, so that `wide` may stand in front of it. -/
def takesSlot (opcode : Nat) : Bool :=
  (0x15 ≤ opcode && opcode ≤ 0x19) || (0x36 ≤ opcode && opcode ≤ 0x3a) ||
    opcode = 0xa9

/-- The opcode of `iinc`. -/
def incrementOpcode : Nat := 0x84

/-- The form of the instruction that starts with this byte. -/
def ofOpcode? (opcode : Nat) : Option Form :=
  if opcode ≤ 0x0f then some .plain            -- nop to dconst_1
  else if opcode = 0x10 then some .byteValue   -- bipush
  else if opcode = 0x11 then some .shortValue  -- sipush
  else if opcode = 0x12 then some .nearConstant  -- ldc
  else if opcode ≤ 0x14 then some (.farConstant 0x12)  -- ldc_w, ldc2_w
  else if opcode ≤ 0x19 then some .slot        -- iload to aload
  else if opcode ≤ 0x2d then                   -- iload_0 to aload_3
    some (.impliedSlot (0x15 + (opcode - 0x1a) / 4) ((opcode - 0x1a) % 4))
  else if opcode ≤ 0x35 then some .plain       -- iaload to saload
  else if opcode ≤ 0x3a then some .slot        -- istore to astore
  else if opcode ≤ 0x4e then                   -- istore_0 to astore_3
    some (.impliedSlot (0x36 + (opcode - 0x3b) / 4) ((opcode - 0x3b) % 4))
  else if opcode ≤ 0x83 then some .plain       -- iastore to lxor
  else if opcode = 0x84 then some .increment   -- iinc
  else if opcode ≤ 0x98 then some .plain       -- i2l to dcmpg
  else if opcode ≤ 0xa8 then some .nearJump    -- ifeq to jsr
  else if opcode = 0xa9 then some .slot        -- ret
  else if opcode = 0xaa then some .tableSwitch
  else if opcode = 0xab then some .lookupSwitch
  else if opcode ≤ 0xb1 then some .plain       -- ireturn to return
  else if opcode ≤ 0xb5 then some .field       -- getstatic to putfield
  else if opcode ≤ 0xb8 then some (.method 0)  -- invokevirtual to invokestatic
  else if opcode = 0xb9 then some (.method 2)  -- invokeinterface
  else if opcode = 0xba then some .callSite    -- invokedynamic
  else if opcode = 0xbb then some .classRef    -- new
  else if opcode = 0xbc then some .arrayCode   -- newarray
  else if opcode = 0xbd then some .classRef    -- anewarray
  else if opcode ≤ 0xbf then some .plain       -- arraylength, athrow
  else if opcode ≤ 0xc1 then some .classRef    -- checkcast, instanceof
  else if opcode ≤ 0xc3 then some .plain       -- monitorenter, monitorexit
  else if opcode = 0xc4 then some .wide
  else if opcode = 0xc5 then some .multiArray  -- multianewarray
  else if opcode ≤ 0xc7 then some .nearJump    -- ifnull, ifnonnull
  else if opcode = 0xc8 then some (.farJump 0xa7)  -- goto_w
  else if opcode = 0xc9 then some (.farJump 0xa8)  -- jsr_w
  else none

end Form

end TestCost
