import Mathlib
import TestCost.Code.Reading

/-!
# How code is written

The rules by which a class file writes code, apart from any reader. A number is
written with its most significant byte first, a signed one in two's complement.
An instruction starts with an opcode, and `Written` says what follows it: the
instruction is given in normal form, and most have several ways to be written.
Operands that name something in the constant pool are written as the index of
an entry of the right kind. A jump is written as the distance from its own
opcode. A switch starts its table at a multiple of four, so how long it is
depends on where it stands.

Code is the concatenation of its instructions, each written for the offset at
which the ones before it end (`Layout`).

The rules are laxer than the format in what no reader depends on: bytes that
say nothing may be any bytes, the keys of a switch may come in any order, and
array codes and dimensions may be any byte.
-/

namespace TestCost

/-! ## Numbers -/

/-- The low `size` bytes of a number, the most significant one first. -/
def bigEndian : (size : Nat) → Nat → List UInt8
  | 0, _ => []
  | size + 1, n => UInt8.ofNat (n / 256 ^ size) :: bigEndian size n

/-- A number in two's complement. -/
def signedBytes (size : Nat) (v : Int) : List UInt8 :=
  bigEndian size (v % (256 ^ size : Nat)).toNat

/-- The number can be written with `size` bytes in two's complement. -/
def FitsSigned (size : Nat) (v : Int) : Prop :=
  -(256 ^ size : Nat) ≤ 2 * v ∧ 2 * v < (256 ^ size : Nat)

instance (size : Nat) (v : Int) : Decidable (FitsSigned size v) :=
  inferInstanceAs (Decidable (_ ∧ _))

/-! ## Entries of the pool -/

namespace Pool

def HasText (pool : Pool) (index : Nat) (value : String) : Prop :=
  pool[index]? = some (.utf8 value)

/-- The entry is a class of this dotted name. -/
def HasClass (pool : Pool) (index : Nat) (name : String) : Prop :=
  ∃ text internal, pool[index]? = some (.classRef text) ∧
    pool.HasText text internal ∧
    ClassName.dotted internal = name

def HasNameAndType (pool : Pool) (index : Nat) (name descriptor : String) :
    Prop :=
  ∃ nameIndex descriptorIndex, pool[index]? =
    some (.nameAndType nameIndex descriptorIndex) ∧
    pool.HasText nameIndex name ∧ pool.HasText descriptorIndex descriptor

/-- The two entries are the class and the rest of a member. -/
def HasParts (pool : Pool) (owner described : Nat) (member : MemberRef) :
    Prop :=
  pool.HasClass owner member.owner ∧
    pool.HasNameAndType described member.name member.descriptor

def HasField (pool : Pool) (index : Nat) (member : MemberRef) : Prop :=
  ∃ owner described, pool[index]? = some (.fieldRef owner described) ∧
    pool.HasParts owner described member

/-- The entry is a method, of a class or of an interface. -/
def HasMethod (pool : Pool) (index : Nat) (member : MemberRef) : Prop :=
  ∃ owner described, (pool[index]? = some (.methodRef owner described) ∨
      pool[index]? = some (.interfaceMethodRef owner described)) ∧
    pool.HasParts owner described member

def HasCallSite (pool : Pool) (index : Nat) (name descriptor : String) : Prop :=
  ∃ bootstrap described, pool[index]? =
    some (.invokeDynamic bootstrap described) ∧
    pool.HasNameAndType described name descriptor

/-- The entry is a constant that can be loaded, and this is what it stands for.
-/
inductive HasConstant (pool : Pool) (index : Nat) : Constant → Prop where
  | integer {value : Int} : pool[index]? = some (.integer value) →
      HasConstant pool index ⟨toString value, .int⟩
  | float {bits : Nat} : pool[index]? = some (.float bits) →
      HasConstant pool index
        ⟨(Decimal.single.read bits).text Decimal.Scaled.plain, .float⟩
  | long {value : Int} : pool[index]? = some (.long value) →
      HasConstant pool index ⟨toString value, .long⟩
  | double {bits : Nat} : pool[index]? = some (.double bits) →
      HasConstant pool index
        ⟨(Decimal.double.read bits).text Decimal.Scaled.plain, .double⟩
  | string {text : Nat} {value : String} : pool[index]? = some (.string text) →
      pool.HasText text value → HasConstant pool index ⟨value, .reference⟩
  | classRef {name : String} : pool.HasClass index name →
      HasConstant pool index ⟨name ++ ".class", .reference⟩
  | methodType {descriptor : Nat} {value : String} :
      pool[index]? = some (.methodType descriptor) →
      pool.HasText descriptor value → HasConstant pool index ⟨value, .reference⟩
  | methodHandle {kind reference : Nat} :
      pool[index]? = some (.methodHandle kind reference) →
      HasConstant pool index (.unknown .reference)
  | dynamic {bootstrap described : Nat} {name descriptor : String}
      {type : ValueType} :
      pool[index]? = some (.dynamic bootstrap described) →
      pool.HasNameAndType described name descriptor →
      Descriptor.fieldType? descriptor = some type →
        HasConstant pool index (.unknown type)

end Pool

/-! ## Instructions -/

namespace Encoding

/-- The opcodes from one to another. -/
def opcodes (first last : Nat) : List Nat :=
  List.range' first (last + 1 - first)

/-- Opcodes that nothing follows. -/
def plain : List Nat :=
  opcodes 0x00 0x0f        -- nop to dconst_1
    ++ opcodes 0x2e 0x35   -- iaload to saload
    ++ opcodes 0x4f 0x83   -- iastore to lxor
    ++ opcodes 0x85 0x98   -- i2l to dcmpg
    ++ opcodes 0xac 0xb1   -- ireturn to return
    ++ opcodes 0xbe 0xbf   -- arraylength, athrow
    ++ opcodes 0xc2 0xc3   -- monitorenter, monitorexit

/-- Opcodes that a slot follows. -/
def slot : List Nat :=
  opcodes 0x15 0x19        -- iload to aload
    ++ opcodes 0x36 0x3a   -- istore to astore
    ++ [0xa9]              -- ret

/-- Opcodes that a jump of two bytes follows. -/
def jump : List Nat :=
  opcodes 0x99 0xa8        -- ifeq to jsr
    ++ opcodes 0xc6 0xc7   -- ifnull, ifnonnull

/-- Opcodes that the index of a class follows: new, anewarray, checkcast and
instanceof. -/
def classRef : List Nat := [0xbb, 0xbd, 0xc0, 0xc1]

/-- Opcodes that the index of a field follows: getstatic to putfield. -/
def field : List Nat := opcodes 0xb2 0xb5

/-- Opcodes that the index of a method follows, and nothing else: invokevirtual,
invokespecial and invokestatic. -/
def method : List Nat := opcodes 0xb6 0xb8

/-- With these opcodes, the lists above have every byte that can start an
instruction, and each of them once. -/
example : List.Perm (plain ++ slot ++ jump ++ classRef ++ field ++ method
      ++ [0x10, 0x11] -- bipush, sipush
      ++ opcodes 0x12 0x14 -- ldc to ldc2_w
      ++ opcodes 0x1a 0x2d -- iload_0 to aload_3
      ++ opcodes 0x3b 0x4e -- istore_0 to astore_3
      ++ [0x84, 0xaa, 0xab] -- iinc, tableswitch, lookupswitch
      ++ [0xb9, 0xba, 0xbc] -- invokeinterface, invokedynamic, newarray
      ++ [0xc4, 0xc5, 0xc8, 0xc9]) -- wide, multianewarray, goto_w, jsr_w
    (List.range 0xca) := by decide +kernel

/-- Bytes that bring the table of a switch to a multiple of four. -/
def Aligns (offset : Nat) (padding : List UInt8) : Prop :=
  padding.length < 4 ∧ (offset + 1 + padding.length) % 4 = 0

/-- A jump from an offset, written with `size` bytes. -/
def jumpBytes (size offset : Nat) (target : Label) : List UInt8 :=
  signedBytes size (target - offset : Int)

/-- A key of a switch and the jump for it. -/
def pairBytes (offset : Nat) (pair : Int × Label) : List UInt8 :=
  signedBytes 4 pair.1 ++ jumpBytes 4 offset pair.2

/-- The table of a switch over the keys from `low` on. -/
def tableBytes (offset : Nat) (low : Int) (default : Label)
    (cases : List Label) : List UInt8 :=
  jumpBytes 4 offset default ++
    (signedBytes 4 low ++ (signedBytes 4 (low + cases.length - 1)
    ++ cases.flatMap (jumpBytes 4 offset)))

/-- The table of a switch over listed keys. -/
def lookupBytes (offset : Nat) (default : Label) (pairs : List (Int × Label)) :
    List UInt8 :=
  jumpBytes 4 offset default ++
    (signedBytes 4 pairs.length ++ pairs.flatMap (pairBytes offset))

/-- The jump can be written with `size` bytes. -/
def Reaches (size offset : Nat) (target : Label) : Prop :=
  FitsSigned size (target - offset : Int)

/-- The bytes are a way to write the instruction. -/
inductive Written (pool : Pool) : Instruction → List UInt8 → Prop where
  | plain {offset opcode : Nat} : opcode ∈ plain →
      Written pool ⟨offset, opcode, .none⟩ (bigEndian 1 opcode)
  | shortLoad {offset kind index : Nat} : kind < 5 → index < 4 →
      Written pool ⟨offset, 0x15 + kind, .slot index⟩
        (bigEndian 1 (0x1a + 4 * kind + index))
  | shortStore {offset kind index : Nat} : kind < 5 → index < 4 →
      Written pool ⟨offset, 0x36 + kind, .slot index⟩
        (bigEndian 1 (0x3b + 4 * kind + index))
  | slot {offset opcode index : Nat} : opcode ∈ slot → index < 256 →
      Written pool ⟨offset, opcode, .slot index⟩
        (bigEndian 1 opcode ++ bigEndian 1 index)
  | wideSlot {offset opcode index : Nat} : opcode ∈ slot → index < 65536 →
      Written pool ⟨offset, opcode, .slot index⟩
        (bigEndian 1 0xc4 ++ (bigEndian 1 opcode ++ bigEndian 2 index))
  | increment {offset index : Nat} {amount : Int} : index < 256 →
      FitsSigned 1 amount →
      Written pool ⟨offset, 0x84, .increment index amount⟩
        (bigEndian 1 0x84 ++ (bigEndian 1 index ++ signedBytes 1 amount))
  | wideIncrement {offset index : Nat} {amount : Int} : index < 65536 →
      FitsSigned 2 amount →
      Written pool ⟨offset, 0x84, .increment index amount⟩
        (bigEndian 1 0xc4 ++
          (bigEndian 1 0x84 ++ (bigEndian 2 index ++ signedBytes 2 amount)))
  | byteValue {offset : Nat} {value : Int} : FitsSigned 1 value →
      Written pool ⟨offset, 0x10, .int value⟩
        (bigEndian 1 0x10 ++ signedBytes 1 value)
  | shortValue {offset : Nat} {value : Int} : FitsSigned 2 value →
      Written pool ⟨offset, 0x11, .int value⟩
        (bigEndian 1 0x11 ++ signedBytes 2 value)
  | newArray {offset code : Nat} : code < 256 →
      Written pool ⟨offset, 0xbc, .int code⟩
        (bigEndian 1 0xbc ++ bigEndian 1 code)
  | nearConstant {offset index : Nat} {c : Constant} : index < 256 →
      pool.HasConstant index c →
      Written pool ⟨offset, 0x12, .constant c⟩
        (bigEndian 1 0x12 ++ bigEndian 1 index)
  | farConstant {offset opcode index : Nat} {c : Constant} :
      opcode ∈ opcodes 0x13 0x14 →
      index < 65536 → pool.HasConstant index c →
      Written pool ⟨offset, 0x12, .constant c⟩
        (bigEndian 1 opcode ++ bigEndian 2 index)
  | classRef {offset opcode index : Nat} {name : String} : opcode ∈ classRef →
      index < 65536 → pool.HasClass index name →
      Written pool ⟨offset, opcode, .classRef name⟩
        (bigEndian 1 opcode ++ bigEndian 2 index)
  | field {offset opcode index : Nat} {member : MemberRef} : opcode ∈ field →
      index < 65536 → pool.HasField index member →
      Written pool ⟨offset, opcode, .field member⟩
        (bigEndian 1 opcode ++ bigEndian 2 index)
  | method {offset opcode index : Nat} {member : MemberRef} : opcode ∈ method →
      index < 65536 → pool.HasMethod index member →
      Written pool ⟨offset, opcode, .method member⟩
        (bigEndian 1 opcode ++ bigEndian 2 index)
  | interfaceMethod {offset index : Nat} {member : MemberRef}
      (count zero : UInt8) :
      index < 65536 → pool.HasMethod index member →
      Written pool ⟨offset, 0xb9, .method member⟩
        (bigEndian 1 0xb9 ++ (bigEndian 2 index ++ [count, zero]))
  | callSite {offset index : Nat} {name descriptor : String}
      (zero zero' : UInt8) :
      index < 65536 → pool.HasCallSite index name descriptor →
      Written pool ⟨offset, 0xba, .callSite name descriptor⟩
        (bigEndian 1 0xba ++ (bigEndian 2 index ++ [zero, zero']))
  | multiArray {offset index dimensions : Nat} {name : String} : index < 65536 →
      pool.HasClass index name → dimensions < 256 →
      Written pool ⟨offset, 0xc5, .multiArray name dimensions⟩
        (bigEndian 1 0xc5 ++ (bigEndian 2 index ++ bigEndian 1 dimensions))
  | nearJump {offset opcode : Nat} {target : Label} : opcode ∈ jump →
      Reaches 2 offset target →
      Written pool ⟨offset, opcode, .jump target⟩
        (bigEndian 1 opcode ++ jumpBytes 2 offset target)
  | farGoto {offset : Nat} {target : Label} : Reaches 4 offset target →
      Written pool ⟨offset, 0xa7, .jump target⟩
        (bigEndian 1 0xc8 ++ jumpBytes 4 offset target)
  | farSubroutine {offset : Nat} {target : Label} : Reaches 4 offset target →
      Written pool ⟨offset, 0xa8, .jump target⟩
        (bigEndian 1 0xc9 ++ jumpBytes 4 offset target)
  | tableSwitch {offset : Nat} {padding : List UInt8} {low : Int}
      {default : Label}
      {cases : List Label} : Aligns offset padding → FitsSigned 4 low →
      FitsSigned 4 (low + cases.length - 1) →
        (∀ t ∈ default :: cases, Reaches 4 offset t) →
      Written pool ⟨offset, 0xaa, .switch default cases⟩
        (bigEndian 1 0xaa ++ (padding ++ tableBytes offset low default cases))
  | lookupSwitch {offset : Nat} {padding : List UInt8} {default : Label}
      {pairs : List (Int × Label)} : Aligns offset padding →
        Reaches 4 offset default →
      (∀ pair ∈ pairs, FitsSigned 4 pair.1 ∧ Reaches 4 offset pair.2) →
      Written pool ⟨offset, 0xab, .switch default (pairs.map Prod.snd)⟩
        (bigEndian 1 0xab ++ (padding ++ lookupBytes offset default pairs))

/-- The bytes are the instructions one after the other, from an offset on. -/
inductive Layout (pool : Pool) :
    Nat → List Instruction → List UInt8 → Prop where
  | nil (offset : Nat) : Layout pool offset [] []
  | cons {i : Instruction} {instructions : List Instruction}
      {bytes rest : List UInt8} :
      Written pool i bytes →
        Layout pool (i.offset + bytes.length) instructions rest →
      Layout pool i.offset (i :: instructions) (bytes ++ rest)

end Encoding

end TestCost
