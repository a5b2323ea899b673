import TestCost.ClassFile.Attribute
import TestCost.Text.ModifiedUtf8

/-!
# Class files

The layout of a class file: its mark and version, the constant pool, the
class itself and its superclass, fields, methods and attributes. Indices
into the pool are kept as they are; whether they lead anywhere is found
out when they are used.
-/

namespace TestCost

/-- A field or method as the class file declares it. -/
structure MemberEntry where
  access : Nat
  name : Nat
  descriptor : Nat
  attributes : List Attribute

/-- The bodies of a method, in order; a method that has code has one. -/
def MemberEntry.bodies (m : MemberEntry) : List CodeBody :=
  m.attributes.filterMap Attribute.body?

/-- A class file. -/
structure ClassFile where
  pool : Pool
  thisClass : Nat
  /-- Pool index of the superclass, `0` for none. -/
  superClass : Nat
  fields : List MemberEntry
  methods : List MemberEntry

namespace ClassFile

open Reader

/-- The number that every class file starts with. -/
def magic : Nat := 0xcafebabe

/-- A text of the pool: its length and its bytes. -/
def poolText : Reader String := do
  let bytes ← block (← u2)
  match Text.ofClassFileBytes bytes with
  | some text => return text
  | none => fail .notText

/-- The entry of a pool slot. -/
def poolEntry : Reader PoolEntry := do
  let tag ← u1
  match tag with
  | 1 => return .utf8 (← poolText)
  | 3 => return .integer (signed 32 (← u4))
  | 4 => return .float (Bytes.toNat (← block 4))
  | 5 => return .long (signed 64 (← integer 8))
  | 6 => return .double (Bytes.toNat (← block 8))
  | 7 => return .classRef (← u2)
  | 8 => return .string (← u2)
  | 9 => pair .fieldRef
  | 10 => pair .methodRef
  | 11 => pair .interfaceMethodRef
  | 12 => pair .nameAndType
  | 15 =>
    let kind ← u1
    let reference ← u2
    return .methodHandle kind reference
  | 16 => return .methodType (← u2)
  | 17 => pair .dynamic
  | 18 => pair .invokeDynamic
  | 19 => return .moduleRef (← u2)
  | 20 => return .packageRef (← u2)
  | _ => fail (.unknownPoolTag tag)
where
  pair (entry : Nat → Nat → PoolEntry) : Reader PoolEntry := do
    let first ← u2
    let second ← u2
    return entry first second

/-- The entries of `count` slots; `skipped` says that the first of them
belongs to what is in front of it and holds nothing. -/
def poolSlots : (count : Nat) → (skipped : Bool) → Reader (List PoolEntry)
  | 0, _ => pure []
  | count + 1, true => do
    let rest ← poolSlots count false
    return .empty :: rest
  | count + 1, false => do
    let entry ← poolEntry
    let rest ← poolSlots count entry.isWide
    return entry :: rest

/-- The constant pool; its first slot is never used. -/
def constantPool : Reader Pool := do
  let count ← u2
  let slots ← poolSlots count true
  return slots.toArray

def memberEntry (pool : Pool) : Reader MemberEntry := do
  let access ← u2
  let name ← u2
  let descriptor ← u2
  let attributes ← readAttributes pool
  return { access, name, descriptor, attributes }

/-- A whole class file. -/
def reader : Reader ClassFile := do
  unless (← u4) = magic do fail .wrongMagic
  skip (times u2 2)
  let pool ← constantPool
  skip u2
  let thisClass ← u2
  let superClass ← u2
  skip (listOf u2)
  let fields ← listOf (memberEntry pool)
  let methods ← listOf (memberEntry pool)
  skip (readAttributes pool)
  finished
  return { pool, thisClass, superClass, fields, methods }

/-- The class file that these bytes are. -/
def parse (bytes : Bytes) : Except Fault ClassFile :=
  (reader.run bytes).run' 0

end ClassFile

end TestCost
