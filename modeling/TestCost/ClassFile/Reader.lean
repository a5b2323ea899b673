import TestCost.ClassFile.Fault

/-!
# Reading bytes

A reader walks through the bytes of a file from front to back. It knows
the whole file, because a fault names the length of it, and the position
it has come to. Integers are big-endian.
-/

namespace TestCost

/-- A run of bytes. -/
abbrev Bytes := Array UInt8

/-- The natural number that bytes spell, the most significant one first. -/
def Bytes.toNat (bytes : Bytes) : Nat :=
  bytes.foldl (fun n b => n * 256 + b.toNat) 0

/-- The number that the low `bits` bits of `n` spell in two's complement. -/
def signed (bits n : Nat) : Int := Int.bmod n (Nat.pow 2 bits)

namespace ClassFile

/-- Reading from a file at a position. -/
abbrev Reader := ReaderT Bytes (StateT Nat (Except Fault))

namespace Reader

/-- Stop at a fault. -/
def fail {α : Type} (fault : Fault) : Reader α := throw fault

/-- The next `size` bytes, unless the file ends before; `fault` words that
end, given the position and the length. -/
def take (size : Nat) (fault : Nat → Nat → Fault) : Reader Bytes := do
  let file ← read
  let position ← get
  if position + size ≤ file.size then
    set (position + size)
    return file.extract position (position + size)
  else fail (fault position file.size)

/-- A big-endian integer of `size` bytes. -/
def integer (size : Nat) : Reader Nat :=
  Bytes.toNat <$> take size .integerPastEnd

def u1 : Reader Nat := integer 1

def u2 : Reader Nat := integer 2

def u4 : Reader Nat := integer 4

/-- A block of `size` bytes. -/
def block (size : Nat) : Reader Bytes :=
  take size fun position length => .blockPastEnd (position + size) length

/-- Check that a block of `size` bytes lies ahead, without moving. -/
def expectBlock (size : Nat) : Reader Unit := do
  let file ← read
  let position ← get
  unless position + size ≤
    file.size do fail (.blockPastEnd (position + size) file.size)

/-- What `item` reads, `count` times. -/
def times {α : Type} (item : Reader α) : Nat → Reader (List α)
  | 0 => pure []
  | count + 1 => do
    let first ← item
    let rest ← times item count
    return first :: rest

/-- A count of two bytes and that many items. -/
def listOf {α : Type} (item : Reader α) : Reader (List α) :=
  do times item (← u2)

/-- Read and forget. -/
def skip {α : Type} (item : Reader α) : Reader Unit := do let _ ← item

/-- The end of the file. -/
def finished : Reader Unit := do
  let file ← read
  let position ← get
  if position < file.size then fail (.leftover file.size position)

end Reader

end ClassFile

end TestCost
