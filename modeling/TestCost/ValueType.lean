/-!
# Kinds of values

The operand stack and the local slots of a JVM method hold values of ten
kinds. A kind decides two things for the rest of the package: how many
slots a value takes, and whether it is a reference that a test could
replace. Arrays and objects are one kind, `reference`; `void` is the kind
of a method that returns nothing and takes no slot.

## Main results

* `slots_stackKind` — computing with a kind keeps the number of slots.
-/

namespace TestCost

/-- The kind of a value on the operand stack or in a local slot. -/
inductive ValueType where
  | void
  | byte
  | short
  | int
  | boolean
  | char
  | long
  | double
  | float
  | reference
  deriving DecidableEq, Inhabited

namespace ValueType

/-- The letter that stands for a kind in a descriptor. -/
def code : ValueType → Char
  | void => 'V'
  | byte => 'B'
  | short => 'S'
  | int => 'I'
  | boolean => 'Z'
  | char => 'C'
  | long => 'J'
  | double => 'D'
  | float => 'F'
  | reference => 'L'

/-- The kind that a descriptor starting with this letter describes. An
array is a reference, so `[` is a second letter for `reference`. -/
def ofCode? : Char → Option ValueType
  | 'V' => some void
  | 'B' => some byte
  | 'S' => some short
  | 'I' => some int
  | 'Z' => some boolean
  | 'C' => some char
  | 'J' => some long
  | 'D' => some double
  | 'F' => some float
  | 'L' => some reference
  | '[' => some reference
  | _ => none

/-- The letter of a kind as text. -/
def text (t : ValueType) : String := String.singleton t.code

/-- A wide value takes two slots. -/
def isWide : ValueType → Bool
  | long | double => true
  | _ => false

def isReference : ValueType → Bool
  | reference => true
  | _ => false

/-- Number of slots that a value of this kind takes. -/
def slots : ValueType → Nat
  | void => 0
  | long | double => 2
  | _ => 1

/-- The kind in which the machine computes: whatever is narrower than an
`int` is an `int` on the stack. -/
def stackKind : ValueType → ValueType
  | byte | short | boolean | char => int
  | t => t

@[simp] theorem slots_stackKind (t : ValueType) :
    t.stackKind.slots = t.slots := by
  cases t <;> rfl

theorem slots_eq_zero_iff (t : ValueType) : t.slots = 0 ↔ t = void := by
  cases t <;> simp [slots]

end ValueType

end TestCost
