/-!
# Binary floating-point numbers

A finite floating-point number is a significand times a power of two. The
printers of this package work on that pair in exact integer arithmetic, so
nothing they do rounds twice.
-/

namespace TestCost

namespace Decimal

/-- The number `± significand * 2 ^ exponent`. -/
structure Binary where
  isNegative : Bool
  significand : Nat
  exponent : Int
  /-- The next smaller number is only half as far away as the next larger. -/
  narrowBelow : Bool := false
  deriving DecidableEq

/-- What the bits of a floating-point word stand for. -/
inductive Reading where
  | notANumber
  | infinite (isNegative : Bool)
  | finite (value : Binary)
  deriving DecidableEq

/-- Widths of the fields of a floating-point word. -/
structure WordFormat where
  fractionBits : Nat
  exponentBits : Nat

/-- Words of 32 bits. -/
def single : WordFormat := { fractionBits := 23, exponentBits := 8 }

/-- Words of 64 bits. -/
def double : WordFormat := { fractionBits := 52, exponentBits := 11 }

/-- The exponent field of numbers that have no leading one is `0`, and the
one with all bits set is kept for infinities and what is not a number. -/
def WordFormat.read (format : WordFormat) (bits : Nat) : Reading :=
  let fraction := bits % Nat.pow 2 format.fractionBits
  let field :=
    bits / Nat.pow 2 format.fractionBits % Nat.pow 2 format.exponentBits
  let isNegative :=
    bits / Nat.pow 2 (format.fractionBits + format.exponentBits) % 2 = 1
  let bias : Int := Nat.pow 2 (format.exponentBits - 1) - 1
  let lowest : Int := 1 - bias - format.fractionBits
  if field = Nat.pow 2 format.exponentBits - 1 then
    if fraction = 0 then .infinite isNegative else .notANumber
  else if field = 0 then
    .finite { isNegative, significand := fraction, exponent := lowest }
  else
    .finite
      { isNegative
        significand := Nat.pow 2 format.fractionBits + fraction
        exponent := lowest + field - 1
        narrowBelow := fraction = 0 ∧ 1 < field }

/-- What a 64-bit number stands for. -/
def ofFloat (x : Float) : Reading := double.read x.toBits.toNat

/-- A quotient of naturals, for `value * 2 ^ two * 10 ^ ten`. -/
def scale (value : Nat) (two ten : Int) : Nat × Nat :=
  (value * Nat.pow 2 two.toNat * Nat.pow 10 ten.toNat,
   Nat.pow 2 (-two).toNat * Nat.pow 10 (-ten).toNat)

end Decimal

end TestCost
