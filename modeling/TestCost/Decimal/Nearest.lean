import TestCost.Decimal.Fixed

/-!
# The floating-point number nearest to a decimal

Numbers on the command line are decimals of any length. The value of the
decimal is kept exact, as a quotient of naturals, until it is rounded once
to the nearest floating-point number; a half goes to the even significand.
What is too large becomes infinite, what is too small becomes zero.

A decimal has an optional sign, digits with an optional point among, before
or after them, and an optional exponent. Instead of digits it may have one
of the words `inf`, `infinity` and `nan`, in upper or lower case.
-/

namespace TestCost

namespace Decimal

/-! ## Rounding -/

/-- The power of two at or below a positive quotient. -/
def binaryMagnitude (numerator denominator : Nat) : Int :=
  let guess : Int := (numerator.log2 : Int) - denominator.log2
  let (value, one) := scale 1 guess 0
  if denominator * value ≤ numerator * one then guess else guess - 1

/-- The word, without its sign, of the number nearest to a quotient. Words
are in the order of the numbers they stand for, so a significand that
rounding carries over its width ends up in the next exponent by itself. -/
def WordFormat.nearest (format : WordFormat) (numerator denominator : Nat) :
    Nat :=
  let bias : Int := Nat.pow 2 (format.exponentBits - 1) - 1
  let leading := max (binaryMagnitude numerator denominator) (1 - bias)
  let (up, down) := scale 1 (format.fractionBits - leading) 0
  let significand := roundHalfEven (numerator * up) (denominator * down)
  let infinite :=
    (Nat.pow 2 format.exponentBits - 1) * Nat.pow 2 format.fractionBits
  min infinite (significand + (leading - 1 + bias).toNat *
    Nat.pow 2 format.fractionBits)

/-- Every decimal whose leading digit stands at this power of ten or above
is infinite. -/
def infiniteMagnitude : Int := 310

/-- Every decimal whose leading digit stands below this power of ten is
zero. -/
def zeroMagnitude : Int := -330

/-- The number of 64 bits nearest to `digits * 10 ^ exponent`, without its
sign. -/
def Scaled.nearest (x : Scaled) : Nat :=
  if x.digits = 0 ∨ x.magnitude < zeroMagnitude then 0
  else if infiniteMagnitude ≤ x.magnitude then double.nearest (Nat.pow 2 1024) 1
  else
    let (up, down) := scale x.digits 0 x.exponent
    double.nearest up down

/-! ## The grammar of decimals -/

/-- The digits at the front of a text, and what follows them. -/
def leadingDigits (text : List Char) : List Char × List Char :=
  (text.takeWhile Char.isDigit, text.dropWhile Char.isDigit)

/-- The natural that digits stand for. -/
def ofDigits (digits : List Char) : Nat :=
  digits.foldl (fun n c => 10 * n + (c.toNat - '0'.toNat)) 0

/-- Whether a text starts with a minus, and the text without its sign. -/
def splitSign : List Char → Bool × List Char
  | '-' :: rest => (true, rest)
  | '+' :: rest => (false, rest)
  | text => (false, text)

/-- The integer with an optional sign that a text is. -/
def integer? (text : List Char) : Option Int :=
  let (isNegative, digits) := splitSign text
  if digits.isEmpty || !digits.all Char.isDigit then none
  else some (if isNegative then -(ofDigits digits : Int) else ofDigits digits)

/-- The natural that a text is. A plus may stand in front of it. -/
def natural? (text : List Char) : Option Nat :=
  match text with
  | '-' :: _ => none
  | text => (integer? text).map Int.toNat

/-- The exponent that the end of a decimal stands for. -/
def exponent? : List Char → Option Int
  | [] => some 0
  | c :: rest => if c = 'e' ∨ c = 'E' then integer? rest else none

/-- The digits and the exponent of a decimal without a sign. -/
def unsigned? (text : List Char) : Option Scaled :=
  let (whole, rest) := leadingDigits text
  let (fraction, rest) := match rest with
    | '.' :: rest => leadingDigits rest
    | rest => ([], rest)
  if whole.isEmpty && fraction.isEmpty then none
  else (exponent? rest).map fun exponent =>
    { digits := ofDigits (whole ++ fraction),
      exponent := exponent - fraction.length }

/-- The word, without its sign, that a text without a sign stands for. -/
def magnitudeWord? (text : List Char) : Option Nat :=
  let word := String.ofList (text.map Char.toLower)
  let infinite := double.nearest (Nat.pow 2 1024) 1
  if word = "inf" ∨ word = "infinity" then some infinite
  else if word = "nan" then some (infinite + Nat.pow 2 51)
  else (unsigned? text).map Scaled.nearest

/-- The number that a text stands for. -/
def toFloat? (text : String) : Option Float :=
  let (isNegative, rest) := splitSign text.toList
  (magnitudeWord? rest).map fun word =>
    Float.ofBits
      (UInt64.ofNat (if isNegative then Nat.pow 2 63 + word else word))

end Decimal

end TestCost
