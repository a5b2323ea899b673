import TestCost.Decimal.Binary

/-!
# The shortest decimal that reads back

Of all decimals that are nearer to a floating-point number than to any
other, the one with the fewest digits is its text; of several, the nearest
one. A decimal that lies halfway to a neighbour reads back when the
significand is even, because halves are rounded to even.

On the grid of multiples of `10 ^ k` it is enough to look at the two
multiples around the number: if any multiple reads back, one of these
does. So the coarsest grid on which one of the two reads back gives the
answer.

Two layouts are used. `plain` writes all digits, without a fraction for a
whole number: `1500`, `0.25`. `marked` always shows that the number is not
an integer: `1500.0`, and an exponent for very large and very small ones.
-/

namespace TestCost

namespace Decimal

/-- A decimal `digits * 10 ^ exponent` without trailing zeros. -/
structure Scaled where
  digits : Nat
  exponent : Int
  deriving DecidableEq

/-- Move trailing zeros of the digits into the exponent. -/
def Scaled.normal (digits : Nat) (exponent : Int) : Scaled :=
  if h : 0 < digits ∧ digits % 10 = 0 then normal (digits / 10) (exponent + 1)
  else { digits, exponent }
termination_by digits
decreasing_by omega

/-- The multiple of `10 ^ k` nearest to the number, if one of the two
multiples around it reads back. Of two that are equally near, the larger
one is taken. -/
def onGrid (x : Binary) (k : Int) : Option Scaled :=
  -- quarters of the last place, so that the ends of the interval are whole
  let (value, unit) := scale (4 * x.significand) (x.exponent - 2) (-k)
  let step := (scale 1 (x.exponent - 2) (-k)).1
  let low := value - (if x.narrowBelow then 1 else 2) * step
  let high := value + 2 * step
  let ends := x.significand % 2 = 0
  let below := value / unit
  let belowFits := low < below * unit ∨ (ends ∧ low = below * unit)
  let aboveFits :=
    (below + 1) * unit < high ∨ (ends ∧ (below + 1) * unit = high)
  let belowNearer := value - below * unit < (below + 1) * unit - value
  if belowFits ∧ (belowNearer ∨ ¬ aboveFits) then some (.normal below k)
  else if aboveFits then some (.normal (below + 1) k)
  else none

/-- Exponents of the grids that are tried: no number of 64 bits reaches
`10 ^ 309`, and none needs a grid finer than `10 ^ -324`. -/
def gridExponents : List Int :=
  (List.range 640).map fun (i : Nat) => 310 - (i : Int)

/-- The shortest decimal that reads back as this number; zero for zero. -/
def shortest (x : Binary) : Scaled :=
  if x.significand = 0 then { digits := 0, exponent := 0 }
  else (gridExponents.findSome? (onGrid x)).getD { digits := 0, exponent := 0 }

/-- Digits with a point in front of the last `places` of them. -/
def withPoint (digits : List Char) (places : Nat) : List Char :=
  let padded := List.replicate (places + 1 - digits.length) '0' ++ digits
  let whole := padded.take (padded.length - places)
  let fraction := padded.drop (padded.length - places)
  if places = 0 then whole else whole ++ ['.'] ++ fraction

/-- All digits, the point only where there is a fraction. -/
def Scaled.plain (x : Scaled) : List Char :=
  let digits := Nat.toDigits 10 x.digits
  if x.exponent < 0 then withPoint digits (-x.exponent).toNat
  else if x.digits = 0 then digits
  else digits ++ List.replicate x.exponent.toNat '0'

/-- Exponent of the leading digit. -/
def Scaled.magnitude (x : Scaled) : Int :=
  x.exponent + (Nat.toDigits 10 x.digits).length - 1

/-- From this power of ten on, a marked number has an exponent. -/
def largeMagnitude : Int := 16

/-- Below this power of ten, a marked number has an exponent. -/
def smallMagnitude : Int := -4

/-- One digit, the others as a fraction, and the exponent. -/
def Scaled.scientific (x : Scaled) : List Char :=
  let digits := Nat.toDigits 10 x.digits
  withPoint digits (digits.length - 1) ++ ['e'] ++ (toString x.magnitude).toList

/-- All digits with a point, or an exponent outside the usual range. -/
def Scaled.marked (x : Scaled) : List Char :=
  if x.digits ≠ 0 ∧ (x.magnitude < smallMagnitude ∨
    largeMagnitude ≤ x.magnitude) then x.scientific
  else if x.exponent < 0 then x.plain
  else x.plain ++ ['.', '0']

/-- Text of a word, given the layout of a finite number. -/
def Reading.text (layout : Scaled → List Char) : Reading → String
  | notANumber => "NaN"
  | infinite isNegative => if isNegative then "-inf" else "inf"
  | finite x =>
    let digits := layout (shortest x)
    String.ofList (if x.isNegative then '-' :: digits else digits)

end Decimal

end TestCost
