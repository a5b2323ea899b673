import TestCost.Decimal.Shortest

/-!
# Decimals with a fixed number of places

Averages and percentages are shown with a fixed number of places after the
point. The exact value of the number is rounded once; a half goes to the
even neighbour.
-/

namespace TestCost

namespace Decimal

/-- The natural nearest to a quotient; a half goes to the even one. -/
def roundHalfEven (numerator denominator : Nat) : Nat :=
  let below := numerator / denominator
  let rest := 2 * (numerator % denominator)
  if rest < denominator ∨ (rest = denominator ∧ below % 2 = 0) then below
  else below + 1

/-- The number with `places` digits after the point. -/
def fixed (places : Nat) (x : Float) : String :=
  match ofFloat x with
  | .finite b =>
    let (numerator, denominator) := scale b.significand b.exponent places
    let digits :=
      withPoint (Nat.toDigits 10 (roundHalfEven numerator denominator)) places
    String.ofList (if b.isNegative then '-' :: digits else digits)
  | other => other.text Scaled.plain

end Decimal

end TestCost
