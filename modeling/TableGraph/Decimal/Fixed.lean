import TableGraph.Decimal.Double
import TableGraph.Decimal.Digits
import TableGraph.Decimal.Rounding

/-!
# Fixed places

A value written with a fixed number of digits after the point, rounded from its exact binary value
with ties to the even neighbour. The sign of a negative zero is kept.
-/

namespace TableGraph.Decimal

/-- The text of a value with `places` digits after the point. -/
def Double.fixed (d : Double) (places : Nat) : String :=
  let sign := if d.isNegative then ['-'] else []
  if d.isSpecial then
    if d.fractionField = 0 then String.ofList (sign ++ ['i', 'n', 'f']) else "NaN"
  else
    let (num, den) := power 2 d.exponent
    let n := roundDiv (d.mantissa * num * Nat.pow 10 places) den
    let whole := digits (n / Nat.pow 10 places)
    String.ofList (sign ++ whole ++ '.' :: padded places (n % Nat.pow 10 places))

end TableGraph.Decimal
