/-!
# Rounding a quotient

The whole number nearest to a quotient, with ties to the even neighbour, and powers of ten and two
with an exponent of either sign.
-/

namespace TableGraph.Decimal

/-- The whole number nearest to `num / den`; of two equally near ones the even one. -/
def roundDiv (num den : Nat) : Nat :=
  let q := num / den
  let r := num % den
  if 2 * r < den then q
  else if den < 2 * r then q + 1
  else if q % 2 = 0 then q
  else q + 1

/-- A power as numerator and denominator: one of the two is `1`. -/
def power (base : Nat) (e : Int) : Nat × Nat :=
  if e < 0 then (1, Nat.pow base e.natAbs) else (Nat.pow base e.natAbs, 1)

end TableGraph.Decimal
