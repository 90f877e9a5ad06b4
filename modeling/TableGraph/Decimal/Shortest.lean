import TableGraph.Decimal.Double
import TableGraph.Decimal.Digits
import TableGraph.Decimal.Rounding

/-!
# Shortest decimal text

A finite binary64 value is written with the fewest digits that still read back as the same value,
and of those with the digits nearest to it. The numbers that read back are those between the
midpoints to the two neighbours, the midpoints included when the mantissa is even. The text is
positional while the first digit stands between `10 ^ (-5)` and `10 ^ 15`, and has an exponent
otherwise; it always shows a point or an exponent.
-/

namespace TableGraph.Decimal

/-- A whole number `n` and a power of ten `e` for the number `n · 10 ^ e`. -/
structure Scaled where
  /-- The digits as one whole number. -/
  coefficient : Nat
  /-- The power of ten of the last digit. -/
  exponent : Int
  deriving DecidableEq, Repr

/-- A positive value with its half distances to the neighbours, all over one denominator. -/
structure Interval where
  /-- Numerator of the value. -/
  value : Nat
  /-- Numerator of the half distance to the neighbour below. -/
  below : Nat
  /-- Numerator of the half distance to the neighbour above. -/
  above : Nat
  /-- The common denominator. -/
  den : Nat
  /-- Whether the midpoints themselves read back as the value. -/
  closed : Bool

/-- The numbers that read back as `m · 2 ^ q`. The neighbour below a power of two is nearer. -/
def Interval.of (d : Double) : Interval :=
  let (num, den) := power 2 d.exponent
  let m := d.mantissa
  let narrow := m = twoTo 52 ∧ 1 < d.exponentField
  ⟨4 * m * num, if narrow then num else 2 * num, 2 * num, 4 * den, m % 2 = 0⟩

/-- Whether `n · 10 ^ e` reads back as the value. -/
def Interval.contains (i : Interval) (n : Nat) (e : Int) : Bool :=
  let (num, den) := power 10 e
  let x := n * num * i.den
  let low := (i.value - i.below) * den
  let high := (i.value + i.above) * den
  if i.closed then low ≤ x && x ≤ high else low < x && x < high

/-- The power of ten of the first digit of the value. -/
def Interval.magnitude (i : Interval) : Int :=
  if i.den ≤ i.value then ((digits (i.value / i.den)).length : Int) - 1
  else -((digits ((i.den - 1) / i.value)).length : Int)

/-- The number on the grid `10 ^ e` that reads back and is nearest to the value, if there is one. -/
def Interval.onGrid (i : Interval) (e : Int) : Option Scaled :=
  let (num, den) := power 10 e
  let near := roundDiv (i.value * den) (i.den * num)
  let candidates := [near, near - 1, near + 1]
  (candidates.find? fun n => 0 < n && i.contains n e).map fun n => ⟨n, e⟩

/-- The first grid that holds a number which reads back, from one digit on to seventeen. -/
def Interval.shortest (i : Interval) : Option Scaled :=
  (List.range 18).findSome? fun (k : Nat) => i.onGrid (i.magnitude + 1 - k)

/-- The digits without trailing zeros. -/
def Scaled.stripped (s : Scaled) : Scaled :=
  let cs := digits s.coefficient
  let zeros := (cs.reverse.takeWhile (· = '0')).length
  if s.coefficient = 0 then s else ⟨s.coefficient / Nat.pow 10 zeros, s.exponent + zeros⟩

/-- Digits with a point after the first `places` of them, filled with zeros at either end. -/
def positional (cs : List Char) (places : Int) : List Char :=
  if places ≤ 0 then
    '0' :: '.' :: (List.replicate places.natAbs '0' ++ cs)
  else
    let n := places.toNat
    if cs.length ≤ n then
      cs ++ List.replicate (n - cs.length) '0' ++ ['.', '0']
    else cs.take n ++ '.' :: cs.drop n

/-- One digit before the point, then the exponent with its sign. -/
def scientific (cs : List Char) (e : Int) : List Char :=
  let mark := if e < 0 then ['e', '-'] else ['e', '+']
  cs.take 1 ++ (if cs.length ≤ 1 then [] else '.' :: cs.drop 1) ++ mark ++ digits e.natAbs

/-- The text of a positive number given by its digits. -/
def Scaled.text (s : Scaled) : List Char :=
  let cs := digits s.coefficient
  let first := s.exponent + (cs.length : Int) - 1
  if -5 ≤ first ∧ first < 16 then positional cs (first + 1) else scientific cs first

/-- The shortest text of a value. -/
def Double.text (d : Double) : String :=
  let sign := if d.isNegative then ['-'] else []
  if d.isSpecial then
    if d.fractionField = 0 then String.ofList (sign ++ ['i', 'n', 'f']) else "NaN"
  else if d.mantissa = 0 then String.ofList (sign ++ ['0', '.', '0'])
  else match (Interval.of d).shortest with
    | some s => String.ofList (sign ++ s.stripped.text)
    | none => "NaN"

end TableGraph.Decimal
