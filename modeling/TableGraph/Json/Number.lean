import TableGraph.Json.Basic
import TableGraph.Decimal.Digits

/-!
# Reading numbers

A number is an optional minus, digits without leading zeros, and optionally a fraction and an
exponent. Without fraction and exponent it is an integer while it fits 64 bits. Otherwise its
digits are gathered into a coefficient of 64 bits, digits that no longer fit are dropped, and the
nearest binary64 value of the coefficient is multiplied or divided by the power of ten; `-0` is the
negative zero. A value beyond the largest finite one is refused.
-/

namespace TableGraph.Decimal

/-- A coefficient of at most 64 bits with the power of ten it is to be scaled by. -/
structure Gathered where
  /-- The digits that fit. -/
  coefficient : Nat
  /-- The power of ten of the last digit that fits. -/
  exponent : Int
  /-- Whether a digit was dropped. -/
  full : Bool
  deriving DecidableEq, Repr

/-- Takes one more digit before the point. Every dropped digit counts as a power of ten. -/
def Gathered.whole (g : Gathered) (c : Char) : Gathered :=
  let n := g.coefficient * 10 + digitValue c
  if g.full then ⟨g.coefficient, g.exponent + 1, true⟩
  else if n < Decimal.twoTo 64 then ⟨n, 0, false⟩
  else ⟨g.coefficient, 1, true⟩

/-- Takes one more digit behind the point. A dropped digit changes nothing. -/
def Gathered.fraction (g : Gathered) (c : Char) : Gathered :=
  let n := g.coefficient * 10 + digitValue c
  if g.full then g
  else if n < Decimal.twoTo 64 then ⟨n, g.exponent - 1, false⟩
  else { g with full := true }

/-- The binary64 value nearest to `10 ^ k`. -/
def powerOfTen (k : Nat) : Float := Float.ofScientific 1 false k

/-- The value times `10 ^ e`, or nothing beyond the largest finite value. Exponents below `-308`
take several divisions. -/
def scale (f : Float) (e : Int) : Option Float :=
  if 308 < e then
    if f == 0 then some f else none
  else if 0 ≤ e then
    let g := f * powerOfTen e.natAbs
    if g.isInf then none else some g
  else if -308 ≤ e then some (f / powerOfTen e.natAbs)
  else if f == 0 then some f
  else scale (f / powerOfTen 308) (e + 308)
termination_by e.natAbs
decreasing_by omega

/-- The binary64 value of gathered digits with a sign. -/
def Gathered.value (g : Gathered) (negative : Bool) : Option Double :=
  (scale g.coefficient.toUInt64.toFloat g.exponent).map fun f =>
    Double.ofFloat (if negative then -f else f)

/-- The sign and the digits of an exponent, and the rest of the text. -/
def exponentPart (cs : List Char) : Option (Bool × List Char × List Char) :=
  let (negative, rest) := match cs with
    | '+' :: rest => (false, rest)
    | '-' :: rest => (true, rest)
    | rest => (false, rest)
  let ds := rest.takeWhile isDigit
  if ds = [] then none else some (negative, ds, rest.dropWhile isDigit)

/-- The value of gathered digits before the exponent `ds`. An exponent beyond 31 bits gives zero
when it is negative or the digits are zero, and no value otherwise. -/
def Gathered.withExponent (g : Gathered) (negative down : Bool) (ds : List Char) : Option Double :=
  let e := ofDigits ds
  if e < Decimal.twoTo 31 then
    { g with exponent := if down then g.exponent - e else g.exponent + e }.value negative
  else if g.coefficient ≠ 0 ∧ !down then none
  else Gathered.value ⟨0, 0, false⟩ negative

/-- The end of a number with fraction or exponent: an exponent, if there is one. -/
def Gathered.finish (g : Gathered) (negative : Bool) : List Char → Option (Number × List Char)
  | c :: cs =>
    if c = 'e' ∨ c = 'E' then do
      let (down, ds, rest) ← exponentPart cs
      some (.float (← g.withExponent negative down ds), rest)
    else do some (.float (← g.value negative), c :: cs)
  | [] => do some (.float (← g.value negative), [])

/-- The integer of gathered digits, or the value nearest to it when it does not fit. -/
def Gathered.integer (g : Gathered) (negative : Bool) : Option Number :=
  if g.full then (g.value negative).map .float
  else if !negative then some (.int g.coefficient)
  else if 0 < g.coefficient ∧ g.coefficient ≤ Decimal.twoTo 63 then
    some (.int (-(g.coefficient : Int)))
  else (g.value negative).map .float

/-- A number behind its sign, and the rest of the text. -/
def unsigned (negative : Bool) (cs : List Char) : Option (Number × List Char) :=
  let ds := cs.takeWhile isDigit
  let rest := cs.dropWhile isDigit
  if ds = [] ∨ (ds.head? = some '0' ∧ ds ≠ ['0']) then none
  else
    let g := ds.foldl Gathered.whole ⟨0, 0, false⟩
    match rest with
    | '.' :: more =>
      let fs := more.takeWhile isDigit
      if fs = [] then none
      else (fs.foldl Gathered.fraction { g with full := false }).finish negative (more.dropWhile isDigit)
    | 'e' :: _ => g.finish negative rest
    | 'E' :: _ => g.finish negative rest
    | _ => do some (← g.integer negative, rest)

/-- A number at the start of a text, and the rest of the text. -/
def number? : List Char → Option (Number × List Char)
  | '-' :: cs => unsigned true cs
  | cs => unsigned false cs

end TableGraph.Decimal
