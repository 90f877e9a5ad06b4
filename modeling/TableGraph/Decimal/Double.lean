/-!
# Binary64 numbers

A number with a fraction or an exponent is kept as the 64 bits of a binary64 value, so that equal
values are equal data. A finite value is a sign, a whole number `m` and an exponent `q`, and stands
for `m · 2 ^ q`; the arithmetic that prints it works on `m` and `q`.
-/

namespace TableGraph.Decimal

/-- Two to some power. -/
def twoTo (e : Nat) : Nat := Nat.pow 2 e

/-- A binary64 value, given by its bits. -/
structure Double where
  /-- Sign, exponent and fraction, from the highest bit down. -/
  bits : UInt64
  deriving DecidableEq, Repr, Inhabited

namespace Double

/-- The value of a floating-point number. -/
def ofFloat (f : Float) : Double := ⟨f.toBits⟩

/-- The floating-point number with these bits. -/
def toFloat (d : Double) : Float := Float.ofBits d.bits

/-- Whether the sign bit is set. It is set for negative zero too. -/
def isNegative (d : Double) : Bool := d.bits.toNat / twoTo 63 = 1

/-- The eleven bits of the exponent. -/
def exponentField (d : Double) : Nat := d.bits.toNat / twoTo 52 % twoTo 11

/-- The fifty-two bits of the fraction. -/
def fractionField (d : Double) : Nat := d.bits.toNat % twoTo 52

/-- Whether the value is infinite or no number. -/
def isSpecial (d : Double) : Bool := d.exponentField = 2047

/-- The whole number `m` of a finite value `m · 2 ^ q`. -/
def mantissa (d : Double) : Nat :=
  if d.exponentField = 0 then d.fractionField else twoTo 52 + d.fractionField

/-- The exponent `q` of a finite value `m · 2 ^ q`. -/
def exponent (d : Double) : Int :=
  if d.exponentField = 0 then -1074 else (d.exponentField : Int) - 1075

end Double

end TableGraph.Decimal
