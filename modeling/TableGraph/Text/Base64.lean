/-!
# Base64

Bytes as text of 64 characters, three bytes in four characters. An alphabet fixes the last two
characters and whether a short last group is filled up with `=`. Reading is canonical: the bits of
the last character that belong to no byte must be zero, and the filling must be there exactly when
the alphabet asks for it, so each sequence of bytes has one text.
-/

namespace TableGraph.Text.Base64

/-- One form of Base64. -/
structure Alphabet where
  /-- The character for 62. -/
  plus : Char
  /-- The character for 63. -/
  slash : Char
  /-- Whether the last group is filled up to four characters. -/
  padded : Bool
  deriving DecidableEq, Repr

/-- `+`, `/` and filling, as in cursors. -/
def standard : Alphabet := ⟨'+', '/', true⟩

/-- `-`, `_` and no filling, as in the address of a blob. -/
def urlSafe : Alphabet := ⟨'-', '_', false⟩

/-- The character for a number below 64. -/
def Alphabet.digit (a : Alphabet) (n : Nat) : Char :=
  if n < 26 then Char.ofNat (65 + n)
  else if n < 52 then Char.ofNat (71 + n)
  else if n < 62 then Char.ofNat (n - 4)
  else if n = 62 then a.plus
  else a.slash

/-- The number a character stands for. -/
def Alphabet.value (a : Alphabet) (c : Char) : Option Nat :=
  if 'A' ≤ c ∧ c ≤ 'Z' then some (c.toNat - 65)
  else if 'a' ≤ c ∧ c ≤ 'z' then some (c.toNat - 71)
  else if '0' ≤ c ∧ c ≤ '9' then some (c.toNat + 4)
  else if c = a.plus then some 62
  else if c = a.slash then some 63
  else none

/-- `count` characters of filling, if the alphabet fills. -/
def Alphabet.filling (a : Alphabet) (count : Nat) : List Char :=
  if a.padded then List.replicate count '=' else []

/-- The text of a sequence of bytes. -/
def encode (a : Alphabet) : List UInt8 → List Char
  | [] => []
  | [x] =>
    let n := x.toNat * 16
    a.digit (n / 64) :: a.digit (n % 64) :: a.filling 2
  | [x, y] =>
    let n := (x.toNat * 256 + y.toNat) * 4
    a.digit (n / 4096) :: a.digit (n / 64 % 64) :: a.digit (n % 64) :: a.filling 1
  | x :: y :: z :: rest =>
    let n := (x.toNat * 256 + y.toNat) * 256 + z.toNat
    a.digit (n / 262144) :: a.digit (n / 4096 % 64) :: a.digit (n / 64 % 64) :: a.digit (n % 64)
      :: encode a rest

/-- The byte in two characters whose last four bits are zero. -/
def lastOne (a : Alphabet) (c d : Char) : Option (List UInt8) := do
  let n := (← a.value c) * 64 + (← a.value d)
  if n % 16 = 0 then some [UInt8.ofNat (n / 16)] else none

/-- The two bytes in three characters whose last two bits are zero. -/
def lastTwo (a : Alphabet) (c d e : Char) : Option (List UInt8) := do
  let n := ((← a.value c) * 64 + (← a.value d)) * 64 + (← a.value e)
  if n % 4 = 0 then some [UInt8.ofNat (n / 1024), UInt8.ofNat (n / 4 % 256)] else none

/-- The bytes of a full group. -/
def three (a : Alphabet) (c d e f : Char) : Option (List UInt8) := do
  let n := (((← a.value c) * 64 + (← a.value d)) * 64 + (← a.value e)) * 64 + (← a.value f)
  some [UInt8.ofNat (n / 65536), UInt8.ofNat (n / 256 % 256), UInt8.ofNat (n % 256)]

/-- The bytes of a text, if it is one that `encode` writes. -/
def decode (a : Alphabet) : List Char → Option (List UInt8)
  | [] => some []
  | [c, d] => if a.padded then none else lastOne a c d
  | [c, d, e] => if a.padded then none else lastTwo a c d e
  | c :: d :: e :: f :: rest =>
    if a.padded ∧ rest = [] ∧ f = '=' then
      if e = '=' then lastOne a c d else lastTwo a c d e
    else do
      let group ← three a c d e f
      let bytes ← decode a rest
      some (group ++ bytes)
  | [_] => none

end TableGraph.Text.Base64
