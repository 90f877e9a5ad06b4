import TableGraph.Json.Basic
import TableGraph.Json.Number

/-!
# Reading JSON text

The value written by a text, with nothing but blanks around it. Arrays and objects may be nested
127 deep. In a string, control characters must be escaped and escaped surrogates must come in
pairs.
-/

namespace TableGraph.Json

/-- Space, tab, line feed and carriage return. -/
def isSpace (c : Char) : Bool := c = ' ' || c = '\t' || c = '\n' || c = '\r'

/-- The text without its leading blanks. -/
def skipSpace (cs : List Char) : List Char := cs.dropWhile isSpace

/-- The number a hexadecimal digit stands for. -/
def hexValue (c : Char) : Option Nat :=
  if '0' ≤ c ∧ c ≤ '9' then some (c.toNat - 48)
  else if 'a' ≤ c ∧ c ≤ 'f' then some (c.toNat - 87)
  else if 'A' ≤ c ∧ c ≤ 'F' then some (c.toNat - 55)
  else none

/-- The number of four hexadecimal digits, and the rest of the text. -/
def hexFour : List Char → Option (Nat × List Char)
  | a :: b :: c :: d :: rest => do
    let high := (← hexValue a) * 16 + (← hexValue b)
    let low := (← hexValue c) * 16 + (← hexValue d)
    some (high * 256 + low, rest)
  | _ => none

/-- The character of an escape written with `u`, and the rest of the text. A leading surrogate
must be followed by an escaped trailing one. -/
def unicodeEscape (cs : List Char) : Option (Char × List Char) := do
  let (n, rest) ← hexFour cs
  if 0xDC00 ≤ n ∧ n < 0xE000 then none
  else if 0xD800 ≤ n ∧ n < 0xDC00 then
    match rest with
    | '\\' :: 'u' :: more =>
      let (m, rest) ← hexFour more
      if 0xDC00 ≤ m ∧ m < 0xE000 then
        some (Char.ofNat (0x10000 + (n - 0xD800) * 0x400 + (m - 0xDC00)), rest)
      else none
    | _ => none
  else some (Char.ofNat n, rest)

/-- The character of an escape, and the rest of the text. -/
def escaped : List Char → Option (Char × List Char)
  | '"' :: rest => some ('"', rest)
  | '\\' :: rest => some ('\\', rest)
  | '/' :: rest => some ('/', rest)
  | 'b' :: rest => some ('\x08', rest)
  | 'f' :: rest => some ('\x0c', rest)
  | 'n' :: rest => some ('\n', rest)
  | 'r' :: rest => some ('\r', rest)
  | 't' :: rest => some ('\t', rest)
  | 'u' :: rest => unicodeEscape rest
  | _ => none

/-- The characters up to the closing quote, and the rest of the text. The first argument bounds the
number of characters. -/
def stringBody : Nat → List Char → Option (List Char × List Char)
  | 0, _ => none
  | _ + 1, [] => none
  | n + 1, c :: rest =>
    if c = '"' then some ([], rest)
    else if c = '\\' then do
      let (d, rest) ← escaped rest
      let (ds, rest) ← stringBody n rest
      some (d :: ds, rest)
    else if c.toNat < 32 then none
    else do
      let (ds, rest) ← stringBody n rest
      some (c :: ds, rest)

/-- The string behind an opening quote, and the rest of the text. -/
def string? (cs : List Char) : Option (String × List Char) :=
  (stringBody (cs.length + 1) cs).map fun r => (String.ofList r.1, r.2)

mutual

/-- A value at the start of a text, and the rest of the text. The first argument bounds the steps,
the second the depth of nesting. -/
def value : Nat → Nat → List Char → Option (Json × List Char)
  | 0, _, _ => none
  | n + 1, depth, cs =>
    match skipSpace cs with
    | 'n' :: 'u' :: 'l' :: 'l' :: rest => some (.null, rest)
    | 't' :: 'r' :: 'u' :: 'e' :: rest => some (.bool true, rest)
    | 'f' :: 'a' :: 'l' :: 's' :: 'e' :: rest => some (.bool false, rest)
    | '"' :: rest => (string? rest).map fun r => (.str r.1, r.2)
    | '[' :: rest =>
      if depth = 0 then none
      else match skipSpace rest with
        | ']' :: rest => some (.arr [], rest)
        | rest => (items n (depth - 1) rest).map fun r => (.arr r.1, r.2)
    | '\x7b' :: rest =>
      if depth = 0 then none
      else match skipSpace rest with
        | '\x7d' :: rest => some (.obj [], rest)
        | rest => (members n (depth - 1) rest).map fun r => (.obj (Members.ofList r.1), r.2)
    | rest => (Decimal.number? rest).map fun r => (.num r.1, r.2)

/-- The items of an array up to its end, and the rest of the text. -/
def items : Nat → Nat → List Char → Option (List Json × List Char)
  | 0, _, _ => none
  | n + 1, depth, cs => do
    let (x, rest) ← value n depth cs
    match skipSpace rest with
    | ',' :: rest => do
      let (xs, rest) ← items n depth rest
      some (x :: xs, rest)
    | ']' :: rest => some ([x], rest)
    | _ => none

/-- The members of an object up to its end, repeated ones included, and the rest of the text. -/
def members : Nat → Nat → List Char → Option (List (String × Json) × List Char)
  | 0, _, _ => none
  | n + 1, depth, cs =>
    match skipSpace cs with
    | '"' :: rest => do
      let (k, rest) ← string? rest
      match skipSpace rest with
      | ':' :: rest => do
        let (v, rest) ← value n depth rest
        match skipSpace rest with
        | ',' :: rest => do
          let (ms, rest) ← members n depth rest
          some ((k, v) :: ms, rest)
        | '\x7d' :: rest => some ([(k, v)], rest)
        | _ => none
      | _ => none
    | _ => none

end

/-- The deepest nesting that is read. -/
def maxDepth : Nat := 127

/-- The value a text writes, nested no deeper than a bound. -/
def parseWithin? (depth : Nat) (s : String) : Option Json :=
  match value (2 * s.length + 2) depth s.toList with
  | some (j, rest) => if skipSpace rest = [] then some j else none
  | none => none

/-- The value a text writes. -/
def parse? (s : String) : Option Json := parseWithin? maxDepth s

end TableGraph.Json
