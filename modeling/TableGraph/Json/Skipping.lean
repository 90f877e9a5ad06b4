import TableGraph.Json.Parser
import TableGraph.Text.Utf8

/-!
# Skipping JSON values

A value that nobody asks for is passed over by its form alone. The strings in it end at the next quote
that is not escaped, whatever bytes stand before it and whatever the escapes stand for, the numbers are
of any size, and the arrays and objects are nested to any depth. So some members of an object are read
from bytes that have no text as a whole: the names of all members are read, and the values of those that
are asked for.
-/

namespace TableGraph.Json

/-- What is behind the closing quote of a string. -/
def skipString : List Char → Option (List Char)
  | [] => none
  | c :: cs =>
    if c = '"' then some cs
    else if c = '\\' then
      match cs with
      | 'u' :: h :: i :: j :: k :: rest =>
        if (hexFour [h, i, j, k]).isSome then skipString rest else none
      | e :: rest => if e ∈ ['"', '\\', '/', 'b', 'f', 'n', 'r', 't'] then skipString rest else none
      | [] => none
    else if c.toNat < 32 then none
    else skipString cs

/-- What is behind a fraction, if there is one. -/
def skipFraction : List Char → Option (List Char)
  | '.' :: cs =>
    if cs.takeWhile Decimal.isDigit = [] then none else some (cs.dropWhile Decimal.isDigit)
  | cs => some cs

/-- What is behind an exponent, if there is one. -/
def skipExponent : List Char → Option (List Char)
  | 'e' :: cs => (Decimal.exponentPart cs).map fun e => e.2.2
  | 'E' :: cs => (Decimal.exponentPart cs).map fun e => e.2.2
  | cs => some cs

/-- What is behind a number without sign. -/
def skipUnsigned (cs : List Char) : Option (List Char) :=
  let ds := cs.takeWhile Decimal.isDigit
  if ds = [] ∨ (ds.head? = some '0' ∧ ds ≠ ['0']) then none
  else (skipFraction (cs.dropWhile Decimal.isDigit)).bind skipExponent

/-- What is behind a number. -/
def skipNumber : List Char → Option (List Char)
  | '-' :: cs => skipUnsigned cs
  | cs => skipUnsigned cs

mutual

/-- What is behind the value at the start of a text. The first argument bounds the steps. -/
def skipValue : Nat → List Char → Option (List Char)
  | 0, _ => none
  | n + 1, cs =>
    match skipSpace cs with
    | 'n' :: 'u' :: 'l' :: 'l' :: rest => some rest
    | 't' :: 'r' :: 'u' :: 'e' :: rest => some rest
    | 'f' :: 'a' :: 'l' :: 's' :: 'e' :: rest => some rest
    | '"' :: rest => skipString rest
    | '[' :: rest =>
      match skipSpace rest with
      | ']' :: rest => some rest
      | rest => skipItems n rest
    | '\x7b' :: rest =>
      match skipSpace rest with
      | '\x7d' :: rest => some rest
      | rest => skipMembers n rest
    | rest => skipNumber rest

/-- What is behind the items of an array and its end. -/
def skipItems : Nat → List Char → Option (List Char)
  | 0, _ => none
  | n + 1, cs => do
    let rest ← skipValue n cs
    match skipSpace rest with
    | ',' :: rest => skipItems n rest
    | ']' :: rest => some rest
    | _ => none

/-- What is behind the members of an object and its end. -/
def skipMembers : Nat → List Char → Option (List Char)
  | 0, _ => none
  | n + 1, cs =>
    match skipSpace cs with
    | '"' :: rest => do
      let rest ← skipString rest
      match skipSpace rest with
      | ':' :: rest => do
        let rest ← skipValue n rest
        match skipSpace rest with
        | ',' :: rest => skipMembers n rest
        | '\x7d' :: rest => some rest
        | _ => none
      | _ => none
    | _ => none

end

/-- What of a text is in front of an end of it. -/
def front (cs rest : List Char) : List Char := cs.take (cs.length - rest.length)

/-- The name behind an opening quote, and what is behind its closing quote. -/
def name? (cs : List Char) : Option (String × List Char) := do
  let rest ← skipString cs
  let text ← Text.ofByteChars? (front cs rest)
  let (name, _) ← string? text.toList
  some (name, rest)

/-- The members of an object up to its end, repeated ones included, each with what its value is
written as, and the rest of the text. The first argument bounds the number of members. -/
def spans : Nat → List Char → Option (List (String × List Char) × List Char)
  | 0, _ => none
  | n + 1, cs =>
    match skipSpace cs with
    | '"' :: rest => do
      let (k, rest) ← name? rest
      match skipSpace rest with
      | ':' :: rest => do
        let behind ← skipValue (2 * rest.length + 2) rest
        match skipSpace behind with
        | ',' :: more => do
          let (ms, after) ← spans n more
          some ((k, front rest behind) :: ms, after)
        | '\x7d' :: after => some ([(k, front rest behind)], after)
        | _ => none
      | _ => none
    | _ => none

/-- A member whose value is read. -/
def readSpan? (m : String × List Char) : Option (String × Json) := do
  let text ← Text.ofByteChars? m.2
  let v ← parseWithin? (maxDepth - 1) text
  some (m.1, v)

/-- The members with some names of the object that bytes write, repeated ones included. -/
def parseMembers? (names : List String) (bytes : List UInt8) : Option (List (String × Json)) :=
  match skipSpace (Text.byteChars bytes) with
  | '\x7b' :: rest =>
    match skipSpace rest with
    | '\x7d' :: rest => if skipSpace rest = [] then some [] else none
    | rest => do
      let (ms, after) ← spans bytes.length rest
      if skipSpace after = [] then (ms.filter fun m => m.1 ∈ names).mapM readSpan? else none
  | _ => none

end TableGraph.Json
