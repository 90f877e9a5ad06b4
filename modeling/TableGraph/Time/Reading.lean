import TableGraph.Time.Calendar
import TableGraph.Decimal.Digits
import TableGraph.Text.Blank

/-!
# Reading dates

A date is read from an RFC 3339 time stamp, which is brought to UTC, from a date and a time joined by
`T` or a space, or from a date alone, which stands for its first instant. In the forms without an
offset blanks may stand in front of each number, a number may be shorter than usual, and the year may
have a sign and then any number of digits.
-/

namespace TableGraph.Time

open Decimal (isDigit ofDigits padded)

/-- The number of exactly `width` digits, and the rest of the text. -/
def fixedNumber (width : Nat) (cs : List Char) : Option (Nat × List Char) :=
  let ds := cs.take width
  if ds.length = width ∧ ds.all isDigit then some (ofDigits ds, cs.drop width) else none

/-- The number of at least one and at most `width` digits behind blanks, and the rest of the
text. -/
def looseNumber (width : Nat) (cs : List Char) : Option (Nat × List Char) :=
  let cs := cs.dropWhile Text.isBlank
  let ds := (cs.take width).takeWhile isDigit
  if ds = [] then none else some (ofDigits ds, cs.drop ds.length)

/-- The rest of a text that starts with a character. -/
def expect (c : Char) : List Char → Option (List Char)
  | [] => none
  | d :: rest => if d = c then some rest else none

/-- The nanoseconds of a fraction, of which nine digits count, and the rest of the text. -/
def fraction : List Char → Option (Nat × List Char)
  | '.' :: rest =>
    let ds := rest.takeWhile isDigit
    if ds = [] then none
    else
      let kept := ds.take 9
      some (ofDigits kept * Nat.pow 10 (9 - kept.length), rest.dropWhile isDigit)
  | rest => some (0, rest)

/-- The minutes of an offset from UTC. -/
def offset : List Char → Option Int
  | ['Z'] => some 0
  | ['z'] => some 0
  | sign :: rest => do
    let (hours, rest) ← fixedNumber 2 rest
    let rest ← expect ':' rest
    let (minutes, rest) ← fixedNumber 2 rest
    if rest ≠ [] ∨ 24 ≤ hours ∨ 60 ≤ minutes then none
    else if sign = '+' then some (hours * 60 + minutes)
    else if sign = '-' ∨ sign = '\u2212' then some (-(hours * 60 + minutes))
    else none
  | [] => none

/-- An RFC 3339 time stamp, brought to UTC. -/
def stamp (cs : List Char) : Option Instant := do
  let (year, rest) ← fixedNumber 4 cs
  let rest ← expect '-' rest
  let (month, rest) ← fixedNumber 2 rest
  let rest ← expect '-' rest
  let (day, rest) ← fixedNumber 2 rest
  let rest ← (expect 'T' rest).or ((expect 't' rest).or (expect ' ' rest))
  let (hour, rest) ← fixedNumber 2 rest
  let rest ← expect ':' rest
  let (minute, rest) ← fixedNumber 2 rest
  let rest ← expect ':' rest
  let (second, rest) ← fixedNumber 2 rest
  let (nano, rest) ← fraction rest
  let minutes ← offset rest
  let date ← Date.of? year month day
  let clock ← Clock.of? hour minute second nano
  some (Instant.minus ⟨date, clock⟩ minutes)

/-- A year with its sign, and the rest of the text. -/
def looseYear (cs : List Char) : Option (Int × List Char) :=
  match cs.dropWhile Text.isBlank with
  | '-' :: rest =>
    let ds := rest.takeWhile isDigit
    if ds = [] then none else some (-(ofDigits ds : Int), rest.dropWhile isDigit)
  | '+' :: rest =>
    let ds := rest.takeWhile isDigit
    if ds = [] then none else some (ofDigits ds, rest.dropWhile isDigit)
  | rest => (looseNumber 4 rest).map fun r => ((r.1 : Int), r.2)

/-- The years that have dates. -/
def isKnownYear (year : Int) : Bool := -262143 ≤ year && year ≤ 262142

/-- A date, and the rest of the text. -/
def looseDate (cs : List Char) : Option (Date × List Char) := do
  let (year, rest) ← looseYear cs
  let rest ← expect '-' rest
  let (month, rest) ← looseNumber 2 rest
  let rest ← expect '-' rest
  let (day, rest) ← looseNumber 2 rest
  if isKnownYear year then some (← Date.of? year month day, rest) else none

/-- A time of day at the end of a text. -/
def looseClock (cs : List Char) : Option Clock := do
  let (hour, rest) ← looseNumber 2 cs
  let rest ← expect ':' rest
  let (minute, rest) ← looseNumber 2 rest
  let rest ← expect ':' rest
  let (second, rest) ← looseNumber 2 rest
  let (nano, rest) ← fraction rest
  if rest = [] then Clock.of? hour minute second nano else none

/-- A date and a time without an offset. Any number of blanks may take the place of the `T`. -/
def local? (cs : List Char) : Option Instant := do
  let (date, rest) ← looseDate cs
  let clock ← match rest with
    | 'T' :: rest => looseClock rest
    | rest => looseClock rest
  some ⟨date, clock⟩

/-- A date alone. -/
def midnight? (cs : List Char) : Option Instant := do
  let (date, rest) ← looseDate cs
  if rest = [] then some ⟨date, ⟨0, 0, 0, 0⟩⟩ else none

/-- The instant a text stands for. -/
def parse? (text : String) : Option Instant :=
  let cs := text.toList
  (stamp cs).or ((local? cs).or (midnight? cs))

/-- A year of four digits, with a sign when it needs more or is negative. -/
def yearText (year : Int) : List Char :=
  if year < 0 then '-' :: padded 4 year.natAbs
  else if 9999 < year then '+' :: padded 4 year.natAbs
  else padded 4 year.natAbs

/-- The text of an instant, to the nanosecond. -/
def Instant.text (i : Instant) : String :=
  let c := i.clock
  String.ofList (yearText i.date.year ++ '-' :: padded 2 i.date.month ++ '-' :: padded 2 i.date.day
    ++ 'T' :: padded 2 c.hour ++ ':' :: padded 2 c.minute ++ ':' :: padded 2 c.second
    ++ '.' :: padded 9 c.nano)

end TableGraph.Time
