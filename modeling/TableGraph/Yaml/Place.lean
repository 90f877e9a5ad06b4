/-!
# Places in a YAML text

What is left of a text, with the line and column where it stands. Lines end with a line feed, a
carriage return or both, and with the separators of Unicode.
-/

namespace TableGraph.Yaml

/-- A place in a text. -/
structure Place where
  /-- What is left of the text. -/
  rest : List Char
  /-- The number of characters in front. -/
  index : Nat := 0
  /-- The number of lines in front. -/
  line : Nat := 0
  /-- The number of characters in front on the line. -/
  column : Nat := 0
  deriving Repr, Inhabited

/-- A blank or a tab. -/
def isBlank (c : Char) : Bool := c = ' ' || c = '\t'

/-- The end of a line. -/
def isBreak (c : Char) : Bool :=
  c = '\n' || c = '\r' || c = '\u0085' || c = '\u2028' || c = '\u2029'

/-- A character that a text may hold. -/
def isAllowed (c : Char) : Bool :=
  let n := c.toNat
  c = '\t' || c = '\n' || c = '\r' || (0x20 ≤ n && n ≤ 0x7E) || n = 0x85 || (0xA0 ≤ n && n ≤ 0xD7FF)
    || (0xE000 ≤ n && n ≤ 0xFFFD && n ≠ 0xFEFF) || 0x10000 ≤ n

namespace Place

/-- The start of a text. -/
def ofText (cs : List Char) : Place := { rest := cs }

/-- The character at a place. -/
def char? (p : Place) : Option Char := p.rest.head?

/-- The character a number of places on. -/
def ahead? (p : Place) (n : Nat) : Option Char := p.rest[n]?

/-- The place behind a character of a line. -/
def next (p : Place) : Place :=
  { p with rest := p.rest.tail, index := p.index + 1, column := p.column + 1 }

/-- The place behind a number of characters of a line. -/
def skip (p : Place) : Nat → Place
  | 0 => p
  | n + 1 => p.next.skip n

/-- The place at the start of the next line, behind a number of characters. -/
def newLine (p : Place) (n : Nat) : Place := ⟨p.rest.drop n, p.index + n, p.line + 1, 0⟩

/-- The end of the line if it is here: what it stands for, and the place behind. -/
def lineBreak? (p : Place) : Option (List Char × Place) :=
  match p.rest with
  | '\r' :: '\n' :: _ => some (['\n'], p.newLine 2)
  | c :: _ =>
    if c = '\u2028' ∨ c = '\u2029' then some ([c], p.newLine 1)
    else if isBreak c then some (['\n'], p.newLine 1)
    else none
  | [] => none

/-- Whether a blank, the end of a line or the end of the text stands a number of places on. -/
def endsAt (p : Place) (n : Nat) : Bool :=
  match p.ahead? n with
  | some c => isBlank c || isBreak c
  | none => true

/-- Whether three characters stand at the start of a line by themselves. -/
def marks (p : Place) (c : Char) : Bool :=
  p.column = 0 && p.rest.take 3 = [c, c, c] && p.endsAt 3

/-- Whether the start or the end of a document is marked here. -/
def atDocument (p : Place) : Bool := p.marks '-' || p.marks '.'

/-- The place behind the characters of the line that have a property. -/
def skipWhile (f : Char → Bool) (p : Place) : Place := p.skip (p.rest.takeWhile f).length

/-- The place at the end of the line. -/
def toLineEnd (p : Place) : Place := p.skipWhile fun c => !isBreak c

end Place

end TableGraph.Yaml
