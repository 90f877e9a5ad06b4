import TableGraph.Yaml.Place
import TableGraph.Json.Parser

/-!
# Scalars of YAML

The texts of plain scalars, of scalars between quotes and of literal and folded blocks. In the first
two a line end between words counts as a blank, and every further one as a line feed.
-/

namespace TableGraph.Yaml

/-- What stands between two words of a scalar. -/
structure Gap where
  /-- The blanks, if there is no line end. -/
  blanks : List Char := []
  /-- The first line end. -/
  first : Option (List Char) := none
  /-- The line ends behind it. -/
  more : List Char := []
  deriving Repr, Inhabited

namespace Gap

/-- What a gap stands for. -/
def text (g : Gap) : List Char :=
  match g.first with
  | none => g.blanks
  | some first =>
    if first.head? = some '\n' then (if g.more = [] then [' '] else g.more) else first ++ g.more

/-- Whether a gap holds the end of a line. -/
def hasBreak (g : Gap) : Bool := g.first.isSome

/-- Reads on in a gap. Behind a line end no tab may stand in front of a column. The first argument
bounds the number of characters. -/
def read (column : Nat) : Nat → Gap → Place → Option (Gap × Place)
  | 0, g, p => some (g, p)
  | n + 1, g, p =>
    match p.char? with
    | none => some (g, p)
    | some c =>
      if isBlank c then
        if !g.hasBreak then read column n { g with blanks := g.blanks ++ [c] } p.next
        else if c = '\t' ∧ p.column < column then none
        else read column n g p.next
      else match p.lineBreak? with
        | none => some (g, p)
        | some (b, q) =>
          if g.hasBreak then read column n { g with more := g.more ++ b } q
          else read column n ⟨[], some b, []⟩ q

end Gap

/-- A scalar that was read, with the place behind it and the gap in front of that place. -/
structure ReadScalar where
  /-- The text. -/
  text : List Char
  /-- Whether a line end stands between the scalar and the place behind it. -/
  broken : Bool := false
  /-- The place behind. -/
  place : Place

/-- A character that stands for itself only outside flow collections. -/
def isFlowMark (c : Char) : Bool := c = ',' || c = '[' || c = ']' || c = '\x7b' || c = '\x7d'

/-- A word of a plain scalar, and the place behind. The first argument bounds the number of
characters. -/
def plainWord (flow : Bool) : Nat → Place → Option (List Char × Place)
  | 0, p => some ([], p)
  | n + 1, p =>
    match p.char? with
    | none => some ([], p)
    | some c =>
      if isBlank c || isBreak c then some ([], p)
      else if flow && c = ':' && (p.ahead? 1).any fun d => isFlowMark d || d = '?' then none
      else if (c = ':' && p.endsAt 1) || (flow && isFlowMark c) then some ([], p)
      else do
        let (cs, q) ← plainWord flow n p.next
        some (c :: cs, q)

/-- The rest of a plain scalar behind a gap. Outside flow collections it ends in front of a column.
The first argument bounds the number of words. -/
def plainFrom (flow : Bool) (column : Nat) : Nat → Gap → Place → Option ReadScalar
  | 0, _, p => some ⟨[], false, p⟩
  | n + 1, g, p => do
    if p.atDocument || p.char? = some '#' then return ⟨[], g.hasBreak, p⟩
    let (word, q) ← plainWord flow (p.rest.length + 1) p
    if word = [] then return ⟨[], g.hasBreak, q⟩
    let (h, r) ← Gap.read column (q.rest.length + 1) {} q
    if r.index = q.index then return ⟨g.text ++ word, false, q⟩
    if !flow && r.column < column then return ⟨g.text ++ word, h.hasBreak, r⟩
    let more ← plainFrom flow column n h r
    return { more with text := g.text ++ word ++ more.text }

/-- The plain scalar at a place. -/
def plainScalar (flow : Bool) (column : Nat) (p : Place) : Option ReadScalar :=
  plainFrom flow column (p.rest.length + 1) {} p

/-- The number of as many hexadecimal digits. -/
def hexNumber : Nat → List Char → Option Nat
  | 0, _ => some 0
  | _ + 1, [] => none
  | n + 1, c :: cs => do
    let d ← Json.hexValue c
    let more ← hexNumber n cs
    some (d * Nat.pow 16 n + more)

/-- The character of a number, unless it is a surrogate or none at all. -/
def charOf? (n : Nat) : Option Char :=
  if (0xD800 ≤ n ∧ n ≤ 0xDFFF) ∨ 0x10FFFF < n then none else some (Char.ofNat n)

/-- The escapes of one character. -/
def plainEscapes : List (Char × Char) :=
  [('0', '\x00'), ('a', '\x07'), ('b', '\x08'), ('t', '\t'), ('\t', '\t'), ('n', '\n'), ('v', '\x0b'),
    ('f', '\x0c'), ('r', '\r'), ('e', '\x1b'), (' ', ' '), ('"', '"'), ('/', '/'), ('\\', '\\'),
    ('N', '\u0085'), ('_', '\u00a0'), ('L', '\u2028'), ('P', '\u2029')]

/-- The escapes of a number, with the count of its digits. -/
def numberEscapes : List (Char × Nat) := [('x', 2), ('u', 4), ('U', 8)]

/-- The character of the escape at a place, and how many characters the escape has. -/
def escape? (p : Place) : Option (Char × Nat) := do
  let c ← p.ahead? 1
  match plainEscapes.lookup c with
  | some d => some (d, 2)
  | none =>
    let digits ← numberEscapes.lookup c
    some (← charOf? (← hexNumber digits (p.rest.drop 2)), 2 + digits)

/-- A word between quotes: its text, the place behind, and whether an escaped line end follows. -/
structure QuotedWord where
  /-- The text. -/
  text : List Char
  /-- The place behind. -/
  place : Place
  /-- Whether an escaped line end stands in front of the place. -/
  joined : Bool := false

/-- A word between quotes. The first argument bounds the number of characters. -/
def quotedWord (quote : Char) : Nat → Place → Option QuotedWord
  | 0, p => some ⟨[], p, false⟩
  | n + 1, p =>
    match p.char? with
    | none => some ⟨[], p, false⟩
    | some c =>
      if isBlank c || isBreak c then some ⟨[], p, false⟩
      else if c = '\'' ∧ quote = '\'' ∧ p.ahead? 1 = some '\'' then do
        let more ← quotedWord quote n (p.skip 2)
        some { more with text := '\'' :: more.text }
      else if c = quote then some ⟨[], p, false⟩
      else if c = '\\' ∧ quote = '"' then
        match p.next.lineBreak? with
        | some (_, q) => some ⟨[], q, true⟩
        | none => do
          let (d, length) ← escape? p
          let more ← quotedWord quote n (p.skip length)
          some { more with text := d :: more.text }
      else do
        let more ← quotedWord quote n p.next
        some { more with text := c :: more.text }

/-- The rest of a scalar up to its closing quote. The first argument bounds the number of words. -/
def quotedFrom (quote : Char) : Nat → Place → Option ReadScalar
  | 0, _ => none
  | n + 1, p => do
    if p.atDocument || p.rest.isEmpty then none
    let word ← quotedWord quote (p.rest.length + 1) p
    if !word.joined && word.place.char? = some quote then
      return ⟨word.text, false, word.place.next⟩
    let (g, q) ← Gap.read 0 (word.place.rest.length + 1)
      (if word.joined then ⟨[], some [], []⟩ else {}) word.place
    if q.char? = some quote then return ⟨word.text ++ g.text, false, q.next⟩
    let more ← quotedFrom quote n q
    return { more with text := word.text ++ g.text ++ more.text }

/-- The scalar between quotes at a place. -/
def quotedScalar (quote : Char) (p : Place) : Option ReadScalar :=
  quotedFrom quote (p.rest.length + 1) p.next

/-- What becomes of the line ends at the end of a block. -/
inductive Chomping where
  /-- None is kept. -/
  | strip
  /-- One is kept. -/
  | clip
  /-- All are kept. -/
  | keep
  deriving DecidableEq, Repr

/-- The sign at a place for what becomes of the line ends, if there is one, and the place behind. -/
def chomping? (p : Place) : Option (Chomping × Place) :=
  match p.char? with
  | some '+' => some (.keep, p.next)
  | some '-' => some (.strip, p.next)
  | _ => none

/-- The digit at a place for an indentation, if there is one, and the place behind. It is not zero. -/
def increment? (p : Place) : Option (Option Nat × Place) :=
  match p.char? with
  | some c => if c = '0' then none
    else if c.isDigit then some (some (c.toNat - 48), p.next)
    else some (none, p)
  | none => some (none, p)

/-- The signs behind the mark of a block in either order, and the start of the line behind. -/
def blockHeader (p : Place) : Option (Chomping × Option Nat × Place) := do
  let (chomping, increment, p) ← match chomping? p with
    | some (c, q) => do
      let (i, q) ← increment? q
      pure (c, i, q)
    | none => do
      let (i, q) ← increment? p
      match i, chomping? q with
      | some i, some (c, q) => pure (c, some i, q)
      | i, _ => pure (Chomping.clip, i, q)
  let p := p.skipWhile isBlank
  let p := if p.char? = some '#' then p.toLineEnd else p
  match p.lineBreak? with
  | some (_, q) => some (chomping, increment, q)
  | none => if p.rest.isEmpty then some (chomping, increment, p) else none

/-- The line ends in front of the next line of a block, that line's place, and the deepest
indentation on the way. Indentation is eaten up to a column, or all of it when the column is not
known yet; no tab may be among it. The first argument bounds the number of lines. -/
def blockBreaks (column : Option Nat) : Nat → Place → Option (List Char × Place × Nat)
  | 0, p => some ([], p, p.column)
  | n + 1, p => do
    let spaces := (p.rest.takeWhile (· = ' ')).length
    let q := p.skip (match column with
      | some c => min spaces (c - p.column)
      | none => spaces)
    if q.char? = some '\t' ∧ (column.all fun c => q.column < c) then none
    match q.lineBreak? with
    | none => some ([], q, q.column)
    | some (b, r) =>
      let (bs, r, deepest) ← blockBreaks column n r
      some (b ++ bs, r, max q.column deepest)

/-- What stands between a line of a block and the next. In a folded block a single line end between
lines without leading blanks counts as a blank. -/
def lineJoin (folded : Bool) (lineEnd breaks : List Char) (blank : Bool) : List Char :=
  if folded && lineEnd.head? = some '\n' && !blank then
    (if breaks = [] then [' '] else []) ++ breaks
  else lineEnd ++ breaks

/-- The lines of a block from a place on: their text, the last line end, the line ends behind it, and
the place behind. `before` is the line end in front of the place with those behind it, and whether
the line in front of it started with a blank. The first argument bounds the number of lines. -/
def blockLines (folded : Bool) (column : Nat) :
    Nat → List Char × List Char × Bool → Place → Option (List Char × List Char × List Char × Place)
  | 0, (lineEnd, breaks, _), p => some ([], lineEnd, breaks, p)
  | n + 1, (lineEnd, breaks, blank), p =>
    if p.column = column ∧ !p.rest.isEmpty then do
      let starts := p.char?.any isBlank
      let line := p.rest.takeWhile fun c => !isBreak c
      let join := lineJoin folded lineEnd breaks (blank || starts)
      let (nextEnd, q) := (p.toLineEnd.lineBreak?).getD ([], p.toLineEnd)
      let (nextBreaks, r, _) ← blockBreaks (some column) (q.rest.length + 1) q
      let (text, lastEnd, lastBreaks, s) ← blockLines folded column n (nextEnd, nextBreaks, starts) r
      some (join ++ line ++ text, lastEnd, lastBreaks, s)
    else some ([], lineEnd, breaks, p)

/-- The block at a place, inside an indentation. -/
def blockScalar (folded : Bool) (indent : Int) (p : Place) : Option ReadScalar := do
  let (chomping, increment, p) ← blockHeader p.next
  let base := (max indent 0).toNat
  let given := increment.map fun i => base + i
  let (breaks, q, deepest) ← blockBreaks given (p.rest.length + 1) p
  let column := given.getD (max (max deepest (indent + 1).toNat) 1)
  let (text, lastEnd, lastBreaks, r) ←
    blockLines folded column (q.rest.length + 1) ([], breaks, false) q
  let tail := match chomping with
    | .strip => []
    | .clip => lastEnd
    | .keep => lastEnd ++ lastBreaks
  some ⟨text ++ tail, false, r⟩

end TableGraph.Yaml
