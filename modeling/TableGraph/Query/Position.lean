import TableGraph.Text.Utf8

/-!
# Positions in a query text

Line and column of a place, counted from one. The place is found by counting as many characters from
the start as the text in front of it has bytes, so characters of several bytes move it on.
-/

namespace TableGraph.Query

/-- A line and a column, counted from one. -/
structure Position where
  /-- The line. -/
  line : Nat := 1
  /-- The column. -/
  column : Nat := 1
  deriving DecidableEq, Repr, Inhabited

/-- The position behind one more character. -/
def Position.next (p : Position) (c : Char) : Position :=
  if c = '\n' then ⟨p.line + 1, 1⟩
  else if c = '\r' then ⟨p.line, 1⟩
  else ⟨p.line, p.column + 1⟩

/-- The position in a text from which on a number of characters remain. -/
def Position.of (text : String) (remaining : Nat) : Position :=
  let cs := text.toList
  let front := cs.take (cs.length - remaining)
  (cs.take (Text.utf8 (String.ofList front)).length).foldl Position.next {}

end TableGraph.Query
