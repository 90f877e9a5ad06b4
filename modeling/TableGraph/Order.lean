import TableGraph.Table.Shape
import TableGraph.RequestError

/-!
# Orderings

The `order` argument of a field as columns with directions. Entries are read from left to right. A
column mentioned more than once keeps its first place and takes its last direction.
-/

namespace TableGraph

/-- The directions of an ordering. -/
inductive Direction where
  /-- From the least value on. -/
  | ascending
  /-- From the greatest value on. -/
  | descending
  deriving DecidableEq, Repr, Inhabited

namespace Direction

/-- The direction a word stands for. -/
def ofKey? (key : String) : Option Direction :=
  if key = "asc" then some .ascending
  else if key = "desc" then some .descending
  else none

/-- The word of a direction in a statement. -/
def sql : Direction → String
  | .ascending => "ASC"
  | .descending => "DESC"

end Direction

/-- Columns with directions, each column once. -/
abbrev Ordering.Terms := Members Direction

namespace Ordering

/-- Enters one member of an entry. -/
def enter (s : Shape) (terms : Terms) (key : String) (name : Json) : Except RequestError Terms :=
  match Direction.ofKey? key with
  | none => .error (.order (.unknownDirection key))
  | some direction =>
    match name with
    | .null => .ok terms
    | .str name =>
      match s.column? name with
      | some f => .ok (Members.insert terms f.name direction)
      | none => .error (.unknownField s.table.name name)
    | other => .error (.order (.nameExpected key other))

/-- Enters the members of an entry. -/
def enterAll (s : Shape) (terms : Terms) : List (String × Json) → Except RequestError Terms
  | [] => .ok terms
  | (key, name) :: rest => do enterAll s (← enter s terms key name) rest

/-- Enters a list of entries. -/
def ofEntries (s : Shape) (terms : Terms) : List Json → Except RequestError Terms
  | [] => .ok terms
  | .obj entry :: rest => do ofEntries s (← enterAll s terms entry) rest
  | other :: _ => .error (.order (.notAnObject other))

/-- The ordering of an `order` argument; no argument asks for none. -/
def ofArgument (s : Shape) : Option Json → Except RequestError (Option Terms)
  | none => .ok none
  | some .null => .ok none
  | some (.arr entries) => do return some (← ofEntries s [] entries)
  | some single => do return some (← ofEntries s [] [single])

end Ordering

end TableGraph
