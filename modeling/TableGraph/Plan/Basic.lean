import TableGraph.Order

/-!
# Plans

One statement fetches a root field with everything selected below it: the root table, joined with
one more table for each selected link and group. A plan names each of these occurrences of a table
by an alias and lists what is read from it.
-/

namespace TableGraph

/-- A column read from an occurrence of a table. -/
structure ColumnSelect where
  /-- The response key the value is answered under. -/
  key : String
  /-- The column. -/
  column : String
  /-- The label of the value in the rows of the statement. -/
  label : String
  /-- Whether only the presence of a value is read. -/
  presence : Bool
  deriving DecidableEq, Repr, Inhabited

/-- How many children a join has for each row. -/
inductive Cardinality where
  /-- Any number: the rows a link leads to. -/
  | many
  /-- At most one: the same row as a group. -/
  | one
  deriving DecidableEq, Repr, Inhabited

/-- How an occurrence is joined to its parent. -/
structure JoinHead where
  /-- The response key the children are answered under. -/
  key : String
  /-- How many children there are. -/
  cardinality : Cardinality
  /-- The condition of the join. -/
  condition : String
  deriving DecidableEq, Repr, Inhabited

/-- One occurrence of a table in the statement. -/
structure Occurrence where
  /-- The alias. -/
  aliasName : String
  /-- The table. -/
  table : String
  /-- The primary key column. -/
  primary : Option String
  /-- The columns that tell rows apart without a primary key, with their labels. -/
  identity : List (String × String)
  /-- The selected columns. -/
  columns : List ColumnSelect
  /-- The filter on the occurrence. -/
  filter : String
  /-- The ordering of the occurrence. -/
  order : Ordering.Terms
  deriving DecidableEq, Repr, Inhabited

/-- A plan: an occurrence with the plans joined to it. -/
inductive Plan where
  /-- An occurrence with its joins in order. -/
  | node (head : Occurrence) (joins : List (JoinHead × Plan))
  deriving Repr, Inhabited

namespace Plan

/-- The occurrence at the root of a plan. -/
def head : Plan → Occurrence
  | .node head _ => head

/-- The plans joined to the root of a plan. -/
def joins : Plan → List (JoinHead × Plan)
  | .node _ joins => joins

end Plan

namespace Occurrence

/-- The label of the primary key. -/
def keyLabel (o : Occurrence) : String := o.aliasName ++ "_pk"

/-- The label of the expression that tells rows apart. -/
def rowLabel (o : Occurrence) : String := o.aliasName ++ "_rid"

end Occurrence

end TableGraph
