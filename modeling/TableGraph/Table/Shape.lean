import TableGraph.Table.Basic
import TableGraph.Name.Scope
import TableGraph.Name.Derived

/-!
# The shape of a table in the graph

A table together with the names it has in the graph: its own name, the names of its columns, and
the names of its links and groups, which are kept apart from those of the columns.
-/

namespace TableGraph

/-- A table with its names. -/
structure Shape where
  /-- The table. -/
  table : Table
  /-- The name of the table in the graph. -/
  name : String
  /-- The names of the columns. -/
  columns : Name.Scope
  /-- The names of links and groups. -/
  links : Name.Derived
  deriving DecidableEq, Repr, Inhabited

namespace Shape

/-- What the name of a link or group starts from. -/
def linkBase (of : String) : String := "link_" ++ of

/-- What the names of links and groups start from: first the references, then the groups. -/
def linkBases (t : Table) : List String :=
  (t.fields.filter fun f => f.tableRef.isSome).map (fun f => linkBase f.name)
    ++ t.fields.flatMap fun f => f.refs.map fun r => linkBase r.id.label

/-- The shape of a table under a name. -/
def ofTable (t : Table) (name : String) : Shape :=
  let columns := Name.Scope.ofNames (t.fields.map (·.name))
  ⟨t, name, columns, (Name.Derived.reserving columns.issued).issueAll (linkBases t)⟩

/-- The name handed out for a base, else the base itself. -/
def linkName (s : Shape) (base : String) : String := (s.links.get? base).getD base

/-- The name of the link along a column. -/
def linkField (s : Shape) (column : String) : String := s.linkName (linkBase column)

/-- The name of a group. -/
def groupField (s : Shape) (ref : String) : String := s.linkName (linkBase ref)

/-- The primary key column. -/
def primary? (s : Shape) : Option String := s.table.primaryField?.map (·.name)

/-- The name of a column in the graph. -/
def columnField (s : Shape) (column : String) : String := (s.columns.escaped? column).getD column

/-- The column behind a name of the graph. -/
def column? (s : Shape) (name : String) : Option Field :=
  (s.columns.name? name).bind s.table.field?

end Shape

end TableGraph
