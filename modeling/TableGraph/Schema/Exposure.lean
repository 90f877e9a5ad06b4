import TableGraph.Table.Basic
import TableGraph.Listing

/-!
# The tables that can be shown

Of tables with one name the first counts. A table can be shown when it has a field left: a plain
column, or a reference to a table that can be shown with a column to join on. A table that is left
out may strand others, so the tables are thinned out until nothing changes.
-/

namespace TableGraph

/-- The column of the table `target` that a reference is joined on: the one it names, or the primary
key. -/
def Field.joinColumn? (f : Field) (target : Table) : Option String :=
  f.fieldRef.or (target.primaryField?.map (·.name))

namespace Table

/-- The first table of a name. -/
def byName? (tables : List Table) (name : String) : Option Table :=
  tables.find? fun t => t.name = name

/-- The first table of each name. -/
def firstOfEach (tables : List Table) : List Table := distinctBy (·.name) tables

/-- Whether a field stays when the tables are those given. -/
def keepsField (tables : List Table) (f : Field) : Bool :=
  match f.tableRef with
  | none => true
  | some target =>
    match byName? tables target with
    | some t => (f.joinColumn? t).isSome
    | none => false

/-- The tables that keep a field when the tables are those given. -/
def thinned (tables : List Table) : List Table :=
  tables.filter fun t => t.fields.any (keepsField tables)

/-- Thins the tables out until none is lost. -/
def settled (tables : List Table) : List Table :=
  if (thinned tables).length < tables.length then settled (thinned tables) else tables
termination_by tables.length

/-- The tables that can be shown. -/
def exposable (tables : List Table) : List Table := settled (firstOfEach tables)

end Table

end TableGraph
