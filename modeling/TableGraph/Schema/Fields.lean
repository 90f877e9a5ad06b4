import TableGraph.Schema.Inputs
import TableGraph.Schema.Exposure

/-!
# Fields of tables and groups

A plain column is shown as a scalar, a reference as a link to the rows it points to. A reference to
a table that is not shown, or without a column to join on, has no field. The columns that carry a ref
form a group, which is joined to its own row on the primary key.
-/

namespace TableGraph

namespace Shape

/-- The shape of the table of a name. -/
def byTable? (shapes : List Shape) (table : String) : Option Shape :=
  shapes.find? fun s => s.table.name = table

/-- The table a reference leads to, and the column it is joined on. -/
def target? (shapes : List Shape) (f : Field) : Option (Shape × String) := do
  let target ← byTable? shapes (← f.tableRef)
  let column ← f.joinColumn? target.table
  some (target, column)

/-- The scalar of a plain column. -/
def scalarField (s : Shape) (f : Field) : FieldDef where
  name := s.columnField f.name
  description := f.description
  kind := .scalar (Scalar.ofColumn f.type)
  nonNull := f.nonNull
  args := []
  column := some f.name
  join := none
  shape := s

/-- The link of a reference to the column of a table. -/
def linkDef (s : Shape) (f : Field) (target : Shape) (column : String) : FieldDef where
  name := s.linkField f.name
  description := describe (some f.name) ((f.refs.head?.map (·.indices)).getD [])
  kind := .link target.name
  nonNull := f.nonNull
  args := target.pageArguments
  column := some f.name
  join := some ⟨f.name, column⟩
  shape := target

/-- The field of a column, if it has one. -/
def fieldOf? (shapes : List Shape) (s : Shape) (f : Field) : Option FieldDef :=
  match f.tableRef with
  | none => some (s.scalarField f)
  | some _ => (target? shapes f).map fun t => s.linkDef f t.1 t.2

/-- The fields of columns by name. -/
def columnFields (shapes : List Shape) (s : Shape) (fields : List Field) : Members FieldDef :=
  Members.ofList ((fields.filterMap (fieldOf? shapes s)).map fun d => (d.name, d))

/-- The field of a group of the row, whose object type has this name and this primary key. -/
def groupDef (s : Shape) (r : Ref) (object key : String) : FieldDef where
  name := s.groupField r.id.label
  description := r.description
  kind := .group object
  nonNull := false
  args := s.rowArguments
  column := some key
  join := some ⟨key, key⟩
  shape := s

/-- The root field of a table. -/
def rootDef (s : Shape) : FieldDef where
  name := s.name
  description := s.table.description
  kind := .link s.name
  nonNull := false
  args := s.pageArguments
  column := none
  join := none
  shape := s

/-- The groups of a table, each by the first ref that names it. -/
def groups (s : Shape) : List Ref := distinctBy (·.id) (s.table.fields.flatMap (·.refs))

/-- The columns that carry a ref. -/
def groupMembers (s : Shape) (r : Ref) : List Field := s.table.fields.filter fun f => f.hasRef r.id

/-- The object type of a table without its groups. -/
def objectType (shapes : List Shape) (s : Shape) : ObjectType where
  name := s.name
  table := s.table.name
  primary := s.primary?
  description := nonEmpty? s.table.description
  fields := columnFields shapes s s.table.fields

/-- The shapes of tables, with their names kept apart. -/
def ofTables (tables : List Table) : List Shape :=
  let names := Name.Scope.ofNames (tables.map (·.name))
  tables.map fun t => ofTable t ((names.escaped? t.name).getD t.name)

end Shape

end TableGraph
