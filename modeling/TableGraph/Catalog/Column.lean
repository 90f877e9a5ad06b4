import TableGraph.Table.Basic

/-!
# The columns of a database

The catalogue of a database lists the columns of all tables, those of one table in a run. A run of
columns with the same table name becomes a table. A primary key of several columns makes none of
them primary.
-/

namespace TableGraph

/-- A column as the catalogue lists it. -/
structure ColumnRow where
  /-- The table. -/
  table : String
  /-- The column. -/
  column : String
  /-- The name of the type. -/
  dataType : String
  /-- Whether a row may have no value. -/
  nullable : Bool
  /-- Whether the column is part of the primary key. -/
  primary : Bool
  /-- The table a reference points to. -/
  foreignTable : Option String
  /-- The column a reference points to. -/
  foreignColumn : Option String
  deriving DecidableEq, Repr, Inhabited

namespace ColumnRow

/-- The type of column that a type of the database is shown as. -/
def columnType (dataType : String) : ColumnType :=
  if dataType ∈ ["smallint", "integer", "bigint"] then .int
  else if dataType ∈ ["numeric", "decimal", "real", "double precision", "money"] then .float
  else if dataType ∈ ["date", "timestamp without time zone", "timestamp with time zone",
      "time without time zone", "time with time zone"] then .date
  else if dataType = "boolean" then .boolean
  else if dataType = "bytea" then .blob
  else .string

/-- The column of a row. -/
def toField (row : ColumnRow) : Field :=
  { Field.plain row.table row.column (columnType row.dataType) with
    primary := row.primary
    nonNull := !row.nullable || row.primary
    tableRef := row.foreignTable
    fieldRef := row.foreignColumn }

/-- The tables of a list of columns, the last table first so that a column finds its run. -/
def enter (tables : List Table) (row : ColumnRow) : List Table :=
  match tables with
  | t :: rest =>
    if t.name = row.table then t.withField row.toField :: rest
    else (Table.empty row.table).withField row.toField :: t :: rest
  | [] => [(Table.empty row.table).withField row.toField]

end ColumnRow

/-- Takes the mark of the primary key from all columns when several carry it. -/
def Table.withSinglePrimary (t : Table) : Table :=
  if 1 < (t.fields.filter (·.primary)).length then
    { t with fields := t.fields.map fun f => { f with primary := false } }
  else t

/-- The tables of a list of columns. -/
def Table.ofColumns (rows : List ColumnRow) : List Table :=
  ((rows.foldl ColumnRow.enter []).reverse).map Table.withSinglePrimary

end TableGraph
