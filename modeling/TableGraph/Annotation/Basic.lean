import TableGraph.Table.Basic
import TableGraph.Text.Blank
import TableGraph.Listing

/-!
# Annotations

Semantic annotations come as flat rows, one for each combination of table, column, group and key
word. They are nested by table, column and group in the order of first appearance, and then laid
over the tables by table name and column identity. Blank key words are left out and every key word
is kept once.
-/

namespace TableGraph

/-- One flat row of annotations. -/
structure AnnotationRow where
  /-- The table. -/
  table : String
  /-- The column, if the row speaks of one. -/
  field : Option String
  /-- A key word of the table. -/
  tableIndex : Option String
  /-- A key word of the column. -/
  fieldIndex : Option String
  /-- The group the column belongs to. -/
  ref : Option RefId
  /-- The name of the group. -/
  refName : Option String
  /-- A key word of the group. -/
  refIndex : Option String
  deriving DecidableEq, Repr, Inhabited

/-- The annotations of a column. -/
structure FieldAnnotation where
  /-- Identity of the column. -/
  id : String
  /-- Key words. -/
  indices : List String
  /-- The groups the column belongs to. -/
  refs : List Ref
  deriving DecidableEq, Repr, Inhabited

/-- The annotations of a table. -/
structure TableAnnotation where
  /-- Name of the table. -/
  name : String
  /-- Key words. -/
  indices : List String
  /-- The annotated columns. -/
  fields : List FieldAnnotation
  deriving DecidableEq, Repr, Inhabited

namespace AnnotationRow

/-- Adds the trimmed key word, unless it is blank or already there. -/
def addIndex (key : Option String) (indices : List String) : List String :=
  match key with
  | none => indices
  | some k =>
    let k := Text.trim k
    if k = "" ∨ k ∈ indices then indices else indices ++ [k]

/-- Enters the group of the row among the groups of its column. -/
def enterRef (row : AnnotationRow) (refs : List Ref) : List Ref :=
  match row.ref with
  | none => refs
  | some id =>
    upsert (fun r => r.id = id) ⟨id, row.refName, []⟩
      (fun r => { r with indices := addIndex row.refIndex r.indices }) refs

/-- Enters the column of the row among the columns of its table. -/
def enterField (row : AnnotationRow) (fields : List FieldAnnotation) : List FieldAnnotation :=
  match row.field with
  | none => fields
  | some id =>
    upsert (fun f => f.id = id) ⟨id, [], []⟩
      (fun f => { f with
        indices := addIndex row.fieldIndex f.indices
        refs := row.enterRef f.refs }) fields

/-- Enters a row among the annotated tables. -/
def enter (row : AnnotationRow) (tables : List TableAnnotation) : List TableAnnotation :=
  upsert (fun t => t.name = row.table) ⟨row.table, [], []⟩
    (fun t => { t with
      indices := addIndex row.tableIndex t.indices
      fields := row.enterField t.fields }) tables

/-- The rows nested by table, column and group. -/
def nest (rows : List AnnotationRow) : List TableAnnotation :=
  rows.foldl (fun tables row => row.enter tables) []

end AnnotationRow

/-- Lays the annotations of a column over the first column of that identity. -/
def FieldAnnotation.applyTo (fields : List Field) (a : FieldAnnotation) : List Field :=
  updateFirst (fun f => f.id = a.id) (fun f => { f with indices := a.indices, refs := a.refs })
    fields

/-- Lays the annotations of a table over the first table of that name. -/
def TableAnnotation.applyTo (tables : List Table) (a : TableAnnotation) : List Table :=
  updateFirst (fun t => t.name = a.name)
    (fun t => { t with
      indices := a.indices
      fields := a.fields.foldl FieldAnnotation.applyTo t.fields }) tables

/-- Lays annotations over tables, one after another. -/
def Table.annotate (tables : List Table) (annotations : List TableAnnotation) : List Table :=
  annotations.foldl TableAnnotation.applyTo tables

/-- Lays annotation rows over tables. Rows that could not be read leave the tables as they are. -/
def Table.enrich (tables : List Table) (rows : Option (List AnnotationRow)) : List Table :=
  match rows with
  | some rows => Table.annotate tables (AnnotationRow.nest rows)
  | none => tables

end TableGraph
