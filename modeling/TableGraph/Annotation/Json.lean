import TableGraph.Annotation.Basic
import TableGraph.Table.Json

/-!
# Annotations as JSON

Annotation rows are read from JSON, where only the table must be named. Nested annotations are read
and written with all their members.
-/

namespace TableGraph

open Json (decodeList decodeOption record? member memberOr asString?)

/-- Reads a row. -/
def AnnotationRow.ofJson? (j : Json) : Option AnnotationRow := do
  let ms ← record? ["table_name", "field_id", "table_index", "field_index", "ref_id", "ref_name",
    "ref_index"] j
  some {
    table := ← member ms "table_name" asString?
    field := ← memberOr ms "field_id" (decodeOption asString?) none
    tableIndex := ← memberOr ms "table_index" (decodeOption asString?) none
    fieldIndex := ← memberOr ms "field_index" (decodeOption asString?) none
    ref := ← memberOr ms "ref_id" (decodeOption RefId.ofJson?) none
    refName := ← memberOr ms "ref_name" (decodeOption asString?) none
    refIndex := ← memberOr ms "ref_index" (decodeOption asString?) none }

/-- Reads the annotations of a column. -/
def FieldAnnotation.ofJson? (j : Json) : Option FieldAnnotation := do
  let ms ← record? ["id", "indices", "refs"] j
  some {
    id := ← member ms "id" asString?
    indices := ← member ms "indices" (decodeList Index.ofJson?)
    refs := ← member ms "refs" (decodeList Ref.ofJson?) }

/-- Reads the annotations of a table. -/
def TableAnnotation.ofJson? (j : Json) : Option TableAnnotation := do
  let ms ← record? ["name", "indices", "fields"] j
  some {
    name := ← member ms "name" asString?
    indices := ← member ms "indices" (decodeList Index.ofJson?)
    fields := ← member ms "fields" (decodeList FieldAnnotation.ofJson?) }

/-- The annotations of a column as a record. -/
def FieldAnnotation.toJson (a : FieldAnnotation) : Json :=
  .obj [("id", .str a.id), ("indices", .arr (a.indices.map Index.toJson)),
    ("refs", .arr (a.refs.map Ref.toJson))]

/-- The annotations of a table as a record. -/
def TableAnnotation.toJson (a : TableAnnotation) : Json :=
  .obj [("name", .str a.name), ("indices", .arr (a.indices.map Index.toJson)),
    ("fields", .arr (a.fields.map FieldAnnotation.toJson))]

end TableGraph
