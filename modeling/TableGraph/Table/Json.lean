import TableGraph.Table.Basic
import TableGraph.Json.Decode
import TableGraph.Json.Printer

/-!
# Tables as JSON

A snapshot of the tables is written as JSON and read back. Members that are not there are left out
for references and for the names of refs, and written as their default otherwise.
-/

namespace TableGraph

open Json (decodeList decodeOption record? member memberOr asString? asBool?)

/-- A key word, as a record with the one member `key`. -/
def Index.toJson (key : String) : Json := .obj [("key", .str key)]

/-- Reads a key word. -/
def Index.ofJson? (j : Json) : Option String := do
  let ms ← record? ["key"] j
  member ms "key" asString?

/-- The word of a type. -/
def ColumnType.toJson (t : ColumnType) : Json := .str t.key

/-- Reads a type: its word, or an object with nothing but the word and `null`. -/
def ColumnType.ofJson? : Json → Option ColumnType
  | .str k => ColumnType.ofKey? k
  | .obj [(k, .null)] => ColumnType.ofKey? k
  | _ => none

/-- A number or a string. -/
def RefId.toJson : RefId → Json
  | .number n => .int n
  | .text s => .str s

/-- Reads a number of 64 bits or a string. -/
def RefId.ofJson? : Json → Option RefId
  | .str s => some (.text s)
  | j => j.asInt64?.map .number

/-- A member that is left out when there is no value. -/
def optionalMember (name : String) : Option String → Members Json
  | some s => [(name, .str s)]
  | none => []

/-- A ref as a record. -/
def Ref.toJson (r : Ref) : Json :=
  .obj ([("id", r.id.toJson)] ++ optionalMember "name" r.name
    ++ [("indices", .arr (r.indices.map Index.toJson))])

/-- Reads a ref. -/
def Ref.ofJson? (j : Json) : Option Ref := do
  let ms ← record? ["id", "name", "indices"] j
  some {
    id := ← member ms "id" RefId.ofJson?
    name := ← memberOr ms "name" (decodeOption asString?) none
    indices := ← memberOr ms "indices" (decodeList Index.ofJson?) [] }

/-- A column as a record. -/
def Field.toJson (f : Field) : Json :=
  .obj ([("id", .str f.id), ("name", .str f.name), ("primary", .bool f.primary),
      ("type", f.type.toJson), ("non_null", .bool f.nonNull)]
    ++ optionalMember "table_name_ref" f.tableRef
    ++ optionalMember "field_name_ref" f.fieldRef
    ++ [("indices", .arr (f.indices.map Index.toJson)), ("refs", .arr (f.refs.map Ref.toJson))])

/-- Reads a column. -/
def Field.ofJson? (j : Json) : Option Field := do
  let ms ← record? ["id", "name", "primary", "type", "non_null", "table_name_ref",
    "field_name_ref", "indices", "refs"] j
  some {
    id := ← member ms "id" asString?
    name := ← member ms "name" asString?
    primary := ← memberOr ms "primary" asBool? false
    type := ← memberOr ms "type" ColumnType.ofJson? .string
    nonNull := ← memberOr ms "non_null" asBool? false
    tableRef := ← memberOr ms "table_name_ref" (decodeOption asString?) none
    fieldRef := ← memberOr ms "field_name_ref" (decodeOption asString?) none
    indices := ← memberOr ms "indices" (decodeList Index.ofJson?) []
    refs := ← memberOr ms "refs" (decodeList Ref.ofJson?) [] }

/-- A table as a record. -/
def Table.toJson (t : Table) : Json :=
  .obj [("id", .str t.id), ("name", .str t.name), ("indices", .arr (t.indices.map Index.toJson)),
    ("fields", .arr (t.fields.map Field.toJson))]

/-- Reads a table. -/
def Table.ofJson? (j : Json) : Option Table := do
  let ms ← record? ["id", "name", "indices", "fields"] j
  some {
    id := ← member ms "id" asString?
    name := ← member ms "name" asString?
    indices := ← memberOr ms "indices" (decodeList Index.ofJson?) []
    fields := ← memberOr ms "fields" (decodeList Field.ofJson?) [] }

/-- A snapshot of tables. -/
def Table.listToJson (ts : List Table) : Json := .arr (ts.map Table.toJson)

/-- Reads a snapshot of tables. -/
def Table.listOfJson? (j : Json) : Option (List Table) := decodeList Table.ofJson? j

end TableGraph
