import TableGraph.Annotation.Json
import TableGraph.Catalog.Column

/-!
# Recorded databases

What a database answers, recorded beforehand: the columns and annotation rows it lists, and the
results of statements, given in turn. The statements that are sent to it are kept.
-/

namespace TableGraph

/-- What a statement is for. -/
inductive StatementKind where
  /-- It lists columns. -/
  | columns
  /-- It lists annotation rows. -/
  | annotations
  /-- It fetches the rows of a root field. -/
  | root
  /-- It fetches the content of a blob. -/
  | blob
  deriving DecidableEq, Repr, Inhabited

/-- A statement with the values of its parameters. -/
structure Statement where
  /-- What it is for. -/
  kind : StatementKind
  /-- The text. -/
  sql : String
  /-- The values of its parameters. -/
  binds : List String
  deriving DecidableEq, Repr, Inhabited

/-- Content as bytes. -/
abbrev Bytes := List UInt8

/-- A result, or the text of the error in its place. -/
abbrev Reply (α : Type) := Except String α

/-- A recorded database. -/
structure Recording where
  /-- The columns. -/
  columns : Reply (List ColumnRow) := .ok []
  /-- The annotation rows. -/
  annotations : Reply (List AnnotationRow) := .ok []
  /-- The results of root fields that are left. -/
  results : List (Reply (List Json)) := []
  /-- The contents of blobs that are left; there may be none behind an id. -/
  blobs : List (Reply (Option Bytes)) := []
  /-- The statements so far, the first one first. -/
  sent : List Statement := []

namespace Recording

/-- Keeps a statement. -/
def note (s : Statement) : StateM Recording Unit :=
  modify fun r => { r with sent := r.sent ++ [s] }

/-- Answers the statement that lists columns. -/
def listColumns (s : Statement) : StateM Recording (Reply (List ColumnRow)) := do
  note s
  return (← get).columns

/-- Answers the statement that lists annotation rows. -/
def listAnnotations (s : Statement) : StateM Recording (Reply (List AnnotationRow)) := do
  note s
  return (← get).annotations

/-- Answers a statement for a root field. When no result is left there are no rows. -/
def rows (s : Statement) : StateM Recording (Reply (List Json)) := do
  note s
  let r ← get
  match r.results with
  | [] => return .ok []
  | first :: rest =>
    set { r with results := rest }
    return first

/-- Answers a statement for the content of a blob. When no result is left there is none. -/
def content (s : Statement) : StateM Recording (Reply (Option Bytes)) := do
  note s
  let r ← get
  match r.blobs with
  | [] => return .ok none
  | first :: rest =>
    set { r with blobs := rest }
    return first

end Recording

/-- Reads a column. -/
def ColumnRow.ofJson? (j : Json) : Option ColumnRow := do
  let ms ← j.asObject?
  some {
    table := ← Json.member ms "table_name" Json.asString?
    column := ← Json.member ms "column_name" Json.asString?
    dataType := ← Json.member ms "data_type" Json.asString?
    nullable := ← Json.member ms "nullable" Json.asBool?
    primary := ← Json.member ms "primary" Json.asBool?
    foreignTable := ← Json.memberOr ms "foreign_table" (Json.decodeOption Json.asString?) none
    foreignColumn := ← Json.memberOr ms "foreign_column" (Json.decodeOption Json.asString?) none }

/-- Reads a result or an error in its place. -/
def Reply.ofJson? {α : Type} (f : Json → Option α) : Json → Option (Reply α)
  | .obj ms => do
    let text ← Json.member ms "error" Json.asString?
    some (.error text)
  | j => (f j).map .ok

/-- Reads a byte. -/
def byte? : Json → Option UInt8
  | .num (.int i) => if 0 ≤ i ∧ i < 256 then some i.toNat.toUInt8 else none
  | _ => none

/-- Reads the content of a blob: that of the only row, if there is one and it has a value. -/
def content? : Json → Option (Option Bytes)
  | .arr [] => some none
  | .arr [.null] => some none
  | .arr [j] => (Json.decodeList byte? j).map some
  | _ => none

/-- Reads a recorded database. Any part of it may be missing. -/
def Recording.ofMembers? (ms : Members Json) : Option Recording := do
  let part := fun {α : Type} (name : String) (f : Json → Option α) (missing : α) =>
    Json.memberOr ms name (fun j => if j.isNull then some missing else f j) missing
  let replies := fun {α : Type} (f : Json → Option α) => Json.decodeList (Reply.ofJson? f)
  some {
    columns := ← part "columns" (Reply.ofJson? (Json.decodeList ColumnRow.ofJson?)) (.ok [])
    annotations :=
      ← part "annotations" (Reply.ofJson? (Json.decodeList AnnotationRow.ofJson?)) (.ok [])
    results := ← part "results" (replies Json.asArray?) []
    blobs := ← part "blobs" (replies content?) [] }

end TableGraph
