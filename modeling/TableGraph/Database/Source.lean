import TableGraph.Database.Recording
import TableGraph.Catalog.Statement
import TableGraph.Config.Basic
import TableGraph.Sql.Postgres
import TableGraph.Graph.Backend
import TableGraph.Blob
import TableGraph.Graph.TypeSystem

/-!
# Databases as sources

The tables of a database with their annotations, the rows behind its root fields, the links to its
blobs and their content. All of it follows a configuration; tables that are not shown are not read,
and their blobs are not either.
-/

namespace TableGraph

/-- Why a database gives no result. -/
inductive SourceFault where
  /-- It has answered with an error. -/
  | database (text : String)
  /-- A row is no object. -/
  | notAnObject (row : Json)

/-- The text of a fault. -/
def SourceFault.message : SourceFault → String
  | .database text => "error returned from database: " ++ text
  | .notAnObject row => "expected a JSON object row, got " ++ row.text

/-- The texts of what caused a fault. -/
def SourceFault.causes : SourceFault → List String
  | .database text => [text]
  | .notAnObject _ => []

/-- Why no content is read. -/
inductive ContentFault where
  /-- The id is refused. -/
  | id (fault : BlobFault)
  /-- The table is not shown. -/
  | hidden (table : String)
  /-- The database gives no result. -/
  | source (fault : SourceFault)

/-- The text of a fault. -/
def ContentFault.message : ContentFault → String
  | .id .encoding => "invalid blob id"
  | .id .record => "invalid blob record"
  | .hidden table => "table '" ++ table ++ "' is not exposed"
  | .source fault => fault.message

/-- The texts of what caused a fault. -/
def ContentFault.causes : ContentFault → List String
  | .source fault => fault.causes
  | _ => []

/-- A reply with its error as a fault. -/
def Reply.toSource {α : Type} (r : Reply α) : Except SourceFault α := r.mapError .database

namespace Source

/-- The shown tables that the catalogue lists. -/
def shownTables (c : SchemaConfig) (rows : List ColumnRow) : List Table :=
  (Table.ofColumns rows).filter fun t => c.allows t.name

/-- The statement that lists columns. -/
def columnsStatement (c : SchemaConfig) : Statement :=
  ⟨.columns, Catalog.columnsStatement, [c.dbSchema]⟩

/-- The statement that lists annotation rows. -/
def annotationsStatement (c : AnnotationsConfig) : Statement :=
  ⟨.annotations, Catalog.annotationsStatement c, []⟩

/-- The tables of a database with their annotations. Annotations that cannot be read are left out. -/
def tables (c : Config) : StateM Recording (Except SourceFault (List Table)) := do
  match ← Recording.listColumns (columnsStatement c.schema) with
  | .error text => return .error (.database text)
  | .ok rows =>
    let shown := shownTables c.schema rows
    if c.annotations.enabled then
      let annotations ← Recording.listAnnotations (annotationsStatement c.annotations)
      return .ok (Table.enrich shown annotations.toOption)
    else return .ok shown

/-- The dialect of a database. -/
def dialect (c : Config) : Dialect := Postgres.dialect c.schema.dbSchema

/-- The statement for a root field. -/
def rootStatement (c : Config) (p : Plan) : Statement := ⟨.root, p.rowObjects (dialect c), []⟩

/-- The rows of a result, if all of them are objects. -/
def objects : List Json → Except SourceFault (List Row)
  | [] => .ok []
  | .obj row :: rest => do
    let rows ← objects rest
    return row :: rows
  | other :: _ => .error (.notAnObject other)

/-- The rows behind a plan. -/
def fetch (c : Config) (p : Plan) : StateM Recording (Except SourceFault (List Row)) := do
  let reply ← Recording.rows (rootStatement c p)
  return reply.toSource >>= objects

/-- The link to the content of a column in a row that came with its parent. Without a primary key
there is none. -/
def blobLink (c : BlobConfig) (parent : Option ObjectType) (f : FieldDef) (row : Json) : Json :=
  match parent, f.column, parent.bind (·.primary), row.member? keyMember with
  | some o, some column, some primary, some key =>
    .str (BlobId.link ⟨o.table, column, primary, key⟩ c.linkBase)
  | _, _, _, _ => .null

/-- The value of a field that came with its parent. Where there is content the link to it is given. -/
def held (c : Config) (parent : Option ObjectType) (f : FieldDef) (row : Json) (key : String)
    (args : Members Json) : Except RequestError Json :=
  if f.kind = .scalar .url then
    match row.member? key with
    | some (.bool true) => .ok (blobLink c.blobs parent f row)
    | _ => .ok .null
  else Page.ofSource row key args

/-- A database as what a graph is answered from. -/
def backend (c : Config) : Backend Recording where
  dialect := dialect c
  fetch := fun p => do return (← fetch c p).mapError SourceFault.message
  held := held c

/-- The graph of a database. -/
def graph (c : Config) : StateM Recording (Except SchemaError Graph) := do
  return Graph.create ((← tables c).mapError SourceFault.message)

/-- The statement for the content of a blob. -/
def blobStatement (c : SchemaConfig) (id : BlobId) : Statement :=
  ⟨.blob, "SELECT " ++ Catalog.quoteIdentifier id.field ++ " AS data FROM "
    ++ Postgres.tableRef c.dbSchema id.table ++ " WHERE "
    ++ Catalog.quoteIdentifier id.primaryField ++ "::text = $1", [id.keyText]⟩

/-- The content behind an id, if there is any. -/
def content (c : SchemaConfig) (id : String) :
    StateM Recording (Except ContentFault (Option Bytes)) :=
  match BlobId.decode id with
  | .error fault => return .error (.id fault)
  | .ok id =>
    if c.allows id.table then do
      return (← Recording.content (blobStatement c id)).mapError fun text => .source (.database text)
    else return .error (.hidden id.table)

end Source

end TableGraph
