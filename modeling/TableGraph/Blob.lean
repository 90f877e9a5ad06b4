import TableGraph.Text.Base64
import TableGraph.Text.Utf8
import TableGraph.Text.Blank
import TableGraph.Json.Skipping
import TableGraph.Json.Printer

/-!
# Blob links

The content of a blob column is fetched by a link. Its id is the URL-safe Base64 form of a record
that names table, column, primary key column and primary key. An id read back may have blanks around
it. Its record may hold further members, whose values are skipped, but each of the four just once, or be
the array of the four values.
-/

namespace TableGraph

/-- What a blob link names. -/
structure BlobId where
  /-- The table. -/
  table : String
  /-- The column. -/
  field : String
  /-- The primary key column. -/
  primaryField : String
  /-- The primary key of the row. -/
  primaryKey : Json
  deriving Repr, Inhabited

/-- Why an id is refused. -/
inductive BlobFault where
  /-- The text is no Base64 form. -/
  | encoding
  /-- The bytes are not the record. -/
  | record
  deriving DecidableEq, Repr

namespace BlobId

/-- The record of an id. -/
def toJson (id : BlobId) : Json :=
  .obj [("table", .str id.table), ("field", .str id.field),
    ("primaryField", .str id.primaryField), ("primaryKey", id.primaryKey)]

/-- The text of an id. -/
def encode (id : BlobId) : String :=
  String.ofList (Text.Base64.encode Text.Base64.urlSafe (Text.utf8 id.toJson.text))

/-- The link of an id on an address, without the slashes at the end of the address. -/
def link (id : BlobId) (base : String) : String :=
  String.ofList (base.toList.reverse.dropWhile (· = '/')).reverse ++ "/blobs?id=" ++ id.encode

/-- The primary key as text: a string as it is, any other value as JSON. -/
def keyText (id : BlobId) : String :=
  match id.primaryKey with
  | .str s => s
  | other => other.text

/-- The id of four values. -/
def ofValues? : List Json → Option BlobId
  | [.str table, .str field, .str primaryField, primaryKey] =>
    some ⟨table, field, primaryField, primaryKey⟩
  | _ => none

/-- The names of the members in order. -/
def memberNames : List String := ["table", "field", "primaryField", "primaryKey"]

/-- The value of the only member with a name. -/
def single? (ms : List (String × Json)) (name : String) : Option Json :=
  match ms.filter fun m => m.1 = name with
  | [m] => some m.2
  | _ => none

/-- The id of the members of a record, each of the four written once. -/
def ofMembers? (ms : List (String × Json)) : Option BlobId := do
  ofValues? (← memberNames.mapM (single? ms))

/-- The id of a record's bytes. -/
def ofBytes? (bytes : List UInt8) : Option BlobId :=
  match Json.parseMembers? memberNames bytes with
  | some ms => ofMembers? ms
  | none => match (Text.ofUtf8? bytes).bind Json.parse? with
    | some (.arr values) => ofValues? values
    | _ => none

/-- The id a text encodes. -/
def decode (text : String) : Except BlobFault BlobId :=
  match Text.Base64.decode Text.Base64.urlSafe (Text.trimChars text.toList) with
  | none => .error .encoding
  | some bytes =>
    match ofBytes? bytes with
    | some id => .ok id
    | none => .error .record

end BlobId

end TableGraph
