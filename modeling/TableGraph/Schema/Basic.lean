import TableGraph.Schema.TypeRef
import TableGraph.Table.Shape
import TableGraph.Json.Basic

/-!
# The schema of a graph

The types a set of tables is shown as: an object for each table and for each annotated group, a
connection for each table, inputs and enumerations for filters and orderings, and a root field for
each table. Types refer to each other by name, so tables may refer to each other in a circle.
-/

namespace TableGraph

/-- What a field leads to. -/
inductive FieldKind where
  /-- The value of a column. -/
  | scalar (type : Scalar)
  /-- A page of the rows of a table, given by the name of its object type. -/
  | link (node : String)
  /-- An annotated group of the same row, given by the name of its object type. -/
  | group (object : String)
  deriving DecidableEq, Repr, Inhabited

/-- The name of the connection type of an object type. -/
def connectionName (node : String) : String := node ++ "Connection"

/-- The name of the edge type of an object type. -/
def edgeName (node : String) : String := node ++ "Edge"

/-- The name of the type a field leads to. -/
def FieldKind.typeName : FieldKind → String
  | .scalar type => type.typeName
  | .link node => connectionName node
  | .group object => object

/-- The columns on which parent and child row agree. -/
structure JoinKey where
  /-- The column of the parent. -/
  parent : String
  /-- The column of the child. -/
  child : String
  deriving DecidableEq, Repr, Inhabited

/-- A field of an object type or of the root. -/
structure FieldDef where
  /-- The name. -/
  name : String
  /-- The description; empty for none. -/
  description : String
  /-- What the field leads to. -/
  kind : FieldKind
  /-- Whether there is always a value. -/
  nonNull : Bool
  /-- The arguments with their types. -/
  args : List (String × TypeRef)
  /-- The column the field is read from. -/
  column : Option String
  /-- How the rows behind the field are joined to their parent. -/
  join : Option JoinKey
  /-- The table whose columns filter and ordering of the field speak of. -/
  shape : Shape
  deriving DecidableEq, Repr, Inhabited

/-- The type of a field. -/
def FieldDef.type (f : FieldDef) : TypeRef := .ofName f.kind.typeName f.nonNull

/-- An object type: a table, or an annotated group of a table. -/
structure ObjectType where
  /-- The name. -/
  name : String
  /-- The table of the rows. -/
  table : String
  /-- The primary key column. -/
  primary : Option String
  /-- The description. -/
  description : Option String
  /-- The fields by name, in order. -/
  fields : Members FieldDef
  deriving DecidableEq, Repr, Inhabited

/-- A member of an input type. -/
structure InputField where
  /-- The name. -/
  name : String
  /-- The type. -/
  type : TypeRef
  /-- The description. -/
  description : Option String
  deriving DecidableEq, Repr, Inhabited

/-- An input type. -/
structure InputType where
  /-- The name. -/
  name : String
  /-- The members in order. -/
  fields : List InputField
  deriving DecidableEq, Repr, Inhabited

/-- An enumeration with the descriptions of its values. -/
structure EnumType where
  /-- The name. -/
  name : String
  /-- The values in order. -/
  values : List (String × Option String)
  deriving DecidableEq, Repr, Inhabited

/-- The types made so far, by name and in the order in which they were made. -/
structure Registry where
  /-- Object types. -/
  objects : Members ObjectType := []
  /-- The object types that have a connection. -/
  connections : List String := []
  /-- Input types. -/
  inputs : Members InputType := []
  /-- Enumerations. -/
  enums : Members EnumType := []
  deriving DecidableEq, Repr, Inhabited

/-- The schema of a graph. -/
structure Schema where
  /-- The root fields by name, one for each table. -/
  root : Members FieldDef
  /-- The types. -/
  types : Registry
  /-- The tables that are shown. -/
  tables : List Shape
  deriving DecidableEq, Repr, Inhabited

/-- What keeps a type out of the query language. -/
inductive SchemaFault where
  /-- A name that is kept for the language. -/
  | reservedName (type field : String)
  /-- A field whose type cannot be answered. -/
  | notAnOutput (type field : String)
  /-- An argument or member whose type cannot be given. -/
  | notAnInput (type field : String)
  deriving DecidableEq, Repr

/-- The text of a fault. -/
def SchemaFault.message : SchemaFault → String
  | .reservedName type field =>
    "Field \"" ++ type ++ "." ++ field
      ++ "\" must not have a name which begins with the characters \"__\" (two underscores)"
  | .notAnOutput type field => "Field \"" ++ type ++ "." ++ field ++ "\" must return a output type"
  | .notAnInput type field => "Field \"" ++ type ++ "." ++ field ++ "\" must accept a input type"

/-- Why there is no schema to answer with. -/
inductive SchemaError where
  /-- The tables could not be read. -/
  | metadata (reason : String)
  /-- No table can be shown. -/
  | noTables
  /-- A table has annotated groups but no column to join them on. -/
  | missingPrimaryKey (table : String)
  /-- A type does not fit the query language. -/
  | unfit (fault : SchemaFault)
  /-- The schema is not there yet, or no more. -/
  | unavailable (reason : String)
  deriving DecidableEq, Repr

/-- The text of an error. -/
def SchemaError.message : SchemaError → String
  | .metadata reason => "failed to read database metadata: " ++ reason
  | .noTables => "no tables found in database"
  | .missingPrimaryKey table =>
    "table " ++ table ++ " has annotated field groups but no primary field to join them on"
  | .unfit fault => "failed to assemble executable schema: " ++ fault.message
  | .unavailable reason => "temporarily unavailable: " ++ reason

/-- A text that is not empty. -/
def nonEmpty? (s : String) : Option String := if s = "" then none else some s

end TableGraph
