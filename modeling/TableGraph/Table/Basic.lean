import TableGraph.Text.Joined
import TableGraph.Decimal.Digits

/-!
# Tables

What is known of a database: its tables, their columns with keys and references, and the semantic
annotations laid over them. An index is a key word; a ref assigns a column to an annotated group.
-/

namespace TableGraph

/-- The types a column may have. -/
inductive ColumnType where
  /-- True or false. -/
  | boolean
  /-- Text. -/
  | string
  /-- Whole numbers. -/
  | int
  /-- Numbers with a fraction. -/
  | float
  /-- Dates and times. -/
  | date
  /-- Binary content. -/
  | blob
  deriving DecidableEq, Repr, Inhabited

namespace ColumnType

/-- Every type. -/
def all : List ColumnType := [.boolean, .string, .int, .float, .date, .blob]

/-- The word for a type. -/
def key : ColumnType → String
  | .boolean => "boolean"
  | .string => "string"
  | .int => "int"
  | .float => "float"
  | .date => "date"
  | .blob => "blob"

/-- The type a word stands for. -/
def ofKey? (k : String) : Option ColumnType := all.find? fun t => t.key = k

/-- Whether the values are texts. -/
def isString : ColumnType → Bool
  | .string => true
  | _ => false

/-- Whether the values have an order that filters may use. -/
def isOrdered : ColumnType → Bool
  | .date | .int | .float => true
  | _ => false

end ColumnType

/-- The identity of an annotated group: a number and a text of the same digits differ. -/
inductive RefId where
  /-- A number. -/
  | number (value : Int)
  /-- A text. -/
  | text (value : String)
  deriving DecidableEq, Repr, Inhabited

/-- The text of a ref id. -/
def RefId.label : RefId → String
  | .number n => String.ofList (Decimal.signed n)
  | .text s => s

/-- The assignment of a column to a group, with the key words of the group. -/
structure Ref where
  /-- The group. -/
  id : RefId
  /-- The name of the group. -/
  name : Option String
  /-- Key words. -/
  indices : List String
  deriving DecidableEq, Repr, Inhabited

/-- A column of a table. -/
structure Field where
  /-- Identity of the column among all columns. -/
  id : String
  /-- Name in the database. -/
  name : String
  /-- Whether the column alone is the primary key. -/
  primary : Bool
  /-- Type of the values. -/
  type : ColumnType
  /-- Whether every row has a value. -/
  nonNull : Bool
  /-- The table a reference points to. -/
  tableRef : Option String
  /-- The column a reference points to. -/
  fieldRef : Option String
  /-- Key words. -/
  indices : List String
  /-- The groups the column belongs to. -/
  refs : List Ref
  deriving DecidableEq, Repr, Inhabited

/-- A table with its columns in order. -/
structure Table where
  /-- Identity of the table. -/
  id : String
  /-- Name in the database. -/
  name : String
  /-- Key words. -/
  indices : List String
  /-- The columns. -/
  fields : List Field
  deriving DecidableEq, Repr, Inhabited

/-- A name, if there is one, and key words, joined by commas. A comma is left out while nothing
stands in front of it. -/
def describe (name : Option String) (indices : List String) : String :=
  indices.foldl (fun out key => (if out = "" then out else out ++ ",") ++ key) (name.getD "")

/-- The key words of a ref. -/
def Ref.description (r : Ref) : String := describe none r.indices

namespace Field

/-- The identity of a column. -/
def idOf (table field : String) : String := table ++ "_" ++ field

/-- A plain column of a table. -/
def plain (table name : String) (type : ColumnType) : Field :=
  ⟨idOf table name, name, false, type, false, none, none, [], []⟩

/-- Makes the column the primary key. -/
def asPrimary (f : Field) : Field := { f with primary := true, nonNull := true }

/-- Requires a value in every row. -/
def required (f : Field) : Field := { f with nonNull := true }

/-- Makes the column a reference. -/
def references (f : Field) (table field : String) : Field :=
  { f with tableRef := some table, fieldRef := some field }

/-- Assigns the column to one more group. -/
def withRef (f : Field) (r : Ref) : Field := { f with refs := f.refs ++ [r] }

/-- Adds a key word. -/
def withIndex (f : Field) (key : String) : Field := { f with indices := f.indices ++ [key] }

/-- The name and key words of the column. -/
def description (f : Field) : String := describe (some f.name) f.indices

/-- Whether the column belongs to a group. -/
def hasRef (f : Field) (id : RefId) : Bool := f.refs.any fun r => r.id = id

end Field

namespace Table

/-- A table without columns. -/
def empty (name : String) : Table := ⟨name, name, [], []⟩

/-- Adds a column at the end. -/
def withField (t : Table) (f : Field) : Table := { t with fields := t.fields ++ [f] }

/-- Adds a key word. -/
def withIndex (t : Table) (key : String) : Table := { t with indices := t.indices ++ [key] }

/-- The name and key words of the table. -/
def description (t : Table) : String := describe (some t.name) t.indices

/-- The first column that is the primary key. -/
def primaryField? (t : Table) : Option Field := t.fields.find? (·.primary)

/-- The first column of a name. -/
def field? (t : Table) (name : String) : Option Field := t.fields.find? fun f => f.name = name

end Table

end TableGraph
