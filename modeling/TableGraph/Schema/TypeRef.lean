import TableGraph.Table.Basic

/-!
# Types of the graph

References to types, and the scalar types that columns are shown as.
-/

namespace TableGraph

/-- A reference to a type. -/
inductive TypeRef where
  /-- A type by its name. -/
  | named (name : String)
  /-- A list of values of a type. -/
  | list (item : TypeRef)
  /-- A type without `null`. -/
  | nonNull (of : TypeRef)
  deriving DecidableEq, Repr, Inhabited

namespace TypeRef

/-- The text of a reference. -/
def text : TypeRef → String
  | .named name => name
  | .list item => "[" ++ item.text ++ "]"
  | .nonNull of => of.text ++ "!"

/-- The name of the type at the core of a reference. -/
def core : TypeRef → String
  | .named name => name
  | .list item => item.core
  | .nonNull of => of.core

/-- A named type, with or without `null`. -/
def ofName (name : String) (required : Bool) : TypeRef :=
  if required then .nonNull (.named name) else .named name

end TypeRef

/-- The scalar types of the graph. -/
inductive Scalar where
  /-- True or false. -/
  | boolean
  /-- Text. -/
  | string
  /-- Whole numbers. -/
  | int
  /-- Numbers with a fraction. -/
  | float
  /-- Dates and times. -/
  | date
  /-- Links to binary content. -/
  | url
  deriving DecidableEq, Repr, Inhabited

namespace Scalar

/-- Every scalar type. -/
def all : List Scalar := [.boolean, .string, .int, .float, .date, .url]

/-- The scalar type a column is shown as; content is shown as a link. -/
def ofColumn : ColumnType → Scalar
  | .blob => .url
  | .int => .int
  | .float => .float
  | .date => .date
  | .boolean => .boolean
  | .string => .string

/-- The name of a scalar type. -/
def typeName : Scalar → String
  | .boolean => "Boolean"
  | .string => "String"
  | .int => "Int"
  | .float => "Float"
  | .date => "Date"
  | .url => "Url"

end Scalar

end TableGraph
