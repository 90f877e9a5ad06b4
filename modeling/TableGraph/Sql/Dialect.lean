import TableGraph.Table.Basic
import TableGraph.Json.Basic

/-!
# Dialects

What differs from one database to another in the statements: how identifiers are quoted, how a table
is named, how a row is told from another one like it, and how a column is compared with a value.
-/

namespace TableGraph

/-- The ways in which a filter compares a column. -/
inductive Comparison where
  /-- The column has the value. -/
  | equals
  /-- The column is the empty text. -/
  | isEmpty
  /-- The column contains the text. -/
  | contains
  /-- The column begins with the text. -/
  | begins
  /-- The column ends with the text. -/
  | ends
  /-- The column is greater than the value. -/
  | greater
  /-- The column is less than the value. -/
  | less
  deriving DecidableEq, Repr, Inhabited

namespace Comparison

/-- Every comparison. -/
def all : List Comparison := [.equals, .isEmpty, .contains, .begins, .ends, .greater, .less]

/-- The word for a comparison in a filter. -/
def key : Comparison → String
  | .equals => "equals"
  | .isEmpty => "isEmpty"
  | .contains => "contains"
  | .begins => "begins"
  | .ends => "ends"
  | .greater => "greater"
  | .less => "less"

/-- The comparison a word stands for. -/
def ofKey? (k : String) : Option Comparison := all.find? fun c => c.key = k

end Comparison

/-- A dialect of the statements. -/
structure Dialect where
  /-- An identifier as it stands in a statement. -/
  quote : String → String
  /-- A table as it stands behind `FROM` and `JOIN`. -/
  tableRef : String → String
  /-- An expression that tells the rows of a table apart, given the alias of the table. -/
  rowIdentity : String → Option String
  /-- A comparison of a column of an alias, with a value if there is one. The empty text means that
  there is no such condition. -/
  condition : Comparison → String → Field → Option Json → String

/-- A column of an alias. -/
def Dialect.column (d : Dialect) (table column : String) : String :=
  table ++ "." ++ d.quote column

end TableGraph
