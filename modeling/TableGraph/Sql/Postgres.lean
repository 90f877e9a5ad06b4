import TableGraph.Sql.Dialect
import TableGraph.Json.Printer
import TableGraph.Catalog.Statement

/-!
# The Postgres dialect

Identifiers stand between double quotes and tables are named with their schema. Rows are told apart
by their place in the table. Texts stand between single quotes, with the quotes inside doubled, and
dates are compared as time stamps.
-/

namespace TableGraph.Postgres

/-- The literal of a value. Arrays, objects and `null` have none. -/
def literal? : Json → Option String
  | .str s => some (Text.delimited '\'' s)
  | .num n => some n.text
  | .bool true => some "TRUE"
  | .bool false => some "FALSE"
  | .null => none
  | .arr _ => none
  | .obj _ => none

/-- The expression as a time stamp when the column holds dates. -/
def asStamp (f : Field) (expression : String) : String :=
  if f.type = .date then "CAST(" ++ expression ++ " AS TIMESTAMP)" else expression

/-- The comparison of an expression with a literal. -/
def compare (c : Comparison) (column literal : String) : String :=
  match c with
  | .equals => column ++ " = " ++ literal
  | .contains => "STRPOS(LOWER(" ++ column ++ "), LOWER(" ++ literal ++ ")) > 0"
  | .begins => "LEFT(" ++ column ++ ", LENGTH(" ++ literal ++ ")) = " ++ literal
  | .ends => "RIGHT(" ++ column ++ ", LENGTH(" ++ literal ++ ")) = " ++ literal
  | .greater => column ++ " > " ++ literal
  | .less => column ++ " < " ++ literal
  | .isEmpty => column ++ " = ''"

/-- A condition on a column. Without a literal only the test for the empty text is left. -/
def condition (c : Comparison) (table : String) (f : Field) (value : Option Json) : String :=
  let column := asStamp f (table ++ "." ++ Catalog.quoteIdentifier f.name)
  if c = .isEmpty then compare .isEmpty column ""
  else match value.bind literal? with
    | some l => compare c column (asStamp f l)
    | none => ""

/-- The name of a table in a schema. -/
def tableRef (schema table : String) : String :=
  Catalog.quoteIdentifier schema ++ "." ++ Catalog.quoteIdentifier table

/-- The dialect for the tables of a schema. -/
def dialect (schema : String) : Dialect where
  quote := Catalog.quoteIdentifier
  tableRef := tableRef schema
  rowIdentity := fun table => some (table ++ ".ctid::text")
  condition := condition

end TableGraph.Postgres
