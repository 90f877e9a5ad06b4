import TableGraph.Plan.Basic
import TableGraph.Sql.Dialect
import TableGraph.Text.Joined

/-!
# The statement of a plan

The text of the statement that fetches a plan. Occurrences are introduced, read and ordered depth
first. The filter of the root stands behind `WHERE`; those of the joins are part of their conditions.
-/

namespace TableGraph

/-- A labelled expression. -/
def Dialect.labelled (d : Dialect) (expression label : String) : String :=
  expression ++ " AS " ++ d.quote label

/-- The expression for a selected column. -/
def ColumnSelect.expression (d : Dialect) (aliasName : String) (c : ColumnSelect) : String :=
  if c.presence then "(" ++ d.column aliasName c.column ++ " IS NOT NULL)"
  else d.column aliasName c.column

/-- What is read from an occurrence: its primary key, or else what tells its rows apart, and its
columns. -/
def Occurrence.selects (d : Dialect) (o : Occurrence) : List String :=
  (match o.primary with
    | some column => [d.labelled (d.column o.aliasName column) o.keyLabel]
    | none => match d.rowIdentity o.aliasName with
      | some expression => [d.labelled expression o.rowLabel]
      | none => [])
    ++ (o.identity.map fun (column, label) => d.labelled (d.column o.aliasName column) label)
    ++ o.columns.map fun c => d.labelled (c.expression d o.aliasName) c.label

/-- The terms an occurrence is ordered by. -/
def Occurrence.terms (d : Dialect) (o : Occurrence) : List String :=
  o.order.map fun (column, direction) => d.column o.aliasName column ++ " " ++ direction.sql

namespace Plan

mutual

/-- Everything that is read. -/
def selectList (d : Dialect) : Plan → List String
  | .node head joins => head.selects d ++ joinSelects d joins

/-- Everything that is read from joins. -/
def joinSelects (d : Dialect) : List (JoinHead × Plan) → List String
  | [] => []
  | (_, p) :: rest => selectList d p ++ joinSelects d rest

end

mutual

/-- The joins below a plan. -/
def joinClauses (d : Dialect) : Plan → String
  | .node _ joins => joinTexts d joins

/-- The texts of joins. -/
def joinTexts (d : Dialect) : List (JoinHead × Plan) → String
  | [] => ""
  | (j, p) :: rest =>
    " LEFT JOIN " ++ d.tableRef p.head.table ++ " " ++ p.head.aliasName ++ " ON " ++ j.condition
      ++ joinClauses d p ++ joinTexts d rest

end

/-- The root table followed by every join. -/
def fromClause (d : Dialect) (p : Plan) : String :=
  d.tableRef p.head.table ++ " " ++ p.head.aliasName ++ joinClauses d p

mutual

/-- Everything that is ordered by, from the root on. -/
def orderTerms (d : Dialect) : Plan → List String
  | .node head joins => head.terms d ++ joinTerms d joins

/-- Everything that joins are ordered by. -/
def joinTerms (d : Dialect) : List (JoinHead × Plan) → List String
  | [] => []
  | (_, p) :: rest => orderTerms d p ++ joinTerms d rest

end

/-- A text behind a lead; nothing for the empty text. -/
def clause (lead text : String) : String := if text = "" then "" else lead ++ text

/-- The statement of a plan. -/
def sql (d : Dialect) (p : Plan) : String :=
  "SELECT " ++ Text.joined ", " (p.selectList d) ++ " FROM " ++ p.fromClause d
    ++ clause " WHERE " p.head.filter
    ++ clause " ORDER BY " (Text.joined ", " (p.orderTerms d))

/-- The statement of a plan with its rows numbered in order, each as one JSON object. -/
def rowObjects (d : Dialect) (p : Plan) : String :=
  "SELECT row_to_json(q) AS row FROM (SELECT " ++ Text.joined ", " (p.selectList d)
    ++ ", row_number() OVER (" ++ clause "ORDER BY " (Text.joined ", " (p.orderTerms d))
    ++ ") AS \"$row\" FROM " ++ p.fromClause d ++ clause " WHERE " p.head.filter
    ++ ") q ORDER BY q.\"$row\""

end Plan

end TableGraph
