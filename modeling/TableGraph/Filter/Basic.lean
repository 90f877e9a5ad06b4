import TableGraph.Sql.Dialect
import TableGraph.Text.Joined

/-!
# Filters

A filter is a conjunction: groups of conditions on columns, one condition that a column has no
value, and three lists of filters of which none, any and all must hold. Its text is a boolean
expression of the dialect. Conditions that the dialect does not know and filters that say nothing
are left out of it.
-/

namespace TableGraph

/-- A comparison of a column with a value, if there is one. -/
structure Condition where
  /-- How the column is compared. -/
  comparison : Comparison
  /-- The column. -/
  field : Field
  /-- The value. -/
  value : Option Json

/-- A filter on the rows of a table. -/
inductive Filter where
  /-- A conjunction of everything it holds. -/
  | node (groups : List (List Condition)) (missing : Option Field)
      (noneOf anyOf allOf : List Filter)

namespace Filter

/-- The filter that says nothing. -/
def empty : Filter := .node [] none [] [] []

/-- The texts that are not empty. -/
def spoken (texts : List String) : List String := texts.filter (· ≠ "")

/-- The text of a condition on an alias. -/
def conditionText (d : Dialect) (table : String) (c : Condition) : String :=
  d.condition c.comparison table c.field c.value

/-- Texts joined inside parentheses behind `lead`; nothing when there are none. -/
def enclosed (lead separator : String) (texts : List String) : List String :=
  if texts = [] then [] else [lead ++ "(" ++ Text.joined separator texts ++ ")"]

/-- The texts of the groups of conditions. -/
def groupTexts (d : Dialect) (table : String) (groups : List (List Condition)) : List String :=
  groups.flatMap fun g => enclosed "" " AND " (spoken (g.map (conditionText d table)))

/-- The text that a column has no value. -/
def missingTexts (d : Dialect) (table : String) : Option Field → List String
  | some f => [d.column table f.name ++ " IS NULL"]
  | none => []

mutual

/-- The texts whose conjunction the filter is. -/
def parts (d : Dialect) (table : String) : Filter → List String
  | .node groups missing noneOf anyOf allOf =>
    groupTexts d table groups ++ missingTexts d table missing
      ++ enclosed "NOT " " AND " (texts d table noneOf)
      ++ enclosed "" " OR " (texts d table anyOf)
      ++ enclosed "" " AND " (texts d table allOf)

/-- The texts of the filters that say something. -/
def texts (d : Dialect) (table : String) : List Filter → List String
  | [] => []
  | f :: fs => spoken [Text.joined " AND " (parts d table f)] ++ texts d table fs

end

/-- The text of a filter on an alias. -/
def text (d : Dialect) (table : String) (f : Filter) : String :=
  Text.joined " AND " (f.parts d table)

end Filter

end TableGraph
