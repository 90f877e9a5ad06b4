import TableGraph.Plan.Basic
import TableGraph.Json.Printer
import TableGraph.Page.Connection
import TableGraph.Listing

/-!
# Rows as objects

The flat rows of a statement are folded back into nested objects. Rows belong to one object when the
values that identify it agree: the primary key, or else the expression that tells rows apart, or else
the identifying and selected columns. An occurrence of which all these values are `null` is a join
without a match and has no object. The values of an object are those of its first row.
-/

namespace TableGraph

/-- A row by labels. -/
abbrev Row := Members Json

/-- A value of a row; what is not there is `null`. -/
def Row.value (row : Row) (label : String) : Json := (Members.get? row label).getD .null

/-- The key under which an object holds its primary key. -/
def keyMember : String := "$pk"

namespace Occurrence

/-- The values that identify the object of a row. -/
def identifying (o : Occurrence) (row : Row) : List Json :=
  match o.primary with
  | some _ => [Row.value row o.keyLabel]
  | none =>
    let rowId := Row.value row o.rowLabel
    if !rowId.isNull then [rowId]
    else (o.identity.map (·.2) ++ o.columns.map (·.label)).map (Row.value row)

/-- The text that identifies the object of a row, if the row has one. -/
def identityOf? (o : Occurrence) (row : Row) : Option String :=
  let values := o.identifying row
  if values.all Json.isNull then none else some (Json.arr values).text

/-- The rows of each object, in the order of first appearance. -/
def groupRows (o : Occurrence) (rows : List Row) : List (String × List Row) :=
  rows.foldl (fun groups row =>
    match o.identityOf? row with
    | none => groups
    | some key => upsert (fun g => g.1 = key) (key, []) (fun g => (g.1, g.2 ++ [row])) groups) []

/-- The members that an object has of its own, by its first row. -/
def ownMembers (o : Occurrence) (rows : List Row) : List (String × Json) :=
  let first := rows.head?.getD []
  (match o.primary with
    | some _ => [(keyMember, Row.value first o.keyLabel)]
    | none => [])
    ++ o.columns.map fun c => (c.key, Row.value first c.label)

end Occurrence

/-- The children of a join as one value. -/
def JoinHead.value (j : JoinHead) (children : List Json) : Json :=
  match j.cardinality with
  | .many => .arr children
  | .one => children.head?.getD .null

namespace Plan

mutual

/-- The objects in the rows of a plan. -/
def hydrate : Plan → List Row → List Json
  | .node head joins, rows =>
    (head.groupRows rows).map fun g =>
      .obj (Members.ofList (head.ownMembers g.2 ++ hydrateJoins joins g.2))

/-- The members for the joins of an object, from its rows. -/
def hydrateJoins : List (JoinHead × Plan) → List Row → List (String × Json)
  | [], _ => []
  | (j, p) :: rest, rows => (j.key, j.value (hydrate p rows)) :: hydrateJoins rest rows

end

/-- The rows of a root field as a page. -/
def resolve (p : Plan) (rows : List Row) (args : Members Json) : Except RequestError Json :=
  Page.connect (p.hydrate rows) args

end Plan

end TableGraph
