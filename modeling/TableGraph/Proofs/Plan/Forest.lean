import TableGraph.Plan.Hydrate
import TableGraph.Proofs.Json.Text
import TableGraph.Proofs.Members

/-!
# Objects behind the rows of a plan

The objects that a plan is about: each has a primary key, a value for each selected column, and a
list of objects for each join. Flattened by left joins, each object has one row for each choice of a
row from each of its joins; a join without objects gives the one row in which nothing is there.
-/

namespace TableGraph

/-- An object: its primary key, its values by the columns of its occurrence, and its children by the
joins. -/
inductive Entity where
  /-- An object with its values and children in order. -/
  | node (key : Json) (values : List Json) (children : List (List Entity))
  deriving Inhabited

namespace Entity

/-- The primary key. -/
def key : Entity → Json
  | .node key _ _ => key

/-- The values of the columns. -/
def values : Entity → List Json
  | .node _ values _ => values

/-- The children of each join. -/
def children : Entity → List (List Entity)
  | .node _ _ children => children

/-- An object is put together from its parts. -/
theorem eta : ∀ e : Entity, .node e.key e.values e.children = e
  | .node _ _ _ => rfl

mutual

/-- Objects that are the same but for the order of siblings at each level. -/
inductive SameForest : List Entity → List Entity → Prop
  /-- No objects. -/
  | nil : SameForest [] []
  /-- One more object on either side. -/
  | cons {e e' : Entity} {es es' : List Entity} (head : Same e e') (tail : SameForest es es') :
    SameForest (e :: es) (e' :: es')
  /-- Two siblings in the other order. -/
  | swap (e e' : Entity) (es : List Entity) : SameForest (e :: e' :: es) (e' :: e :: es)
  /-- One change after another. -/
  | trans {es es' es'' : List Entity} (first : SameForest es es') (second : SameForest es' es'') :
    SameForest es es''

/-- An object that is the same but for the order of siblings below it. -/
inductive Same : Entity → Entity → Prop
  /-- The same key and values, with the same children. -/
  | node (key : Json) (values : List Json) {children children' : List (List Entity)}
    (below : SameChildren children children') :
    Same (.node key values children) (.node key values children')

/-- Children that are the same for each join but for the order of siblings. -/
inductive SameChildren : List (List Entity) → List (List Entity) → Prop
  /-- No joins. -/
  | nil : SameChildren [] []
  /-- One more join. -/
  | cons {es es' : List Entity} {rest rest' : List (List Entity)} (head : SameForest es es')
    (tail : SameChildren rest rest') : SameChildren (es :: rest) (es' :: rest')

end

end Entity

namespace Occurrence

/-- The labels that are looked up in a row for an occurrence. -/
def labels (o : Occurrence) : List String :=
  (match o.primary with
    | some _ => [o.keyLabel]
    | none => o.rowLabel :: o.identity.map (·.2))
    ++ o.columns.map (·.label)

/-- The part of a row that shows an object. -/
def keyedRow (o : Occurrence) (key : Json) (values : List Json) : Row :=
  (o.keyLabel, key) :: (o.columns.zip values).map fun x => (x.1.label, x.2)

/-- The part of a row that shows no object: everything is `null`, and no content is present. -/
def emptyRow (o : Occurrence) : Row :=
  (o.keyLabel, .null)
    :: o.columns.map fun c => (c.label, if c.presence then .bool false else .null)

end Occurrence

namespace Plan

mutual

/-- The labels that are looked up in a row for a plan. -/
def labels : Plan → List String
  | .node head joins => head.labels ++ joinLabels joins

/-- The labels that are looked up in a row for joins. -/
def joinLabels : List (JoinHead × Plan) → List String
  | [] => []
  | (_, p) :: rest => labels p ++ joinLabels rest

end

mutual

/-- Every occurrence has a primary key, and the members of its objects have different names. -/
def Keyed : Plan → Prop
  | .node head joins =>
    head.primary.isSome
      ∧ (keyMember :: (head.columns.map (·.key) ++ joins.map (·.1.key))).Nodup ∧ JoinsKeyed joins

/-- Every occurrence of joins has a primary key and members with different names. -/
def JoinsKeyed : List (JoinHead × Plan) → Prop
  | [] => True
  | (_, p) :: rest => Keyed p ∧ JoinsKeyed rest

end

mutual

/-- Objects that fit a plan: siblings have different keys, and each has a value for each column and
children for each join. -/
def Holds : Plan → List Entity → Prop
  | .node head joins, es =>
    (es.map Entity.key).Nodup
      ∧ ∀ e ∈ es, e.key.IsKey ∧ e.values.length = head.columns.length ∧ JoinsHold joins e.children

/-- Children that fit joins: a group has at most one object. -/
def JoinsHold : List (JoinHead × Plan) → List (List Entity) → Prop
  | [], children => children = []
  | (j, p) :: rest, es :: children =>
    (j.cardinality = .one → es.length ≤ 1) ∧ Holds p es ∧ JoinsHold rest children
  | _ :: _, [] => False

end

mutual

/-- The part of a row in which nothing is there. -/
def emptyRow : Plan → Row
  | .node head joins => head.emptyRow ++ joinEmptyRow joins

/-- The part of a row in which nothing is there for joins. -/
def joinEmptyRow : List (JoinHead × Plan) → Row
  | [] => []
  | (_, p) :: rest => emptyRow p ++ joinEmptyRow rest

end

mutual

/-- The rows of objects under left joins: for each object one row for each choice of a row from each
of its joins, the first join outermost. -/
def leftJoin : Plan → List Entity → List Row
  | .node head joins, es =>
    es.flatMap fun e => (joinRows joins e.children).map fun r => head.keyedRow e.key e.values ++ r

/-- The rows of joins. A join without objects contributes one row in which nothing is there. -/
def joinRows : List (JoinHead × Plan) → List (List Entity) → List Row
  | (_, p) :: rest, es :: children =>
    (if es = [] then [emptyRow p] else leftJoin p es).flatMap fun a =>
      (joinRows rest children).map fun b => a ++ b
  | _, _ => [[]]

end

mutual

/-- An object as JSON: its key, its columns, and its joins, lists for links and single objects or
`null` for groups. -/
def render : Plan → Entity → Json
  | .node head joins, e =>
    .obj ((keyMember, e.key) :: ((head.columns.map (·.key)).zip e.values
      ++ renderJoins joins e.children))

/-- The members for joins. -/
def renderJoins : List (JoinHead × Plan) → List (List Entity) → List (String × Json)
  | (j, p) :: rest, es :: children =>
    let objects := es.map (render p)
    (j.key, match j.cardinality, objects with
      | .many, _ => .arr objects
      | .one, [] => .null
      | .one, object :: _ => object) :: renderJoins rest children
  | _, _ => []

end

end Plan

end TableGraph
