import Mathlib.Data.List.Forall2
import TableGraph.Plan.Statement
import TableGraph.Proofs.Plan.Forest

/-!
# Objects in order

A statement is ordered by the terms of its root and then by those of its joins, depth first. The
objects behind its rows have a value under each term of their occurrence, besides what is read of
them, and a row of the joined tables has the values of all its objects, one after another. Here is
what it means that rows are in the order of the statement, and that an answer holds objects in the
order of their occurrence at every level.
-/

namespace TableGraph

/-- A term that a statement is ordered by. -/
structure SortTerm where
  /-- The alias of the occurrence. -/
  aliasName : String
  /-- The column. -/
  column : String
  /-- The direction. -/
  direction : Direction
  deriving DecidableEq, Repr

/-- The text of a term. -/
def SortTerm.text (d : Dialect) (t : SortTerm) : String :=
  d.column t.aliasName t.column ++ " " ++ t.direction.sql

/-- The terms of an occurrence. -/
def Occurrence.sortTerms (o : Occurrence) : List SortTerm :=
  o.order.map fun x => ⟨o.aliasName, x.1, x.2⟩

/-- Whether a value may stand before another one in a direction, by a comparison of values. -/
def Direction.Le (le : Json → Json → Prop) : Direction → Json → Json → Prop
  | .ascending, a, b => le a b
  | .descending, a, b => le b a

/-- Whether values under terms may stand before others: each term counts where all earlier ones are
tied. -/
def SortTerm.Le (le : Json → Json → Prop) : List SortTerm → List Json → List Json → Prop
  | t :: ts, a :: as, b :: bs => t.direction.Le le a b ∧ (t.direction.Le le b a → Le le ts as bs)
  | _, _, _ => True

/-- An object with the values it is ordered by. -/
inductive Ranked where
  /-- An object with its values, those it is ordered by, and its children in order. -/
  | node (key : Json) (values ranks : List Json) (children : List (List Ranked))
  deriving Inhabited

namespace Ranked

/-- The primary key. -/
def key : Ranked → Json
  | .node key _ _ _ => key

/-- The values of the columns. -/
def values : Ranked → List Json
  | .node _ values _ _ => values

/-- The values under the terms of the occurrence. -/
def ranks : Ranked → List Json
  | .node _ _ ranks _ => ranks

/-- The children of each join. -/
def children : Ranked → List (List Ranked)
  | .node _ _ _ children => children

mutual

/-- The object without the values it is ordered by. -/
def entity : Ranked → Entity
  | .node key values _ children => .node key values (childEntities children)

/-- The objects of a join without the values they are ordered by. -/
def entities : List Ranked → List Entity
  | [] => []
  | e :: es => entity e :: entities es

/-- The objects of joins without the values they are ordered by. -/
def childEntities : List (List Ranked) → List (List Entity)
  | [] => []
  | es :: rest => entities es :: childEntities rest

end

end Ranked

/-- A row of the joined tables: what the statement reads of it, and its values under the terms that
the statement is ordered by. -/
structure RankedRow where
  /-- What is read. -/
  row : Row
  /-- The values under the terms. -/
  ranks : List Json

/-- Two parts of a row side by side. -/
def RankedRow.append (a b : RankedRow) : RankedRow := ⟨a.row ++ b.row, a.ranks ++ b.ranks⟩

namespace Plan

mutual

/-- The terms of a plan, those of the root first. -/
def sortTerms : Plan → List SortTerm
  | .node head joins => head.sortTerms ++ joinSortTerms joins

/-- The terms of joins. -/
def joinSortTerms : List (JoinHead × Plan) → List SortTerm
  | [] => []
  | (_, p) :: rest => sortTerms p ++ joinSortTerms rest

end

mutual

/-- Objects that have a value under each term of their occurrence. -/
def Ranks : Plan → List Ranked → Prop
  | .node head joins, es =>
    ∀ e ∈ es, e.ranks.length = head.order.length ∧ JoinsRank joins e.children

/-- Children that have a value under each term of their occurrence. -/
def JoinsRank : List (JoinHead × Plan) → List (List Ranked) → Prop
  | [], _ => True
  | (_, p) :: rest, es :: children => Ranks p es ∧ JoinsRank rest children
  | _ :: _, [] => False

end

/-- The part of a row in which nothing is there: all its values are `null`. -/
def unrankedRow (p : Plan) : RankedRow := ⟨p.emptyRow, p.sortTerms.map fun _ => .null⟩

mutual

/-- The rows of objects under left joins with the values they are ordered by. -/
def rankedJoin : Plan → List Ranked → List RankedRow
  | .node head joins, es =>
    es.flatMap fun e => (rankedRows joins e.children).map fun r =>
      RankedRow.append ⟨head.keyedRow e.key e.values, e.ranks⟩ r

/-- The rows of joins with the values they are ordered by. -/
def rankedRows : List (JoinHead × Plan) → List (List Ranked) → List RankedRow
  | (_, p) :: rest, es :: children =>
    (if es = [] then [p.unrankedRow] else rankedJoin p es).flatMap fun a =>
      (rankedRows rest children).map fun b => a.append b
  | _, _ => [⟨[], []⟩]

end

mutual

/-- An answer holds objects in the order of their occurrence, and so do the answers for the joins of
each object. -/
def Arranged (le : Json → Json → Prop) : Plan → List Ranked → List Json → Prop
  | .node head joins, es, answer =>
    ∃ es', es'.Perm es ∧ es'.Pairwise (fun e e' => SortTerm.Le le head.sortTerms e.ranks e'.ranks)
      ∧ List.Forall₂ (fun e object => ∃ members, JoinsArranged le joins e.children members
        ∧ object = .obj (Members.ofList ((keyMember, e.key)
          :: ((head.columns.map (·.key)).zip e.values ++ members)))) es' answer

/-- The members for joins answer the children, in order. -/
def JoinsArranged (le : Json → Json → Prop) :
    List (JoinHead × Plan) → List (List Ranked) → List (String × Json) → Prop
  | [], _, members => members = []
  | (j, p) :: rest, es :: children, members => ∃ answer more, Arranged le p es answer
    ∧ JoinsArranged le rest children more ∧ members = (j.key, j.value answer) :: more
  | _ :: _, [], _ => False

end

mutual

/-- The statement of a plan is ordered by the terms of the plan. -/
theorem orderTerms_eq_map (d : Dialect) : ∀ p : Plan,
    p.orderTerms d = p.sortTerms.map (SortTerm.text d)
  | .node head joins => by
    rw [orderTerms, sortTerms, List.map_append, ← joinTerms_eq_map d joins, Occurrence.terms,
      Occurrence.sortTerms, List.map_map]
    rfl

/-- Joins are ordered by their terms. -/
theorem joinTerms_eq_map (d : Dialect) : ∀ joins : List (JoinHead × Plan),
    joinTerms d joins = (joinSortTerms joins).map (SortTerm.text d)
  | [] => rfl
  | (_, p) :: rest => by
    rw [joinTerms, joinSortTerms, List.map_append, orderTerms_eq_map d p, joinTerms_eq_map d rest]

end

end Plan

/-- A value may stand before itself. -/
theorem Direction.Le.refl {le : Json → Json → Prop} (hle : ∀ v, le v v) (d : Direction) (v : Json) :
    d.Le le v v := by
  cases d <;> exact hle v

namespace SortTerm

variable {le : Json → Json → Prop}

/-- Values may stand before themselves. -/
theorem Le.refl (hle : ∀ v, le v v) (ts : List SortTerm) (as : List Json) : Le le ts as as := by
  induction ts generalizing as with
  | nil => trivial
  | cons t ts ih =>
    cases as with
    | nil => trivial
    | cons a as => exact ⟨Direction.Le.refl hle t.direction a, fun _ => ih as⟩

/-- Later terms count where all earlier ones are tied. -/
theorem le_append_iff {ts us : List SortTerm} {as bs cs ds : List Json}
    (ha : as.length = ts.length) (hb : bs.length = ts.length) :
    Le le (ts ++ us) (as ++ cs) (bs ++ ds)
      ↔ Le le ts as bs ∧ (Le le ts bs as → Le le us cs ds) := by
  induction ts generalizing as bs with
  | nil =>
    rw [List.length_nil, List.length_eq_zero_iff] at ha hb
    subst ha hb
    exact ⟨fun h => ⟨trivial, fun _ => h⟩, fun h => h.2 trivial⟩
  | cons t ts ih =>
    obtain ⟨a, as, rfl⟩ := List.exists_cons_of_length_eq_add_one ha
    obtain ⟨b, bs, rfl⟩ := List.exists_cons_of_length_eq_add_one hb
    have hrest := ih (Nat.succ.inj ha) (Nat.succ.inj hb)
    simp only [List.cons_append, Le, hrest]
    constructor
    · rintro ⟨hab, h⟩
      exact ⟨⟨hab, fun hba => (h hba).1⟩, fun ⟨hba, hbas⟩ => (h hba).2 (hbas hab)⟩
    · rintro ⟨⟨hab, has⟩, h⟩
      exact ⟨hab, fun hba => ⟨has hba, fun hbas => h ⟨hba, fun _ => hbas⟩⟩⟩

end SortTerm

namespace Ranked

/-- The object has the key. -/
@[simp]
theorem key_entity (e : Ranked) : e.entity.key = e.key := by
  cases e
  rfl

/-- The object has the values. -/
@[simp]
theorem values_entity (e : Ranked) : e.entity.values = e.values := by
  cases e
  rfl

/-- The object has the children. -/
@[simp]
theorem children_entity (e : Ranked) : e.entity.children = childEntities e.children := by
  cases e
  rfl

/-- The objects of a join are taken one by one. -/
theorem entities_eq_map (es : List Ranked) : entities es = es.map entity := by
  induction es with
  | nil => rfl
  | cons e es ih => rw [entities, ih, List.map_cons]

end Ranked

end TableGraph
