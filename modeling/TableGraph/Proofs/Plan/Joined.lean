import TableGraph.Plan.Statement
import TableGraph.Proofs.Plan.Forest

/-!
# The occurrences of a plan

The joins of a plan one after another, each in front of the joins below it. A statement introduces,
reads and orders by its occurrences in this order, and an occurrence is joined to one that stands
before it.
-/

namespace TableGraph

/-- A join of a plan with the occurrences on either side. -/
structure Joined where
  /-- The occurrence it is joined to. -/
  parent : Occurrence
  /-- How it is joined. -/
  head : JoinHead
  /-- The occurrence that is joined. -/
  child : Occurrence
  deriving DecidableEq, Repr

/-- The text of a join. -/
def Joined.clause (d : Dialect) (e : Joined) : String :=
  " LEFT JOIN " ++ d.tableRef e.child.table ++ " " ++ e.child.aliasName ++ " ON " ++ e.head.condition

namespace Plan

mutual

/-- The joins of a plan, depth first. -/
def joined : Plan → List Joined
  | .node head joins => joinedBelow head joins

/-- The joins below an occurrence, depth first. -/
def joinedBelow (parent : Occurrence) : List (JoinHead × Plan) → List Joined
  | [] => []
  | (j, p) :: rest => ⟨parent, j, p.head⟩ :: (joined p ++ joinedBelow parent rest)

end

/-- The occurrences of a plan, depth first. -/
def occurrences (p : Plan) : List Occurrence := p.head :: p.joined.map (·.child)

/-- The occurrences of joins, depth first. -/
def joinOccurrences : List (JoinHead × Plan) → List Occurrence
  | [] => []
  | (_, p) :: rest => occurrences p ++ joinOccurrences rest

/-- The occurrence at the top of a plan. -/
@[simp]
theorem head_node (head : Occurrence) (joins : List (JoinHead × Plan)) :
    (Plan.node head joins).head = head := rfl

/-- Nothing is joined when there are no joins. -/
@[simp]
theorem joinOccurrences_nil : joinOccurrences [] = [] := rfl

/-- The occurrences of the first join come first. -/
@[simp]
theorem joinOccurrences_cons (j : JoinHead) (p : Plan) (rest : List (JoinHead × Plan)) :
    joinOccurrences ((j, p) :: rest) = occurrences p ++ joinOccurrences rest := rfl

/-- The occurrences below another one do not depend on it. -/
@[simp]
theorem map_child_joinedBelow (parent : Occurrence) (joins : List (JoinHead × Plan)) :
    (joinedBelow parent joins).map (·.child) = joinOccurrences joins := by
  induction joins with
  | nil => rfl
  | cons e rest ih =>
    obtain ⟨j, p⟩ := e
    simp [joinedBelow, occurrences, ih]

/-- An occurrence stands in front of those that are joined below it. -/
@[simp]
theorem occurrences_node (head : Occurrence) (joins : List (JoinHead × Plan)) :
    occurrences (.node head joins) = head :: joinOccurrences joins := by
  simp [occurrences, joined]

mutual

/-- Everything is read from one occurrence after another. -/
theorem selectList_eq (d : Dialect) : ∀ p : Plan,
    p.selectList d = p.occurrences.flatMap fun o => o.selects d
  | .node head joins => by
    simp [selectList, joinSelects_eq d joins]

/-- What is read from joins is read from one occurrence after another. -/
theorem joinSelects_eq (d : Dialect) : ∀ joins : List (JoinHead × Plan),
    joinSelects d joins = (joinOccurrences joins).flatMap fun o => o.selects d
  | [] => rfl
  | (_, p) :: rest => by
    simp [joinSelects, selectList_eq d p, joinSelects_eq d rest]

end

mutual

/-- Everything is ordered by one occurrence after another. -/
theorem orderTerms_eq (d : Dialect) : ∀ p : Plan,
    p.orderTerms d = p.occurrences.flatMap fun o => o.terms d
  | .node head joins => by
    simp [orderTerms, joinTerms_eq d joins]

/-- Joins are ordered by one occurrence after another. -/
theorem joinTerms_eq (d : Dialect) : ∀ joins : List (JoinHead × Plan),
    joinTerms d joins = (joinOccurrences joins).flatMap fun o => o.terms d
  | [] => rfl
  | (_, p) :: rest => by
    simp [joinTerms, orderTerms_eq d p, joinTerms_eq d rest]

end

mutual

/-- The labels are those of one occurrence after another. -/
theorem labels_eq : ∀ p : Plan, p.labels = p.occurrences.flatMap Occurrence.labels
  | .node head joins => by
    simp [labels, joinLabels_eq joins]

/-- The labels of joins are those of one occurrence after another. -/
theorem joinLabels_eq : ∀ joins : List (JoinHead × Plan),
    joinLabels joins = (joinOccurrences joins).flatMap Occurrence.labels
  | [] => rfl
  | (_, p) :: rest => by
    simp [joinLabels, labels_eq p, joinLabels_eq rest]

end

mutual

/-- The joins stand one after another. -/
theorem joinClauses_eq (d : Dialect) : ∀ p : Plan,
    p.joinClauses d = String.join (p.joined.map (Joined.clause d))
  | .node head joins => by rw [joinClauses, joined, joinTexts_eq d head joins]

/-- The joins below an occurrence stand one after another. -/
theorem joinTexts_eq (d : Dialect) (parent : Occurrence) : ∀ joins : List (JoinHead × Plan),
    joinTexts d joins = String.join ((joinedBelow parent joins).map (Joined.clause d))
  | [] => String.join_nil.symm
  | (j, p) :: rest => by
    have hstep : joinTexts d ((j, p) :: rest) = " LEFT JOIN " ++ d.tableRef p.head.table ++ " "
        ++ p.head.aliasName ++ " ON " ++ j.condition ++ joinClauses d p ++ joinTexts d rest := rfl
    rw [hstep, joinClauses_eq d p, joinTexts_eq d parent rest, joinedBelow, List.map_cons,
      List.map_append, String.join_cons, String.join_append, String.append_assoc]
    rfl

end

mutual

/-- An occurrence is joined to one that stands before it. -/
theorem parent_mem_of_joined : ∀ (p : Plan) (before after : List Joined) (e : Joined),
    p.joined = before ++ e :: after → e.parent ∈ p.head :: before.map (·.child)
  | .node head joins => by
    intro before after e h
    rw [joined] at h
    exact parent_mem_of_joinedBelow head joins before after e h

/-- An occurrence below another one is joined to it or to one that stands in between. -/
theorem parent_mem_of_joinedBelow (parent : Occurrence) : ∀ (joins : List (JoinHead × Plan))
    (before after : List Joined) (e : Joined), joinedBelow parent joins = before ++ e :: after →
      e.parent ∈ parent :: before.map (·.child)
  | [] => by
    intro before after e h
    rw [joinedBelow] at h
    exact absurd h.symm (List.append_ne_nil_of_right_ne_nil _ (List.cons_ne_nil _ _))
  | (j, p) :: rest => by
    intro before after e h
    rw [joinedBelow] at h
    cases before with
    | nil =>
      rw [← (List.cons.inj h).1]
      exact List.mem_cons_self
    | cons first before =>
      obtain ⟨rfl, htail⟩ := List.cons.inj h
      -- The join stands behind the plan of the first one or in it.
      rcases List.append_eq_append_iff.mp htail with ⟨between, rfl, hrest⟩ | ⟨between, hp, hrest⟩
      · have hmem := parent_mem_of_joinedBelow parent rest between after e hrest
        rw [List.map_cons, List.map_append]
        rcases List.mem_cons.mp hmem with hmem | hmem
        · exact hmem ▸ List.mem_cons_self
        · exact List.mem_cons_of_mem _ (List.mem_cons_of_mem _ (List.mem_append_right _ hmem))
      · cases between with
        | nil =>
          rw [List.append_nil] at hp
          have hmem := parent_mem_of_joinedBelow parent rest [] after e hrest.symm
          rw [List.mem_singleton.mp hmem]
          exact List.mem_cons_self
        | cons x between =>
          obtain ⟨rfl, _⟩ := List.cons.inj hrest
          exact List.mem_cons_of_mem _ (parent_mem_of_joined p before between _ hp)

end

end Plan

end TableGraph
