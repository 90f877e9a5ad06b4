import TableGraph.Proofs.Plan.Hydration
import TableGraph.Proofs.Plan.Ranked

/-!
# Rows of objects with what they are ordered by

The rows of objects under left joins, each with its values under the terms of the statement. They are
those of the left joins, have a value under each term, and are put together from rows of the joins:
a row of an object is the object beside a row of its joins, and a row of joins is a row of the first
beside a row of the others.
-/

namespace TableGraph

namespace Plan

/-- What a join contributes to the rows of its parent, with the values it is ordered by. -/
def rankedMatched (p : Plan) (es : List Ranked) : List RankedRow :=
  if es = [] then [p.unrankedRow] else p.rankedJoin es

/-- The rows of joins are the product of what the first contributes and the rows of the others. -/
theorem rankedRows_cons (j : JoinHead) (p : Plan) (rest : List (JoinHead × Plan))
    (es : List Ranked) (children : List (List Ranked)) :
    rankedRows ((j, p) :: rest) (es :: children)
      = (p.rankedMatched es).flatMap fun a => (rankedRows rest children).map fun b => a.append b :=
  rfl

mutual

/-- What is read of what a join contributes. -/
@[simp]
theorem map_row_rankedMatched : ∀ (p : Plan) (es : List Ranked),
    (p.rankedMatched es).map RankedRow.row = p.matched (Ranked.entities es)
  | p, [] => rfl
  | p, e :: es => map_row_rankedJoin p (e :: es)

/-- What is read of the rows of objects is what is read under left joins. -/
@[simp]
theorem map_row_rankedJoin : ∀ (p : Plan) (es : List Ranked),
    (p.rankedJoin es).map RankedRow.row = p.leftJoin (Ranked.entities es)
  | .node head joins, es => by
    rw [rankedJoin, leftJoin, Ranked.entities_eq_map, List.map_flatMap, List.flatMap_map]
    apply List.flatMap_congr
    intro e _
    rw [Ranked.key_entity, Ranked.values_entity, Ranked.children_entity,
      ← map_row_rankedRows joins e.children, List.map_map, List.map_map]
    rfl

/-- What is read of the rows of joins is what is read under left joins. -/
@[simp]
theorem map_row_rankedRows : ∀ (joins : List (JoinHead × Plan)) (children : List (List Ranked)),
    (rankedRows joins children).map RankedRow.row = joinRows joins (Ranked.childEntities children)
  | [], [] => rfl
  | [], _ :: _ => rfl
  | _ :: _, [] => rfl
  | (j, p) :: rest, es :: children => by
    rw [rankedRows_cons, Ranked.childEntities, joinRows_cons, ← map_row_rankedMatched, List.map_flatMap,
      List.flatMap_map, ← map_row_rankedRows rest children]
    apply List.flatMap_congr
    intro a _
    rw [List.map_map, List.map_map]
    rfl

end

mutual

/-- What a join contributes has a value under each term. -/
theorem length_ranks_rankedMatched : ∀ (p : Plan) (es : List Ranked), p.Ranks es →
    ∀ r ∈ p.rankedMatched es, r.ranks.length = p.sortTerms.length
  | p, [], _, r, hmem => by
    rw [List.mem_singleton.mp hmem]
    exact List.length_map _
  | p, e :: es, hr, r, hmem => length_ranks_rankedJoin p (e :: es) hr r hmem

/-- The rows of objects have a value under each term. -/
theorem length_ranks_rankedJoin : ∀ (p : Plan) (es : List Ranked), p.Ranks es →
    ∀ r ∈ p.rankedJoin es, r.ranks.length = p.sortTerms.length
  | .node head joins, es, hr, r, hmem => by
    rw [rankedJoin, List.mem_flatMap] at hmem
    obtain ⟨e, he, hmem⟩ := hmem
    obtain ⟨b, hb, rfl⟩ := List.mem_map.mp hmem
    rw [sortTerms, RankedRow.append, List.length_append, List.length_append, (hr e he).1,
      length_ranks_rankedRows joins e.children (hr e he).2 b hb, Occurrence.sortTerms,
      List.length_map]

/-- The rows of joins have a value under each term. -/
theorem length_ranks_rankedRows : ∀ (joins : List (JoinHead × Plan))
    (children : List (List Ranked)), JoinsRank joins children →
      ∀ r ∈ rankedRows joins children, r.ranks.length = (joinSortTerms joins).length
  | [], _, _, r, hmem => by
    rw [rankedRows] at hmem
    · rw [List.mem_singleton.mp hmem]
      rfl
    · exact nofun
  | (j, p) :: rest, es :: children, hr, r, hmem => by
    rw [rankedRows_cons, List.mem_flatMap] at hmem
    obtain ⟨a, ha, hmem⟩ := hmem
    obtain ⟨b, hb, rfl⟩ := List.mem_map.mp hmem
    rw [joinSortTerms, RankedRow.append, List.length_append, List.length_append,
      length_ranks_rankedMatched p es hr.1 a ha, length_ranks_rankedRows rest children hr.2 b hb]
  | _ :: _, [], hr, _, _ => hr.elim

end

/-- Joins have rows. -/
theorem rankedRows_ne_nil (joins : List (JoinHead × Plan)) (children : List (List Ranked)) :
    rankedRows joins children ≠ [] := by
  intro hnil
  have hrows := map_row_rankedRows joins children
  rw [hnil] at hrows
  exact joinRows_ne_nil joins _ hrows.symm

/-- A join contributes rows. -/
theorem rankedMatched_ne_nil (p : Plan) (es : List Ranked) : p.rankedMatched es ≠ [] := by
  intro hnil
  have hrows := map_row_rankedMatched p es
  rw [hnil] at hrows
  exact matched_ne_nil p _ hrows.symm

section

variable {head : Occurrence} {joins : List (JoinHead × Plan)} {es : List Ranked}

/-- A row of an object beside one of its joins. -/
def objectRow (head : Occurrence) (e : Ranked) (r : RankedRow) : RankedRow :=
  RankedRow.append ⟨head.keyedRow e.key e.values, e.ranks⟩ r

/-- The rows of objects are rows of their joins, each beside its object. -/
theorem mem_rankedMatched_iff (hn : es ≠ []) {r : RankedRow} :
    r ∈ (Plan.node head joins).rankedMatched es
      ↔ ∃ e ∈ es, ∃ b ∈ rankedRows joins e.children, objectRow head e b = r := by
  rw [rankedMatched, if_neg hn, rankedJoin, List.mem_flatMap]
  simp only [List.mem_map, objectRow]

/-- The rows of joins are rows of the first beside rows of the others. -/
theorem mem_rankedRows_cons_iff {j : JoinHead} {p : Plan} {rest : List (JoinHead × Plan)}
    {children : List (List Ranked)} {r : RankedRow} :
    r ∈ rankedRows ((j, p) :: rest) (es :: children)
      ↔ ∃ a ∈ p.rankedMatched es, ∃ b ∈ rankedRows rest children, a.append b = r := by
  rw [rankedRows_cons, List.mem_flatMap]
  simp only [List.mem_map]

/-- What a part of the joined tables holds of an object. -/
theorem Holds.of_mem (hh : (Plan.node head joins).Holds (Ranked.entities es)) {e : Ranked}
    (he : e ∈ es) :
    e.key.IsKey ∧ e.values.length = head.columns.length
      ∧ JoinsHold joins (Ranked.childEntities e.children) := by
  have hmem : e.entity ∈ Ranked.entities es := by
    rw [Ranked.entities_eq_map]
    exact List.mem_map_of_mem he
  simpa using hh.2 _ hmem

/-- The key texts of objects. -/
theorem map_keyText_entities (es : List Ranked) :
    ((Ranked.entities es).map fun e => Occurrence.keyText e.key)
      = es.map fun e => Occurrence.keyText e.key := by
  simp [Ranked.entities_eq_map, Function.comp_def]

/-- The rows with the key of an object are rows of its joins beside the object. -/
theorem mem_rankedMatched_keyText_iff (hp : head.primary.isSome)
    (hh : (Plan.node head joins).Holds (Ranked.entities es)) {e : Ranked} (he : e ∈ es)
    {r : RankedRow} :
    (r ∈ (Plan.node head joins).rankedMatched es
        ∧ head.identityOf? r.row = some (Occurrence.keyText e.key))
      ↔ ∃ b ∈ rankedRows joins e.children, objectRow head e b = r := by
  have hidentity : ∀ e' ∈ es, ∀ b : RankedRow,
      head.identityOf? (objectRow head e' b).row = some (Occurrence.keyText e'.key) :=
    fun e' he' b => Occurrence.identityOf?_keyedRow hp (hh.of_mem he').1 _ b.row
  have hkeys := hh.nodup_keyText
  rw [map_keyText_entities] at hkeys
  rw [mem_rankedMatched_iff (List.ne_nil_of_mem he)]
  constructor
  · rintro ⟨⟨e', he', b, hb, rfl⟩, hr⟩
    rw [hidentity e' he' b, Option.some.injEq] at hr
    obtain rfl : e' = e := List.inj_on_of_nodup_map hkeys he' he hr
    exact ⟨b, hb, rfl⟩
  · rintro ⟨b, hb, rfl⟩
    exact ⟨⟨e, he, b, hb, rfl⟩, hidentity e he b⟩

end

end Plan

end TableGraph
