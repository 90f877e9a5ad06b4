import TableGraph.Proofs.Plan.Entities
import TableGraph.Proofs.Plan.Joined

/-!
# Rows back to objects

The rows of objects under left joins hold exactly these objects. In the order of the left joins they
give the objects in order; in any order, with any rows repeated, they give the same objects but for
the order of siblings. Both follow from what the rows show under the labels of the plan: the rows of
one object show the product of the rows of its joins, and each join sees only its own factor.
-/

namespace TableGraph

namespace Entity

mutual

/-- An object is the same as itself. -/
theorem Same.refl : ∀ e : Entity, Same e e
  | .node key values children => Same.node key values (SameChildren.refl children)

/-- Objects are the same as themselves. -/
theorem SameForest.refl : ∀ es : List Entity, SameForest es es
  | [] => SameForest.nil
  | e :: es => SameForest.cons (Same.refl e) (SameForest.refl es)

/-- Children are the same as themselves. -/
theorem SameChildren.refl : ∀ children : List (List Entity), SameChildren children children
  | [] => SameChildren.nil
  | es :: rest => SameChildren.cons (SameForest.refl es) (SameChildren.refl rest)

end

/-- Objects in another order are the same but for the order of siblings. -/
theorem SameForest.of_perm {es es' : List Entity} (h : es.Perm es') : SameForest es es' := by
  induction h with
  | nil => exact SameForest.nil
  | cons e _ ih => exact SameForest.cons (Same.refl e) ih
  | swap e e' es => exact SameForest.swap e' e es
  | trans _ _ first second => exact SameForest.trans first second

/-- Objects changed one by one are the same if each is. -/
theorem SameForest.map {f : Entity → Entity} {es : List Entity} (h : ∀ e ∈ es, Same e (f e)) :
    SameForest es (es.map f) := by
  induction es with
  | nil => exact SameForest.nil
  | cons e es ih =>
    exact SameForest.cons (h e List.mem_cons_self)
      (ih fun e' he => h e' (List.mem_cons_of_mem _ he))

end Entity

namespace Occurrence

/-- The labels of the part of a row that shows an object. -/
@[simp]
theorem names_keyedRow {o : Occurrence} (h : o.primary.isSome) (key : Json) {values : List Json}
    (hv : values.length = o.columns.length) : Members.names (o.keyedRow key values) = o.labels := by
  have hzip : (o.columns.zip values).map (fun x => x.1.label) = o.columns.map (·.label) := by
    conv_rhs => rw [← List.map_fst_zip (Nat.le_of_eq hv.symm), List.map_map]
    rfl
  simp [labels_of_primary h, keyedRow, hzip]

/-- The labels of the part of a row that shows no object. -/
theorem names_emptyRow {o : Occurrence} (h : o.primary.isSome) :
    Members.names o.emptyRow = o.labels := by
  simp [labels_of_primary h, emptyRow]

/-- The key that a row of an object shows. -/
@[simp]
theorem value_keyLabel (o : Occurrence) (key : Json) (values : List Json) (rest : Row) :
    Row.value (o.keyedRow key values ++ rest) o.keyLabel = key := by
  simp [keyedRow, Row.value]

/-- The values that a row of an object shows where each label has one value. -/
theorem map_value_keyedRow {o : Occurrence} {key : Json} {values : List Json} {rest : Row}
    (hv : values.length = o.columns.length) (hc : (o.keyedRow key values ++ rest).Consistent) :
    o.columns.map (fun c => Row.value (o.keyedRow key values ++ rest) c.label) = values := by
  have hall : ∀ x ∈ o.columns.zip values,
      Row.value (o.keyedRow key values ++ rest) x.1.label = x.2 := fun x hx =>
    hc _ (List.mem_append_left _ (List.mem_cons_of_mem _ (List.mem_map_of_mem hx)))
  calc o.columns.map (fun c => Row.value (o.keyedRow key values ++ rest) c.label)
      = ((o.columns.zip values).map Prod.fst).map
          (fun c => Row.value (o.keyedRow key values ++ rest) c.label) := by
        rw [List.map_fst_zip (by omega)]
    _ = (o.columns.zip values).map Prod.snd := by
        rw [List.map_map]
        exact List.map_congr_left hall
    _ = values := List.map_snd_zip (by omega)

/-- A row of an object has the identity of its key. -/
theorem identityOf?_keyedRow {o : Occurrence} (h : o.primary.isSome) {key : Json} (hk : key.IsKey)
    (values : List Json) (rest : Row) :
    o.identityOf? (o.keyedRow key values ++ rest) = some (keyText key) := by
  simp [identityOf?_of_primary h, hk.isNull_eq_false]

/-- A row that shows no object has no identity. -/
theorem identityOf?_emptyRow {o : Occurrence} (h : o.primary.isSome) (rest : Row) :
    o.identityOf? (o.emptyRow ++ rest) = none := by
  simp [identityOf?_of_primary h, emptyRow, Row.value, Json.isNull]

end Occurrence

namespace Plan

mutual

/-- The occurrences of a plan have primary keys. -/
theorem Keyed.primary : ∀ {p : Plan}, p.Keyed → ∀ o ∈ p.occurrences, o.primary.isSome
  | .node head joins, hk => by
    rw [occurrences_node]
    exact List.forall_mem_cons.mpr ⟨hk.1, JoinsKeyed.primary hk.2.2⟩

/-- The occurrences of joins have primary keys. -/
theorem JoinsKeyed.primary : ∀ {joins : List (JoinHead × Plan)}, JoinsKeyed joins →
    ∀ o ∈ joinOccurrences joins, o.primary.isSome
  | [], _ => nofun
  | (_, _) :: _, hk => List.forall_mem_append.mpr ⟨hk.1.primary, JoinsKeyed.primary hk.2⟩

end

mutual

/-- The labels of the part of a row in which nothing is there. -/
theorem names_emptyRow : ∀ p : Plan, (∀ o ∈ p.occurrences, o.primary.isSome) →
    Members.names p.emptyRow = p.labels
  | .node head joins, hp => by
    rw [occurrences_node, List.forall_mem_cons] at hp
    simp [emptyRow, labels, Occurrence.names_emptyRow hp.1, names_joinEmptyRow joins hp.2]

/-- The labels of the part of a row in which nothing is there for joins. -/
theorem names_joinEmptyRow : ∀ joins : List (JoinHead × Plan),
    (∀ o ∈ joinOccurrences joins, o.primary.isSome) →
      Members.names (joinEmptyRow joins) = joinLabels joins
  | [], _ => rfl
  | (_, p) :: rest, hp => by
    rw [joinOccurrences_cons, List.forall_mem_append] at hp
    simp [joinEmptyRow, joinLabels, names_emptyRow p hp.1, names_joinEmptyRow rest hp.2]

end

/-- No objects have no rows. -/
@[simp]
theorem leftJoin_nil (p : Plan) : p.leftJoin [] = [] := by
  cases p
  rfl

/-- What a join contributes to the rows of its parent. -/
def matched (p : Plan) (es : List Entity) : List Row :=
  if es = [] then [p.emptyRow] else p.leftJoin es

mutual

/-- The labels of the rows of objects. -/
theorem names_leftJoin : ∀ (p : Plan) (es : List Entity),
    (∀ o ∈ p.occurrences, o.primary.isSome) → p.Holds es →
      ∀ row ∈ p.leftJoin es, Members.names row = p.labels
  | .node head joins, es, hp, hh, row, hrow => by
    rw [occurrences_node, List.forall_mem_cons] at hp
    rw [leftJoin, List.mem_flatMap] at hrow
    obtain ⟨e, he, hrow⟩ := hrow
    obtain ⟨r, hr, rfl⟩ := List.mem_map.mp hrow
    obtain ⟨_, hv, hj⟩ := hh.2 e he
    simp [labels, Occurrence.names_keyedRow hp.1 _ hv,
      names_joinRows joins e.children hp.2 hj r hr]

/-- The labels of the rows of joins. -/
theorem names_joinRows : ∀ (joins : List (JoinHead × Plan)) (children : List (List Entity)),
    (∀ o ∈ joinOccurrences joins, o.primary.isSome) → JoinsHold joins children →
      ∀ row ∈ joinRows joins children, Members.names row = joinLabels joins
  | [], _, _, _, row, hrow => by
    rw [joinRows] at hrow
    · rw [List.mem_singleton.mp hrow]
      rfl
    · intro _ _ _ _ _ h
      cases h
  | (_, p) :: rest, es :: children, hp, hh, row, hrow => by
    rw [joinOccurrences_cons, List.forall_mem_append] at hp
    rw [joinRows, List.mem_flatMap] at hrow
    obtain ⟨a, ha, hrow⟩ := hrow
    obtain ⟨b, hb, rfl⟩ := List.mem_map.mp hrow
    have hna : Members.names a = p.labels := by
      by_cases he : es = []
      · rw [if_pos he, List.mem_singleton] at ha
        rw [ha, names_emptyRow p hp.1]
      · rw [if_neg he] at ha
        exact names_leftJoin p es hp.1 hh.2.1 a ha
    simp [joinLabels, hna, names_joinRows rest children hp.2 hh.2.2 b hb]
  | _ :: _, [], _, hh, _, _ => hh.elim

end

/-- The labels of what a join contributes. -/
theorem names_matched {p : Plan} {es : List Entity} (hp : ∀ o ∈ p.occurrences, o.primary.isSome)
    (hh : p.Holds es) : ∀ row ∈ p.matched es, Members.names row = p.labels := by
  intro row hrow
  unfold matched at hrow
  by_cases he : es = []
  · rw [if_pos he, List.mem_singleton] at hrow
    rw [hrow, names_emptyRow p hp]
  · rw [if_neg he] at hrow
    exact names_leftJoin p es hp hh row hrow

mutual

/-- Objects have rows. -/
theorem leftJoin_ne_nil : ∀ (p : Plan) {es : List Entity}, es ≠ [] → p.leftJoin es ≠ []
  | .node head joins, es, hne, hnil => by
    obtain ⟨e, es', rfl⟩ := List.exists_cons_of_ne_nil hne
    rw [leftJoin, List.flatMap_cons, List.append_eq_nil_iff, List.map_eq_nil_iff] at hnil
    exact joinRows_ne_nil joins e.children hnil.1

/-- Joins have rows. -/
theorem joinRows_ne_nil : ∀ (joins : List (JoinHead × Plan)) (children : List (List Entity)),
    joinRows joins children ≠ []
  | [], _ => by simp [joinRows]
  | _ :: _, [] => by simp [joinRows]
  | (_, p) :: rest, es :: children => by
    rw [joinRows, Ne, List.flatMap_eq_nil_iff]
    intro h
    by_cases he : es = []
    · rw [if_pos he] at h
      exact joinRows_ne_nil rest children
        (List.map_eq_nil_iff.mp (h p.emptyRow (List.mem_singleton.mpr rfl)))
    · rw [if_neg he] at h
      obtain ⟨a, ha⟩ := List.exists_mem_of_ne_nil _ (leftJoin_ne_nil p he)
      exact joinRows_ne_nil rest children (List.map_eq_nil_iff.mp (h a ha))

end

/-- A join contributes rows. -/
theorem matched_ne_nil (p : Plan) (es : List Entity) : p.matched es ≠ [] := by
  unfold matched
  by_cases he : es = []
  · rw [if_pos he]
    exact List.cons_ne_nil _ _
  · rw [if_neg he]
    exact leftJoin_ne_nil p he

end Plan

end TableGraph
