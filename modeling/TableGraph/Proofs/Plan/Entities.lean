import TableGraph.Proofs.Plan.Shown

/-!
# Objects read from rows

The objects in the rows of a plan before they are written as JSON. The rows of an object are those
with its key; the objects stand in the order in which their keys first appear.
-/

namespace TableGraph

namespace Occurrence

/-- The text that identifies the object with a key. -/
def keyText (key : Json) : String := (Json.arr [key]).text

/-- The rows with a key text. -/
def rowsOf (o : Occurrence) (key : String) (rows : List Row) : List Row :=
  rows.filter fun row => o.identityOf? row = some key

/-- Rows are grouped by identity, in the order of first appearance. -/
theorem groupRows_eq (o : Occurrence) (rows : List Row) :
    o.groupRows rows
      = (distinctBy id (rows.filterMap o.identityOf?)).map fun k => (k, o.rowsOf k rows) := by
  have hc : o.groupRows rows = collected o.identityOf? rows := by
    unfold groupRows collected
    congr 1
    funext groups row
    cases o.identityOf? row <;> rfl
  rw [hc, collected_eq]
  rfl

/-- With a primary key only its value identifies the object of a row. -/
theorem identityOf?_of_primary {o : Occurrence} (h : o.primary.isSome) (row : Row) :
    o.identityOf? row
      = if (Row.value row o.keyLabel).isNull then none
        else some (keyText (Row.value row o.keyLabel)) := by
  obtain ⟨column, hc⟩ := Option.isSome_iff_exists.mp h
  simp only [identityOf?, identifying, hc, keyText, List.all_cons, List.all_nil, Bool.and_true]

/-- The labels of an occurrence with a primary key. -/
theorem labels_of_primary {o : Occurrence} (h : o.primary.isSome) :
    o.labels = o.keyLabel :: o.columns.map (·.label) := by
  obtain ⟨column, hc⟩ := Option.isSome_iff_exists.mp h
  simp only [labels, hc, List.singleton_append]

/-- With a primary key the members of an object are its key and the values of its columns. -/
theorem ownMembers_of_primary {o : Occurrence} (h : o.primary.isSome) (rows : List Row) :
    o.ownMembers rows = (keyMember, Row.value (rows.head?.getD []) o.keyLabel)
      :: (o.columns.map (·.key)).zip
          (o.columns.map fun c => Row.value (rows.head?.getD []) c.label) := by
  obtain ⟨column, hc⟩ := Option.isSome_iff_exists.mp h
  simp only [ownMembers, hc, List.zip_map', List.singleton_append]

/-- The identity of a row by what it shows. -/
def identityShown (o : Occurrence) (view : String → Json) : Option String :=
  if (view o.keyLabel).isNull then none else some (keyText (view o.keyLabel))

/-- With a primary key the identity of a row is part of what it shows. -/
theorem identityOf?_eq_shown {o : Occurrence} (h : o.primary.isSome) {labels : List String}
    (hl : o.keyLabel ∈ labels) (row : Row) :
    o.identityOf? row = o.identityShown (Row.shown labels row) := by
  rw [identityOf?_of_primary h, identityShown, Row.shown_of_mem hl]

/-- The identities of rows by what they show. -/
theorem filterMap_identityOf? {o : Occurrence} (h : o.primary.isSome) {labels : List String}
    (hl : o.keyLabel ∈ labels) (rows : List Row) :
    rows.filterMap o.identityOf? = (rows.map (Row.shown labels)).filterMap o.identityShown := by
  rw [List.filterMap_map]
  apply List.filterMap_congr
  intro row _
  exact identityOf?_eq_shown h hl row

end Occurrence

/-- Rows with one identity, of rows that show the same, show the same. -/
theorem Row.SameShown.rowsOf {o : Occurrence} {labels fewer : List String} {xs ys : List Row}
    (h : SameShown labels xs ys) (hp : o.primary.isSome) (hl : o.keyLabel ∈ labels)
    (hf : fewer ⊆ labels) (k : String) : SameShown fewer (o.rowsOf k xs) (o.rowsOf k ys) := by
  refine h.filter (fun view => o.identityShown view = some k) hf ?_
  intro row
  rw [Occurrence.identityOf?_eq_shown hp hl]

/-- Rows with one identity, of rows that show the same in the same order, show the same in the same
order. -/
theorem Row.SameFirsts.rowsOf {o : Occurrence} {labels fewer : List String} {xs ys : List Row}
    (h : SameFirsts labels xs ys) (hp : o.primary.isSome) (hl : o.keyLabel ∈ labels)
    (hf : fewer ⊆ labels) (k : String) : SameFirsts fewer (o.rowsOf k xs) (o.rowsOf k ys) := by
  refine h.filter (fun view => o.identityShown view = some k) hf ?_
  intro row
  rw [Occurrence.identityOf?_eq_shown hp hl]

/-- Rows that show the same have the same identities. -/
theorem Row.SameShown.identities {o : Occurrence} {labels : List String} {xs ys : List Row}
    (h : SameShown labels xs ys) (hp : o.primary.isSome) (hl : o.keyLabel ∈ labels) (k : String) :
    k ∈ xs.filterMap o.identityOf? ↔ k ∈ ys.filterMap o.identityOf? := by
  rw [Occurrence.filterMap_identityOf? hp hl, Occurrence.filterMap_identityOf? hp hl,
    List.mem_filterMap, List.mem_filterMap]
  simp only [h _]

/-- Rows that show the same in the same order have the same identities in the same order. -/
theorem Row.SameFirsts.identities {o : Occurrence} {labels : List String} {xs ys : List Row}
    (h : SameFirsts labels xs ys) (hp : o.primary.isSome) (hl : o.keyLabel ∈ labels) :
    distinctBy id (xs.filterMap o.identityOf?) = distinctBy id (ys.filterMap o.identityOf?) := by
  classical
  rw [Occurrence.filterMap_identityOf? hp hl, Occurrence.filterMap_identityOf? hp hl]
  exact distinctBy_filterMap_congr _ h

namespace Plan

mutual

/-- The objects in the rows of a plan. -/
def entities : Plan → List Row → List Entity
  | .node head joins, rows =>
    (head.groupRows rows).map fun g =>
      .node (Row.value (g.2.head?.getD []) head.keyLabel)
        (head.columns.map fun c => Row.value (g.2.head?.getD []) c.label) (joinEntities joins g.2)

/-- The objects in the rows for each join. -/
def joinEntities : List (JoinHead × Plan) → List Row → List (List Entity)
  | [], _ => []
  | (_, p) :: rest, rows => entities p rows :: joinEntities rest rows

end

/-- No rows tell no objects. -/
@[simp]
theorem hydrate_nil (p : Plan) : p.hydrate [] = [] := by
  cases p
  rfl

/-- The names of the members for joins. -/
@[simp]
theorem names_hydrateJoins (joins : List (JoinHead × Plan)) (rows : List Row) :
    Members.names (hydrateJoins joins rows) = joins.map (·.1.key) := by
  induction joins with
  | nil => rfl
  | cons join rest ih =>
    obtain ⟨j, p⟩ := join
    simp [hydrateJoins, ih]

mutual

/-- What is answered for the rows of a plan are the objects in them. -/
theorem hydrate_eq_render : ∀ (p : Plan) (rows : List Row), p.Keyed →
    p.hydrate rows = (p.entities rows).map p.render
  | .node head joins, rows, hk => by
    obtain ⟨hp, hn, hj⟩ := hk
    obtain ⟨column, hc⟩ := Option.isSome_iff_exists.mp hp
    rw [hydrate, entities, List.map_map]
    apply List.map_congr_left
    intro g _
    have hnames : Members.names (head.ownMembers g.2 ++ hydrateJoins joins g.2)
        = keyMember :: (head.columns.map (·.key) ++ joins.map (·.1.key)) := by
      simp [Occurrence.ownMembers, hc]
    rw [Members.ofList_of_nodup (hnames ▸ hn)]
    simp only [Function.comp_apply, render, Entity.key, Entity.values, Entity.children,
      hydrateJoins_eq_render joins g.2 hj, Occurrence.ownMembers_of_primary hp, List.cons_append]

/-- The members for joins are the objects in the rows for them. -/
theorem hydrateJoins_eq_render : ∀ (joins : List (JoinHead × Plan)) (rows : List Row),
    JoinsKeyed joins → hydrateJoins joins rows = renderJoins joins (joinEntities joins rows)
  | [], _, _ => rfl
  | (j, p) :: rest, rows, hk => by
    rw [hydrateJoins, joinEntities, renderJoins, hydrate_eq_render p rows hk.1,
      hydrateJoins_eq_render rest rows hk.2]
    congr 2
    unfold JoinHead.value
    cases j.cardinality with
    | many => rfl
    | one => cases (p.entities rows).map p.render <;> rfl

end

end Plan

end TableGraph
