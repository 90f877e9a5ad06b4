import TableGraph.Proofs.Plan.Aliases
import TableGraph.Proofs.Plan.Bounded
import TableGraph.Proofs.Plan.Entities
import TableGraph.Proofs.Plan.Identity
import TableGraph.Proofs.Schema.Rows
import TableGraph.Sql.Postgres

/-!
# Joins without a match

A left join without a match shows `null` for everything that is read from the joined occurrence and
from those below it, but for contents: that a content is not there is `false`. A row in which a join
has no match tells no object of the join as long as the occurrence has a primary key or no content
is selected of it. Groups have a primary key.
-/

namespace TableGraph

namespace Occurrence

/-- What a left join without a match shows of an occurrence. -/
def unmatched (o : Occurrence) : Row :=
  (match o.primary with
    | some _ => [(o.keyLabel, .null)]
    | none => (o.rowLabel, .null) :: o.identity.map fun x => (x.2, .null))
    ++ o.columns.map fun c => (c.label, if c.presence then .bool false else .null)

variable {o : Occurrence} {row : Row}

/-- A left join without a match shows something under every label. -/
@[simp]
theorem names_unmatched (o : Occurrence) : Members.names o.unmatched = o.labels := by
  unfold unmatched labels
  cases o.primary <;> simp

/-- A row in which an occurrence has no match has no identity just when the occurrence has a primary
key or none of its columns is a content. -/
theorem identityOf?_of_unmatched (h : ∀ x ∈ o.unmatched, Row.value row x.1 = x.2) :
    o.identityOf? row = none ↔ o.primary.isSome ∨ ∀ c ∈ o.columns, c.presence = false := by
  have hcolumn : ∀ c ∈ o.columns,
      Row.value row c.label = if c.presence then .bool false else .null := fun c hc =>
    h (c.label, _) (List.mem_append_right _ (List.mem_map_of_mem hc))
  rw [identityOf?_eq_none_iff]
  unfold unmatched at h
  cases hp : o.primary with
  | some column =>
    rw [hp] at h
    have hkey : Row.value row o.keyLabel = .null := h (o.keyLabel, .null) List.mem_cons_self
    simp [identifying, hp, hkey, Json.isNull]
  | none =>
    rw [hp] at h
    have hrow : Row.value row o.rowLabel = .null := h (o.rowLabel, .null) List.mem_cons_self
    have hidentity : ∀ x ∈ o.identity, Row.value row x.2 = .null := fun x hx =>
      h (x.2, .null) (List.mem_append_left _ (List.mem_cons_of_mem _ (List.mem_map_of_mem hx)))
    have hvalues : o.identifying row
        = (o.identity.map (·.2) ++ o.columns.map (·.label)).map (Row.value row) := by
      unfold identifying
      rw [hp, hrow]
      rfl
    have hcontent : ∀ c ∈ o.columns,
        (Row.value row c.label).isNull = true ↔ c.presence = false := by
      intro c hc
      rw [hcolumn c hc]
      cases c.presence <;> simp [Json.isNull]
    rw [hvalues]
    constructor
    · intro hnull
      refine Or.inr fun c hc => (hcontent c hc).mp (hnull _ (List.mem_map_of_mem ?_))
      exact List.mem_append_right _ (List.mem_map_of_mem hc)
    · rintro (hsome | hpresence) v hv
      · cases hsome
      · obtain ⟨label, hlabel, rfl⟩ := List.mem_map.mp hv
        rcases List.mem_append.mp hlabel with hlabel | hlabel
        · obtain ⟨x, hx, rfl⟩ := List.mem_map.mp hlabel
          rw [hidentity x hx]
          rfl
        · obtain ⟨c, hc, rfl⟩ := List.mem_map.mp hlabel
          exact (hcontent c hc).mpr (hpresence c hc)

/-- Rows without an identity are passed over. -/
theorem groupRows_skip (h : o.identityOf? row = none) (before after : List Row) :
    o.groupRows (before ++ row :: after) = o.groupRows (before ++ after) := by
  simp only [groupRows, List.foldl_append, List.foldl_cons, h]

/-- A row with an identity tells an object. -/
theorem groupRows_singleton_ne_nil (h : o.identityOf? row ≠ none) : o.groupRows [row] ≠ [] := by
  obtain ⟨key, hkey⟩ := Option.ne_none_iff_exists'.mp h
  simp [groupRows, hkey, upsert]

end Occurrence

namespace Plan

/-- A join of joins, or somewhere below them. -/
inductive HasJoin : List (JoinHead × Plan) → JoinHead → Plan → Prop
  /-- One of the joins. -/
  | here {joins : List (JoinHead × Plan)} {j : JoinHead} {q : Plan} (h : (j, q) ∈ joins) :
    HasJoin joins j q
  /-- A join inside one of the joins. -/
  | inside {joins : List (JoinHead × Plan)} {i j : JoinHead} {r q : Plan} (h : (i, r) ∈ joins)
    (tail : HasJoin r.joins j q) : HasJoin joins j q

/-- A row in which a plan has no match. -/
def Unmatched (p : Plan) (row : Row) : Prop :=
  ∀ o ∈ p.occurrences, ∀ x ∈ o.unmatched, Row.value row x.1 = x.2

/-- A join passes over the rows in which it has no match. -/
structure PassesOver (j : JoinHead) (q : Plan) : Prop where
  /-- Such a row changes nothing. -/
  skipped : ∀ (before : List Row) (row : Row) (after : List Row), q.Unmatched row →
    q.hydrate (before ++ row :: after) = q.hydrate (before ++ after)
  /-- Without other rows a link has no objects and a group is `null`. -/
  empty : ∀ rows : List Row, (∀ row ∈ rows, q.Unmatched row) →
    j.value (q.hydrate rows) = match j.cardinality with
      | .many => .arr []
      | .one => .null

/-- The objects of a plan come from the rows of each identity. -/
theorem hydrate_congr {p : Plan} {rows rows' : List Row}
    (h : p.head.groupRows rows = p.head.groupRows rows') : p.hydrate rows = p.hydrate rows' := by
  obtain ⟨head, joins⟩ := p
  have hgroups : head.groupRows rows = head.groupRows rows' := h
  rw [hydrate, hydrate, hgroups]

/-- There are no objects without an identity. -/
theorem hydrate_eq_nil_iff {p : Plan} {rows : List Row} :
    p.hydrate rows = [] ↔ p.head.groupRows rows = [] := by
  obtain ⟨head, joins⟩ := p
  rw [hydrate, List.map_eq_nil_iff]
  rfl

/-- The labels of a join are among those of the joins. -/
theorem labels_sublist {joins : List (JoinHead × Plan)} {j : JoinHead} {q : Plan}
    (h : (j, q) ∈ joins) : q.labels.Sublist (joinLabels joins) := by
  induction joins with
  | nil => cases h
  | cons e rest ih =>
    obtain ⟨i, r⟩ := e
    rw [joinLabels]
    rcases List.mem_cons.mp h with he | h
    · cases he
      exact List.sublist_append_left _ _
    · exact (ih h).trans (List.sublist_append_right _ _)

/-- The labels of a join, however deep, are among those of the joins. -/
theorem HasJoin.labels_sublist {joins : List (JoinHead × Plan)} {j : JoinHead} {q : Plan}
    (h : HasJoin joins j q) : q.labels.Sublist (joinLabels joins) := by
  induction h with
  | here h => exact Plan.labels_sublist h
  | @inside joins i j r q h _ ih =>
    refine ih.trans (List.Sublist.trans ?_ (Plan.labels_sublist h))
    obtain ⟨head, below⟩ := r
    rw [labels]
    exact List.sublist_append_right _ _

/-- A plan with different labels has rows in which it has no match. -/
theorem exists_unmatched {q : Plan} (hn : q.labels.Nodup) : ∃ row, q.Unmatched row := by
  refine ⟨q.occurrences.flatMap Occurrence.unmatched, fun o ho x hx => ?_⟩
  have hnames : Members.names (q.occurrences.flatMap Occurrence.unmatched) = q.labels := by
    simp [labels_eq]
  have hget := Members.get?_of_mem (hnames ▸ hn) (List.mem_flatMap.mpr ⟨o, ho, hx⟩)
  rw [Row.value, hget, Option.getD_some]

/-- A join with different labels passes over the rows in which it has no match just when it has a
primary key or no content is selected of it. -/
theorem passesOver_iff {j : JoinHead} {q : Plan} (hn : q.labels.Nodup) :
    PassesOver j q ↔ q.head.primary.isSome ∨ ∀ c ∈ q.head.columns, c.presence = false := by
  have hhead : q.head ∈ q.occurrences := List.mem_cons_self
  constructor
  · intro h
    obtain ⟨row, hrow⟩ := exists_unmatched hn
    rw [← Occurrence.identityOf?_of_unmatched (hrow q.head hhead)]
    -- If the row had an identity then it would tell an object on its own.
    by_contra hkey
    have hnil : q.hydrate [row] = [] := (h.skipped [] row [] hrow).trans (hydrate_nil q)
    exact Occurrence.groupRows_singleton_ne_nil hkey (hydrate_eq_nil_iff.mp hnil)
  · intro h
    have hskipped : ∀ (before : List Row) (row : Row) (after : List Row), q.Unmatched row →
        q.hydrate (before ++ row :: after) = q.hydrate (before ++ after) := by
      intro before row after hrow
      have hnone := (Occurrence.identityOf?_of_unmatched (hrow q.head hhead)).mpr h
      exact hydrate_congr (Occurrence.groupRows_skip hnone before after)
    refine ⟨hskipped, fun rows hrows => ?_⟩
    have hempty : q.hydrate rows = [] := by
      induction rows with
      | nil => exact hydrate_nil q
      | cons row rest ih =>
        have hrest := ih fun r hr => hrows r (List.mem_cons_of_mem _ hr)
        exact (hskipped [] row rest (hrows row List.mem_cons_self)).trans hrest
    rw [hempty, JoinHead.value]
    rfl

/-- A join of joins is the first, below the first, or one of the others. -/
theorem HasJoin.of_cons {i j : JoinHead} {r q : Plan} {rest : List (JoinHead × Plan)}
    (h : HasJoin ((i, r) :: rest) j q) :
    (j = i ∧ q = r) ∨ HasJoin r.joins j q ∨ HasJoin rest j q := by
  cases h with
  | here h =>
    rcases List.mem_cons.mp h with he | h
    · cases he
      exact Or.inl ⟨rfl, rfl⟩
    · exact Or.inr (Or.inr (.here h))
  | inside h tail =>
    rcases List.mem_cons.mp h with he | h
    · cases he
      exact Or.inr (Or.inl tail)
    · exact Or.inr (Or.inr (.inside h tail))

/-- The groups of a plan have a primary key if the types that groups lead to have one. -/
theorem Planned.primary_of_one {d : Dialect} {types : Members ObjectType}
    (htypes : ∀ name o, Members.get? types name = some o → ∀ e ∈ o.fields, ∀ target o',
      e.2.kind = .group target → Members.get? types target = some o' → o'.primary.isSome)
    {o : ObjectType} {aliasName : String} {placed next : Nat} {ss : List Selection} {b : Body}
    (h : Planned d types o aliasName placed next ss b) {name : String}
    (ho : Members.get? types name = some o) {j : JoinHead} {q : Plan} (hj : HasJoin b.joins j q)
    (hone : j.cardinality = .one) : q.head.primary.isSome := by
  induction h generalizing name with
  | nil =>
    cases hj with
    | here h => cases h
    | inside h _ => cases h
  | reserved _ _ ih => exact ih ho hj
  | unread _ _ _ _ _ ih => exact ih ho hj
  | column _ _ _ _ _ ih => exact ih ho hj
  | @join o aliasName placed next s rest inner more f b child _ hf hb _ ha _ ihb ih =>
    obtain ⟨filter, order, _, _, rfl⟩ := assemble_cases ha
    cases hk : f.kind with
    | scalar type =>
      rw [below?_scalar hk] at hb
      cases hb
    | link target =>
      rw [hk] at hb
      obtain ⟨o', ho', rfl⟩ := Option.map_eq_some_iff.mp hb
      rcases hj.of_cons with ⟨rfl, rfl⟩ | hj | hj
      · cases hone
      · exact ihb ho' hj
      · exact ih ho hj
    | group target =>
      rw [hk] at hb
      obtain ⟨o', ho', rfl⟩ := Option.map_eq_some_iff.mp hb
      rcases hj.of_cons with ⟨rfl, rfl⟩ | hj | hj
      · exact htypes name o ho _ (Members.mem_of_get? hf) target o' hk ho'
      · exact ihb ho' hj
      · exact ih ho hj

/-- A join of the statement of a root field, at any depth and in any dialect, passes over the rows in
which it has no match just when its table has a primary key or no content is selected of it. A group
always does. -/
theorem ofRoot_passesOver_iff (tables : List Table) (schema : Schema)
    (hbuild : (Schema.build tables).outcome = .ok schema) (d : Dialect) (f : FieldDef)
    (s : Selection) (p : Plan) (h : ofRoot d schema.types.objects f s = .ok p) (j : JoinHead)
    (q : Plan) (hj : HasJoin p.joins j q) :
    (PassesOver j q ↔ q.head.primary.isSome ∨ ∀ c ∈ q.head.columns, c.presence = false)
      ∧ (j.cardinality = .one → PassesOver j q) := by
  have hlabels : q.labels.Nodup := by
    have hn := ofRoot_nodup_labels h
    obtain ⟨head, joins⟩ := p
    rw [labels] at hn
    exact hj.labels_sublist.nodup (List.nodup_append.mp hn).2.1
  refine ⟨passesOver_iff hlabels, fun hone => (passesOver_iff hlabels).mpr (Or.inl ?_)⟩
  obtain ⟨target, b, inner, hk, hb, hplanned, ha⟩ := ofRoot_eq_ok_iff.mp h
  obtain ⟨filter, order, _, _, rfl⟩ := assemble_cases ha
  rw [hk] at hb
  obtain ⟨o, ho, rfl⟩ := Option.map_eq_some_iff.mp hb
  exact hplanned.primary_of_one (fun _ _ => Schema.primary_of_group hbuild) ho hj hone

/-- Documents without a primary key, each with the one before it. -/
def documentTables : List Table :=
  [⟨"DOC", "DOC", [], [Field.plain "DOC" "NO" .int,
    (Field.plain "DOC" "PREV" .int).references "DOC" "NO", Field.plain "DOC" "BODY" .blob]⟩]

/-- A request for the contents of the documents before. -/
def contentsBefore : Selection :=
  .field "DOC" none [] [.field "nodes" none [] [.field "link_PREV" none []
    [.field "nodes" none [] [.field "BODY" none [] []]]]]

/-- Documents with nothing before them are answered as if there were one without content. -/
theorem not_passesOver_contentsBefore :
    ∃ schema f p j q, (Schema.build documentTables).outcome = .ok schema
      ∧ Members.get? schema.root "DOC" = some f
      ∧ ofRoot (Postgres.dialect "public") schema.types.objects f contentsBefore = .ok p
      ∧ HasJoin p.joins j q ∧ ¬ PassesOver j q := by
  have hplanned : ((Schema.built? documentTables).bind fun schema =>
      (Members.get? schema.root "DOC").bind fun f =>
        (ofRootWithin? (Postgres.dialect "public") schema.types.objects 5 f contentsBefore).map
          fun p => p.joins.map fun e => (e.2.head.primary, e.2.head.columns.map (·.presence)))
      = some [(none, [true])] := by cbv
  obtain ⟨schema, hschema, hp⟩ := Option.bind_eq_some_iff.mp hplanned
  obtain ⟨f, hf, hp⟩ := Option.bind_eq_some_iff.mp hp
  obtain ⟨p, hp, hjoins⟩ := Option.map_eq_some_iff.mp hp
  have hbuild := Schema.build_eq_ok_iff.mpr hschema
  have hroot := (ofRootWithin?_eq_some_iff (by decide)).mp hp
  obtain ⟨⟨j, q⟩, hmem, hhead⟩ := List.mem_map.mp (hjoins ▸ List.mem_singleton_self _)
  rw [Prod.mk.injEq] at hhead
  obtain ⟨hprimary, hpresence⟩ := hhead
  have hj : HasJoin p.joins j q := .here hmem
  have hiff := (ofRoot_passesOver_iff documentTables schema hbuild (Postgres.dialect "public") f
    contentsBefore p hroot j q hj).1
  refine ⟨schema, f, p, j, q, hbuild, hf, hroot, hj, fun hpasses => ?_⟩
  rcases hiff.mp hpasses with hsome | hcolumns
  · rw [hprimary] at hsome
    cases hsome
  · obtain ⟨c, hc, hcontent⟩ := List.mem_map.mp (hpresence ▸ List.mem_singleton_self _)
    rw [hcolumns c hc] at hcontent
    cases hcontent

end Plan

end TableGraph
