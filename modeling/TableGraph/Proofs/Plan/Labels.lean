import Mathlib.Data.List.Flatten
import Mathlib.Data.List.Permutation
import TableGraph.Proofs.Plan.Aliases
import TableGraph.Proofs.Plan.Bounded
import TableGraph.Proofs.Plan.Lookups
import TableGraph.Proofs.Schema.Building
import TableGraph.Proofs.Sql.Token
import TableGraph.Sql.Postgres

/-!
# Written labels

A statement gives labels to what it reads, and the rows are read by these labels. What is written and
what is looked up come from two walks over the plan: each label that is written is looked up, and each
label that is looked up is written, but for the place of a row in a dialect that knows none.
-/

namespace TableGraph

namespace Occurrence

variable {d : Dialect} {o : Occurrence}

/-- What is read from an occurrence, with the labels of it. -/
def readings (d : Dialect) (o : Occurrence) : List (String × String) :=
  (match o.primary with
    | some column => [(d.column o.aliasName column, o.keyLabel)]
    | none => ((d.rowIdentity o.aliasName).map fun expression => (expression, o.rowLabel)).toList)
    ++ o.identity.map (fun x => (d.column o.aliasName x.1, x.2))
    ++ o.columns.map fun c => (c.expression d o.aliasName, c.label)

/-- The labels that a statement gives: that of the primary key, or else of the place of a row, if
there is one, and of what tells rows apart, and those of the columns. -/
def written (d : Dialect) (o : Occurrence) : List String :=
  (match o.primary with
    | some _ => [o.keyLabel]
    | none => ((d.rowIdentity o.aliasName).map fun _ => o.rowLabel).toList ++ o.identity.map (·.2))
    ++ o.columns.map (·.label)

/-- What is read is labelled. -/
theorem selects_eq (d : Dialect) (o : Occurrence) :
    o.selects d = (o.readings d).map fun r => d.labelled r.1 r.2 := by
  unfold selects readings
  simp only [List.map_append, List.map_map]
  congr 2
  cases o.primary with
  | some column => rfl
  | none => cases d.rowIdentity o.aliasName <;> rfl

/-- The labels of what is read. -/
theorem map_snd_readings (h : o.primary.isSome → o.identity = []) :
    (o.readings d).map (·.2) = o.written d := by
  unfold readings written
  cases hp : o.primary with
  | some column =>
    rw [h (by rw [hp]; rfl)]
    simp
  | none => cases d.rowIdentity o.aliasName <;> simp [Function.comp_def]

/-- The written labels are labels of the occurrence, in their order. -/
theorem written_sublist (d : Dialect) (o : Occurrence) : (o.written d).Sublist o.labels := by
  unfold written labels
  refine List.Sublist.append_right ?_ _
  cases o.primary with
  | some column => exact List.Sublist.refl _
  | none =>
    cases d.rowIdentity o.aliasName with
    | some expression => exact List.Sublist.refl _
    | none => exact List.sublist_cons_self _ _

/-- The written labels are all labels of the occurrence, but for the place of a row where the dialect
knows none. -/
theorem mem_written_iff (h : o.labels.Nodup) {label : String} :
    label ∈ o.written d ↔ label ∈ o.labels
      ∧ (o.primary = none → label = o.rowLabel → (d.rowIdentity o.aliasName).isSome) := by
  unfold written labels at *
  cases hp : o.primary with
  | some column => simp
  | none =>
    cases hr : d.rowIdentity o.aliasName with
    | some expression => simp
    | none =>
      rw [hp, List.cons_append] at h
      have hnew := (List.nodup_cons.mp h).1
      constructor
      · intro hl
        refine ⟨List.mem_cons_of_mem _ hl, fun _ he => ?_⟩
        exact absurd (he ▸ hl) hnew
      · rintro ⟨hl, hne⟩
        rcases List.mem_cons.mp hl with he | hl
        · cases hne rfl he
        · exact hl

end Occurrence

namespace Plan

/-- What a plan reads, with the labels of it. -/
def readings (d : Dialect) (p : Plan) : List (String × String) :=
  p.occurrences.flatMap fun o => o.readings d

/-- The labels that the statement of a plan gives. -/
def written (d : Dialect) (p : Plan) : List String :=
  p.occurrences.flatMap fun o => o.written d

/-- What a plan reads is labelled. -/
theorem selectList_eq_readings (d : Dialect) (p : Plan) :
    p.selectList d = (p.readings d).map fun r => d.labelled r.1 r.2 := by
  rw [selectList_eq, readings, List.map_flatMap]
  exact List.flatMap_congr fun o _ => o.selects_eq d

section

variable {d : Dialect} {types : Members ObjectType}

/-- An occurrence with a primary key does not need anything else that tells its rows apart. -/
theorem identity_nil_of_assemble {f : FieldDef} {o : ObjectType} {aliasName : String}
    {args : Members Json} {b : Body} {p : Plan} (h : assemble d f o aliasName args b = .ok p) :
    p.head.primary.isSome → p.head.identity = [] := by
  obtain ⟨filter, order, _, _, rfl⟩ := assemble_cases h
  intro hp
  have hnone : identityColumns o = [] := identityColumns_of_primary hp
  rw [head, hnone]
  rfl

/-- What is joined below a planned occurrence is assembled. -/
theorem Planned.exists_assembled {o : ObjectType} {aliasName : String} {placed next : Nat}
    {ss : List Selection} {b : Body} (h : Planned d types o aliasName placed next ss b) :
    ∀ q ∈ joinOccurrences b.joins, ∃ f o aliasName args b p,
      assemble d f o aliasName args b = .ok p ∧ q = p.head := by
  induction h with
  | nil => exact fun q hq => absurd hq List.not_mem_nil
  | reserved _ _ ih => exact ih
  | unread _ _ _ _ _ ih => exact ih
  | column _ _ _ _ _ ih => exact ih
  | @join o aliasName placed next s rest inner more f b child _ _ _ _ ha _ ihb ih =>
    intro q hq
    simp only [joinOccurrences_cons, occurrences_of_assemble ha, List.mem_append,
      List.mem_cons] at hq
    rcases hq with (rfl | hq) | hq
    · exact ⟨_, _, _, _, _, _, ha, rfl⟩
    · exact ihb q hq
    · exact ih q hq

/-- In a plan only occurrences without a primary key need anything else that tells rows apart. -/
theorem ofRoot_identity_nil {f : FieldDef} {s : Selection} {p : Plan}
    (h : ofRoot d types f s = .ok p) :
    ∀ q ∈ p.occurrences, q.primary.isSome → q.identity = [] := by
  obtain ⟨_, b, inner, _, _, hplanned, ha⟩ := ofRoot_eq_ok_iff.mp h
  intro q hq
  rw [occurrences_of_assemble ha] at hq
  rcases List.mem_cons.mp hq with rfl | hq
  · exact identity_nil_of_assemble ha
  · obtain ⟨f, o, aliasName, args, b, p, ha, rfl⟩ := hplanned.exists_assembled q hq
    exact identity_nil_of_assemble ha

/-- What is planned for fields under different response keys stands under different ones, at each
object. -/
theorem Planned.keysApart {o : ObjectType} {aliasName : String} {placed next : Nat}
    {ss : List Selection} {b : Body} (h : Planned d types o aliasName placed next ss b)
    (hn : (ss.map Selection.responseKey).Nodup) :
    (b.columns.map (·.key) ++ b.joins.map (·.1.key)).Nodup ∧ JoinsKeysApart b.joins := by
  have hnew : ∀ {s : Selection} {rest : List Selection} {o aliasName placed next} {b : Body},
      Planned d types o aliasName placed next rest b →
      ((s :: rest).map Selection.responseKey).Nodup →
        s.responseKey ∉ b.columns.map (·.key) ++ b.joins.map (·.1.key) := by
    intro s rest o aliasName placed next b hrest hs hmem
    refine (List.nodup_cons.mp hs).1 ?_
    rcases List.mem_append.mp hmem with hmem | hmem
    · obtain ⟨c, hc, he⟩ := List.mem_map.mp hmem
      exact he ▸ hrest.keys.1 c hc
    · obtain ⟨j, hj, he⟩ := List.mem_map.mp hmem
      exact he ▸ hrest.keys.2 j hj
  induction h with
  | nil => exact ⟨List.nodup_nil, trivial⟩
  | reserved _ _ ih => exact ih (List.nodup_cons.mp hn).2
  | unread _ _ _ _ _ ih => exact ih (List.nodup_cons.mp hn).2
  | column _ _ _ _ tail ih =>
    obtain ⟨hkeys, hbelow⟩ := ih (List.nodup_cons.mp hn).2
    exact ⟨List.nodup_cons.mpr ⟨hnew tail hn, hkeys⟩, hbelow⟩
  | join _ _ _ _ ha tail ihb ih =>
    obtain ⟨hkeys, hbelow⟩ := ih (List.nodup_cons.mp hn).2
    obtain ⟨filter, order, _, _, rfl⟩ := assemble_cases ha
    refine ⟨?_, ihb (Selection.nodup_responseKeys_merge _), hbelow⟩
    rw [List.map_cons, List.nodup_middle]
    exact List.nodup_cons.mpr ⟨hnew tail hn, hkeys⟩

/-- The members of the objects of a plan stand under different response keys. -/
theorem ofRoot_keysApart {f : FieldDef} {s : Selection} {p : Plan}
    (h : ofRoot d types f s = .ok p) : p.KeysApart := by
  obtain ⟨_, b, inner, _, _, hplanned, ha⟩ := ofRoot_eq_ok_iff.mp h
  obtain ⟨filter, order, _, _, rfl⟩ := assemble_cases ha
  exact hplanned.keysApart (Selection.nodup_responseKeys_merge _)

/-- The written labels of a plan are its labels, but for the place of a row where the dialect knows
none. -/
theorem ofRoot_mem_written_iff {f : FieldDef} {s : Selection} {p : Plan}
    (h : ofRoot d types f s = .ok p) (d' : Dialect) {label : String} :
    label ∈ p.written d' ↔ label ∈ p.labels
      ∧ ∀ o ∈ p.occurrences, o.primary = none → label = o.rowLabel →
        (d'.rowIdentity o.aliasName).isSome := by
  have hnumbered := ofRoot_numbered h
  rw [labels_eq, written, List.mem_flatMap, List.mem_flatMap]
  constructor
  · rintro ⟨o, ho, hl⟩
    obtain ⟨hlabel, hrow⟩ := (Occurrence.mem_written_iff (hnumbered o ho).nodup_labels).mp hl
    refine ⟨⟨o, ho, hlabel⟩, fun q hq hp he => ?_⟩
    have hmem : label ∈ q.labels := by
      rw [Occurrence.labels, hp, he]
      exact List.mem_cons_self
    have hsame : o = q := List.inj_on_of_nodup_map (ofRoot_nodup_aliases h) ho hq
      ((hnumbered o ho).aliasName_eq (hnumbered q hq) hlabel hmem)
    subst hsame
    exact hrow hp he
  · rintro ⟨⟨o, ho, hlabel⟩, hrow⟩
    exact ⟨o, ho, (Occurrence.mem_written_iff (hnumbered o ho).nodup_labels).mpr
      ⟨hlabel, hrow o ho⟩⟩

/-- No label of a plan is that of the row numbers. -/
theorem ofRoot_row_not_mem_labels {f : FieldDef} {s : Selection} {p : Plan}
    (h : ofRoot d types f s = .ok p) : "$row" ∉ p.labels := by
  rw [labels_eq]
  intro hmem
  obtain ⟨o, ho, hl⟩ := List.mem_flatMap.mp hmem
  obtain ⟨ending, he, _⟩ := (ofRoot_numbered h o ho).label_eq hl
  obtain ⟨n, hn⟩ := (ofRoot_numbered h o ho).place
  rw [hn, aliasOf] at he
  simp at he

end

/-- The labels that the statement of a plan writes and those that its rows are read by agree. -/
structure LabelsAgree (d : Dialect) (p : Plan) : Prop where
  /-- Everything that is read stands in front of its quoted label. -/
  labelled : p.selectList d = (p.readings d).map fun r => r.1 ++ " AS " ++ d.quote r.2
  /-- The labels are the written ones, in order. -/
  written : (p.readings d).map (·.2) = p.written d
  /-- No two of them are the same, and none is that of the row numbers. -/
  distinct : (p.written d ++ ["$row"]).Nodup
  /-- Nor are two the same as they stand in the statement. -/
  quoted : ((p.written d ++ ["$row"]).map d.quote).Nodup
  /-- They are the labels that are looked up, except that the place of a row is looked up in rows of
  a dialect that knows none, too. -/
  looksUp : ∀ label, label ∈ p.written d ↔ p.LooksUp label
    ∧ ∀ o ∈ p.occurrences, o.primary = none → label = o.rowLabel →
      (d.rowIdentity o.aliasName).isSome

/-- The labels of a plan agree in every dialect that quotes different identifiers differently, and a
Postgres statement reads something. -/
theorem ofRoot_labelsAgree (planning : Dialect) (types : Members ObjectType) (f : FieldDef)
    (s : Selection) (p : Plan) (h : ofRoot planning types f s = .ok p) :
    (∀ d : Dialect, Function.Injective d.quote → p.LabelsAgree d)
      ∧ ∀ schema, p.selectList (Postgres.dialect schema) ≠ [] := by
  have hlabels := ofRoot_nodup_labels h
  constructor
  · intro d hquote
    have hsub : (p.written d).Sublist p.labels := by
      rw [labels_eq]
      exact List.Sublist.flatMap_right _ fun o _ => o.written_sublist d
    have hdistinct : (p.written d ++ ["$row"]).Nodup := by
      rw [List.nodup_append_comm]
      exact List.nodup_cons.mpr
        ⟨fun hmem => ofRoot_row_not_mem_labels h (hsub.subset hmem), hlabels.sublist hsub⟩
    refine ⟨p.selectList_eq_readings d, ?_, hdistinct, hdistinct.map hquote, ?_⟩
    · rw [readings, List.map_flatMap]
      exact List.flatMap_congr fun o ho => Occurrence.map_snd_readings (ofRoot_identity_nil h o ho)
    · intro label
      rw [looksUp_iff hlabels (ofRoot_keysApart h)]
      exact ofRoot_mem_written_iff h d
  · intro schema hnil
    obtain ⟨head, joins⟩ := p
    rw [selectList, Occurrence.selects] at hnil
    cases hp : head.primary <;> simp [hp, Postgres.dialect] at hnil

/-- A table without a primary key that refers to itself. -/
def noteTables : List Table :=
  [⟨"NOTE", "NOTE", [], [Field.plain "NOTE" "NO" .int, Field.plain "NOTE" "TEXT" .string,
    (Field.plain "NOTE" "REPLY" .int).references "NOTE" "NO"]⟩]

/-- A request for rows with those they refer to, where a column is asked for twice. -/
def notesWithReplies : Selection :=
  .field "NOTE" none [] [.field "nodes" none []
    [.field "TEXT" none [] [], .field "TEXT" (some "again") [] [],
      .field "link_REPLY" none [] [.field "nodes" none [] [.field "TEXT" none [] []]]]]

/-- The labels of the request. -/
theorem labelsAgree_notesWithReplies :
    ∃ schema f p, (Schema.build noteTables).outcome = .ok schema
      ∧ Members.get? schema.root "NOTE" = some f
      ∧ ofRoot (Postgres.dialect "public") schema.types.objects f notesWithReplies = .ok p
      ∧ p.written (Postgres.dialect "public")
        = ["t0_rid", "t0_k0", "t0_k1", "t0_c0", "t0_c1", "t1_rid", "t1_k0", "t1_k1", "t1_c0"]
      ∧ p.LabelsAgree (Postgres.dialect "public")
      ∧ p.selectList (Postgres.dialect "public") ≠ [] := by
  have hplanned : ((Schema.built? noteTables).bind fun schema =>
      (Members.get? schema.root "NOTE").bind fun f =>
        (ofRootWithin? (Postgres.dialect "public") schema.types.objects 8 f notesWithReplies).map
          fun p => p.written (Postgres.dialect "public"))
      = some ["t0_rid", "t0_k0", "t0_k1", "t0_c0", "t0_c1", "t1_rid", "t1_k0", "t1_k1",
        "t1_c0"] := by cbv
  obtain ⟨schema, hschema, hp⟩ := Option.bind_eq_some_iff.mp hplanned
  obtain ⟨f, hf, hp⟩ := Option.bind_eq_some_iff.mp hp
  obtain ⟨p, hp, hwritten⟩ := Option.map_eq_some_iff.mp hp
  have hroot := (ofRootWithin?_eq_some_iff (by decide)).mp hp
  have hquote : Function.Injective (Postgres.dialect "public").quote :=
    Sql.quoteIdentifier_injective
  obtain ⟨hagree, hread⟩ := ofRoot_labelsAgree (Postgres.dialect "public") schema.types.objects f
    notesWithReplies p hroot
  exact ⟨schema, f, p, Schema.build_eq_ok_iff.mpr hschema, hf, hroot, hwritten,
    hagree (Postgres.dialect "public") hquote, hread "public"⟩

end Plan

end TableGraph
