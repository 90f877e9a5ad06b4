import TableGraph.Proofs.Plan.Aliases
import TableGraph.Proofs.Plan.Bounded
import TableGraph.Proofs.Plan.Phrase
import TableGraph.Sql.Postgres

/-!
# Statements that are well scoped

Planning hands out the aliases of occurrences one after another, depth first, and names columns only
of the table that an occurrence is of. So every part of a statement keeps to the occurrences that the
statement introduces, and the condition of a join keeps to the two occurrences it is about.
-/

namespace TableGraph.Plan

variable {tables : List Table} {schema : Schema} {d : Dialect}

/-- The condition of a join keeps to the two occurrences, if the join is made of columns of their
tables. -/
theorem phrase_onText {f : FieldDef} {parent : Occurrence} {child : Plan}
    (hchild : child.head.Fits d tables) {key : JoinKey} (hkey : f.join = some key)
    (hp : parent.HasColumn tables key.parent) (hc : child.head.HasColumn tables key.child) :
    d.Phrase tables [parent, child.head] [] (onText d f parent.aliasName child) := by
  have hparent : parent ∈ [parent, child.head] := List.mem_cons_self
  have hmem : child.head ∈ [parent, child.head] := List.mem_cons_of_mem _ (List.mem_singleton_self _)
  have hjoin : d.Phrase tables [parent, child.head] []
      (FieldDef.joinText d parent.aliasName child.head.aliasName key) :=
    ((Dialect.Phrase.ofColumn hparent hp).append (.word (by decide))).append (.ofColumn hmem hc)
  unfold onText
  rw [hkey]
  dsimp only
  split
  · exact hjoin
  · exact ((hjoin.append (.word (by decide))).append (hchild.phrase_filter hmem)).append
      (.word (by decide))

section

variable (hbuild : (Schema.build tables).outcome = .ok schema)
  (htexts : ∀ g ∈ Group.listed schema.tables, ∀ g' ∈ Group.listed schema.tables,
    g.base = g'.base → g = g')
  (hreferences : ∀ t ∈ tables, ∀ f ∈ t.fields, ∀ name column u, f.tableRef = some name →
    f.fieldRef = some column → Table.byName? tables name = some u → u.HasColumn column)

include hbuild

/-- An occurrence of a table of a schema has the columns of the table. -/
theorem hasColumn_of_table {s : Shape} (hs : s ∈ schema.tables) {q : Occurrence}
    (hq : q.table = s.table.name) {column : String} (h : s.table.HasColumn column) :
    q.HasColumn tables column := by
  obtain ⟨g, hg, rfl⟩ := h
  exact ⟨g, ⟨_, hq ▸ Schema.byName?_of_mem hbuild hs, hg⟩, rfl⟩

/-- The occurrence behind a field names columns of its table only, if the selected ones are. -/
theorem fits_of_assemble {f : FieldDef} {o : ObjectType} {aliasName : String} {args : Members Json}
    {b : Body} {p : Plan} (h : assemble d f o aliasName args b = .ok p)
    (hs : f.shape ∈ schema.tables) (hrows : schema.RowsOf f.shape o)
    (hcolumns : ∀ c ∈ b.columns, f.shape.table.HasColumn c.column) : p.head.Fits d tables := by
  obtain ⟨filter, order, hfilter, horder, rfl⟩ := assemble_cases h
  have htable : Table.byName? tables o.table = some f.shape.table :=
    hrows.table ▸ Schema.byName?_of_mem hbuild hs
  have hhas : ∀ {column}, f.shape.table.HasColumn column →
      Occurrence.HasColumn tables ⟨aliasName, o.table, o.primary,
        (identityColumns o).zipIdx.map fun x => (x.1, identityLabel aliasName x.2), b.columns,
        filter, order.getD []⟩ column := fun hc => hasColumn_of_table hbuild hs hrows.table hc
  refine ⟨⟨_, htable⟩, ?_, ?_, ?_, fun c hc => hhas (hcolumns c hc), ?_, ?_⟩
  · intro column hp
    exact hhas (Shape.hasColumn_of_primary (hrows.primary.symm.trans hp))
  · intro x hx
    obtain ⟨y, hy, rfl⟩ := List.mem_map.mp hx
    exact hhas (hrows.hasColumn_of_identity (List.fst_mem_of_mem_zipIdx hy))
  · intro hp
    rw [identityColumns_of_primary hp]
    rfl
  · intro x hx
    obtain ⟨g, hg, he⟩ := Ordering.ofArgument_within horder x hx
    exact hhas ⟨g, hg, he⟩
  · unfold Filter.argumentText at hfilter
    obtain ⟨φ, hφ, hfilter⟩ := bind_eq_ok_iff.mp hfilter
    cases hfilter
    exact ⟨φ, (Filter.ofJson_about hφ).mono fun c hc => ⟨_, htable, hc⟩, rfl⟩

include htexts hreferences

/-- What is planned on an occurrence of a table names columns of the table only, and so does
everything joined below it, on conditions that keep to the two occurrences. -/
theorem Planned.fits {o : ObjectType} {aliasName : String} {placed next : Nat}
    {ss : List Selection} {b : Body} (h : Planned d schema.types.objects o aliasName placed next ss b)
    {s : Shape} (hs : s ∈ schema.tables) (hrows : schema.RowsOf s o) :
    (∀ c ∈ b.columns, s.table.HasColumn c.column)
      ∧ ∀ parent : Occurrence, parent.aliasName = aliasName → parent.table = o.table →
        ∀ e ∈ joinedBelow parent b.joins, e.child.Fits d tables
          ∧ d.Phrase tables [e.parent, e.child] [] e.head.condition := by
  induction h generalizing s with
  | nil => exact ⟨fun c hc => absurd hc List.not_mem_nil, fun _ _ _ e he => absurd he List.not_mem_nil⟩
  | reserved _ _ ih => exact ih hs hrows
  | unread _ _ _ _ _ ih => exact ih hs hrows
  | column _ hf hk hc _ ih =>
    obtain ⟨hcolumns, hjoins⟩ := ih hs hrows
    refine ⟨?_, hjoins⟩
    intro c hmem
    rcases List.mem_cons.mp hmem with rfl | hmem
    · exact hrows.hasColumn (Members.mem_of_get? hf) hk hc
    · exact hcolumns c hmem
  | @join o aliasName placed next sel rest inner more f b child _ hf hb _ ha _ ihb ih =>
    obtain ⟨hcolumns, hjoins⟩ := ih hs hrows
    refine ⟨hcolumns, ?_⟩
    obtain ⟨htarget, hbelow, key, hkey, hparentKey, hchildKey⟩ :=
      hrows.below hbuild htexts hreferences hs (Members.mem_of_get? hf) hb
    obtain ⟨hinner, hinnerJoins⟩ := ihb htarget hbelow
    have hchild := fits_of_assemble hbuild ha htarget hbelow hinner
    obtain ⟨filter, order, _, _, hnode⟩ := assemble_cases ha
    have hheadTable : child.head.table = f.shape.table.name := by
      rw [hnode]
      exact hbelow.table
    have hheadAlias : child.head.aliasName = aliasOf next := aliasName_of_assemble ha
    -- A join below is the one of the field, one below it, or one of a later field. The parent comes
    -- with its alias and table only, since its columns are not planned to the end yet.
    intro parent hpa hpt e he
    rw [joinedBelow] at he
    rcases List.mem_cons.mp he with rfl | he
    · refine ⟨hchild, ?_⟩
      rw [← hpa]
      exact phrase_onText hchild hkey
        (hasColumn_of_table hbuild hs (hpt.trans hrows.table) hparentKey)
        (hasColumn_of_table hbuild htarget hheadTable hchildKey)
    · rcases List.mem_append.mp he with he | he
      · rw [joined_of_assemble ha] at he
        exact hinnerJoins child.head hheadAlias (by rw [hnode]; rfl) e he
      · exact hjoins parent hpa hpt e he

/-- The plan of a root field names columns of the tables of its occurrences only, on conditions that
keep to the two occurrences. -/
theorem ofRoot_fits {name : String} {f : FieldDef} (hf : Members.get? schema.root name = some f)
    {s : Selection} {p : Plan} (h : ofRoot d schema.types.objects f s = .ok p) :
    (∀ o ∈ p.occurrences, o.Fits d tables)
      ∧ ∀ e ∈ p.joined, d.Phrase tables [e.parent, e.child] [] e.head.condition := by
  obtain ⟨target, b, inner, hk, hb, hplanned, ha⟩ := ofRoot_eq_ok_iff.mp h
  obtain ⟨shape, hs, hroot⟩ := Schema.exists_rootDef hbuild (Members.mem_of_get? hf)
  obtain rfl : f = shape.rootDef := hroot
  obtain ⟨o, ho, rfl⟩ := Option.map_eq_some_iff.mp hb
  have hrows := Schema.rowsOf_table hbuild hs ho
  obtain ⟨hcolumns, hjoins⟩ := hplanned.fits hbuild htexts hreferences hs hrows
  have hhead := fits_of_assemble hbuild ha hs hrows hcolumns
  have htable : p.head.table = o.table := by
    obtain ⟨filter, order, _, _, rfl⟩ := assemble_cases ha
    rfl
  have hbelow := hjoins p.head (aliasName_of_assemble ha) htable
  rw [← joined_of_assemble ha] at hbelow
  refine ⟨fun q hq => ?_, fun e he => (hbelow e he).2⟩
  rcases List.mem_cons.mp hq with rfl | hq
  · exact hhead
  · obtain ⟨e, he, rfl⟩ := List.mem_map.mp hq
    exact (hbelow e he).1

end

/-- A statement is well scoped. -/
structure Scoped (d : Dialect) (tables : List Table) (p : Plan) : Prop where
  /-- The aliases, depth first, are numbered from zero on. -/
  aliases : p.occurrences.map (·.aliasName) = (List.range p.occurrences.length).map aliasOf
  /-- No two occurrences have the same alias. -/
  distinct : (p.occurrences.map (·.aliasName)).Nodup
  /-- Each occurrence is of a table there is and names its columns only. -/
  fits : ∀ o ∈ p.occurrences, o.Fits d tables
  /-- The tables are introduced in this order. -/
  sources : p.fromClause d = d.tableRef p.head.table ++ " " ++ p.head.aliasName
    ++ String.join (p.joined.map (Joined.clause d))
  /-- A join is to an occurrence that stands before it, and its condition keeps to the two. -/
  conditions : ∀ before e after, p.joined = before ++ e :: after →
    e.parent ∈ p.head :: before.map (·.child)
      ∧ d.Phrase tables [e.parent, e.child] [] e.head.condition
  /-- The filter behind `WHERE` keeps to the root. -/
  filter : d.Phrase tables [p.head] [] p.head.filter
  /-- What is read keeps to the occurrences of the plan. -/
  selects : ∀ x ∈ p.selectList d, d.Phrase tables p.occurrences p.labels x
  /-- What is ordered by keeps to the occurrences of the plan. -/
  terms : ∀ x ∈ p.orderTerms d, d.Phrase tables p.occurrences [] x

/-- The statement of every root field that can be planned is well scoped, in any dialect, if refs are
numbered and the columns that references name are there. -/
theorem ofRoot_scoped (tables : List Table) (schema : Schema)
    (hbuild : (Schema.build tables).outcome = .ok schema)
    (hnumbers : ∀ t ∈ tables, ∀ f ∈ t.fields, ∀ r ∈ f.refs, ∃ i, r.id = .number i)
    (hreferences : ∀ t ∈ tables, ∀ f ∈ t.fields, ∀ name column u, f.tableRef = some name →
      f.fieldRef = some column → Table.byName? tables name = some u → u.HasColumn column)
    (name : String) (f : FieldDef) (hf : Members.get? schema.root name = some f) (d : Dialect)
    (s : Selection) (p : Plan) (h : ofRoot d schema.types.objects f s = .ok p) :
    p.Scoped d tables := by
  have htexts : ∀ g ∈ Group.listed schema.tables, ∀ g' ∈ Group.listed schema.tables,
      g.base = g'.base → g = g' := fun g hg g' hg' => Schema.eq_of_base_eq hbuild hnumbers hg hg'
  obtain ⟨hfits, hconditions⟩ := ofRoot_fits hbuild htexts hreferences hf h
  refine ⟨ofRoot_aliases h, ?_, hfits, ?_, ?_, ?_, ?_, ?_⟩
  · rw [ofRoot_aliases h]
    exact List.nodup_range.map aliasOf_injective
  · rw [fromClause, joinClauses_eq]
  · intro before e after he
    refine ⟨parent_mem_of_joined p before after e he, hconditions e ?_⟩
    rw [he]
    exact List.mem_append_right _ List.mem_cons_self
  · exact (hfits p.head List.mem_cons_self).phrase_filter (List.mem_singleton_self _)
  · intro x hx
    rw [selectList_eq] at hx
    obtain ⟨o, ho, hx⟩ := List.mem_flatMap.mp hx
    refine (hfits o ho).phrase_selects ho ?_ x hx
    intro label hlabel
    rw [labels_eq]
    exact List.mem_flatMap.mpr ⟨o, ho, hlabel⟩
  · intro x hx
    rw [orderTerms_eq] at hx
    obtain ⟨o, ho, hx⟩ := List.mem_flatMap.mp hx
    exact (hfits o ho).phrase_terms ho x hx

/-- A table that refers to itself and has a group. -/
def staffTables : List Table :=
  [⟨"STAFF", "STAFF", [], [(Field.plain "STAFF" "ID" .int).asPrimary,
    (Field.plain "STAFF" "BOSS" .int).references "STAFF" "ID",
    (Field.plain "STAFF" "NAME" .string).withRef ⟨.number 1, none, []⟩]⟩]

/-- A request for rows with those they refer to, where these have a name, and with their group. -/
def staffWithBosses : Selection :=
  .field "STAFF" none [] [.field "nodes" none []
    [.field "link_BOSS" none [("where", .obj [("isNull", .str "NAME")])]
      [.field "nodes" none [] [.field "link_1" none [] [.field "NAME" none [] []]]],
    .field "link_1" none [] [.field "NAME" none [] []]]]

/-- The statement of the request joins the table to itself, three times over. -/
theorem scoped_staffWithBosses :
    ∃ schema f p, (Schema.build staffTables).outcome = .ok schema
      ∧ Members.get? schema.root "STAFF" = some f
      ∧ ofRoot (Postgres.dialect "public") schema.types.objects f staffWithBosses = .ok p
      ∧ p.occurrences.map (·.aliasName) = ["t0", "t1", "t2", "t3"]
      ∧ p.Scoped (Postgres.dialect "public") staffTables := by
  have hplanned : ((Schema.built? staffTables).bind fun schema =>
      (Members.get? schema.root "STAFF").bind fun f =>
        (ofRootWithin? (Postgres.dialect "public") schema.types.objects 8 f staffWithBosses).map
          fun p => p.occurrences.map (·.aliasName))
      = some ["t0", "t1", "t2", "t3"] := by cbv
  obtain ⟨schema, hschema, hp⟩ := Option.bind_eq_some_iff.mp hplanned
  obtain ⟨f, hf, hp⟩ := Option.bind_eq_some_iff.mp hp
  obtain ⟨p, hp, haliases⟩ := Option.map_eq_some_iff.mp hp
  have hbuild := Schema.build_eq_ok_iff.mpr hschema
  have hroot := (ofRootWithin?_eq_some_iff (by decide)).mp hp
  have hnumbers : ∀ t ∈ staffTables, ∀ f ∈ t.fields, ∀ r ∈ f.refs, ∃ i, r.id = .number i := by
    have hone : ∀ t ∈ staffTables, ∀ f ∈ t.fields, ∀ r ∈ f.refs, r.id = .number 1 := by decide
    exact fun t ht f hf r hr => ⟨1, hone t ht f hf r hr⟩
  have hreferences : ∀ t ∈ staffTables, ∀ f ∈ t.fields, ∀ name column u, f.tableRef = some name →
      f.fieldRef = some column → Table.byName? staffTables name = some u → u.HasColumn column := by
    have hkey : ∀ u ∈ staffTables, ∃ f ∈ u.fields, f.name = "ID" := by decide
    have hself : ∀ t ∈ staffTables, ∀ f ∈ t.fields, ∀ column, f.fieldRef = some column →
        column = "ID" := by
      have hcolumn : ∀ t ∈ staffTables, ∀ f ∈ t.fields, f.fieldRef.getD "ID" = "ID" := by decide
      intro t ht f hf column hc
      have hid := hcolumn t ht f hf
      rwa [hc, Option.getD_some] at hid
    intro t ht f hf name column u _ hc hu
    rw [hself t ht f hf column hc]
    exact hkey u (List.mem_of_find?_eq_some hu)
  exact ⟨schema, f, p, hbuild, hf, hroot, haliases, ofRoot_scoped staffTables schema hbuild hnumbers
    hreferences "STAFF" f hf (Postgres.dialect "public") staffWithBosses p hroot⟩

end TableGraph.Plan
