import TableGraph.Plan.Planning
import TableGraph.Proofs.Schema.Ownership

/-!
# Which table the rows of a type come from

The rows of an object type are those of one table: its primary key and the columns of its fields are
columns of that table. A field that leads to further rows speaks of the table these come from, and
is joined from a column of the one table to a column of the other. The table of a group is the one
the group is in, as long as no two groups have the same text.
-/

namespace TableGraph

/-- Whether a table has a column. -/
def Table.HasColumn (t : Table) (column : String) : Prop := ∃ f ∈ t.fields, f.name = column

/-- The primary key is a column. -/
theorem Shape.hasColumn_of_primary {s : Shape} {column : String} (h : s.primary? = some column) :
    s.table.HasColumn column := by
  obtain ⟨f, hf, rfl⟩ := Option.map_eq_some_iff.mp h
  exact ⟨f, List.mem_of_find?_eq_some hf, rfl⟩

namespace Schema

/-- The rows of an object type are those of a table, and its fields are fields of the table. -/
structure RowsOf (schema : Schema) (s : Shape) (o : ObjectType) : Prop where
  /-- The table. -/
  table : o.table = s.table.name
  /-- The primary key. -/
  primary : o.primary = s.primary?
  /-- Each field is that of a column or of a group. -/
  fields : ∀ e ∈ o.fields, (∃ f ∈ s.table.fields, Shape.fieldOf? schema.tables s f = some e.2)
    ∨ ∃ g ∈ s.listedGroups schema.tables, g.ShownBy schema e.2

variable {tables : List Table} {schema : Schema} {s : Shape} {o : ObjectType}

/-- The fields of columns are those of columns. -/
theorem mem_columnFields {shapes : List Shape} {fields : List Field} {e : String × FieldDef}
    (h : e ∈ Shape.columnFields shapes s fields) :
    ∃ f ∈ fields, Shape.fieldOf? shapes s f = some e.2 := by
  obtain ⟨d, hd, rfl⟩ := List.mem_map.mp (Members.mem_ofList h)
  exact List.mem_filterMap.mp hd

/-- The field of a column leads to no group. -/
theorem kind_ne_group {shapes : List Shape} {fields : List Field} {e : String × FieldDef}
    (h : e ∈ Shape.columnFields shapes s fields) (target : String) : e.2.kind ≠ .group target := by
  obtain ⟨f, _, hd⟩ := mem_columnFields h
  rcases Shape.fieldOf?_cases hd with ⟨_, hd⟩ | ⟨t, _, hd⟩ <;> rw [hd] <;> exact nofun

/-- The type that a group leads to has a primary key. -/
theorem primary_of_group (hbuild : (build tables).outcome = .ok schema) {name : String}
    (ho : Members.get? schema.types.objects name = some o) (e : String × FieldDef)
    (he : e ∈ o.fields) (target : String) (o' : ObjectType) (hk : e.2.kind = .group target)
    (ho' : Members.get? schema.types.objects target = some o') : o'.primary.isSome := by
  rcases object_cases hbuild ho with ⟨s, hs, rfl⟩ | ⟨g, _, _, _, rfl⟩
  · obtain ⟨gs, hgs, hget⟩ := object_of_table hbuild hs
    rw [ho, Option.some.injEq] at hget
    subst hget
    rcases ObjectType.mem_withFields he with he | he
    · exact absurd hk (kind_ne_group he target)
    · obtain ⟨g, _, o, key, _, hself, hkey, hd⟩ := exists_of_mem_forall₂ hgs.flip he
      rw [hd] at hk
      cases hk
      rw [ho', Option.some.injEq] at hself
      rw [hself, hkey]
      rfl
  · exact absurd hk (kind_ne_group he target)

/-- The rows of the object type of a table are its own. -/
theorem rowsOf_table (hbuild : (build tables).outcome = .ok schema) (hs : s ∈ schema.tables)
    (ho : Members.get? schema.types.objects s.name = some o) : RowsOf schema s o := by
  obtain ⟨gs, hgs, hget⟩ := object_of_table hbuild hs
  rw [ho, Option.some.injEq] at hget
  subst hget
  refine ⟨rfl, rfl, fun e he => ?_⟩
  rcases ObjectType.mem_withFields he with he | he
  · exact Or.inl (mem_columnFields he)
  · exact Or.inr (exists_of_mem_forall₂ hgs.flip he)

/-- The rows of the object type of a group are those of the table the group is in. -/
theorem rowsOf_group (hbuild : (build tables).outcome = .ok schema)
    (htexts : ∀ g ∈ Group.listed schema.tables, ∀ g' ∈ Group.listed schema.tables,
      g.base = g'.base → g = g') {g : Group} (hg : g ∈ Group.listed schema.tables)
    (ho : schema.groupType? g = some o) : RowsOf schema g.shape o := by
  obtain ⟨_, _, htypes⟩ := groupType?_of_listed hbuild
  obtain ⟨first, name, hfirst, _, htype⟩ := htypes g hg
  obtain ⟨hmade, hshown, hbase⟩ := Group.first?_eq_some hfirst
  cases htexts first (Group.mem_listedFrom_of_isShown hmade hshown) g hg hbase
  rw [ho, Option.some.injEq] at htype
  subst htype
  refine ⟨rfl, rfl, fun e he => ?_⟩
  obtain ⟨f, hf, hd⟩ := mem_columnFields he
  exact Or.inl ⟨f, List.mem_of_mem_filter hf, hd⟩

/-- A value is read from a column of the table. -/
theorem RowsOf.hasColumn (h : RowsOf schema s o) {e : String × FieldDef} (he : e ∈ o.fields)
    {type : Scalar} (hk : e.2.kind = .scalar type) {column : String}
    (hc : e.2.column = some column) : s.table.HasColumn column := by
  rcases h.fields e he with ⟨f, hf, hd⟩ | ⟨g, _, o', key, _, _, _, hd⟩
  · rcases Shape.fieldOf?_cases hd with ⟨_, hd⟩ | ⟨t, _, hd⟩
    · rw [hd] at hc
      exact ⟨f, hf, Option.some.inj hc⟩
    · rw [hd] at hk
      cases hk
  · rw [hd] at hk
    cases hk

/-- The columns that tell rows apart are columns of the table. -/
theorem RowsOf.hasColumn_of_identity (h : RowsOf schema s o) {column : String}
    (hc : column ∈ Plan.identityColumns o) : s.table.HasColumn column := by
  unfold Plan.identityColumns at hc
  cases hp : o.primary with
  | some key =>
    rw [hp] at hc
    cases hc
  | none =>
    rw [hp] at hc
    obtain ⟨f, hf, hc⟩ := List.mem_filterMap.mp hc
    obtain ⟨e, he, rfl⟩ := List.mem_map.mp hf
    cases hk : e.2.kind with
    | scalar type =>
      have hcolumn : e.2.column = some column := by
        rw [hk] at hc
        cases type <;> first | exact hc | cases hc
      exact h.hasColumn he hk hcolumn
    | link target =>
      rw [hk] at hc
      cases hc
    | group target =>
      rw [hk] at hc
      cases hc

/-- The column a reference is joined on is one of the table it leads to. -/
theorem hasColumn_of_joinColumn? (hbuild : (build tables).outcome = .ok schema)
    (hreferences : ∀ t ∈ tables, ∀ f ∈ t.fields, ∀ name column u, f.tableRef = some name →
      f.fieldRef = some column → Table.byName? tables name = some u → u.HasColumn column)
    (hs : s ∈ schema.tables) {f : Field} (hf : f ∈ s.table.fields) {target : Shape}
    (htarget : target ∈ schema.tables) (href : f.tableRef = some target.table.name)
    {column : String} (hjoin : f.joinColumn? target.table = some column) :
    target.table.HasColumn column := by
  unfold Field.joinColumn? at hjoin
  cases hc : f.fieldRef with
  | some c =>
    rw [hc, Option.some_or, Option.some.injEq] at hjoin
    subst hjoin
    exact hreferences _ (table_mem hbuild hs) f hf _ c _ href hc (byName?_of_mem hbuild htarget)
  | none =>
    rw [hc, Option.none_or] at hjoin
    exact Shape.hasColumn_of_primary hjoin

/-- A field that leads to rows speaks of their table, and is joined from a column of the table it is
on to a column of theirs. -/
theorem RowsOf.below (hbuild : (build tables).outcome = .ok schema)
    (htexts : ∀ g ∈ Group.listed schema.tables, ∀ g' ∈ Group.listed schema.tables,
      g.base = g'.base → g = g')
    (hreferences : ∀ t ∈ tables, ∀ f ∈ t.fields, ∀ name column u, f.tableRef = some name →
      f.fieldRef = some column → Table.byName? tables name = some u → u.HasColumn column)
    (hs : s ∈ schema.tables) (h : RowsOf schema s o) {e : String × FieldDef} (he : e ∈ o.fields)
    {children : List Selection} {b : Plan.Below}
    (hb : Plan.below? schema.types.objects children e.2.kind = some b) :
    e.2.shape ∈ schema.tables ∧ RowsOf schema e.2.shape b.type
      ∧ ∃ key, e.2.join = some key ∧ s.table.HasColumn key.parent
        ∧ e.2.shape.table.HasColumn key.child := by
  rcases h.fields e he with ⟨f, hf, hd⟩ | ⟨g, hg, o', key, htype, hget, hkey, hd⟩
  · rcases Shape.fieldOf?_cases hd with ⟨_, hd⟩ | ⟨t, ht, hd⟩
    · rw [hd] at hb
      cases hb
    · rw [hd] at hb ⊢
      obtain ⟨htarget, hjoin⟩ := Shape.target?_eq_some ht
      obtain ⟨o', ho', rfl⟩ := Option.map_eq_some_iff.mp hb
      refine ⟨htarget, rowsOf_table hbuild htarget ho', _, rfl, ⟨f, hf, rfl⟩, ?_⟩
      exact hasColumn_of_joinColumn? hbuild hreferences hs hf htarget (Shape.tableRef_of_target? ht)
        hjoin
  · obtain ⟨hlisted, rfl⟩ := Shape.mem_listedGroups.mp hg
    rw [hd] at hb ⊢
    obtain ⟨o'', ho'', rfl⟩ := Option.map_eq_some_iff.mp hb
    have hsame : o' = o'' := Option.some.inj (hget.symm.trans ho'')
    subst hsame
    have hrows := rowsOf_group hbuild htexts hlisted htype
    have hcolumn := Shape.hasColumn_of_primary (hrows.primary.symm.trans hkey)
    exact ⟨hs, hrows, _, rfl, hcolumn, hcolumn⟩

end Schema

end TableGraph
