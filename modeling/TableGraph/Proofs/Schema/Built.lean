import TableGraph.Proofs.Schema.Columns
import TableGraph.Proofs.Schema.Reached

/-!
# The tables and types of a schema

The tables that a schema shows have different names, and each has an object type with the fields of
its columns, followed by the fields of its groups. Each of these leads to the type of the text of
its group. There are no other types.
-/

namespace TableGraph

namespace Schema

variable {tables : List Table} {schema : Schema} {s : Shape}

/-- The tables of a schema are those that can be shown. -/
theorem tables_eq (hbuild : (build tables).outcome = .ok schema) :
    schema.tables.map (·.table) = Table.exposable tables := by
  rw [(reached_of_build hbuild).1, Shape.map_table_ofTables]

/-- The tables of a schema are made of a table and a name each. -/
theorem eq_ofTable (hbuild : (build tables).outcome = .ok schema) (hs : s ∈ schema.tables) :
    s = Shape.ofTable s.table s.name := by
  rw [(reached_of_build hbuild).1] at hs
  exact Shape.eq_ofTable_of_mem_ofTables hs

/-- The tables of a schema can be shown. -/
theorem table_mem_exposable (hbuild : (build tables).outcome = .ok schema)
    (hs : s ∈ schema.tables) : s.table ∈ Table.exposable tables := by
  rw [← tables_eq hbuild]
  exact List.mem_map_of_mem hs

/-- The tables of a schema are among those it was built of. -/
theorem table_mem (hbuild : (build tables).outcome = .ok schema) (hs : s ∈ schema.tables) :
    s.table ∈ tables :=
  Table.mem_of_mem_exposable (table_mem_exposable hbuild hs)

/-- A table of a schema has a column that stays. -/
theorem exists_keepsField (hbuild : (build tables).outcome = .ok schema) (hs : s ∈ schema.tables) :
    ∃ c ∈ s.table.fields, Table.keepsField (schema.tables.map (·.table)) c := by
  rw [tables_eq hbuild]
  exact Table.exists_keepsField_of_mem_exposable (table_mem_exposable hbuild hs)

/-- The tables of a schema are found by their names among those it was built of. -/
theorem byName?_of_mem (hbuild : (build tables).outcome = .ok schema) (hs : s ∈ schema.tables) :
    Table.byName? tables s.table.name = some s.table :=
  Table.byName?_of_mem_exposable (table_mem_exposable hbuild hs)

/-- The tables of a schema have different names. -/
theorem nodup_names (hbuild : (build tables).outcome = .ok schema) :
    (schema.tables.map (·.name)).Nodup := by
  rw [(reached_of_build hbuild).1]
  exact Shape.nodup_names_ofTables (Table.nodup_names_exposable tables)

/-- Every root field is that of a table of the schema. -/
theorem exists_rootDef (hbuild : (build tables).outcome = .ok schema) {e : String × FieldDef}
    (he : e ∈ schema.root) : ∃ s ∈ schema.tables, e.2 = s.rootDef := by
  obtain ⟨_, b, rfl, _, rfl⟩ := exists_steps_of_build hbuild
  obtain ⟨s, hs, rfl⟩ := List.mem_map.mp (Members.mem_ofList he)
  exact ⟨s, hs, rfl⟩

/-- The tables of a schema have different names in the database. -/
theorem nodup_tableNames (hbuild : (build tables).outcome = .ok schema) :
    (schema.tables.map fun s => s.table.name).Nodup := by
  have hnames := Table.nodup_names_exposable tables
  rw [← tables_eq hbuild, List.map_map] at hnames
  exact hnames

/-- A group that has a field is a group of a table of the schema. -/
theorem mem_of_listed (hbuild : (build tables).outcome = .ok schema) {g : Group}
    (hg : g ∈ Group.listed schema.tables) : g.shape ∈ schema.tables ∧ g.ref ∈ g.shape.groups :=
  (Group.mem_inOrder (List.Nodup.of_map _ (nodup_names hbuild))).mp (Group.mem_listedFrom hg).1

end Schema

/-- The groups of a table that have a field. -/
def Shape.listedGroups (shapes : List Shape) (s : Shape) : List Group :=
  (Group.listed shapes).filter fun g => g.shape = s

/-- A group of a table that has a field is one of its groups and has a field. -/
theorem Shape.mem_listedGroups {shapes : List Shape} {s : Shape} {g : Group} :
    g ∈ s.listedGroups shapes ↔ g ∈ Group.listed shapes ∧ g.shape = s := by
  rw [listedGroups, List.mem_filter, decide_eq_true_eq]

/-- A group of a table is named by a ref of one of its columns. -/
theorem Shape.linkBase_mem_of_group {s : Shape} {r : Ref} (h : r ∈ s.groups) :
    linkBase r.id.label ∈ linkBases s.table := by
  obtain ⟨f, hf, hr⟩ := List.mem_flatMap.mp (mem_of_mem_distinctFrom h)
  exact linkBase_mem_of_ref hf hr

/-- The object type that the field of a group leads to. -/
def Schema.groupType? (schema : Schema) (g : Group) : Option ObjectType := do
  let o ← Members.get? schema.types.objects g.shape.name
  let d ← Members.get? o.fields (g.shape.groupField g.ref.id.label)
  match d.kind with
  | .group name => Members.get? schema.types.objects name
  | .scalar _ => none
  | .link _ => none

/-- A field is that of a group: it leads to the type of the group and is joined on its primary key. -/
def Group.ShownBy (schema : Schema) (g : Group) (d : FieldDef) : Prop :=
  ∃ o key, schema.groupType? g = some o ∧ Members.get? schema.types.objects o.name = some o
    ∧ o.primary = some key ∧ d = g.shape.groupDef g.ref o.name key

namespace Schema

variable {tables : List Table} {schema : Schema} {s : Shape} {b : BuildState}

/-- The field of a group leads to the type that stands under the name of its text. Another group of
the table may have taken its place, but only one with the same label, so with the same text. -/
theorem groupType?_eq (hbuild : (build tables).outcome = .ok schema)
    (htypes : schema.types = b.types)
    (hreached : BuildState.Reached schema.tables schema.tables (Group.inOrder schema.tables)
      (Group.listed schema.tables) b) {g : Group} (hg : g ∈ Group.listed schema.tables) {name : String}
    (hname : b.groupNames.get? g.base = some name) :
    schema.groupType? g = Members.get? schema.types.objects name := by
  obtain ⟨hs, href⟩ := mem_of_listed hbuild hg
  obtain ⟨ds, hds, ho⟩ := hreached.tables g.shape hs
  have hown : g ∈ (Group.listed schema.tables).filter fun g' => g'.shape = g.shape :=
    List.mem_filter.mpr ⟨hg, decide_eq_true rfl⟩
  obtain ⟨d, hd, _, _, key, _, _, _, rfl⟩ := exists_of_mem_forall₂ hds hown
  obtain ⟨e, he, hen, hget⟩ :=
    ObjectType.exists_get?_withFields (g.shape.objectType schema.tables) hd
  obtain ⟨g', hg', name', _, _, hname', _, _, rfl⟩ := exists_of_mem_forall₂ hds.flip he
  obtain ⟨hg', hshape⟩ := List.mem_filter.mp hg'
  have hshape : g'.shape = g.shape := of_decide_eq_true hshape
  have href' : g'.ref ∈ g.shape.groups := hshape ▸ (mem_of_listed hbuild hg').2
  have hlabel : g'.ref.id.label = g.ref.id.label := by
    have hnames : g.shape.linkName (Shape.linkBase g'.ref.id.label)
        = g.shape.linkName (Shape.linkBase g.ref.id.label) := by
      rw [← hshape] at hen ⊢
      exact hen
    rw [eq_ofTable hbuild hs] at hnames
    exact Shape.linkBase_injective (Shape.linkName_eq (Shape.linkBase_mem_of_group href')
      (Shape.linkBase_mem_of_group href) hnames)
  have hbase : g'.base = g.base := by
    rw [Group.base, Group.base, BuildState.groupBase, BuildState.groupBase, hshape, hlabel]
  have hsame : name' = name := Option.some.inj (hname'.symm.trans (hbase ▸ hname))
  have hfield : Members.get? ((g.shape.objectType schema.tables).withFields ds).fields
      (g.shape.groupField g.ref.id.label) = some (g'.shape.groupDef g'.ref name' _) := hget
  rw [groupType?, htypes, ho, Option.bind_eq_bind, Option.bind_some, hfield, ← hsame]
  rfl

/-- The field of a group leads to the type of its text, which is that of the first group of the text
that has fields. -/
theorem groupType?_of_listed (hbuild : (build tables).outcome = .ok schema) :
    ∃ names : Name.Derived, names.Sound (schema.tables.map (·.name))
      ∧ ∀ g ∈ Group.listed schema.tables, ∃ first name,
        Group.first? schema.tables (Group.inOrder schema.tables) g.base = some first
          ∧ names.get? g.base = some name
          ∧ schema.groupType? g = some (first.type schema.tables name) := by
  obtain ⟨_, b, htypes, hreached⟩ := reached_of_build hbuild
  refine ⟨b.groupNames, hreached.sound, fun g hg => ?_⟩
  obtain ⟨hmade, hfirst⟩ := Group.mem_listedFrom hg
  obtain ⟨first, hfirst⟩ := Option.isSome_iff_exists.mp hfirst
  obtain ⟨name, hname⟩ := hreached.exists_name hmade
  refine ⟨first, name, hfirst, hname, ?_⟩
  rw [groupType?_eq hbuild htypes hreached hg hname, htypes, hreached.groups _ _ hname]
  exact congrArg (Option.map _) hfirst

/-- A table has an object type with the fields of its columns and then those of its groups. -/
theorem object_of_table (hbuild : (build tables).outcome = .ok schema) (hs : s ∈ schema.tables) :
    ∃ gs, List.Forall₂ (Group.ShownBy schema) (s.listedGroups schema.tables) gs
      ∧ Members.get? schema.types.objects s.name
        = some ((s.objectType schema.tables).withFields gs) := by
  obtain ⟨_, b, htypes, hreached⟩ := reached_of_build hbuild
  obtain ⟨gs, hgs, ho⟩ := hreached.tables s hs
  refine ⟨gs, ?_, htypes ▸ ho⟩
  have hlisted := (List.forall₂_and_left _ _).mpr
    ⟨fun g (hg : g ∈ s.listedGroups schema.tables) => (Shape.mem_listedGroups.mp hg).1, hgs⟩
  refine hlisted.imp ?_
  rintro g d ⟨hg, name, o, key, hname, ho, hkey, rfl⟩
  obtain ⟨first, _, rfl⟩ := Option.map_eq_some_iff.mp ((hreached.groups _ _ hname).symm.trans ho)
  rw [← htypes] at ho
  exact ⟨_, key, (groupType?_eq hbuild htypes hreached hg hname).trans ho, ho, hkey, rfl⟩

/-- Every object type is that of a table or of a group that has fields, under a name that begins with
the text of the group. -/
theorem object_cases (hbuild : (build tables).outcome = .ok schema) {name : String} {o : ObjectType}
    (ho : Members.get? schema.types.objects name = some o) :
    (∃ s ∈ schema.tables, s.name = name) ∨ ∃ g ∈ Group.listed schema.tables,
      g.isShown schema.tables = true ∧ (Name.Derived.stem g.base).toList <+: name.toList
        ∧ o = g.type schema.tables name := by
  obtain ⟨_, b, htypes, hreached⟩ := reached_of_build hbuild
  rw [htypes] at ho
  refine (hreached.only name o ho).imp id ?_
  rintro ⟨text, htext⟩
  obtain ⟨g, hg, rfl⟩ := Option.map_eq_some_iff.mp ((hreached.groups _ _ htext).symm.trans ho)
  obtain ⟨hmade, hshown, rfl⟩ := Group.first?_eq_some hg
  exact ⟨g, Group.mem_listedFrom_of_isShown hmade hshown, hshown, hreached.sound.stem_prefix htext,
    rfl⟩

end Schema

end TableGraph
