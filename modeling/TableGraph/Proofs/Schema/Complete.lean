import TableGraph.Proofs.Schema.Entries
import TableGraph.Proofs.Schema.Inputs
import TableGraph.Proofs.Schema.Registered

/-!
# A schema is complete

A schema shows each table that can be shown just once, and every type that it names is there. Object
types are made before their fields, and tables may refer to each other in a circle, so this is known
of the finished build only: each table has been opened by then, and one that can be shown has a
column that stays.
-/

namespace TableGraph

/-- Whether the types that a field leads to are there. -/
def FieldKind.Registered (t : Registry) : FieldKind → Prop
  | .scalar _ => True
  | .link node => node ∈ t.connections ∧ (Members.get? t.objects node).isSome
  | .group object => (Members.get? t.objects object).isSome

/-- The type of a name can be given: it is a scalar, or there is an input or enumeration. -/
def Registry.Takes (t : Registry) (name : String) : Prop :=
  (∃ type : Scalar, type.typeName = name) ∨ (Members.get? t.inputs name).isSome
    ∨ (Members.get? t.enums name).isSome

/-- The object type of a table: it goes by the name of the table and has its rows, and every other
type with those rows is that of one of the groups of the table. -/
def Schema.Owns (schema : Schema) (s : Shape) (o : ObjectType) : Prop :=
  Members.get? schema.types.objects s.name = some o ∧ o.name = s.name ∧ o.table = s.table.name
    ∧ ∀ o' ∈ Members.values schema.types.objects, o'.table = s.table.name →
      o' = o ∨ ∃ g ∈ s.listedGroups schema.tables, o' = g.type schema.tables o'.name

/-- A schema has every table once and every type that it names. -/
structure Schema.Complete (tables : List Table) (schema : Schema) : Prop where
  /-- The tables are those that can be shown, in order, and their names are kept apart. -/
  shown : schema.tables = Shape.ofTables (Table.exposable tables)
    ∧ (Table.exposable tables).Sublist tables ∧ (schema.tables.map (·.name)).Nodup
  /-- There is a root field for each table, in order. -/
  root : schema.root = schema.tables.map fun s => (s.name, s.rootDef)
  /-- Object types stand under their own names, each once. -/
  keyed : schema.types.Keyed
  /-- Each table has one object type. -/
  own : ∀ s ∈ schema.tables, ∃ o, schema.Owns s o
  /-- Each table is reported once. -/
  reported : ((build tables).ticks.map (·.message)).Perm
    ((Table.exposable tables).map fun t => "Creating GraphQL type: " ++ t.name)
  /-- A link is that of a column, and leads to the object type of the table the column refers to. -/
  links : ∀ o ∈ Members.values schema.types.objects, ∀ f ∈ Members.values o.fields, ∀ node,
    f.kind = .link node → ∃ s ∈ schema.tables, o.table = s.table.name ∧ ∃ c ∈ s.table.fields,
      Shape.fieldOf? schema.tables s c = some f ∧ ∃ target ∈ schema.tables,
        c.tableRef = some target.table.name ∧ ∃ o', schema.Owns target o' ∧ node = o'.name
  /-- Every object type has a field. -/
  objects : ∀ o ∈ Members.values schema.types.objects, o.fields ≠ []
  /-- Every input has a member. -/
  inputs : ∀ i ∈ Members.values schema.types.inputs, i.fields ≠ []
  /-- Every enumeration has a value. -/
  enums : ∀ e ∈ Members.values schema.types.enums, e.values ≠ []
  /-- What a field leads to is there. -/
  fields : ∀ f, schema.HasField f → f.kind.Registered schema.types
  /-- The arguments of a field can be given. -/
  arguments : ∀ f, schema.HasField f → ∀ a ∈ f.args, schema.types.Takes a.2.core
  /-- Every connection is one of an object type. -/
  connections : ∀ node ∈ schema.types.connections,
    (Members.get? schema.types.objects node).isSome
  /-- The members of an input can be given. -/
  members : ∀ i ∈ Members.values schema.types.inputs, ∀ f ∈ i.fields,
    schema.types.Takes f.type.core

namespace Schema

variable {tables : List Table} {schema : Schema} {s : Shape}

/-- Every table has an object type. -/
theorem isSome_object (hbuild : (build tables).outcome = .ok schema) (hs : s ∈ schema.tables) :
    (Members.get? schema.types.objects s.name).isSome := by
  obtain ⟨_, _, ho⟩ := object_of_table hbuild hs
  rw [ho]
  rfl

/-- The type that stands under the name of a table is its own. -/
theorem exists_owns (hbuild : (build tables).outcome = .ok schema) (hs : s ∈ schema.tables) :
    ∃ o, schema.Owns s o := by
  obtain ⟨o, ho⟩ := Option.isSome_iff_exists.mp (isSome_object hbuild hs)
  have hkeyed := keyed_of_build hbuild
  refine ⟨o, ho, hkeyed.own _ (Members.mem_of_get? ho), (rowsOf_table hbuild hs ho).table, ?_⟩
  intro o' ho' htable
  have hget := get?_of_mem_objects hbuild ho'
  have hsame : ∀ {u : Shape}, u ∈ schema.tables → u.table.name = s.table.name → u = s := by
    intro u hu he
    exact List.inj_on_of_nodup_map (f := fun s : Shape => s.table.name)
      (nodup_tableNames hbuild) hu hs he
  rcases object_cases hbuild hget with ⟨u, hu, hname⟩ | ⟨g, hg, _, _, hgroup⟩
  · have hrows := rowsOf_table hbuild hu (hname ▸ hget)
    obtain rfl := hsame hu (hrows.table.symm.trans htable)
    rw [← hname, ho] at hget
    exact Or.inl (Option.some.inj hget).symm
  · refine Or.inr ⟨g, Shape.mem_listedGroups.mpr ⟨hg, ?_⟩, hgroup⟩
    refine hsame (mem_of_listed hbuild hg).1 ?_
    rw [hgroup] at htable
    exact htable

/-- The root fields are those of the tables, in order. -/
theorem root_eq (hbuild : (build tables).outcome = .ok schema) :
    schema.root = schema.tables.map fun s => (s.name, s.rootDef) := by
  have hn := nodup_names hbuild
  obtain ⟨shapes, b, _, _, rfl⟩ := exists_steps_of_build hbuild
  refine Members.ofList_of_nodup ?_
  rw [Members.names_map]
  exact hn

/-- Each table is reported once, when it is opened. -/
theorem messages_perm (hbuild : (build tables).outcome = .ok schema) :
    ((build tables).ticks.map (·.message)).Perm
      ((Table.exposable tables).map fun t => "Creating GraphQL type: " ++ t.name) := by
  have hmessages : ∀ (weight : Float) (steps : List BuildStep),
      (steps.flatMap (·.ticks weight)).map (·.message)
        = (BuildStep.opened steps).map fun s => "Creating GraphQL type: " ++ s.table.name := by
    intro weight steps
    induction steps with
    | nil => rfl
    | cons step rest ih =>
      rw [List.flatMap_cons, List.map_append, ih]
      cases step <;> rfl
  have hn := nodup_names hbuild
  have htables := tables_eq hbuild
  have hshapes := (reached_of_build hbuild).1
  -- Without tables to show there is no schema, and with some the ticks are those of the steps.
  unfold build at hbuild ⊢
  generalize hexposable : Table.exposable tables = shown at hbuild htables hshapes ⊢
  cases shown with
  | nil => cases hbuild
  | cons t rest =>
    dsimp only at hbuild ⊢
    rw [← hshapes] at hbuild ⊢
    cases hrun : (BuildState.run schema.tables _ _ (BuildStep.ofShapes schema.tables)).outcome with
    | error e =>
      rw [hrun] at hbuild
      cases hbuild
    | ok b =>
      rw [BuildState.run_ticks hrun, hmessages, ← htables, List.map_map]
      exact (BuildStep.orderly_ofShapes (List.Nodup.of_map _ hn)).opened_perm.map _

/-- A link of an object type is that of a column that refers to the table it leads to. -/
theorem exists_column_of_link (hbuild : (build tables).outcome = .ok schema) {o : ObjectType}
    (ho : o ∈ Members.values schema.types.objects) {f : FieldDef}
    (hf : f ∈ Members.values o.fields) {node : String} (hk : f.kind = .link node) :
    ∃ s ∈ schema.tables, o.table = s.table.name ∧ ∃ c ∈ s.table.fields,
      Shape.fieldOf? schema.tables s c = some f ∧ ∃ target ∈ schema.tables,
        c.tableRef = some target.table.name ∧ ∃ o', schema.Owns target o' ∧ node = o'.name := by
  obtain ⟨e, he, rfl⟩ := List.mem_map.mp hf
  obtain ⟨s, hs, hrows⟩ := exists_rowsOf hbuild ho
  rcases hrows.fields e he with ⟨c, hc, hd⟩ | ⟨g, _, _, _, _, _, _, hd⟩
  · refine ⟨s, hs, hrows.table, c, hc, hd, ?_⟩
    cases Shape.fieldOf?_shows hd with
    | value _ hkind _ =>
      rw [hk] at hkind
      cases hkind
    | @link target _ htarget href _ hkind _ _ =>
      obtain ⟨o', ho'⟩ := exists_owns hbuild htarget
      rw [hk] at hkind
      exact ⟨target, htarget, href, o', ho', (FieldKind.link.inj hkind).trans ho'.2.1.symm⟩
  · rw [hd] at hk
    cases hk

/-- Every object type has a field: a table that can be shown keeps one, and a group is made for the
fields it has. -/
theorem object_fields_ne_nil (hbuild : (build tables).outcome = .ok schema) {o : ObjectType}
    (ho : o ∈ Members.values schema.types.objects) : o.fields ≠ [] := by
  have hget := get?_of_mem_objects hbuild ho
  rcases object_cases hbuild hget with ⟨s, hs, hname⟩ | ⟨g, _, hshown, _, hgroup⟩
  · obtain ⟨gs, _, hobject⟩ := object_of_table hbuild hs
    rw [hname, hget, Option.some.injEq] at hobject
    rw [hobject]
    obtain ⟨c, hc, hkeeps⟩ := exists_keepsField hbuild hs
    exact ObjectType.withFields_ne_nil (Shape.columnFields_ne_nil hc hkeeps) gs
  · rw [hgroup]
    rw [Group.isShown, Bool.not_eq_true', List.isEmpty_eq_false_iff] at hshown
    exact hshown

/-- What can be given for a table can be given. -/
theorem takes_of_table (hbuild : (build tables).outcome = .ok schema) (hs : s ∈ schema.tables)
    {name : String} (h : s.Takes name) : schema.types.Takes name := by
  rcases h with h | ⟨i, hi, rfl⟩ | ⟨e, he, rfl⟩
  · exact Or.inl h
  · refine Or.inr (Or.inl ?_)
    rw [input_of_table hbuild hs hi]
    rfl
  · refine Or.inr (Or.inr ?_)
    rw [enum_of_table hbuild hs he]
    rfl

/-- What a field leads to is there. -/
theorem registered_of_leads (hbuild : (build tables).outcome = .ok schema) {f : FieldDef}
    (h : schema.Leads f) : f.kind.Registered schema.types := by
  cases h with
  | value hk _ =>
    rw [hk]
    trivial
  | page hs hk _ =>
    rw [hk]
    exact ⟨(mem_connections_iff hbuild).mpr ⟨_, hs, rfl⟩, isSome_object hbuild hs⟩
  | row _ ho hk _ =>
    rw [hk]
    exact Option.isSome_of_eq_some ho

/-- The arguments of a field can be given. -/
theorem takes_of_leads (hbuild : (build tables).outcome = .ok schema) {f : FieldDef}
    (h : schema.Leads f) {a : String × TypeRef} (ha : a ∈ f.args) : schema.types.Takes a.2.core := by
  cases h with
  | value _ hargs =>
    rw [hargs] at ha
    cases ha
  | page hs _ hargs =>
    rw [hargs] at ha
    exact takes_of_table hbuild hs (Shape.takes_of_mem_pageArguments ha)
  | row hs _ _ hargs =>
    rw [hargs] at ha
    exact takes_of_table hbuild hs (Shape.takes_of_mem_rowArguments ha)

/-- Every build ends with a schema that is complete. -/
theorem complete_of_build (tables : List Table) (schema : Schema)
    (hbuild : (build tables).outcome = .ok schema) : schema.Complete tables where
  shown := ⟨(reached_of_build hbuild).1,
    Table.exposable_sublist tables, nodup_names hbuild⟩
  root := root_eq hbuild
  keyed := keyed_of_build hbuild
  own := fun _ hs => exists_owns hbuild hs
  reported := messages_perm hbuild
  links := fun _ ho _ hf _ hk => exists_column_of_link hbuild ho hf hk
  objects := fun _ ho => object_fields_ne_nil hbuild ho
  inputs := by
    intro i hi
    obtain ⟨e, he, rfl⟩ := List.mem_map.mp hi
    obtain ⟨_, s, _, hmem⟩ := table_of_input hbuild he
    exact Shape.fields_ne_nil hmem
  enums := by
    intro i hi
    obtain ⟨e, he, rfl⟩ := List.mem_map.mp hi
    obtain ⟨_, s, _, hmem⟩ := table_of_enum hbuild he
    exact Shape.values_ne_nil hmem
  fields := fun _ hf => registered_of_leads hbuild (leads_of_hasField hbuild hf)
  arguments := fun _ hf _ ha => takes_of_leads hbuild (leads_of_hasField hbuild hf) ha
  connections := by
    intro node hnode
    obtain ⟨s, hs, rfl⟩ := (mem_connections_iff hbuild).mp hnode
    exact isSome_object hbuild hs
  members := by
    intro i hi f hf
    obtain ⟨e, he, rfl⟩ := List.mem_map.mp hi
    obtain ⟨_, s, hs, hmem⟩ := table_of_input hbuild he
    exact takes_of_table hbuild hs (Shape.takes_of_mem_inputTypes hmem hf)

/-- Two tables that refer to each other. The second one also refers to itself and to a table that is
not there, and has a group. -/
def circleTables : List Table :=
  [⟨"A", "A", [], [(Field.plain "A" "ID" .int).asPrimary,
      (Field.plain "A" "B_ID" .int).references "B" "ID"]⟩,
    ⟨"B", "B", [], [(Field.plain "B" "ID" .int).asPrimary,
      (Field.plain "B" "A_ID" .int).references "A" "ID",
      (Field.plain "B" "PARENT" .int).references "B" "ID",
      (Field.plain "B" "LOST" .int).references "C" "ID",
      (Field.plain "B" "NICK" .string).withRef ⟨.text "G", none, []⟩]⟩]

/-- The schema of the two tables is complete. -/
theorem complete_circleTables :
    ∃ schema, (build circleTables).outcome = .ok schema ∧ Members.names schema.root = ["A", "B"]
      ∧ Members.names schema.types.objects = ["A", "B", "EMULATED_B_G"]
      ∧ schema.Complete circleTables := by
  have hbuilt : (built? circleTables).map (fun schema =>
      (Members.names schema.root, Members.names schema.types.objects))
        = some (["A", "B"], ["A", "B", "EMULATED_B_G"]) := by cbv
  obtain ⟨schema, hschema, hnames⟩ := Option.map_eq_some_iff.mp hbuilt
  obtain ⟨hroot, hobjects⟩ := Prod.mk.inj hnames
  have hbuild := build_eq_ok_iff.mpr hschema
  exact ⟨schema, hbuild, hroot, hobjects, complete_of_build circleTables schema hbuild⟩

end Schema

end TableGraph
