import Mathlib.Data.List.Permutation
import TableGraph.Proofs.Schema.Built

/-!
# The names of the fields of a table

The object type of a table has a field for each column that stays and then one for each group. The
fields of columns never meet. The names of links and groups start from the names of the references
and the labels of the groups, and are the same when these are: then the field that comes later takes
the place of the one that came first.
-/

namespace TableGraph

namespace Shape

variable {shapes : List Shape} {s : Shape}

/-- The columns of a table that have a field. -/
def keptColumns (shapes : List Shape) (s : Shape) : List Field :=
  s.table.fields.filter (Table.keepsField (shapes.map (·.table)))

/-- What the links and groups of a table are named after: the names of the references that have a
field, and the labels of the groups that have one. -/
def linkedTexts (shapes : List Shape) (s : Shape) : List String :=
  ((s.keptColumns shapes).filter fun f => f.tableRef.isSome).map (·.name)
    ++ (s.listedGroups shapes).map fun g => g.ref.id.label

/-- A column that stays has a field. -/
theorem exists_fieldOf? {f : Field} (h : f ∈ s.keptColumns shapes) :
    ∃ d, fieldOf? shapes s f = some d := by
  rw [← Option.isSome_iff_exists, isSome_fieldOf?]
  exact List.of_mem_filter h

/-- A column that has a field stays. -/
theorem mem_keptColumns {f : Field} {d : FieldDef} (hf : f ∈ s.table.fields)
    (h : fieldOf? shapes s f = some d) : f ∈ s.keptColumns shapes := by
  refine List.mem_filter.mpr ⟨hf, ?_⟩
  have hkeeps : (fieldOf? shapes s f).isSome = _ := isSome_fieldOf?
  rw [← hkeeps, h]
  rfl

/-- Groups of a table have the same field just when they have the same label. -/
theorem groupField_eq_iff (hs : s = ofTable s.table s.name) {g g' : Group} (hg : g.ref ∈ s.groups)
    (hg' : g'.ref ∈ s.groups) :
    s.groupField g.ref.id.label = s.groupField g'.ref.id.label
      ↔ g.ref.id.label = g'.ref.id.label := by
  constructor
  · intro h
    have hbase := linkBase_mem_of_group hg
    have hbase' := linkBase_mem_of_group hg'
    rw [hs] at h hbase hbase'
    exact linkBase_injective (linkName_eq hbase hbase' h)
  · intro h
    rw [h]

/-- A column has the field of a group just when it is a reference with the label of the group as its
name. -/
theorem fieldName_eq_groupField_iff (hs : s = ofTable s.table s.name) {f : Field}
    (hf : f ∈ s.table.fields) {d : FieldDef} (hd : fieldOf? shapes s f = some d) {g : Group}
    (hg : g.ref ∈ s.groups) :
    d.name = s.groupField g.ref.id.label ↔ f.tableRef.isSome ∧ f.name = g.ref.id.label := by
  have hbase := linkBase_mem_of_group hg
  rcases name_fieldOf? hd with ⟨hplain, hname⟩ | ⟨href, hname⟩
  · -- A plain column keeps clear of links and groups.
    have hne : s.linkName (linkBase g.ref.id.label) ≠ s.columnField f.name := by
      rw [hs] at hf hbase ⊢
      exact linkName_ne_columnField hbase hf
    rw [hname, hplain]
    simp only [Option.isSome_none, Bool.false_eq_true, false_and, iff_false]
    exact fun h => hne h.symm
  · have hown := linkBase_mem_of_reference hf href
    rw [hname]
    constructor
    · intro h
      rw [hs] at h hbase hown
      exact ⟨href, linkBase_injective (linkName_eq hown hbase h)⟩
    · rintro ⟨_, h⟩
      rw [h]
      rfl

/-- The names of all fields are different just when links and groups are named after different
texts. -/
theorem nodup_fieldNames_iff (hs : s = ofTable s.table s.name)
    (hn : (s.table.fields.map (·.name)).Nodup)
    (hgroups : ∀ g ∈ s.listedGroups shapes, g.ref ∈ s.groups) :
    ((s.table.fields.filterMap (fieldOf? shapes s)).map (·.name)
        ++ (s.listedGroups shapes).map fun g => s.groupField g.ref.id.label).Nodup
      ↔ (s.linkedTexts shapes).Nodup := by
  have hcolumns : ((s.table.fields.filterMap (fieldOf? shapes s)).map (·.name)).Nodup :=
    nodup_names_fieldOf? hs (fun f hf => hf) hn
  have hreferences : (((s.keptColumns shapes).filter fun f => f.tableRef.isSome).map
      (·.name)).Nodup := ((List.filter_sublist.trans List.filter_sublist).map _).nodup hn
  rw [linkedTexts, List.nodup_append, List.nodup_append]
  constructor
  · rintro ⟨_, hfields, hapart⟩
    refine ⟨hreferences, ?_, ?_⟩
    · have hmap : (s.listedGroups shapes).map (fun g => s.groupField g.ref.id.label)
          = ((s.listedGroups shapes).map fun g => g.ref.id.label).map s.groupField := by
        rw [List.map_map]
        rfl
      rw [hmap] at hfields
      exact List.Nodup.of_map _ hfields
    · intro a ha b hb hab
      obtain ⟨f, hf, rfl⟩ := List.mem_map.mp ha
      obtain ⟨g, hg, rfl⟩ := List.mem_map.mp hb
      obtain ⟨hf, href⟩ := List.mem_filter.mp hf
      obtain ⟨d, hd⟩ := exists_fieldOf? hf
      have hmem : f ∈ s.table.fields := List.mem_of_mem_filter hf
      exact hapart d.name (List.mem_map_of_mem (List.mem_filterMap.mpr ⟨f, hmem, hd⟩)) _
        (List.mem_map_of_mem hg)
        ((fieldName_eq_groupField_iff hs hmem hd (hgroups g hg)).mpr ⟨href, hab⟩)
  · rintro ⟨_, hlabels, hapart⟩
    refine ⟨hcolumns, ?_, ?_⟩
    · refine (List.nodup_map_iff_inj_on (List.Nodup.of_map _ hlabels)).mpr ?_
      intro g hg g' hg' he
      exact List.inj_on_of_nodup_map hlabels hg hg'
        ((groupField_eq_iff hs (hgroups g hg) (hgroups g' hg')).mp he)
    · intro a ha b hb hab
      obtain ⟨d, hd, rfl⟩ := List.mem_map.mp ha
      obtain ⟨g, hg, rfl⟩ := List.mem_map.mp hb
      obtain ⟨f, hf, hd⟩ := List.mem_filterMap.mp hd
      obtain ⟨href, hlabel⟩ := (fieldName_eq_groupField_iff hs hf hd (hgroups g hg)).mp hab
      exact hapart f.name (List.mem_map_of_mem (List.mem_filter.mpr
        ⟨mem_keptColumns hf hd, href⟩)) _ (List.mem_map_of_mem hg) hlabel

end Shape

/-- A group has fields just when a column that carries its ref stays. -/
theorem Group.isShown_iff {shapes : List Shape} {g : Group}
    (hshape : g.shape = Shape.ofTable g.shape.table g.shape.name)
    (hn : (g.shape.table.fields.map (·.name)).Nodup) :
    g.isShown shapes = true ↔ ∃ f ∈ g.shape.keptColumns shapes, f.hasRef g.ref.id = true := by
  have hfields : Shape.columnFields shapes g.shape (g.shape.groupMembers g.ref) = _ :=
    Shape.columnFields_eq hshape (fun f hf => List.mem_of_mem_filter hf)
      ((List.filter_sublist.map _).nodup hn)
  rw [isShown, fields, hfields, Bool.not_eq_true', List.isEmpty_eq_false_iff, ne_eq,
    List.map_eq_nil_iff, List.filterMap_eq_nil_iff]
  constructor
  · intro h
    push Not at h
    obtain ⟨f, hf, hd⟩ := h
    obtain ⟨d, hd⟩ := Option.ne_none_iff_exists'.mp hd
    obtain ⟨hf, hr⟩ := List.mem_filter.mp hf
    exact ⟨f, Shape.mem_keptColumns hf hd, hr⟩
  · rintro ⟨f, hf, hr⟩ h
    obtain ⟨d, hd⟩ := Shape.exists_fieldOf? hf
    rw [h f (List.mem_filter.mpr ⟨List.mem_of_mem_filter hf, hr⟩)] at hd
    cases hd

/-- What is put into the object type of a table: a field for each column that stays, and one for
each group that has a field. A group of which a column stays has one; if a group has one while none
of its columns stays then the text of the group is that of another group. -/
structure Schema.Fills (schema : Schema) (s : Shape) (cs gs : List FieldDef) : Prop where
  /-- The fields of columns. -/
  columns : List.Forall₂ (fun f d => FieldDef.Shows schema.tables f d)
    (s.keptColumns schema.tables) cs
  /-- The fields of groups. -/
  groups : List.Forall₂ (Group.ShownBy schema) (s.listedGroups schema.tables) gs
  /-- Groups of which a column stays have a field. -/
  carried : ∀ r ∈ s.groups, (∃ f ∈ s.keptColumns schema.tables, f.hasRef r.id = true) →
    ⟨s, r⟩ ∈ s.listedGroups schema.tables
  /-- Groups that have a field have the text of a group of which a column stays. -/
  texts : ∀ g ∈ s.listedGroups schema.tables, g.ref ∈ s.groups
    ∧ ∃ g' ∈ Group.listed schema.tables, g'.base = g.base
      ∧ ∃ f ∈ g'.shape.keptColumns schema.tables, f.hasRef g'.ref.id = true

namespace Schema

section

variable {tables : List Table} {schema : Schema} {s : Shape} {gs : List FieldDef}

/-- A group of a table that has a field is one of its groups. -/
theorem ref_mem_of_listedGroups (hbuild : (build tables).outcome = .ok schema) {g : Group}
    (hg : g ∈ s.listedGroups schema.tables) : g.ref ∈ s.groups := by
  obtain ⟨hlisted, rfl⟩ := Shape.mem_listedGroups.mp hg
  exact (mem_of_listed hbuild hlisted).2

/-- The fields of the groups of a table, with those of its columns, are what is put into its type. -/
theorem fills_of_shownBy (hbuild : (build tables).outcome = .ok schema)
    (hcolumns : ∀ t ∈ tables, (t.fields.map (·.name)).Nodup) (hs : s ∈ schema.tables)
    (hgs : List.Forall₂ (Group.ShownBy schema) (s.listedGroups schema.tables) gs) :
    schema.Fills s (s.table.fields.filterMap (Shape.fieldOf? schema.tables s)) gs := by
  have hshown : ∀ {g : Group}, g.shape ∈ schema.tables → (g.isShown schema.tables = true
      ↔ ∃ f ∈ g.shape.keptColumns schema.tables, f.hasRef g.ref.id = true) := fun hg =>
    Group.isShown_iff (eq_ofTable hbuild hg) (hcolumns _ (table_mem hbuild hg))
  refine ⟨?_, hgs, ?_, fun g hg => ⟨ref_mem_of_listedGroups hbuild hg, ?_⟩⟩
  · exact (Shape.forall₂_fieldOf? schema.tables s s.table.fields).imp fun _ _ h =>
      Shape.fieldOf?_shows h
  · intro r hr hcarried
    have hmade := (Group.mem_inOrder (g := ⟨s, r⟩) (List.Nodup.of_map _ (nodup_names hbuild))).mpr
      ⟨hs, hr⟩
    exact Shape.mem_listedGroups.mpr
      ⟨Group.mem_listedFrom_of_isShown hmade ((hshown (g := ⟨s, r⟩) hs).mpr hcarried), rfl⟩
  · obtain ⟨g', hfirst⟩ := Option.isSome_iff_exists.mp
      (Group.mem_listedFrom (Shape.mem_listedGroups.mp hg).1).2
    obtain ⟨hmade, hshown', hbase⟩ := Group.first?_eq_some hfirst
    have hlisted : g' ∈ Group.listed schema.tables := Group.mem_listedFrom_of_isShown hmade hshown'
    exact ⟨g', hlisted, hbase, (hshown (mem_of_listed hbuild hlisted).1).mp hshown'⟩

/-- The fields of the groups of a table are named after their labels. -/
theorem names_of_shownBy
    (hgs : List.Forall₂ (Group.ShownBy schema) (s.listedGroups schema.tables) gs) :
    gs.map (·.name) = (s.listedGroups schema.tables).map fun g => s.groupField g.ref.id.label := by
  have hlisted := (List.forall₂_and_left _ _).mpr
    ⟨fun g (hg : g ∈ s.listedGroups schema.tables) => (Shape.mem_listedGroups.mp hg).2, hgs⟩
  have hnames : List.Forall₂ (fun (g : Group) d => s.groupField g.ref.id.label = d.name)
      (s.listedGroups schema.tables) gs := by
    refine hlisted.imp ?_
    rintro g d ⟨rfl, o, key, _, _, _, rfl⟩
    rfl
  have hmaps := List.forall₂_map_left_iff.mpr (List.forall₂_map_right_iff.mpr hnames)
  rw [List.forall₂_eq_eq_eq] at hmaps
  exact hmaps.symm

end

/-- The object type of a table holds a field for each column that stays and for each group that has
one, in this order and by name. None takes the place of another just when the links and groups of
the table are named after different texts. -/
theorem values_fields_iff (tables : List Table) (schema : Schema)
    (hbuild : (build tables).outcome = .ok schema)
    (hcolumns : ∀ t ∈ tables, (t.fields.map (·.name)).Nodup) (s : Shape)
    (hs : s ∈ schema.tables) :
    ∃ o cs gs, Members.get? schema.types.objects s.name = some o ∧ schema.Fills s cs gs
      ∧ o.fields = Members.ofList ((cs ++ gs).map fun d => (d.name, d))
      ∧ (Members.values o.fields = cs ++ gs ↔ (s.linkedTexts schema.tables).Nodup) := by
  obtain ⟨gs, hgs, ho⟩ := object_of_table hbuild hs
  have hfields : ((s.objectType schema.tables).withFields gs).fields
      = Members.ofList ((s.table.fields.filterMap (Shape.fieldOf? schema.tables s) ++ gs).map
        fun d => (d.name, d)) := ObjectType.fields_withFields rfl gs
  refine ⟨_, _, gs, ho, fills_of_shownBy hbuild hcolumns hs hgs, hfields, ?_⟩
  rw [hfields, Members.values_ofList_iff, List.map_append, names_of_shownBy hgs]
  exact Shape.nodup_fieldNames_iff (eq_ofTable hbuild hs) (hcolumns _ (table_mem hbuild hs))
    fun _ hg => ref_mem_of_listedGroups hbuild hg

/-- A table with a reference and a group that are named after the same text. -/
def sameNameTables : List Table :=
  [⟨"PERSON", "PERSON", [], [(Field.plain "PERSON" "ID" .int).asPrimary,
    (Field.plain "PERSON" "1" .int).references "PERSON" "ID",
    (Field.plain "PERSON" "NICK" .string).withRef ⟨.number 1, none, []⟩]⟩]

/-- The field of the group takes the place of the link. -/
theorem values_fields_sameName :
    ∃ schema s o cs gs, (build sameNameTables).outcome = .ok schema ∧ s ∈ schema.tables
      ∧ Members.get? schema.types.objects s.name = some o ∧ schema.Fills s cs gs
      ∧ o.fields = Members.ofList ((cs ++ gs).map fun d => (d.name, d))
      ∧ Members.values o.fields ≠ cs ++ gs := by
  have hshared : ((built? sameNameTables).map fun schema =>
      schema.tables.map fun s => s.linkedTexts schema.tables) = some [["1", "1"]] := by cbv
  obtain ⟨schema, hschema, htexts⟩ := Option.map_eq_some_iff.mp hshared
  have hbuild := build_eq_ok_iff.mpr hschema
  have hcolumns : ∀ t ∈ sameNameTables, (t.fields.map (·.name)).Nodup := by decide
  obtain ⟨s, hs, hlinked⟩ := List.mem_map.mp (htexts ▸ List.mem_cons_self :
    ["1", "1"] ∈ schema.tables.map fun s => s.linkedTexts schema.tables)
  obtain ⟨o, cs, gs, ho, hfills, hfields, hiff⟩ :=
    values_fields_iff sameNameTables schema hbuild hcolumns s hs
  refine ⟨schema, s, o, cs, gs, hbuild, hs, ho, hfills, hfields, fun hvalues => ?_⟩
  have hnodup := hiff.mp hvalues
  rw [hlinked] at hnodup
  exact absurd hnodup (by decide)

end Schema

end TableGraph
