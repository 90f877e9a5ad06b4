import TableGraph.Proofs.Schema.FieldNames
import TableGraph.Proofs.Schema.Ownership
import TableGraph.Proofs.Schema.Sustained

/-!
# When a build fails

A build can only fail at a group, and only at one that has fields while its table has no primary
key. Such a group is met in the end, whatever order the tables are opened in: groups that are named
by numbers have different texts, so none of them finds a type that another group has made.
-/

namespace TableGraph

/-- A table that lacks the primary key to join an annotated group on, when the tables are those of a
set: a ref is carried by one of the fields that stay. -/
def Table.LacksKey (S : Set Table) (t : Table) : Prop :=
  (∀ f ∈ t.fields, f.primary = false) ∧ ∃ f ∈ t.fields, f.refs ≠ [] ∧ f.StaysAmong S

/-- A group that has fields but no primary key to be joined on. -/
def Group.LacksKey (shapes : List Shape) (g : Group) : Prop :=
  g.isShown shapes = true ∧ g.shape.primary? = none

/-- A table has no primary key when none of its columns is one. -/
theorem Shape.primary?_eq_none_iff {s : Shape} :
    s.primary? = none ↔ ∀ f ∈ s.table.fields, f.primary = false := by
  unfold primary? Table.primaryField?
  rw [Option.map_eq_none_iff, List.find?_eq_none]
  simp only [Bool.not_eq_true]

/-- Each ref of a column names a group of the table. -/
theorem Shape.exists_group {s : Shape} {f : Field} (hf : f ∈ s.table.fields) {r : Ref}
    (hr : r ∈ f.refs) : ∃ r' ∈ s.groups, r'.id = r.id := by
  have hmem : r ∈ s.table.fields.flatMap (·.refs) := List.mem_flatMap.mpr ⟨f, hf, hr⟩
  obtain ⟨r', hfirst⟩ := Option.isSome_iff_exists.mp
    (List.find?_isSome.mpr ⟨r, hmem, decide_eq_true rfl⟩ :
      ((s.table.fields.flatMap (·.refs)).find? fun r' => decide (r'.id = r.id)).isSome = true)
  have hfound := List.find?_some hfirst
  have hid : r'.id = r.id := of_decide_eq_true hfound
  rw [← hid] at hfirst
  exact ⟨r', mem_distinctFrom_of_find? List.not_mem_nil hfirst, hid⟩

section

variable {shapes : List Shape}

/-- A table lacks a primary key just when a group of it does. -/
theorem Shape.exists_lacksKey_iff {s : Shape} (hs : s = ofTable s.table s.name)
    (hcolumns : (s.table.fields.map (·.name)).Nodup)
    (hn : (shapes.map fun s => s.table.name).Nodup) :
    (∃ g : Group, g.shape = s ∧ g.ref ∈ s.groups ∧ g.LacksKey shapes)
      ↔ s.table.LacksKey {t | t ∈ shapes.map (·.table)} := by
  have hnames : ((shapes.map (·.table)).map (·.name)).Nodup := by
    rw [List.map_map]
    exact hn
  constructor
  · rintro ⟨g, rfl, _, hshown, hkey⟩
    obtain ⟨f, hf, hr⟩ := (Group.isShown_iff hs hcolumns).mp hshown
    obtain ⟨hf, hkeeps⟩ := List.mem_filter.mp hf
    refine ⟨primary?_eq_none_iff.mp hkey, f, hf, ?_, (Table.keepsField_iff hnames).mp hkeeps⟩
    rintro hnil
    rw [Field.hasRef, hnil] at hr
    cases hr
  · rintro ⟨hkey, f, hf, hrefs, hstays⟩
    obtain ⟨r, hr⟩ := List.exists_mem_of_ne_nil _ hrefs
    obtain ⟨r', hr', hid⟩ := exists_group hf hr
    have hcarries : f.hasRef r'.id = true :=
      List.any_eq_true.mpr ⟨r, hr, decide_eq_true hid.symm⟩
    refine ⟨⟨s, r'⟩, rfl, hr', ?_, primary?_eq_none_iff.mpr hkey⟩
    exact (Group.isShown_iff (g := ⟨s, r'⟩) hs hcolumns).mpr
      ⟨f, List.mem_filter.mpr ⟨hf, (Table.keepsField_iff hnames).mpr hstays⟩, hcarries⟩

namespace BuildState

variable {b : BuildState} {g : Group} {e : SchemaError}

/-- A group that cannot be made has fields and no primary key, or finds a type without one. -/
theorem makeGroup_eq_error (h : makeGroup shapes g.shape b g.ref = .error e) :
    e = .missingPrimaryKey g.shape.table.name
      ∧ (g.LacksKey shapes ∨
        ∃ o, Members.get? b.types.objects (b.groupNames.issue g.base).1 = some o
          ∧ o.primary = none) := by
  unfold makeGroup at h
  dsimp only at h
  rw [show BuildState.groupBase g.shape g.ref = g.base from rfl] at h
  split at h
  · rename_i o ho
    unfold addGroupField at h
    cases hp : o.primary with
    | none =>
      rw [hp] at h
      cases h
      exact ⟨rfl, Or.inr ⟨o, ho, hp⟩⟩
    | some key =>
      rw [hp] at h
      cases h
  · split at h
    · cases h
    · rename_i hfields
      have hshown : g.isShown shapes = true := by
        rw [Group.isShown, Bool.not_eq_true', List.isEmpty_eq_false_iff]
        exact hfields
      split at h
      · rename_i hkey
        cases h
        exact ⟨rfl, Or.inl ⟨hshown, hkey⟩⟩
      · cases h

/-- A build that fails does so at a group that has fields and no primary key, when no other group
has its text. -/
theorem FailsWith.lacksKey (h : FailsWith shapes e)
    (hapart : ∀ g g' : Group, g.IsOf shapes → g'.IsOf shapes → g.base = g'.base → g = g') :
    ∃ g : Group, g.IsOf shapes ∧ g.LacksKey shapes
      ∧ e = .missingPrimaryKey g.shape.table.name := by
  obtain ⟨opened, made, b, g, hreached, hmade, hg, hfails⟩ := h
  obtain ⟨he, hlacks | ⟨o, ho, hkey⟩⟩ := makeGroup_eq_error hfails
  · exact ⟨g, hg, hlacks, he⟩
  · rw [hreached.get?_issue] at ho
    obtain ⟨first, hfirst, rfl⟩ := Option.map_eq_some_iff.mp ho
    obtain ⟨hmem, hshown, hbase⟩ := Group.first?_eq_some hfirst
    obtain rfl := hapart _ _ (hmade _ hmem) hg hbase
    exact ⟨first, hg, ⟨hshown, hkey⟩, he⟩

/-- When all groups have been made none of them lacks a primary key, when no other group has its
text. -/
theorem Reached.not_lacksKey {opened : List Shape} {made : List Group}
    (h : Reached shapes opened made (Group.listedFrom shapes [] made) b)
    (hmade : ∀ g ∈ made, g.IsOf shapes)
    (hapart : ∀ g g' : Group, g.IsOf shapes → g'.IsOf shapes → g.base = g'.base → g = g')
    (hg : g ∈ made) : ¬ g.LacksKey shapes := by
  rintro ⟨hshown, hkey⟩
  have hlisted : g ∈ Group.listedFrom shapes [] made := Group.mem_listedFrom_of_isShown hg hshown
  obtain ⟨ds, hds, _⟩ := h.tables g.shape (h.open_listed g hlisted)
  have hown : g ∈ (Group.listedFrom shapes [] made).filter (·.shape = g.shape) :=
    List.mem_filter.mpr ⟨hlisted, decide_eq_true rfl⟩
  obtain ⟨d, _, name, o, key, hname, ho, hprimary, _⟩ := exists_of_mem_forall₂ hds hown
  rw [h.groups _ _ hname] at ho
  obtain ⟨first, hfirst, rfl⟩ := Option.map_eq_some_iff.mp ho
  obtain ⟨hmem, _, hbase⟩ := Group.first?_eq_some hfirst
  obtain rfl := hapart _ _ (hmade _ hmem) (hmade g hg) hbase
  exact Option.some_ne_none key (hprimary.symm.trans hkey)

/-- Steps that open each table once and make its groups once can all be taken just when no group
lacks a primary key, when no two groups have the same text. They fail at a group that does. -/
theorem run_lacksKey (hn : (shapes.map (·.name)).Nodup)
    (hapart : ∀ g g' : Group, g.IsOf shapes → g'.IsOf shapes → g.base = g'.base → g = g')
    {steps : List BuildStep} (horder : BuildStep.Orderly shapes [] steps) :
    match steps.foldlM (take shapes) ⟨{}, Name.Derived.reserving (shapes.map (·.name))⟩ with
    | .ok _ => ∀ g : Group, g.IsOf shapes → ¬ g.LacksKey shapes
    | .error e => ∃ g : Group, g.IsOf shapes ∧ g.LacksKey shapes
      ∧ e = .missingPrimaryKey g.shape.table.name := by
  have hrun := (Reached.start shapes).run hn (fun _ hg => nomatch hg) horder (List.Perm.refl _)
    fun _ hs => nomatch hs
  cases hsteps : steps.foldlM (take shapes) ⟨{}, Name.Derived.reserving (shapes.map (·.name))⟩ with
  | error e =>
    rw [hsteps] at hrun
    exact hrun.lacksKey hapart
  | ok b =>
    rw [hsteps] at hrun
    obtain ⟨groups, rfl, hreached⟩ := hrun
    have hof : ∀ g, g ∈ [] ++ (BuildStep.grouped steps).flatMap Shape.ownGroups
        ↔ g.IsOf shapes := by
      intro g
      rw [List.nil_append]
      exact horder.mem_ownGroups_iff
    exact fun g hg => hreached.not_lacksKey (fun g' hg' => (hof g').mp hg') hapart ((hof g).mpr hg)

end BuildState

end

namespace Schema

variable {tables : List Table}

/-- Steps are all taken when no table that is shown lacks a primary key. Otherwise they fail at one
that does. -/
def StepsEndWell (tables : List Table) (steps : List BuildStep) : Prop :=
  match steps.foldlM (BuildState.take (Shape.ofTables (Table.exposable tables)))
    ⟨{}, Name.Derived.reserving ((Shape.ofTables (Table.exposable tables)).map (·.name))⟩ with
  | .ok _ => ∀ t ∈ Table.exposable tables, ¬ t.LacksKey {u | u ∈ Table.exposable tables}
  | .error e => ∃ t ∈ Table.exposable tables, t.LacksKey {u | u ∈ Table.exposable tables}
    ∧ e = .missingPrimaryKey t.name

/-- A group that lacks a primary key is there just when a table that is shown lacks one. -/
theorem exists_lacksKey_iff (hcolumns : ∀ t ∈ tables, (t.fields.map (·.name)).Nodup)
    (name : String) :
    (∃ g : Group, g.IsOf (Shape.ofTables (Table.exposable tables))
        ∧ g.LacksKey (Shape.ofTables (Table.exposable tables)) ∧ g.shape.table.name = name)
      ↔ ∃ t ∈ Table.exposable tables,
        t.LacksKey {u | u ∈ Table.exposable tables} ∧ t.name = name := by
  have htables := Shape.map_table_ofTables (Table.exposable tables)
  have hn : ((Shape.ofTables (Table.exposable tables)).map fun s => s.table.name).Nodup := by
    have hnames := Table.nodup_names_exposable tables
    rwa [← htables, List.map_map] at hnames
  have hgroups : ∀ s ∈ Shape.ofTables (Table.exposable tables),
      (∃ g : Group, g.shape = s ∧ g.ref ∈ s.groups
          ∧ g.LacksKey (Shape.ofTables (Table.exposable tables)))
        ↔ s.table.LacksKey {u | u ∈ Table.exposable tables} := by
    intro s hs
    have hmem := Table.mem_of_mem_exposable (Shape.table_mem_of_mem_ofTables hs)
    rw [Shape.exists_lacksKey_iff (Shape.eq_ofTable_of_mem_ofTables hs) (hcolumns _ hmem) hn,
      htables]
  constructor
  · rintro ⟨g, ⟨hs, href⟩, hlacks, hname⟩
    exact ⟨g.shape.table, Shape.table_mem_of_mem_ofTables hs,
      (hgroups _ hs).mp ⟨g, rfl, href, hlacks⟩, hname⟩
  · rintro ⟨t, ht, hlacks, hname⟩
    rw [← htables] at ht
    obtain ⟨s, hs, rfl⟩ := List.mem_map.mp ht
    obtain ⟨g, rfl, href, hlacks⟩ := (hgroups s hs).mpr hlacks
    exact ⟨g, ⟨hs, href⟩, hlacks, hname⟩

/-- Steps in any order that opens each table once and makes its groups once end well, when refs are
numbers and the columns of each table have different names. -/
theorem stepsEndWell_of_orderly (hcolumns : ∀ t ∈ tables, (t.fields.map (·.name)).Nodup)
    (hnumbers : ∀ t ∈ tables, ∀ f ∈ t.fields, ∀ r ∈ f.refs, ∃ i, r.id = .number i)
    (steps : List BuildStep)
    (horder : BuildStep.Orderly (Shape.ofTables (Table.exposable tables)) [] steps) :
    StepsEndWell tables steps := by
  have hnames := Table.nodup_names_exposable tables
  have hn : ((Shape.ofTables (Table.exposable tables)).map fun s => s.table.name).Nodup := by
    rwa [← Shape.map_table_ofTables (Table.exposable tables), List.map_map] at hnames
  have hgroups : ∀ s ∈ Shape.ofTables (Table.exposable tables), ∀ r ∈ s.groups,
      ∃ i, r.id = .number i := fun s hs r hr => Shape.exists_number_of_groups hnumbers
    (Table.mem_of_mem_exposable (Shape.table_mem_of_mem_ofTables hs)) hr
  have hrun := BuildState.run_lacksKey (Shape.nodup_names_ofTables hnames)
    (fun g g' => Group.eq_of_base_eq hn hgroups) horder
  have hlacks := exists_lacksKey_iff hcolumns
  unfold StepsEndWell
  split at hrun
  · intro t ht hkey
    obtain ⟨g, hg, hgroup, _⟩ := (hlacks t.name).mpr ⟨t, ht, hkey, rfl⟩
    exact hrun g hg hgroup
  · obtain ⟨g, hg, hgroup, rfl⟩ := hrun
    obtain ⟨t, ht, hkey, hname⟩ := (hlacks g.shape.table.name).mp ⟨g, hg, hgroup, rfl⟩
    exact ⟨t, ht, hkey, congrArg _ hname.symm⟩

/-- What a build ends with: the schema, unless there is nothing to show or a table that is shown
lacks the primary key for a group. -/
structure EndsWell (tables : List Table) : Prop where
  /-- Without any table to show it fails with that. -/
  noTables : (build tables).outcome = .error .noTables ↔ Table.exposable tables = []
  /-- It fails for want of a primary key just when a table that is shown lacks one. -/
  missingKey : (∃ name, (build tables).outcome = .error (.missingPrimaryKey name))
    ↔ ∃ t ∈ Table.exposable tables, t.LacksKey {u | u ∈ Table.exposable tables}
  /-- The table it names is such a table. -/
  named : ∀ name, (build tables).outcome = .error (.missingPrimaryKey name) →
    ∃ t ∈ Table.exposable tables, t.LacksKey {u | u ∈ Table.exposable tables} ∧ t.name = name
  /-- Otherwise there is a schema. -/
  schema : (∃ schema, (build tables).outcome = .ok schema)
    ↔ Table.exposable tables ≠ [] ∧
      ∀ t ∈ Table.exposable tables, ¬ t.LacksKey {u | u ∈ Table.exposable tables}
  /-- In whatever order the tables are opened and their groups made, the steps fail just when a
  table lacks a primary key, and they fail at such a table. -/
  anyOrder : ∀ steps, BuildStep.Orderly (Shape.ofTables (Table.exposable tables)) [] steps →
    StepsEndWell tables steps

/-- A build ends as its steps end when there are tables to show. -/
theorem build_outcome_of_ne_nil (hne : Table.exposable tables ≠ []) :
    (build tables).outcome = ((BuildStep.ofShapes (Shape.ofTables (Table.exposable tables))).foldlM
      (BuildState.take (Shape.ofTables (Table.exposable tables)))
      ⟨{}, Name.Derived.reserving ((Shape.ofTables (Table.exposable tables)).map (·.name))⟩).map
        fun b => ofTypes (Shape.ofTables (Table.exposable tables)) b.types := by
  unfold build
  split
  · rename_i hnil
    exact absurd hnil hne
  · dsimp only
    rw [BuildState.run_outcome]

/-- A build fails only where there is nothing to show or a table that is shown lacks the primary key
for a group, and fails there whatever the order of its steps, when refs are numbers and the columns
of each table have different names. -/
theorem endsWell_of_numbers (tables : List Table)
    (hnumbers : ∀ t ∈ tables, ∀ f ∈ t.fields, ∀ r ∈ f.refs, ∃ i, r.id = .number i)
    (hcolumns : ∀ t ∈ tables, (t.fields.map (·.name)).Nodup) : EndsWell tables := by
  have hany := stepsEndWell_of_orderly hcolumns hnumbers
  by_cases hnil : Table.exposable tables = []
  · have houtcome : (build tables).outcome = .error .noTables := by
      unfold build
      rw [hnil]
    refine ⟨?_, ?_, ?_, ?_, hany⟩
    · exact iff_of_true houtcome hnil
    · rw [houtcome, hnil]
      simp
    · rw [houtcome]
      rintro name ⟨⟩
    · rw [houtcome, hnil]
      simp
  · have houtcome := build_outcome_of_ne_nil hnil
    have hrun := hany _ (BuildStep.orderly_ofShapes
      (List.Nodup.of_map _ (Shape.nodup_names_ofTables (Table.nodup_names_exposable tables))))
    unfold StepsEndWell at hrun
    split at hrun
    · rename_i b hb
      rw [hb] at houtcome
      refine ⟨?_, ?_, ?_, ?_, hany⟩
      · rw [houtcome]
        exact iff_of_false (by rintro ⟨⟩) hnil
      · rw [houtcome]
        exact iff_of_false (by rintro ⟨_, ⟨⟩⟩) fun ⟨t, ht, hkey⟩ => hrun t ht hkey
      · rw [houtcome]
        rintro name ⟨⟩
      · rw [houtcome]
        exact iff_of_true ⟨_, rfl⟩ ⟨hnil, hrun⟩
    · rename_i e he
      rw [he] at houtcome
      obtain ⟨t, ht, hkey, rfl⟩ := hrun
      refine ⟨?_, ?_, ?_, ?_, hany⟩
      · rw [houtcome]
        exact iff_of_false (by rintro ⟨⟩) hnil
      · rw [houtcome]
        exact iff_of_true ⟨_, rfl⟩ ⟨t, ht, hkey⟩
      · rw [houtcome]
        rintro name ⟨⟩
        exact ⟨t, ht, hkey, rfl⟩
      · rw [houtcome]
        exact iff_of_false (by rintro ⟨_, ⟨⟩⟩) fun h => h.2 t ht hkey

/-- A table that refers to one without a primary key, which has a group and refers back. -/
def keylessTables : List Table :=
  [⟨"A", "A", [], [(Field.plain "A" "ID" .int).asPrimary,
      (Field.plain "A" "B_CODE" .int).references "B" "CODE"]⟩,
    ⟨"B", "B", [], [(Field.plain "B" "CODE" .int).withRef ⟨.number 1, none, []⟩,
      (Field.plain "B" "A_ID" .int).references "A" "ID"]⟩]

/-- The build of the two tables fails at the one without a primary key. -/
theorem endsWell_keylessTables :
    (build keylessTables).outcome = .error (.missingPrimaryKey "B") ∧ EndsWell keylessTables := by
  have hnumbers : ∀ t ∈ keylessTables, ∀ f ∈ t.fields, ∀ r ∈ f.refs, ∃ i, r.id = .number i := by
    simp [keylessTables, Field.plain, Field.asPrimary, Field.references, Field.withRef]
  have hends := endsWell_of_numbers keylessTables hnumbers (by decide)
  have hshown : Table.exposable keylessTables = keylessTables := by cbv
  have hne : Table.exposable keylessTables ≠ [] := by
    rw [hshown]
    exact List.cons_ne_nil _ _
  refine ⟨?_, hends⟩
  rw [build_outcome_of_ne_nil hne]
  cbv

end Schema

end TableGraph
