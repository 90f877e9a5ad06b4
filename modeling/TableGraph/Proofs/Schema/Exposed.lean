import TableGraph.Proofs.Members
import TableGraph.Proofs.Name.Derived
import TableGraph.Proofs.Name.Scope
import TableGraph.Proofs.Schema.Building

/-!
# Tables and columns by name

The tables that are shown have different names, in the database and in the graph. The names that the
columns, links and groups of a table have in the graph tell apart what they start from.
-/

namespace TableGraph

namespace Table

/-- Tables that are shown have different names. -/
theorem nodup_names_exposable (tables : List Table) :
    ((exposable tables).map (·.name)).Nodup :=
  ((settled_sublist (firstOfEach tables)).map _).nodup (nodup_map_distinctFrom _ _ _)

/-- Once the tables are thinned out nothing changes any more. -/
@[simp]
theorem thinned_settled (tables : List Table) : thinned (settled tables) = settled tables := by
  induction tables using settled.induct with
  | case1 tables hlt ih => rw [settled, if_pos hlt, ih]
  | case2 tables hlt =>
    rw [settled, if_neg hlt]
    exact List.filter_sublist.eq_of_length_le (Nat.le_of_not_lt hlt)

/-- A table that is shown keeps a field when the tables that are shown are those there are. -/
theorem exists_keepsField_of_mem_exposable {tables : List Table} {t : Table}
    (h : t ∈ exposable tables) : ∃ f ∈ t.fields, keepsField (exposable tables) f := by
  rw [exposable, ← thinned_settled] at h
  obtain ⟨_, hany⟩ := List.mem_filter.mp h
  exact List.any_eq_true.mp hany

/-- A table that is shown is the first of its name. -/
theorem byName?_of_mem_exposable {tables : List Table} {t : Table} (h : t ∈ exposable tables) :
    byName? tables t.name = some t := find?_of_mem_distinctFrom ((settled_sublist _).subset h)

end Table

namespace Shape

variable {shapes : List Shape} {s : Shape} {f : Field}

/-- The shape of a table is found where the table is. -/
@[simp]
theorem byName?_tables (shapes : List Shape) (name : String) :
    Table.byName? (shapes.map (·.table)) name = (byTable? shapes name).map (·.table) := by
  unfold Table.byName? byTable?
  rw [List.find?_map]
  rfl

/-- A reference leads somewhere when its field stays. -/
theorem isSome_target? {table : String} (hr : f.tableRef = some table) :
    (target? shapes f).isSome = Table.keepsField (shapes.map (·.table)) f := by
  unfold target? Table.keepsField
  rw [hr]
  dsimp only
  rw [byName?_tables]
  cases hs : byTable? shapes table with
  | none => simp [hs]
  | some s => cases hc : f.joinColumn? s.table <;> simp [hs, hc]

/-- A column has a field when it stays. -/
@[simp]
theorem isSome_fieldOf? : (fieldOf? shapes s f).isSome
    = Table.keepsField (shapes.map (·.table)) f := by
  unfold fieldOf?
  cases hr : f.tableRef with
  | none =>
    unfold Table.keepsField
    rw [hr]
    rfl
  | some table => rw [← isSome_target? hr, Option.isSome_map]

/-- There are fields when a column stays. -/
theorem columnFields_ne_nil {fields : List Field} (hf : f ∈ fields)
    (hk : Table.keepsField (shapes.map (·.table)) f = true) : columnFields shapes s fields ≠ [] := by
  have hsome : (fieldOf? shapes s f).isSome := isSome_fieldOf?.trans hk
  obtain ⟨d, hd⟩ := Option.isSome_iff_exists.mp hsome
  exact Members.ofList_ne_nil (List.ne_nil_of_mem
    (List.mem_map_of_mem (List.mem_filterMap.mpr ⟨f, hf, hd⟩)))

/-- Tables with different names have different names in the graph. -/
theorem nodup_names_ofTables {tables : List Table} (h : (tables.map (·.name)).Nodup) :
    ((ofTables tables).map (·.name)).Nodup := by
  have hnames : (ofTables tables).map (·.name) = tables.map fun t =>
      ((Name.Scope.ofNames (tables.map (·.name))).escaped? t.name).getD t.name := by
    rw [ofTables, List.map_map]
    rfl
  rw [hnames]
  refine List.Nodup.map_on ?_ (List.Nodup.of_map _ h)
  intro t ht u hu he
  obtain ⟨form, hform⟩ := Name.Scope.exists_escaped?_ofNames (List.mem_map_of_mem ht)
  obtain ⟨form', hform'⟩ := Name.Scope.exists_escaped?_ofNames (List.mem_map_of_mem hu)
  rw [hform, hform', Option.getD_some, Option.getD_some] at he
  subst he
  have hname := (Name.Scope.sound_ofNames _).name_eq hform hform'
  exact List.inj_on_of_nodup_map h ht hu hname

/-- The shapes of tables are made of a table and a name each. -/
theorem eq_ofTable_of_mem_ofTables {tables : List Table} (h : s ∈ ofTables tables) :
    s = ofTable s.table s.name := by
  obtain ⟨t, _, rfl⟩ := List.mem_map.mp h
  rfl

section

variable {t : Table} {name base other : String}

/-- The form of a column is the one its scope has handed out. -/
theorem escaped?_columnField (hf : f ∈ t.fields) :
    (ofTable t name).columns.escaped? f.name = some ((ofTable t name).columnField f.name) := by
  obtain ⟨form, hform⟩ := Name.Scope.exists_escaped?_ofNames (List.mem_map_of_mem hf)
  have hescaped : (ofTable t name).columns.escaped? f.name = some form := hform
  rw [columnField, hescaped, Option.getD_some]

/-- The names in the graph that stand for a column are those that have been handed out for one. -/
theorem isSome_column?_iff {form : String} : ((ofTable t name).column? form).isSome
    ↔ ∃ f ∈ t.fields, (ofTable t name).columns.escaped? f.name = some form := by
  have hcolumns : (ofTable t name).columns = Name.Scope.ofNames (t.fields.map (·.name)) := rfl
  rw [column?, hcolumns, Option.isSome_iff_exists]
  constructor
  · rintro ⟨f, hf⟩
    obtain ⟨column, hcolumn, hfield⟩ := Option.bind_eq_some_iff.mp hf
    have hfound := List.find?_some hfield
    have hname : f.name = column := of_decide_eq_true hfound
    exact ⟨f, List.mem_of_find?_eq_some hfield,
      hname ▸ Name.Scope.name?_ofNames_eq_some_iff.mp hcolumn⟩
  · rintro ⟨f, hf, hform⟩
    have hfound : (t.field? f.name).isSome :=
      List.find?_isSome.mpr ⟨f, hf, decide_eq_true rfl⟩
    rw [Name.Scope.name?_ofNames_eq_some_iff.mpr hform]
    exact Option.isSome_iff_exists.mp hfound

/-- The name of a column in the graph stands for a column of the table. -/
theorem isSome_column?_columnField (hs : s = ofTable s.table s.name) (hf : f ∈ s.table.fields) :
    (s.column? (s.columnField f.name)).isSome := by
  rw [hs] at hf ⊢
  exact isSome_column?_iff.mpr ⟨f, hf, escaped?_columnField hf⟩

/-- The column that the name of a column in the graph stands for has the name of the column. -/
theorem name_of_column?_columnField (hs : s = ofTable s.table s.name) (hf : f ∈ s.table.fields)
    {g : Field} (h : s.column? (s.columnField f.name) = some g) : g.name = f.name := by
  rw [hs] at hf h
  have hcolumns : (ofTable s.table s.name).columns
      = Name.Scope.ofNames (s.table.fields.map (·.name)) := rfl
  obtain ⟨column, hcolumn, hfield⟩ := Option.bind_eq_some_iff.mp h
  have hfound := List.find?_some hfield
  have hname : g.name = column := of_decide_eq_true hfound
  rw [hcolumns, Name.Scope.name?_ofNames_eq_some_iff] at hcolumn
  rw [hname]
  exact (Name.Scope.sound_ofNames _).name_eq hcolumn (escaped?_columnField hf)

/-- Columns with different names have different names in the graph. -/
theorem columnField_eq {g : Field} (hf : f ∈ t.fields) (hg : g ∈ t.fields)
    (h : (ofTable t name).columnField f.name = (ofTable t name).columnField g.name) :
    f.name = g.name :=
  (Name.Scope.sound_ofNames _).name_eq (escaped?_columnField hf) (h ▸ escaped?_columnField hg)

/-- Names of links and groups are handed out beside those of the columns. -/
theorem sound_links (t : Table) (name : String) :
    (ofTable t name).links.Sound (ofTable t name).columns.issued :=
  (Name.Derived.sound_reserving _).issueAll _

/-- The name of a link or group is the one that has been handed out. -/
theorem get?_linkName (hb : base ∈ linkBases t) :
    (ofTable t name).links.get? base = some ((ofTable t name).linkName base) := by
  obtain ⟨issued, hissued⟩ := Name.Derived.exists_get?_issueAll (d := .reserving _) hb
  have hget : (ofTable t name).links.get? base = some issued := hissued
  rw [linkName, hget, Option.getD_some]

/-- No link or group has the name of a column. -/
theorem linkName_ne_columnField (hb : base ∈ linkBases t) (hf : f ∈ t.fields) :
    (ofTable t name).linkName base ≠ (ofTable t name).columnField f.name := by
  intro h
  refine (sound_links t name).not_reserved (get?_linkName hb) ?_
  rw [h]
  exact Name.Scope.mem_issued (escaped?_columnField hf)

/-- Links and groups that start from different texts have different names. -/
theorem linkName_eq (hb : base ∈ linkBases t) (ho : other ∈ linkBases t)
    (h : (ofTable t name).linkName base = (ofTable t name).linkName other) : base = other :=
  (sound_links t name).base_eq (get?_linkName hb) (h ▸ get?_linkName ho)

/-- A reference is among what the names of links start from. -/
theorem linkBase_mem_of_reference (hf : f ∈ t.fields) (hr : f.tableRef.isSome) :
    linkBase f.name ∈ linkBases t :=
  List.mem_append_left _ (List.mem_map_of_mem (List.mem_filter.mpr ⟨hf, hr⟩))

/-- A group is among what the names of groups start from. -/
theorem linkBase_mem_of_ref {r : Ref} (hf : f ∈ t.fields) (hr : r ∈ f.refs) :
    linkBase r.id.label ∈ linkBases t :=
  List.mem_append_right _ (List.mem_flatMap.mpr ⟨f, hf, List.mem_map_of_mem hr⟩)

/-- Different texts make different starts. -/
theorem linkBase_injective : Function.Injective linkBase := by
  intro a b h
  have hlist := congrArg String.toList h
  simp only [linkBase, String.toList_append] at hlist
  exact String.toList_inj.mp (List.append_cancel_left hlist)

end

end Shape

end TableGraph
