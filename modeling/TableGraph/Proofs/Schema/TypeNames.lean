import TableGraph.Graph.TypeSystem
import TableGraph.Proofs.Schema.Entries
import TableGraph.Proofs.Schema.Inputs
import TableGraph.Proofs.Schema.Registered

/-!
# The names of types

All types of a schema share one set of names: those that every schema has, the object types of tables
and groups, connections and edges, inputs, and enumerations. Names of one kind are kept apart, and so
are the names of groups from those of tables. Nothing keeps a table from having the name of a type of
another kind, and then one type takes the place of the other.
-/

namespace TableGraph

/-- The names of the types that every schema has: the scalars, the root and the description of a
page. -/
def TypeSystem.fixedNames : List String :=
  ["Int", "Float", "String", "Boolean", "ID", "Tables", "PageInfo", "Date", "Url"]

/-- The names of the connection and the edge of an object type. -/
def pageNames (node : String) : List String := [connectionName node, edgeName node]

/-- The names of the inputs and enumerations of a table. -/
def Shape.givenNames (s : Shape) : List String :=
  s.inputTypes.map (·.name) ++ s.enumTypes.map (·.name)

/-- No name of one kind of types is that of another kind. -/
structure Schema.NamesApart (schema : Schema) : Prop where
  /-- No table has the name of a type that every schema has. -/
  fixed : ∀ s ∈ schema.tables, s.name ∉ TypeSystem.fixedNames
  /-- No table or group has the name of a connection or an edge. -/
  pages : ∀ s ∈ schema.tables, ∀ o ∈ Members.values schema.types.objects,
    o.name ∉ pageNames s.name
  /-- No table, connection or edge has the name of an input or enumeration. -/
  given : ∀ s ∈ schema.tables, ∀ u ∈ schema.tables, ∀ name ∈ s.givenNames,
    u.name ≠ name ∧ name ∉ pageNames u.name
  /-- No input for an ordering has the name of an enumeration of columns to order by. -/
  sorting : ∀ s ∈ schema.tables, ∀ u ∈ schema.tables, s.name ≠ "FIELDS_" ++ u.name

/-- A name behind words is no name that ends differently. -/
theorem append_ne_of_not_suffix {a b tail : String} (h : ¬tail.toList <:+ b.toList) :
    a ++ tail ≠ b := by
  rintro rfl
  exact h ⟨a.toList, (String.toList_append).symm⟩

/-- A name behind words is no name that begins differently. -/
theorem append_ne_of_not_prefix {lead a b : String} (h : ¬lead.toList <+: b.toList) :
    lead ++ a ≠ b := by
  rintro rfl
  exact h ⟨a.toList, (String.toList_append).symm⟩

namespace TypeSystem

/-- The names of types in the order in which they are taken. -/
theorem names_typesOf (schema : Schema) :
    Members.names (typesOf schema) = fixedNames
      ++ (Members.values schema.types.objects).map (·.name)
      ++ schema.types.connections.flatMap pageNames
      ++ ((Members.values schema.types.inputs).map (·.name)
        ++ (Members.values schema.types.enums).map (·.name)) := by
  simp only [typesOf, Members.names_append, Members.names_map, Members.names_flatMap,
    List.append_assoc]
  rfl

/-- No connection or edge has the name of a type that every schema has. -/
theorem not_mem_pageNames_of_fixed {name : String} (h : name ∈ fixedNames) (node : String) :
    name ∉ pageNames node := by
  have hends : ∀ name ∈ fixedNames, ¬"Connection".toList <:+ name.toList
      ∧ ¬"Edge".toList <:+ name.toList := by decide
  obtain ⟨hconnection, hedge⟩ := hends name h
  simp only [pageNames, List.mem_cons, List.not_mem_nil, or_false, not_or]
  exact ⟨(append_ne_of_not_suffix hconnection).symm, (append_ne_of_not_suffix hedge).symm⟩

end TypeSystem

namespace Shape

variable {s u : Shape} {name : String}

/-- An input or enumeration of a table is named after it. -/
theorem exists_lead_of_mem_givenNames (h : name ∈ s.givenNames) :
    ∃ lead ∈ inputLeads ++ enumLeads, name = lead ++ s.name := by
  rcases List.mem_append.mp h with h | h
  · obtain ⟨i, hi, rfl⟩ := List.mem_map.mp h
    obtain ⟨lead, hlead, he⟩ := exists_lead_of_mem_inputTypes hi
    exact ⟨lead, List.mem_append_left _ hlead, he⟩
  · obtain ⟨e, he, rfl⟩ := List.mem_map.mp h
    obtain ⟨lead, hlead, he⟩ := exists_lead_of_mem_enumTypes he
    exact ⟨lead, List.mem_append_right _ hlead, he⟩

/-- No input or enumeration has the name of a type that every schema has. -/
theorem not_fixed_of_mem_givenNames (h : name ∈ s.givenNames) :
    name ∉ TypeSystem.fixedNames := by
  have hbegins : ∀ lead ∈ inputLeads ++ enumLeads, ∀ name ∈ TypeSystem.fixedNames,
      ¬lead.toList <+: name.toList := by decide
  obtain ⟨lead, hlead, rfl⟩ := exists_lead_of_mem_givenNames h
  exact fun hfixed => append_ne_of_not_prefix (hbegins lead hlead _ hfixed) rfl

/-- An input and an enumeration have the same name only if one is for an ordering and the other has
the columns to order by. -/
theorem eq_fields_of_name_eq {i : InputType} (hi : i ∈ s.inputTypes) {e : EnumType}
    (he : e ∈ u.enumTypes) (h : i.name = e.name) : s.name = "FIELDS_" ++ u.name := by
  have hapart : ∀ l ∈ inputLeads, ∀ l' ∈ enumLeads, (l = "SORTING_" ∧ l' = "SORTING_FIELDS_")
      ∨ ¬l.toList <+: l'.toList ∧ ¬l'.toList <+: l.toList := by decide
  obtain ⟨lead, hlead, hname⟩ := exists_lead_of_mem_inputTypes hi
  obtain ⟨lead', hlead', hname'⟩ := exists_lead_of_mem_enumTypes he
  rw [hname, hname'] at h
  rcases hapart lead hlead lead' hlead' with ⟨rfl, rfl⟩ | ⟨hno, hno'⟩
  · have hsplit : "SORTING_FIELDS_" ++ u.name = "SORTING_" ++ ("FIELDS_" ++ u.name) := by
      rw [← String.append_assoc]
      rfl
    have hlist := congrArg String.toList (h.trans hsplit)
    rw [String.toList_append, String.toList_append] at hlist
    exact String.toList_inj.mp (List.append_cancel_left hlist)
  · exact absurd h (append_ne_append hno hno' _ _)

/-- The enumeration of the columns to order by. -/
def sortedColumns (s : Shape) : EnumType :=
  ⟨"SORTING_FIELDS_" ++ s.name,
    s.table.fields.map fun f => (s.columnField f.name, nonEmpty? f.description)⟩

/-- The input for the directions of an ordering. -/
def directions (s : Shape) : InputType :=
  ⟨s.sortingName, membersOf ["asc", "desc"] [s.sortedColumns.name]⟩

/-- A table with a column can be ordered by all columns. -/
theorem sortingEnum_eq (h : s.table.fields ≠ []) : s.sortingEnum = [s.sortedColumns] := by
  have hall : s.table.fields.filter (fun _ => true) = s.table.fields := List.filter_true _
  unfold sortingEnum columnsEnum
  rw [hall]
  split
  · exact absurd ‹_› h
  · rfl

/-- A table with a column has an input for the directions of an ordering. -/
theorem sortingInput_eq (h : s.table.fields ≠ []) : s.sortingInput = [s.directions] := by
  rw [sortingInput, sortingEnum_eq h]
  rfl

/-- The columns to order by are an enumeration of a table with a column. -/
theorem sortedColumns_mem (h : s.table.fields ≠ []) : s.sortedColumns ∈ s.enumTypes := by
  have hlast : s.sortedColumns ∈ s.sortingEnum := sortingEnum_eq h ▸ List.mem_cons_self
  exact List.mem_append_right _ hlast

/-- The directions of an ordering are an input of a table with a column. -/
theorem directions_mem (h : s.table.fields ≠ []) : s.directions ∈ s.inputTypes := by
  have hlast : s.directions ∈ s.sortingInput := sortingInput_eq h ▸ List.mem_cons_self
  exact List.mem_append_right _ hlast

end Shape

namespace Schema

variable {tables : List Table} {schema : Schema}

/-- A table that is shown has a column. -/
theorem fields_ne_nil_of_mem (hbuild : (build tables).outcome = .ok schema) {s : Shape}
    (hs : s ∈ schema.tables) : s.table.fields ≠ [] := by
  obtain ⟨c, hc, _⟩ := exists_keepsField hbuild hs
  exact List.ne_nil_of_mem hc

/-- An object type has the name of its table, or one that is made up for a group. -/
theorem object_name_cases (hbuild : (build tables).outcome = .ok schema) {o : ObjectType}
    (ho : o ∈ Members.values schema.types.objects) :
    (∃ s ∈ schema.tables, s.name = o.name) ∨ "EMULATED_".toList <+: o.name.toList := by
  refine (object_cases hbuild (get?_of_mem_objects hbuild ho)).imp id ?_
  rintro ⟨g, _, _, hstem, _⟩
  refine (Name.Derived.prefix_stem (by decide) (List.all_eq_true.mp (by decide)) ?_).trans hstem
  rw [Group.base, BuildState.groupBase, String.append_assoc, String.append_assoc,
    String.toList_append]
  exact List.prefix_append _ _

/-- The object types have different names. -/
theorem nodup_objectNames (hbuild : (build tables).outcome = .ok schema) :
    ((Members.values schema.types.objects).map (·.name)).Nodup := by
  have hkeyed := keyed_of_build hbuild
  have hnames : (Members.values schema.types.objects).map (·.name)
      = Members.names schema.types.objects := by
    rw [Members.values, List.map_map]
    exact List.map_congr_left hkeyed.own
  rw [hnames]
  exact hkeyed.apart

/-- The connections and edges have different names. -/
theorem nodup_pageNames (hbuild : (build tables).outcome = .ok schema) :
    (schema.types.connections.flatMap pageNames).Nodup := by
  have hends : ¬"Connection".toList <:+ "Edge".toList ∧ ¬"Edge".toList <:+ "Connection".toList := by
    decide
  have hapart : ∀ a b : String, connectionName a ≠ edgeName b := by
    intro a b he
    have hlist := congrArg String.toList he
    rw [connectionName, edgeName, String.toList_append, String.toList_append] at hlist
    have hsuffix : "Connection".toList <:+ b.toList ++ "Edge".toList := ⟨a.toList, hlist⟩
    exact (List.suffix_or_suffix_of_suffix hsuffix (List.suffix_append _ _)).elim hends.1 hends.2
  have hinj : ∀ {a b tail : String}, a ++ tail = b ++ tail → a = b := by
    intro a b tail he
    have hlist := congrArg String.toList he
    rw [String.toList_append, String.toList_append] at hlist
    exact String.toList_inj.mp (List.append_cancel_right hlist)
  obtain ⟨_, linked, _, hperm, hlists⟩ := lists_of_build hbuild
  have hnames : (linked.map (·.name)).Nodup :=
    (hperm.map (·.name)).nodup_iff.mpr (nodup_names hbuild)
  rw [hlists.connections, List.nodup_flatMap]
  -- A name with one ending is no name with the other, and the ending gives the table back.
  refine ⟨fun n _ => ?_, hnames.imp ?_⟩
  · simp only [pageNames, List.nodup_cons, List.mem_singleton, List.not_mem_nil, not_false_eq_true,
      List.nodup_nil, and_true]
    exact hapart n n
  · intro a b hne name ha hb
    simp only [pageNames, List.mem_cons, List.not_mem_nil, or_false] at ha hb
    rcases ha with rfl | rfl <;> rcases hb with hb | hb
    · exact hne (hinj hb)
    · exact hapart a b hb
    · exact hapart b a hb.symm
    · exact hne (hinj hb)

/-- The names of inputs are those of the inputs of tables. -/
theorem mem_inputNames (hbuild : (build tables).outcome = .ok schema) {name : String} :
    name ∈ (Members.values schema.types.inputs).map (·.name)
      ↔ ∃ s ∈ schema.tables, ∃ i ∈ s.inputTypes, i.name = name := by
  obtain ⟨filtered, _, hperm, _, hlists⟩ := lists_of_build hbuild
  rw [hlists.inputs, Members.values_keyed, List.map_flatMap, List.mem_flatMap]
  simp only [List.mem_map, hperm.mem_iff]

/-- The names of enumerations are those of the enumerations of tables. -/
theorem mem_enumNames (hbuild : (build tables).outcome = .ok schema) {name : String} :
    name ∈ (Members.values schema.types.enums).map (·.name)
      ↔ ∃ s ∈ schema.tables, ∃ e ∈ s.enumTypes, e.name = name := by
  obtain ⟨filtered, _, hperm, _, hlists⟩ := lists_of_build hbuild
  rw [hlists.enums, Members.values_keyed, List.map_flatMap, List.mem_flatMap]
  simp only [List.mem_map, hperm.mem_iff]

/-- The names of inputs and enumerations are those given for tables. -/
theorem mem_givenNames (hbuild : (build tables).outcome = .ok schema) {name : String} :
    name ∈ (Members.values schema.types.inputs).map (·.name)
        ++ (Members.values schema.types.enums).map (·.name)
      ↔ ∃ s ∈ schema.tables, name ∈ s.givenNames := by
  rw [List.mem_append, mem_inputNames hbuild, mem_enumNames hbuild]
  simp only [Shape.givenNames, List.mem_append, List.mem_map]
  constructor
  · rintro (⟨s, hs, h⟩ | ⟨s, hs, h⟩)
    · exact ⟨s, hs, Or.inl h⟩
    · exact ⟨s, hs, Or.inr h⟩
  · rintro ⟨s, hs, h | h⟩
    · exact Or.inl ⟨s, hs, h⟩
    · exact Or.inr ⟨s, hs, h⟩

/-- The inputs and enumerations have different names just when no table is named after the columns of
another. -/
theorem nodup_givenNames_iff (hbuild : (build tables).outcome = .ok schema) :
    ((Members.values schema.types.inputs).map (·.name)
        ++ (Members.values schema.types.enums).map (·.name)).Nodup
      ↔ ∀ s ∈ schema.tables, ∀ u ∈ schema.tables, s.name ≠ "FIELDS_" ++ u.name := by
  obtain ⟨filtered, _, hperm, _, hlists⟩ := lists_of_build hbuild
  have hnames : (filtered.map (·.name)).Nodup :=
    (hperm.map (·.name)).nodup_iff.mpr (nodup_names hbuild)
  have hinputs : ((Members.values schema.types.inputs).map (·.name)).Nodup := by
    rw [hlists.inputs, Members.values_keyed]
    exact Shape.nodup_inputNames hnames
  have henums : ((Members.values schema.types.enums).map (·.name)).Nodup := by
    rw [hlists.enums, Members.values_keyed]
    exact Shape.nodup_enumNames hnames
  rw [List.nodup_append]
  constructor
  · rintro ⟨_, _, hapart⟩ s hs u hu he
    -- Each of the two has both types, and the ordering of the one has the name of the other's
    -- columns.
    have hi := Shape.directions_mem (fields_ne_nil_of_mem hbuild hs)
    have he' := Shape.sortedColumns_mem (fields_ne_nil_of_mem hbuild hu)
    refine hapart _ ((mem_inputNames hbuild).mpr ⟨s, hs, _, hi, rfl⟩) _
      ((mem_enumNames hbuild).mpr ⟨u, hu, _, he', rfl⟩) ?_
    rw [Shape.directions, Shape.sortedColumns, Shape.sortingName, he, ← String.append_assoc]
    rfl
  · intro hfields
    refine ⟨hinputs, henums, ?_⟩
    rintro _ hi _ he rfl
    obtain ⟨s, hs, i, hi, hin⟩ := (mem_inputNames hbuild).mp hi
    obtain ⟨u, hu, e, he, hen⟩ := (mem_enumNames hbuild).mp he
    exact hfields s hs u hu (Shape.eq_fields_of_name_eq hi he (hin.trans hen.symm))

/-- Connections and edges are those of tables. -/
theorem mem_pageNames (hbuild : (build tables).outcome = .ok schema) {name : String} :
    name ∈ schema.types.connections.flatMap pageNames
      ↔ ∃ s ∈ schema.tables, name ∈ pageNames s.name := by
  rw [List.mem_flatMap]
  constructor
  · rintro ⟨n, hn, h⟩
    obtain ⟨s, hs, rfl⟩ := (mem_connections_iff hbuild).mp hn
    exact ⟨s, hs, h⟩
  · rintro ⟨s, hs, h⟩
    exact ⟨s.name, (mem_connections_iff hbuild).mpr ⟨s, hs, rfl⟩, h⟩

/-- A table has an object type of its name. -/
theorem name_mem_objectNames (hbuild : (build tables).outcome = .ok schema) {s : Shape}
    (hs : s ∈ schema.tables) : s.name ∈ (Members.values schema.types.objects).map (·.name) := by
  obtain ⟨_, _, ho⟩ := object_of_table hbuild hs
  exact List.mem_map.mpr ⟨_, List.mem_map.mpr ⟨_, Members.mem_of_get? ho, rfl⟩, rfl⟩

/-- Only tables have names of types that every schema has. -/
theorem exists_table_of_fixed (hbuild : (build tables).outcome = .ok schema) {o : ObjectType}
    (ho : o ∈ Members.values schema.types.objects) (h : o.name ∈ TypeSystem.fixedNames) :
    ∃ s ∈ schema.tables, s.name = o.name := by
  have hno : ∀ name ∈ TypeSystem.fixedNames, ¬"EMULATED_".toList <+: name.toList := by decide
  exact (object_name_cases hbuild ho).resolve_right (hno _ h)

/-- Only tables have names of inputs or enumerations. -/
theorem exists_table_of_given (hbuild : (build tables).outcome = .ok schema) {o : ObjectType}
    (ho : o ∈ Members.values schema.types.objects) {s : Shape} (h : o.name ∈ s.givenNames) :
    ∃ u ∈ schema.tables, u.name = o.name := by
  have hno : ∀ lead ∈ Shape.inputLeads ++ Shape.enumLeads,
      ¬lead.toList <+: "EMULATED_".toList ∧ ¬"EMULATED_".toList <+: lead.toList := by decide
  obtain ⟨lead, hmem, he⟩ := Shape.exists_lead_of_mem_givenNames h
  obtain ⟨hnot, hnot'⟩ := hno lead hmem
  refine (object_name_cases hbuild ho).resolve_right fun hlead => ?_
  rw [he, String.toList_append] at hlead
  exact (List.prefix_or_prefix_of_prefix hlead (List.prefix_append _ _)).elim hnot' hnot

/-- When types have different names, no name of one kind of types is that of another kind. -/
theorem namesApart_of_nodup (hbuild : (build tables).outcome = .ok schema)
    (h : (Members.names (TypeSystem.typesOf schema)).Nodup) : schema.NamesApart := by
  rw [TypeSystem.names_typesOf, List.nodup_append, List.nodup_append, List.nodup_append,
    nodup_givenNames_iff hbuild] at h
  obtain ⟨⟨⟨_, _, hobjects⟩, _, hpages⟩, hsorting, hgiven⟩ := h
  have hname := fun s (hs : s ∈ schema.tables) => name_mem_objectNames hbuild hs
  refine ⟨fun s hs hmem => hobjects _ hmem _ (hname s hs) rfl, ?_, ?_, hsorting⟩
  · intro s hs o ho hmem
    exact hpages _ (List.mem_append_right _ (List.mem_map_of_mem ho)) _
      ((mem_pageNames hbuild).mpr ⟨s, hs, hmem⟩) rfl
  · intro s hs u hu name hmem
    have hmem' := (mem_givenNames hbuild).mpr ⟨s, hs, hmem⟩
    refine ⟨hgiven _ (List.mem_append_left _ (List.mem_append_right _ (hname u hu))) _ hmem', ?_⟩
    intro hpage
    exact hgiven _ (List.mem_append_right _ ((mem_pageNames hbuild).mpr ⟨u, hu, hpage⟩)) _ hmem' rfl

/-- When no name of one kind of types is that of another kind, types have different names. -/
theorem NamesApart.nodup (hbuild : (build tables).outcome = .ok schema) (h : schema.NamesApart) :
    (Members.names (TypeSystem.typesOf schema)).Nodup := by
  have hfixed : TypeSystem.fixedNames.Nodup := by decide
  rw [TypeSystem.names_typesOf, List.nodup_append, List.nodup_append, List.nodup_append,
    nodup_givenNames_iff hbuild]
  refine ⟨⟨⟨hfixed, nodup_objectNames hbuild, ?_⟩, nodup_pageNames hbuild, ?_⟩, h.sorting, ?_⟩
  · rintro _ hmem _ hobject rfl
    obtain ⟨o, ho, rfl⟩ := List.mem_map.mp hobject
    obtain ⟨s, hs, hname⟩ := exists_table_of_fixed hbuild ho hmem
    exact h.fixed s hs (hname ▸ hmem)
  · rintro _ hmem _ hpage rfl
    obtain ⟨s, hs, hpage⟩ := (mem_pageNames hbuild).mp hpage
    rcases List.mem_append.mp hmem with hmem | hmem
    · exact TypeSystem.not_mem_pageNames_of_fixed hmem _ hpage
    · obtain ⟨o, ho, rfl⟩ := List.mem_map.mp hmem
      exact h.pages s hs o ho hpage
  · rintro _ hmem _ hgiven rfl
    obtain ⟨s, hs, hgiven⟩ := (mem_givenNames hbuild).mp hgiven
    rcases List.mem_append.mp hmem with hmem | hpage
    · rcases List.mem_append.mp hmem with hmem | hobject
      · exact Shape.not_fixed_of_mem_givenNames hgiven hmem
      · obtain ⟨o, ho, rfl⟩ := List.mem_map.mp hobject
        obtain ⟨u, hu, hname⟩ := exists_table_of_given hbuild ho hgiven
        exact (h.given s hs u hu _ hgiven).1 hname
    · obtain ⟨u, hu, hpage⟩ := (mem_pageNames hbuild).mp hpage
      exact (h.given s hs u hu _ hgiven).2 hpage

/-- The types of a schema have different names just when no name of one kind of types is that of
another kind. -/
theorem nodup_typeNames_iff (tables : List Table) (schema : Schema)
    (hbuild : (build tables).outcome = .ok schema) :
    (Members.names (TypeSystem.typesOf schema)).Nodup ↔ schema.NamesApart :=
  ⟨namesApart_of_nodup hbuild, NamesApart.nodup hbuild⟩

/-- A table with the name of the root type. -/
def rootNameTables : List Table :=
  [⟨"TABLES", "Tables", [], [(Field.plain "Tables" "ID" .int).asPrimary,
    Field.plain "Tables" "NAME" .string]⟩]

/-- The object type of the table takes the place of the root type, so the table cannot be asked
for. -/
theorem not_nodup_typeNames_rootName :
    ∃ schema, (build rootNameTables).outcome = .ok schema
      ∧ ¬(Members.names (TypeSystem.typesOf schema)).Nodup
      ∧ (TypeSystem.ofSchema schema).field? TypeSystem.rootName "Tables" = none := by
  have hbuilt : (built? rootNameTables).map (fun schema => (schema.tables.map (·.name),
      (TypeSystem.ofSchema schema).field? TypeSystem.rootName "Tables"))
        = some (["Tables"], none) := by cbv
  obtain ⟨schema, hschema, hparts⟩ := Option.map_eq_some_iff.mp hbuilt
  obtain ⟨hnames, hfield⟩ := Prod.mk.inj hparts
  have hbuild := build_eq_ok_iff.mpr hschema
  refine ⟨schema, hbuild, fun hnodup => ?_, hfield⟩
  have happart := (nodup_typeNames_iff rootNameTables schema hbuild).mp hnodup
  obtain ⟨s, hs, hname⟩ := List.mem_map.mp (hnames ▸ List.mem_cons_self :
    "Tables" ∈ schema.tables.map (·.name))
  have hfixed : "Tables" ∈ TypeSystem.fixedNames := by decide
  exact happart.fixed s hs (hname ▸ hfixed)

end Schema

/-- Every type of a schema keeps its place just when types have different names. -/
theorem TypeSystem.ofSchema_eq_typesOf_iff (schema : Schema) :
    ofSchema schema = typesOf schema ↔ (Members.names (typesOf schema)).Nodup := by
  constructor
  · intro h
    rw [← h]
    exact Members.nodup_names_ofList _
  · exact Members.ofList_of_nodup

end TableGraph
