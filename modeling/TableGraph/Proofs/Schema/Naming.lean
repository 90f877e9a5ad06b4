import TableGraph.Proofs.Members
import TableGraph.Proofs.Schema.Building

/-!
# Names of a schema

The tables and columns that a schema speaks of come from the tables it is made of. Each step of a
build keeps this, so it holds of the schema in the end.
-/

namespace TableGraph

section

variable (N : String → Prop)

/-- A table of which `N` holds of every name: its own, those of its columns and those of the columns
that references point to. -/
structure Table.Named (t : Table) : Prop where
  /-- The name of the table. -/
  name : N t.name
  /-- The names of the columns. -/
  columns : ∀ f ∈ t.fields, N f.name
  /-- The columns that references point to. -/
  references : ∀ f ∈ t.fields, ∀ column, f.fieldRef = some column → N column

/-- A field of which `N` holds of every column. -/
structure FieldDef.Named (f : FieldDef) : Prop where
  /-- The column it is read from. -/
  column : ∀ column, f.column = some column → N column
  /-- The columns it is joined on. -/
  join : ∀ key, f.join = some key → N key.parent ∧ N key.child
  /-- The columns that its arguments speak of. -/
  shape : ∀ g ∈ f.shape.table.fields, N g.name

/-- An object type of which `N` holds of the table and every column. -/
structure ObjectType.Named (o : ObjectType) : Prop where
  /-- The table. -/
  table : N o.table
  /-- The primary key. -/
  primary : ∀ column, o.primary = some column → N column
  /-- The fields. -/
  fields : ∀ e ∈ o.fields, e.2.Named N

/-- Types of which `N` holds of every table and column. -/
def Registry.Named (t : Registry) : Prop := ∀ e ∈ t.objects, e.2.Named N

end

variable {N : String → Prop}

namespace Table

/-- The primary key is a column of the table. -/
theorem Named.primary {t : Table} (h : t.Named N) {column : String}
    (hc : t.primaryField?.map (·.name) = some column) : N column := by
  obtain ⟨f, hf, rfl⟩ := Option.map_eq_some_iff.mp hc
  exact h.columns f (List.mem_of_find?_eq_some hf)

end Table

namespace Shape

variable {shapes : List Shape}

/-- A reference is joined on a column with a known name. -/
theorem target?_named (hs : ∀ s ∈ shapes, s.table.Named N) {f : Field} {t : Shape × String}
    (hf : ∀ column, f.fieldRef = some column → N column) (h : target? shapes f = some t) :
    N t.2 := by
  obtain ⟨hmem, hcolumn⟩ := target?_eq_some h
  rcases Option.or_eq_some_iff.mp hcolumn with hcolumn | ⟨_, hcolumn⟩
  · exact hf t.2 hcolumn
  · exact (hs t.1 hmem).primary hcolumn

/-- The field of a column speaks of known names. -/
theorem fieldOf?_named (hs : ∀ s ∈ shapes, s.table.Named N) {s : Shape} (ht : s.table.Named N)
    {f : Field} (hf : f ∈ s.table.fields) {d : FieldDef} (h : fieldOf? shapes s f = some d) :
    d.Named N := by
  have hcolumn : ∀ column, some f.name = some column → N column := by
    rintro column ⟨⟩
    exact ht.columns f hf
  unfold fieldOf? at h
  cases hr : f.tableRef with
  | none =>
    rw [hr] at h
    cases h
    exact ⟨hcolumn, fun _ hk => (nomatch hk), ht.columns⟩
  | some table =>
    rw [hr] at h
    obtain ⟨t, htarget, rfl⟩ := Option.map_eq_some_iff.mp h
    refine ⟨hcolumn, ?_, (hs t.1 (target?_eq_some htarget).1).columns⟩
    rintro key ⟨⟩
    exact ⟨ht.columns f hf, target?_named hs (ht.references f hf) htarget⟩

/-- The fields of columns speak of known names. -/
theorem columnFields_named (hs : ∀ s ∈ shapes, s.table.Named N) {s : Shape} (ht : s.table.Named N)
    {fields : List Field} (hf : ∀ f ∈ fields, f ∈ s.table.fields) :
    ∀ e ∈ columnFields shapes s fields, e.2.Named N := by
  intro e he
  obtain ⟨d, hd, rfl⟩ := List.mem_map.mp (Members.mem_ofList he)
  obtain ⟨f, hmem, hd⟩ := List.mem_filterMap.mp hd
  exact fieldOf?_named hs ht (hf f hmem) hd

/-- The object type of a table speaks of known names. -/
theorem objectType_named (hs : ∀ s ∈ shapes, s.table.Named N) {s : Shape} (ht : s.table.Named N) :
    (s.objectType shapes).Named N :=
  ⟨ht.name, fun _ hc => ht.primary hc, columnFields_named hs ht fun _ hf => hf⟩

/-- The field of a group speaks of known names. -/
theorem groupDef_named {s : Shape} (ht : s.table.Named N) (r : Ref) (object : String) {key : String}
    (hk : N key) : (s.groupDef r object key).Named N := by
  refine ⟨?_, ?_, ht.columns⟩
  · rintro column ⟨⟩
    exact hk
  · rintro key ⟨⟩
    exact ⟨hk, hk⟩

/-- The root field of a table speaks of known names. -/
theorem rootDef_named {s : Shape} (ht : s.table.Named N) : s.rootDef.Named N :=
  ⟨fun _ h => (nomatch h), fun _ h => (nomatch h), ht.columns⟩

end Shape

namespace Registry

/-- An object type with known names is added. -/
theorem Named.addObject {t : Registry} (h : t.Named N) {o : ObjectType} (ho : o.Named N) :
    (t.addObject o).Named N := by
  intro e he
  rcases Members.mem_insert he with rfl | he
  · exact ho
  · exact h e he

/-- Inputs speak of no tables. -/
theorem Named.addInputs {t : Registry} (h : t.Named N) (s : Shape) : (t.addInputs s).Named N := by
  unfold Registry.addInputs
  split
  · exact h
  · exact h

/-- Connections speak of no tables. -/
theorem Named.addConnection {t : Registry} (h : t.Named N) (s : Shape) :
    (t.addConnection s).Named N := by
  unfold Registry.addConnection
  split
  · exact h
  · exact h

/-- A field with known names is added. -/
theorem Named.addField {t : Registry} (h : t.Named N) (s : Shape) {d : FieldDef} (hd : d.Named N) :
    (t.addField s d).Named N := by
  unfold Registry.addField
  cases ho : Members.get? t.objects s.name with
  | none => exact h
  | some o =>
    have hnamed := h _ (Members.mem_of_get? ho)
    refine h.addObject ⟨hnamed.table, hnamed.primary, ?_⟩
    intro e he
    rcases Members.mem_insert he with rfl | he
    · exact hd
    · exact hnamed.fields e he

end Registry

namespace BuildState

variable {shapes : List Shape}

/-- A group whose object type has known names is joined on one. -/
theorem addGroupField_named {b b' : BuildState} (hb : b.types.Named N) {s : Shape}
    (ht : s.table.Named N) {r : Ref} {o : ObjectType} (ho : o.Named N)
    (h : b.addGroupField s r o = .ok b') : b'.types.Named N := by
  unfold addGroupField at h
  cases hp : o.primary with
  | none =>
    rw [hp] at h
    cases h
  | some key =>
    rw [hp] at h
    cases h
    exact (hb.addInputs s).addField s (Shape.groupDef_named ht r o.name (ho.primary key hp))

/-- Making a group keeps to known names. -/
theorem makeGroup_named (hs : ∀ s ∈ shapes, s.table.Named N) {b b' : BuildState}
    (hb : b.types.Named N) {s : Shape} (ht : s.table.Named N) {r : Ref}
    (h : makeGroup shapes s b r = .ok b') : b'.types.Named N := by
  unfold makeGroup at h
  dsimp only at h
  generalize b.groupNames.issue (groupBase s r) = issued at h
  have hissued : (⟨b.types, issued.2⟩ : BuildState).types.Named N := hb
  split at h
  · rename_i o ho
    exact addGroupField_named hissued ht (hb _ (Members.mem_of_get? ho)) h
  · split at h
    · cases h
      exact hb
    · split at h
      · cases h
      · rename_i key hp
        have ho : (⟨issued.1, s.table.name, some key, r.name,
            Shape.columnFields shapes s (s.groupMembers r)⟩ : ObjectType).Named N := by
          refine ⟨ht.name, ?_, ?_⟩
          · rintro column ⟨⟩
            exact ht.primary hp
          · exact Shape.columnFields_named hs ht fun f hf => List.mem_of_mem_filter hf
        exact @addGroupField_named N ⟨b.types.addObject _, issued.2⟩ b' (hb.addObject ho) s ht r _
          ho h

/-- A step about a table with known names keeps to known names. -/
theorem take_named (hs : ∀ s ∈ shapes, s.table.Named N) {b b' : BuildState}
    (hb : b.types.Named N) {step : BuildStep} (hstep : step.shape ∈ shapes)
    (h : b.take shapes step = .ok b') : b'.types.Named N := by
  cases step with
  | openTable s =>
    cases h
    exact hb.addObject (Shape.objectType_named hs (hs s hstep))
  | reach s =>
    cases h
    exact (hb.addConnection s).addInputs s
  | makeGroups s =>
    exact foldlM_invariant (P := fun b : BuildState => b.types.Named N)
      (fun _ _ _ _ hb hmake => makeGroup_named hs hb (hs s hstep) hmake) hb h

end BuildState

/-- A schema speaks of tables and columns with known names, if those of its tables are known. -/
theorem Schema.build_named {tables : List Table} (ht : ∀ t ∈ tables, t.Named N) {schema : Schema}
    (h : (build tables).outcome = .ok schema) :
    (∀ e ∈ schema.root, e.2.Named N) ∧ schema.types.Named N := by
  obtain ⟨_, b, rfl, hrun, rfl⟩ := exists_steps_of_build h
  have hs : ∀ s ∈ Shape.ofTables (Table.exposable tables), s.table.Named N := fun s hmem =>
    ht _ (Table.mem_of_mem_exposable (Shape.table_mem_of_mem_ofTables hmem))
  constructor
  · intro e he
    obtain ⟨s, hmem, rfl⟩ := List.mem_map.mp (Members.mem_ofList he)
    exact Shape.rootDef_named (hs s hmem)
  · refine foldlM_invariant (P := fun b : BuildState => b.types.Named N) ?_ ?_ hrun
    · exact fun step hstep _ _ hb htake =>
        BuildState.take_named hs hb (BuildStep.shape_mem_of_mem_ofShapes hstep) htake
    · intro e he
      cases he

end TableGraph
