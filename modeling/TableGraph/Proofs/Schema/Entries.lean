import TableGraph.Proofs.Schema.Rows

/-!
# The object types and fields of a schema

A build adds object types under their own names and puts nothing else there, so each type that is
there is found under its name. The rows of an object type are those of a table of the schema, and
every field that is no scalar leads to rows of such a table and takes the arguments for them.
-/

namespace TableGraph

namespace Registry

/-- The object types stand under their own names, each once. -/
structure Keyed (t : Registry) : Prop where
  /-- No name comes twice. -/
  apart : (Members.names t.objects).Nodup
  /-- Each object type stands under its own name. -/
  own : ∀ e ∈ t.objects, e.2.name = e.1

variable {t : Registry}

/-- An object type is added under its own name. -/
theorem Keyed.addObject (h : t.Keyed) (o : ObjectType) : (t.addObject o).Keyed := by
  refine ⟨Members.nodup_names_insert h.apart _ _, fun e he => ?_⟩
  rcases Members.mem_insert he with rfl | he
  · rfl
  · exact h.own e he

/-- A field is added to an object type that stays under its own name. -/
theorem Keyed.addField (h : t.Keyed) (s : Shape) (d : FieldDef) : (t.addField s d).Keyed := by
  unfold Registry.addField
  split
  · exact h.addObject _
  · exact h

/-- Other types do not matter. -/
theorem Keyed.congr (h : t.Keyed) {t' : Registry} (ho : t'.objects = t.objects) : t'.Keyed :=
  ⟨ho ▸ h.apart, ho ▸ h.own⟩

/-- The type of a group is added under its own name. -/
theorem Keyed.addGroupType (h : t.Keyed) (shapes : List Shape) (g : Group) (name : String) :
    (t.addGroupType shapes g name).Keyed := by
  unfold Registry.addGroupType
  split
  · exact h.addObject _
  · exact h

end Registry

namespace BuildState

variable {shapes : List Shape}

/-- Making a group keeps object types under their own names. -/
theorem keyed_makeGroup {b b' : BuildState} (h : b.types.Keyed) {s : Shape} {r : Ref}
    (hmake : makeGroup shapes s b r = .ok b') : b'.types.Keyed := by
  obtain ⟨name, _, _, rfl, hcase⟩ := makeGroup_cases (g := ⟨s, r⟩) hmake
  have htype := h.addGroupType shapes ⟨s, r⟩ name
  rcases hcase with ⟨_, htypes⟩ | ⟨o, key, _, _, htypes⟩
  · exact htypes ▸ htype
  · rw [htypes]
    exact (htype.congr (Registry.objects_addInputs _ _)).addField _ _

/-- Steps keep object types under their own names. -/
theorem keyed_take {b b' : BuildState} (h : b.types.Keyed) {step : BuildStep}
    (htake : b.take shapes step = .ok b') : b'.types.Keyed := by
  cases step with
  | openTable s =>
    cases htake
    exact h.addObject _
  | reach s =>
    cases htake
    refine h.congr ?_
    simp
  | makeGroups s =>
    exact foldlM_invariant (P := fun b : BuildState => b.types.Keyed)
      (fun _ _ _ _ h hmake => keyed_makeGroup h hmake) h htake

end BuildState

namespace Schema

variable {tables : List Table} {schema : Schema}

/-- The object types of a schema stand under their own names. -/
theorem keyed_of_build (hbuild : (build tables).outcome = .ok schema) : schema.types.Keyed := by
  obtain ⟨_, b, _, hrun, rfl⟩ := exists_steps_of_build hbuild
  refine foldlM_invariant (P := fun b : BuildState => b.types.Keyed)
    (fun _ _ _ _ h htake => BuildState.keyed_take h htake) ?_ hrun
  exact ⟨List.nodup_nil, fun _ he => nomatch he⟩

/-- An object type of a schema is found under its name. -/
theorem get?_of_mem_objects (hbuild : (build tables).outcome = .ok schema) {o : ObjectType}
    (ho : o ∈ Members.values schema.types.objects) :
    Members.get? schema.types.objects o.name = some o := by
  have hkeyed := keyed_of_build hbuild
  obtain ⟨e, he, rfl⟩ := List.mem_map.mp ho
  rw [hkeyed.own e he]
  exact Members.get?_of_mem hkeyed.apart he

/-- The rows of every object type are those of a table of the schema. -/
theorem exists_rowsOf (hbuild : (build tables).outcome = .ok schema) {o : ObjectType}
    (ho : o ∈ Members.values schema.types.objects) : ∃ s ∈ schema.tables, schema.RowsOf s o := by
  have hget := get?_of_mem_objects hbuild ho
  rcases object_cases hbuild hget with ⟨s, hs, hname⟩ | ⟨g, hg, _, _, hgroup⟩
  · exact ⟨s, hs, rowsOf_table hbuild hs (hname ▸ hget)⟩
  · refine ⟨g.shape, (mem_of_listed hbuild hg).1, ?_⟩
    rw [hgroup]
    refine ⟨rfl, rfl, fun e he => ?_⟩
    obtain ⟨c, hc, hd⟩ := mem_columnFields he
    exact Or.inl ⟨c, List.mem_of_mem_filter hc, hd⟩

/-- A field of a schema: a root field, or one of an object type. -/
def HasField (schema : Schema) (f : FieldDef) : Prop :=
  f ∈ Members.values schema.root
    ∨ ∃ o ∈ Members.values schema.types.objects, f ∈ Members.values o.fields

/-- What a field of a schema leads to, with the arguments it takes. -/
inductive Leads (schema : Schema) (f : FieldDef) : Prop
  /-- A value, without arguments. -/
  | value {type : Scalar} (hk : f.kind = .scalar type) (ha : f.args = [])
  /-- A page of the rows of a table. -/
  | page (hs : f.shape ∈ schema.tables) (hk : f.kind = .link f.shape.name)
    (ha : f.args = f.shape.pageArguments)
  /-- The same row, as an object of a type of its own. -/
  | row (hs : f.shape ∈ schema.tables) {o : ObjectType}
    (ho : Members.get? schema.types.objects o.name = some o) (hk : f.kind = .group o.name)
    (ha : f.args = f.shape.rowArguments)

/-- The rows that a field leads to are those of a table of the schema. -/
theorem Leads.shape_mem {f : FieldDef} (h : schema.Leads f) (hk : ∀ type, f.kind ≠ .scalar type) :
    f.shape ∈ schema.tables := by
  cases h with
  | value hscalar => exact absurd hscalar (hk _)
  | page hs => exact hs
  | row hs => exact hs

/-- A field that leads to rows takes the arguments for rows of its table, beside those for a page. -/
theorem Leads.get?_args {f : FieldDef} (h : schema.Leads f) (hk : ∀ type, f.kind ≠ .scalar type)
    {name : String} (hname : name ∉ ["first", "after", "last", "before"]) {type : TypeRef}
    (hrow : Members.get? f.shape.rowArguments name = some type) :
    Members.get? f.args name = some type := by
  cases h with
  | value hscalar => exact absurd hscalar (hk _)
  | page _ _ ha =>
    have hpage : Members.get? [("first", TypeRef.named "Int"), ("after", .named "String"),
        ("last", .named "Int"), ("before", .named "String")] name = none :=
      Members.get?_eq_none_iff.mpr hname
    rw [ha, Shape.pageArguments, Members.get?_append, hpage, Option.none_or]
    exact hrow
  | row _ _ _ ha => rw [ha, hrow]

/-- The field of a column leads to a value or to the rows of a table. -/
theorem leads_fieldOf? {s : Shape} {c : Field} {f : FieldDef}
    (h : Shape.fieldOf? schema.tables s c = some f) : schema.Leads f := by
  rcases Shape.fieldOf?_cases h with ⟨_, rfl⟩ | ⟨t, ht, rfl⟩
  · exact .value rfl rfl
  · exact .page (Shape.target?_eq_some ht).1 rfl rfl

/-- Every field of a schema leads to a value, to rows or to the same row. -/
theorem leads_of_hasField (hbuild : (build tables).outcome = .ok schema) {f : FieldDef}
    (hf : schema.HasField f) : schema.Leads f := by
  rcases hf with hf | ⟨o, ho, hf⟩
  · obtain ⟨e, he, rfl⟩ := List.mem_map.mp hf
    obtain ⟨s, hs, hroot⟩ := exists_rootDef hbuild he
    rw [hroot]
    exact .page hs rfl rfl
  · obtain ⟨e, he, rfl⟩ := List.mem_map.mp hf
    obtain ⟨s, hs, hrows⟩ := exists_rowsOf hbuild ho
    rcases hrows.fields e he with ⟨c, _, hd⟩ | ⟨g, hg, o', key, _, ho', _, hd⟩
    · exact leads_fieldOf? hd
    · obtain ⟨_, rfl⟩ := Shape.mem_listedGroups.mp hg
      rw [hd]
      exact .row hs ho' rfl rfl

end Schema

end TableGraph
