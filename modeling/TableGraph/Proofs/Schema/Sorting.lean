import TableGraph.Plan.Clauses
import TableGraph.Proofs.Order
import TableGraph.Proofs.Schema.Conforms
import TableGraph.Proofs.Schema.TypeNames

/-!
# Orderings that are declared and orderings that are read

The type of an `order` argument is made from a table in one place and the argument is read in
another. The type is a list whose items are objects with columns of the table under the directions,
and every column that it has a name for is read. Each item may also be `null`, though, and that is
refused: of the values of the type, just those are read that are no list with such an item.
-/

namespace TableGraph

namespace Shape

variable {s : Shape} {j : Json}

/-- A value of the type of an entry, as it is declared: nothing, or an object with nothing or a
column, by its name in the graph, under each of some directions. -/
def Sorting (s : Shape) (j : Json) : Prop :=
  j = .null ∨ ∃ ms, j = .obj ms ∧ (Members.names ms).Nodup ∧ ∀ m ∈ ms, m.1 ∈ ["asc", "desc"]
    ∧ (m.2 = .null ∨ ∃ c ∈ s.table.fields, m.2 = .str (s.columnField c.name))

/-- A value of the type of an `order` argument, as it is declared: nothing, a list of entries, or an
entry that stands for a list of one. -/
def Sortings (s : Shape) (j : Json) : Prop :=
  j = .null ∨ (∃ js, j = .arr js ∧ ∀ i ∈ js, s.Sorting i) ∨ s.Sorting j

/-- The names that stand for columns are those that the columns have in the graph. -/
theorem isSome_column?_iff_columnField (hs : s = ofTable s.table s.name) {name : String} :
    (s.column? name).isSome ↔ ∃ c ∈ s.table.fields, name = s.columnField c.name := by
  rw [hs]
  refine isSome_column?_iff.trans (exists_congr fun c => and_congr_right fun hc => ?_)
  rw [escaped?_columnField hc, Option.some_inj, eq_comm]

/-- The members of an entry that are read are those that are declared. -/
theorem directs_iff (hs : s = ofTable s.table s.name) {m : String × Json} :
    Ordering.Directs s m ↔ m.1 ∈ ["asc", "desc"]
      ∧ (m.2 = .null ∨ ∃ c ∈ s.table.fields, m.2 = .str (s.columnField c.name)) := by
  have hcolumn : (∃ name, m.2 = .str name ∧ (s.column? name).isSome)
      ↔ ∃ c ∈ s.table.fields, m.2 = .str (s.columnField c.name) := by
    constructor
    · rintro ⟨name, hname, hsome⟩
      obtain ⟨c, hc, rfl⟩ := (isSome_column?_iff_columnField hs).mp hsome
      exact ⟨c, hc, hname⟩
    · rintro ⟨c, hc, hname⟩
      exact ⟨_, hname, isSome_column?_columnField hs hc⟩
  rw [Ordering.Directs, Ordering.isSome_ofKey?_iff, hcolumn]

/-- An entry that is declared is read, unless it is `null`. -/
theorem Sorting.entry (hs : s = ofTable s.table s.name) (h : s.Sorting j) :
    j = .null ∨ Ordering.Entry s j := by
  refine h.imp_right ?_
  rintro ⟨ms, hj, _, hms⟩
  exact ⟨ms, hj, fun m hm => (directs_iff hs).mpr (hms m hm)⟩

/-- An entry that is read is declared, if its members have different names. -/
theorem sorting_of_entry (hs : s = ofTable s.table s.name)
    (hn : ∀ ms, j = .obj ms → (Members.names ms).Nodup) (h : Ordering.Entry s j) :
    s.Sorting j ∧ j ≠ .null := by
  obtain ⟨ms, rfl, hms⟩ := h
  have hdeclared := fun m (hm : m ∈ ms) => (directs_iff hs).mp (hms m hm)
  exact ⟨Or.inr ⟨ms, rfl, hn ms rfl, hdeclared⟩, nofun⟩

/-- The items of a list that is declared are entries that are. -/
theorem Sortings.items {js : List Json} (h : s.Sortings (.arr js)) : ∀ i ∈ js, s.Sorting i := by
  rcases h with he | ⟨_, ⟨rfl⟩, hitems⟩ | he | ⟨_, he, _⟩
  · cases he
  · exact hitems
  · cases he
  · cases he

end Shape

namespace Conforms

/-- No two members of an object that conforms to a type have the same name. -/
theorem nodup_names {t : Registry} {name : String} {ms : Members Json}
    (h : Conforms t (.named name) (.obj ms)) : (Members.names ms).Nodup := by
  cases h with
  | object _ hn => exact hn
  | @scalar type _ hfits =>
    cases type <;> cases hfits

end Conforms

namespace Schema

variable {tables : List Table} {schema : Schema} {s : Shape} {j : Json}

/-- The type of an entry admits every entry that is declared. -/
theorem conforms_of_sorting (hbuild : (build tables).outcome = .ok schema)
    (hs : s ∈ schema.tables) (hj : s.Sorting j) :
    Conforms schema.types (.named s.sortingName) j := by
  have hfields := fields_ne_nil_of_mem hbuild hs
  have hinput := input_of_table hbuild hs (Shape.directions_mem hfields)
  have henum := enum_of_table hbuild hs (Shape.sortedColumns_mem hfields)
  rcases hj with rfl | ⟨ms, rfl, hn, hms⟩
  · exact .absent _
  · have hnames : (s.directions.fields.map (·.name)).Nodup := by
      have hwords : s.directions.fields.map (·.name) = ["asc", "desc"] := rfl
      rw [hwords]
      decide
    refine .of_members (i := s.directions) hinput hnames (fun f hf => ?_) hn fun m hm => ?_
    · obtain ⟨_, _, _, _, rfl⟩ := Shape.mem_membersOf.mp hf
      rfl
    · obtain ⟨hkey, hvalue⟩ := hms m hm
      refine ⟨⟨m.1, .named s.sortedColumns.name, none⟩,
        Shape.mem_membersOf.mpr ⟨_, List.mem_cons_self, m.1, hkey, rfl⟩, rfl, ?_⟩
      rcases hvalue with hnull | ⟨c, hc, hname⟩
      · rw [hnull]
        exact .absent _
      · rw [hname]
        have hmem : s.columnField c.name ∈ s.sortedColumns.values.map (·.1) := by
          rw [Shape.sortedColumns, List.map_map]
          exact List.mem_map.mpr ⟨c, hc, rfl⟩
        exact .choice henum hmem

/-- The type of an entry admits nothing else, unless a table is named after the columns of another:
then the type of the columns of the one has the name of the type of an entry of the other. -/
theorem sorting_of_conforms (hbuild : (build tables).outcome = .ok schema) (hs : s ∈ schema.tables)
    (hapart : ∀ u ∈ schema.tables, s.name ≠ "FIELDS_" ++ u.name ∧ u.name ≠ "FIELDS_" ++ s.name)
    (hj : Conforms schema.types (.named s.sortingName) j) : s.Sorting j := by
  have hfields := fields_ne_nil_of_mem hbuild hs
  have hdirections := Shape.directions_mem hfields
  have hcolumns := Shape.sortedColumns_mem hfields
  have hnoenum : Members.get? schema.types.enums s.directions.name = none := by
    by_contra hsome
    obtain ⟨e, he⟩ := Option.ne_none_iff_exists'.mp hsome
    obtain ⟨hkey, u, hu, hmem⟩ := table_of_enum hbuild (Members.mem_of_get? he)
    exact (hapart u hu).1 (Shape.eq_fields_of_name_eq hdirections hmem hkey)
  have hnoinput : Members.get? schema.types.inputs s.sortedColumns.name = none := by
    by_contra hsome
    obtain ⟨i, hi⟩ := Option.ne_none_iff_exists'.mp hsome
    obtain ⟨hkey, u, hu, hmem⟩ := table_of_input hbuild (Members.mem_of_get? hi)
    exact (hapart u hu).2 (Shape.eq_fields_of_name_eq hmem hcolumns hkey.symm)
  have hentry := Conforms.object_cases (input_of_table hbuild hs hdirections)
    (Conforms.lead_append_ne_typeName (by decide) _) hnoenum hj
  refine hentry.imp_right ?_
  rintro ⟨ms, rfl, hn, hms⟩
  refine ⟨ms, rfl, hn, fun m hm => ?_⟩
  obtain ⟨f, hf, hname, hvalue⟩ := hms m hm
  obtain ⟨_, ht, key, hkey, rfl⟩ := Shape.mem_membersOf.mp hf
  obtain rfl := List.mem_singleton.mp ht
  refine ⟨hname ▸ hkey, ?_⟩
  have hcolumn := Conforms.choice_cases (enum_of_table hbuild hs hcolumns)
    (Conforms.lead_append_ne_typeName (by decide) _) hnoinput hvalue
  refine hcolumn.imp_right ?_
  rintro ⟨v, hv, hstr⟩
  rw [Shape.sortedColumns, List.map_map] at hv
  obtain ⟨c, hc, rfl⟩ := List.mem_map.mp hv
  exact ⟨c, hc, hstr⟩

/-- The type of the argument admits every ordering that is declared. -/
theorem conforms_of_sortings (hbuild : (build tables).outcome = .ok schema)
    (hs : s ∈ schema.tables) (hj : s.Sortings j) :
    Conforms schema.types (.list (.named s.sortingName)) j := by
  have hitem := fun {i} (hi : s.Sorting i) => conforms_of_sorting hbuild hs hi
  rcases hj with rfl | ⟨js, rfl, hjs⟩ | hsingle
  · exact .absentList _
  · exact .items fun i hi => hitem (hjs i hi)
  · have hconforms := hitem hsingle
    rcases hsingle with rfl | ⟨ms, rfl, _⟩
    · exact .absentList _
    · exact .single hconforms nofun nofun

/-- The type of the argument admits nothing else, unless a table is named after the columns of
another. -/
theorem sortings_of_conforms (hbuild : (build tables).outcome = .ok schema) (hs : s ∈ schema.tables)
    (hapart : ∀ u ∈ schema.tables, s.name ≠ "FIELDS_" ++ u.name ∧ u.name ≠ "FIELDS_" ++ s.name)
    (hj : Conforms schema.types (.list (.named s.sortingName)) j) : s.Sortings j := by
  have hitem := fun {i} (hi : Conforms schema.types (.named s.sortingName) i) =>
    sorting_of_conforms hbuild hs hapart hi
  rcases hj.list_cases with hnull | ⟨js, hlist, hjs⟩ | ⟨_, _, hsingle⟩
  · exact Or.inl hnull
  · exact Or.inr (Or.inl ⟨js, hlist, fun i hi => hitem (hjs i hi)⟩)
  · exact Or.inr (Or.inr (hitem hsingle))

/-- Of the values that the type of the argument admits, just those are read that are declared and no
list with `null` as an item. -/
theorem exists_ofArgument_iff_sortings (hs : s = .ofTable s.table s.name)
    (hj : Conforms schema.types (.list (.named s.sortingName)) j) :
    (∃ terms, Ordering.ofArgument s (some j) = .ok terms)
      ↔ s.Sortings j ∧ ∀ js, j = .arr js → .null ∉ js := by
  have hdeclared : ∀ {i}, Conforms schema.types (.named s.sortingName) i → Ordering.Entry s i →
      s.Sorting i ∧ i ≠ .null :=
    fun hi => Shape.sorting_of_entry hs fun ms he => (he ▸ hi).nodup_names
  rw [Ordering.exists_ofArgument_iff]
  constructor
  · intro hread
    rcases hj.list_cases with rfl | ⟨js, rfl, hjs⟩ | ⟨hnull, hlist, hsingle⟩
    · exact ⟨Or.inl rfl, nofun⟩
    · have hitems : ∀ i ∈ js, Ordering.Entry s i := by
        rcases hread with he | ⟨_, ⟨rfl⟩, hitems⟩ | ⟨_, he, _⟩
        · cases he
        · exact hitems
        · cases he
      have hsorting := fun i (hi : i ∈ js) => hdeclared (hjs i hi) (hitems i hi)
      refine ⟨Or.inr (Or.inl ⟨js, rfl, fun i hi => (hsorting i hi).1⟩), ?_⟩
      rintro _ ⟨rfl⟩ hmem
      exact (hsorting _ hmem).2 rfl
    · have hentry : Ordering.Entry s j := by
        rcases hread with he | ⟨js, he, _⟩ | hentry
        · exact absurd he hnull
        · exact absurd he (hlist js)
        · exact hentry
      exact ⟨Or.inr (Or.inr (hdeclared hsingle hentry).1), fun js he => absurd he (hlist js)⟩
  · rintro ⟨rfl | ⟨js, rfl, hjs⟩ | hsingle, hnone⟩
    · exact Or.inl rfl
    · refine Or.inr (Or.inl ⟨js, rfl, fun i hi => ((hjs i hi).entry hs).resolve_left ?_⟩)
      exact fun he => hnone js rfl (he ▸ hi)
    · exact (hsingle.entry hs).imp_right Or.inr

/-- An ordering that is declared and a list with `null` as an item is refused for the item. -/
theorem ofArgument_of_null_mem (hs : s = .ofTable s.table s.name) {js : List Json}
    (hjs : s.Sortings (.arr js)) (hnull : .null ∈ js) :
    Ordering.ofArgument s (some (.arr js)) = .error (.order (.notAnObject .null)) := by
  have hread := Ordering.ofEntries_of_null (fun i hi => (hjs.items i hi).entry hs) hnull []
  rw [Ordering.ofArgument, hread]
  rfl

/-- Every field that leads to rows declares the orderings of its table, and the type of the argument
admits nothing else unless a table is named after the columns of another. Of what it admits, just
the orderings are read that are no list with `null` as an item; such a list is refused for it. -/
theorem ordering?_of_conforms_iff (tables : List Table) (schema : Schema)
    (hbuild : (build tables).outcome = .ok schema) (f : FieldDef) (hf : schema.HasField f)
    (hk : ∀ type, f.kind ≠ .scalar type) :
    Members.get? f.args "order" = some (.list (.named f.shape.sortingName))
      ∧ (∀ j, f.shape.Sortings j →
        Conforms schema.types (.list (.named f.shape.sortingName)) j)
      ∧ ((∀ u ∈ schema.tables, f.shape.name ≠ "FIELDS_" ++ u.name
          ∧ u.name ≠ "FIELDS_" ++ f.shape.name) →
        ∀ j, Conforms schema.types (.list (.named f.shape.sortingName)) j → f.shape.Sortings j)
      ∧ ∀ args j, Members.get? args "order" = some j →
        Conforms schema.types (.list (.named f.shape.sortingName)) j →
          ((∃ terms, f.ordering? args = .ok terms)
            ↔ f.shape.Sortings j ∧ ∀ js, j = .arr js → .null ∉ js)
          ∧ ∀ js, j = .arr js → f.shape.Sortings j → .null ∈ js →
            f.ordering? args = .error (.order (.notAnObject .null)) := by
  have hleads := leads_of_hasField hbuild hf
  have hs := hleads.shape_mem hk
  have hfields := fields_ne_nil_of_mem hbuild hs
  have horder : Members.get? f.shape.rowArguments "order"
      = some (.list (.named f.shape.sortingName)) := by
    rw [Shape.rowArguments, Shape.sortingInput_eq hfields]
    rfl
  refine ⟨hleads.get?_args hk (by decide) horder, fun j => conforms_of_sortings hbuild hs,
    fun hapart j => sortings_of_conforms hbuild hs hapart, fun args j hget hj => ?_⟩
  rw [FieldDef.ordering?, hget]
  refine ⟨exists_ofArgument_iff_sortings (eq_ofTable hbuild hs) hj, ?_⟩
  rintro js rfl hjs hnull
  exact ofArgument_of_null_mem (eq_ofTable hbuild hs) hjs hnull

/-- People with a name and an age. -/
def personShape : Shape :=
  .ofTable ⟨"PERSON", "PERSON", [], [.plain "PERSON" "NAME" .string,
    .plain "PERSON" "AGE" .int]⟩ "PERSON"

/-- By name, then from the oldest on. -/
def nameOrdering : List Json :=
  [.obj [("asc", .str "NAME")], .obj [("desc", .str "AGE"), ("asc", .null)]]

/-- Its items are entries that are declared. -/
theorem sorting_of_mem_nameOrdering {i : Json} (hi : i ∈ nameOrdering) :
    personShape.Sorting i ∧ i ≠ .null := by
  have hcolumns : personShape.table.fields.map (fun c => personShape.columnField c.name)
      = ["NAME", "AGE"] := by cbv
  have hcolumn : ∀ name ∈ ["NAME", "AGE"], ∃ c ∈ personShape.table.fields,
      Json.str name = .str (personShape.columnField c.name) := by
    intro name hname
    rw [← hcolumns] at hname
    obtain ⟨c, hc, he⟩ := List.mem_map.mp hname
    exact ⟨c, hc, congrArg Json.str he.symm⟩
  rcases List.mem_pair.mp hi with rfl | rfl
  · refine ⟨Or.inr ⟨_, rfl, by decide, fun m hm => ?_⟩, by simp⟩
    rw [List.mem_singleton.mp hm]
    exact ⟨by decide, Or.inr (hcolumn _ (by decide))⟩
  · refine ⟨Or.inr ⟨_, rfl, by decide, fun m hm => ?_⟩, by simp⟩
    rcases List.mem_pair.mp hm with rfl | rfl
    · exact ⟨by decide, Or.inr (hcolumn _ (by decide))⟩
    · exact ⟨by decide, Or.inl rfl⟩

/-- The root field of people admits the ordering with and without `null` in front, and reads it
without. -/
theorem ordering?_nameOrdering :
    ∃ schema, (build [personShape.table]).outcome = .ok schema
      ∧ schema.HasField personShape.rootDef
      ∧ Conforms schema.types (.list (.named personShape.sortingName)) (.arr (.null :: nameOrdering))
      ∧ personShape.rootDef.ordering? [("order", .arr (.null :: nameOrdering))]
        = .error (.order (.notAnObject .null))
      ∧ Conforms schema.types (.list (.named personShape.sortingName)) (.arr nameOrdering)
      ∧ ∃ terms, personShape.rootDef.ordering? [("order", .arr nameOrdering)] = .ok terms := by
  have hbuilt : (built? [personShape.table]).map (fun schema => Members.values schema.root)
      = some [personShape.rootDef] := by cbv
  obtain ⟨schema, hschema, hroot⟩ := Option.map_eq_some_iff.mp hbuilt
  have hbuild := build_eq_ok_iff.mpr hschema
  have hfield : schema.HasField personShape.rootDef :=
    Or.inl (by rw [hroot]; exact List.mem_cons_self)
  have hkind : ∀ type, personShape.rootDef.kind ≠ .scalar type := by
    intro type hscalar
    cases hscalar
  have hitems : ∀ i ∈ nameOrdering, personShape.Sorting i :=
    fun i hi => (sorting_of_mem_nameOrdering hi).1
  have hordering : personShape.Sortings (.arr nameOrdering) := Or.inr (Or.inl ⟨_, rfl, hitems⟩)
  have hgap : personShape.Sortings (.arr (.null :: nameOrdering)) :=
    Or.inr (Or.inl ⟨_, rfl, List.forall_mem_cons.mpr ⟨Or.inl rfl, hitems⟩⟩)
  have hnone : ∀ js, Json.arr nameOrdering = .arr js → .null ∉ js := by
    rintro _ ⟨rfl⟩ hnull
    exact (sorting_of_mem_nameOrdering hnull).2 rfl
  obtain ⟨_, hadmits, _, hread⟩ := ordering?_of_conforms_iff _ schema hbuild _ hfield hkind
  obtain ⟨_, hrefused⟩ := hread [("order", .arr (.null :: nameOrdering))] _ rfl (hadmits _ hgap)
  obtain ⟨haccepted, _⟩ := hread [("order", .arr nameOrdering)] _ rfl (hadmits _ hordering)
  exact ⟨schema, hbuild, hfield, hadmits _ hgap, hrefused _ rfl hgap List.mem_cons_self,
    hadmits _ hordering, haccepted.mpr ⟨hordering, hnone⟩⟩

end Schema

end TableGraph
