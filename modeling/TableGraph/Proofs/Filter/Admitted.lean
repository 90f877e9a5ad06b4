import TableGraph.Plan.Clauses
import TableGraph.Proofs.Filter.Fitting
import TableGraph.Proofs.Schema.Conforms
import TableGraph.Proofs.Schema.Entries
import TableGraph.Proofs.Schema.Inputs

/-!
# What a filter type admits is a filter

The type of a `where` argument is made from a table in one place and the argument is read in another.
The two agree: every value that conforms to the type is read, for every field that leads to rows, and
each condition that it asks for stands in the text of the statement, just once.
-/

namespace TableGraph

/-- A value that fits a scalar has a literal. -/
theorem Postgres.isSome_literal?_of_fitsScalar {j : Json} {type : Scalar}
    (h : (Query.Value.ofJson j).fitsScalar (some type) = true) : (literal? j).isSome := by
  cases j with
  | str t => rfl
  | num n => rfl
  | bool b => cases b <;> rfl
  | null => cases type <;> cases h
  | arr items => cases type <;> cases h
  | obj members => cases type <;> cases h

namespace Filter

open Formula

/-- A text carries what a value asks for: it is read as a formula whose conditions are those that the
value asks for, each with its own text and each once. It is empty when nothing is asked for. -/
def Carries (d : Dialect) (s : Shape) (table : String) (j : Json) (text : String) : Prop :=
  ∃ texts, List.Forall₂ (Leaf.Said d s table) (leaves j) texts
    ∧ (texts = [] → text = "")
    ∧ (texts ≠ [] → ∃ ts a, written ts = text ∧ read ts = some a ∧ a.atoms.Perm texts)

/-- Conditions that all have a text have those texts. -/
theorem forall₂_said {d : Dialect} {s : Shape} {table : String} {ls : List Leaf}
    (h : ∀ l ∈ ls, ∃ text, l.Said d s table text) :
    List.Forall₂ (Leaf.Said d s table) ls (ls.filterMap (Leaf.text? d s table)) := by
  induction ls with
  | nil => exact .nil
  | cons l ls ih =>
    rw [List.forall_mem_cons] at h
    obtain ⟨text, htext⟩ := h.1
    rw [List.filterMap_cons_some htext.1]
    exact .cons htext (ih h.2)

/-- The text of a filter carries what a value asks for when the conditions of the filter do. -/
theorem carries_text {d : Dialect} {s : Shape} {table : String} {j : Json} {f : Filter}
    (hperm : (f.atoms d table).Perm (leafTexts d s table j))
    (hsaid : ∀ l ∈ leaves j, ∃ text, l.Said d s table text) :
    Carries d s table j (f.text d table) := by
  have hread : f.text d table ≠ "" → ∃ a, read (f.tokens d table) = some a
      ∧ a.atoms.Perm (leafTexts d s table j) := by
    intro hne
    obtain ⟨hempty, hread⟩ := @read_tokens d table f fun _ => .unknown
    obtain ⟨t, ht⟩ := Option.ne_none_iff_exists'.mp (mt hempty.mpr hne)
    obtain ⟨a, ha, _⟩ := hread t ht
    refine ⟨a, ha, ?_⟩
    rw [atoms_of_read ha, atomsOf_tokens]
    exact hperm
  refine ⟨leafTexts d s table j, forall₂_said hsaid, fun hnil => ?_, fun hne => ?_⟩
  · by_contra htext
    obtain ⟨a, _, hatoms⟩ := hread htext
    exact a.atoms_ne_nil (hnil ▸ hatoms).eq_nil
  · have htext : f.text d table ≠ "" := by
      intro htext
      have hparts : f.partTokens d table = [] := by
        rw [text_eq_empty_iff, ← map_written_partTokens, List.map_eq_nil_iff] at htext
        exact htext
      rw [← flatMap_atomsOf_partTokens, hparts] at hperm
      exact hne hperm.symm.eq_nil
    obtain ⟨a, ha, hatoms⟩ := hread htext
    exact ⟨_, a, written_tokens f, ha, hatoms⟩

end Filter

namespace Schema

variable {tables : List Table} {schema : Schema} {s : Shape}

/-- The values that conform to the type of a table's filters. -/
def Filters (schema : Schema) (s : Shape) (j : Json) : Prop :=
  Conforms schema.types (.named s.filterName) j

/-- Comparisons with inputs for columns fit when they conform. -/
theorem fits_of_columnsInput (hbuild : (build tables).outcome = .ok schema)
    (hs : s ∈ schema.tables) {types : List InputType} {lead : String} {included : Field → Bool}
    (htypes : types = s.columnsInput lead included) (hlead : lead ∈ Conforms.filterLeads)
    (hmem : ∀ i ∈ types, i ∈ s.inputTypes) (cs : List Comparison)
    (hcs : ∀ c ∈ cs, c ∈ Filter.valued) {f : InputField}
    (hf : f ∈ Shape.membersOf (cs.map (·.key)) (types.map (·.name))) {v : Json}
    (hv : Conforms schema.types f.type v) :
    Filter.Fits s (Filter.ListOf (schema.Filters s)) f.name v := by
  obtain ⟨_, ht, _, hn, rfl⟩ := Shape.mem_membersOf.mp hf
  obtain ⟨i, hi, rfl⟩ := List.mem_map.mp ht
  obtain ⟨c, hc, rfl⟩ := List.mem_map.mp hn
  obtain ⟨hname, hfields⟩ := Shape.columnsInput_spec (htypes ▸ hi)
  rcases Conforms.input_cases hbuild hs (hmem i hi) hlead hname hv with
    rfl | ⟨values, rfl, _, hvalues⟩
  · have hkeys : ∀ c ∈ Filter.valued, c.key ∈ Filter.filterKeys := by decide
    exact .nothing (hkeys c (hcs c hc))
  · refine .compared (hcs c hc) fun m hm => ?_
    obtain ⟨f, hf, hfm, hconforms⟩ := hvalues m hm
    obtain ⟨column, hcolumn, hfname, htype⟩ := hfields f hf
    rw [htype] at hconforms
    refine ⟨?_, (Conforms.scalar_cases hbuild hconforms).imp_right
      Postgres.isSome_literal?_of_fitsScalar⟩
    rw [← hfm, hfname]
    exact Shape.isSome_column?_columnField (eq_ofTable hbuild hs) hcolumn

/-- What names a column by an enumeration fits when it conforms, if the name of any column does. -/
theorem fits_of_columnsEnum (hbuild : (build tables).outcome = .ok schema)
    (hs : s ∈ schema.tables) {types : List EnumType} {lead : String} {included : Field → Bool}
    (htypes : types = s.columnsEnum lead included) (hlead : lead ∈ Conforms.filterEnumLeads)
    (hmem : ∀ e ∈ types, e ∈ s.enumTypes) {key : String} (hkey : key ∈ Filter.filterKeys)
    (hfits : ∀ name, (s.column? name).isSome →
      Filter.Fits s (Filter.ListOf (schema.Filters s)) key (.str name)) {f : InputField}
    (hf : f ∈ Shape.membersOf [key] (types.map (·.name))) {v : Json}
    (hv : Conforms schema.types f.type v) :
    Filter.Fits s (Filter.ListOf (schema.Filters s)) f.name v := by
  obtain ⟨_, ht, _, hn, rfl⟩ := Shape.mem_membersOf.mp hf
  obtain ⟨e, he, rfl⟩ := List.mem_map.mp ht
  obtain rfl := List.mem_singleton.mp hn
  obtain ⟨hname, hvalues⟩ := Shape.columnsEnum_spec (htypes ▸ he)
  rcases Conforms.enum_cases hbuild hs (hmem e he) hlead hname hv with rfl | ⟨name, hvalue, rfl⟩
  · exact .nothing hkey
  · obtain ⟨column, hcolumn, rfl⟩ := hvalues name hvalue
    exact hfits _ (Shape.isSome_column?_columnField (eq_ofTable hbuild hs) hcolumn)

/-- A member that is declared by the type of a table's filters and conforms fits. -/
theorem fits_of_filterInput (hbuild : (build tables).outcome = .ok schema) (hs : s ∈ schema.tables)
    {f : InputField} (hf : f ∈ s.filterInput.fields) {v : Json}
    (hv : Conforms schema.types f.type v) :
    Filter.Fits s (Filter.ListOf (schema.Filters s)) f.name v := by
  simp only [Shape.filterInput, List.mem_append] at hf
  rcases hf with (((((hf | hf) | hf) | hf) | hf) | hf) | hf
  · exact fits_of_columnsInput hbuild hs (show s.equalsInput = _ from rfl) (by decide)
      (fun i hi => by simp [Shape.inputTypes, hi]) [.equals] (by decide) hf hv
  · exact fits_of_columnsInput hbuild hs (show s.containsInput = _ from rfl) (by decide)
      (fun i hi => by simp [Shape.inputTypes, hi]) [.contains] (by decide) hf hv
  · exact fits_of_columnsInput hbuild hs (show s.endsInput = _ from rfl) (by decide)
      (fun i hi => by simp [Shape.inputTypes, hi]) [.begins, .ends] (by decide) hf hv
  · exact fits_of_columnsInput hbuild hs (show s.orderedInput = _ from rfl) (by decide)
      (fun i hi => by simp [Shape.inputTypes, hi]) [.greater, .less] (by decide) hf hv
  · exact fits_of_columnsEnum hbuild hs (show s.missingEnum = _ from rfl) (by decide)
      (fun e he => by simp [Shape.enumTypes, he]) (by decide) (fun _ hname => .missing hname) hf hv
  · exact fits_of_columnsEnum hbuild hs (show s.emptyEnum = _ from rfl) (by decide)
      (fun e he => by simp [Shape.enumTypes, he]) (by decide) (fun _ hname => .empty hname) hf hv
  · obtain ⟨n, hn, rfl⟩ := List.mem_map.mp hf
    have hkeys : ∀ n ∈ ["or", "and", "not"], n ∈ Filter.combined := by decide
    exact .nested (hkeys n hn) hv.list_cases

/-- A value that conforms to the type of a table's filters is `null` or an object of members that
fit. -/
theorem fits_of_filters (hbuild : (build tables).outcome = .ok schema) (hs : s ∈ schema.tables)
    (j : Json) (hj : schema.Filters s j) : j = .null ∨ ∃ ms, j = .obj ms
      ∧ (Members.names ms).Nodup
      ∧ ∀ m ∈ ms, Filter.Fits s (Filter.ListOf (schema.Filters s)) m.1 m.2 := by
  refine (Conforms.input_cases hbuild hs (i := s.filterInput) (by simp [Shape.inputTypes])
    (by decide) rfl hj).imp_right ?_
  rintro ⟨ms, rfl, hn, hms⟩
  refine ⟨ms, rfl, hn, fun m hm => ?_⟩
  obtain ⟨f, hf, hname, hconforms⟩ := hms m hm
  exact hname ▸ fits_of_filterInput hbuild hs hf hconforms

/-- A field that leads to rows of a table declares the filters of the table. -/
theorem Leads.filters {f : FieldDef} (h : schema.Leads f) (hk : ∀ type, f.kind ≠ .scalar type) :
    f.shape ∈ schema.tables ∧ Members.get? f.args "where" = some (.named f.shape.filterName) :=
  ⟨h.shape_mem hk, h.get?_args hk (by decide) rfl⟩

/-- Every field that leads to rows declares the filters of its table, and every value that conforms
to them is read, on any alias. In Postgres the text carries what the value asks for. -/
theorem filterText_of_conforms (tables : List Table) (schema : Schema)
    (hbuild : (build tables).outcome = .ok schema) (f : FieldDef) (hf : schema.HasField f)
    (hk : ∀ type, f.kind ≠ .scalar type) :
    Members.get? f.args "where" = some (.named f.shape.filterName)
      ∧ Members.get? schema.types.inputs f.shape.filterName = some f.shape.filterInput
      ∧ ∀ args j, Members.get? args "where" = some j →
        Conforms schema.types (.named f.shape.filterName) j →
          (∀ d table, ∃ text, f.filterText d table args = .ok text)
          ∧ ∀ base table, ∃ text, f.filterText (Postgres.dialect base) table args = .ok text
            ∧ Filter.Carries (Postgres.dialect base) f.shape table j text := by
  obtain ⟨hs, hwhere⟩ := (leads_of_hasField hbuild hf).filters hk
  have hfits := fits_of_filters hbuild hs
  refine ⟨hwhere, input_of_table hbuild hs (i := f.shape.filterInput)
    (by simp [Shape.inputTypes]), fun args j hget hj => ⟨fun d table => ?_, fun base table => ?_⟩⟩
  · obtain ⟨filter, hfilter, _⟩ := Filter.exists_filter hfits "" table hj
    refine ⟨filter.text d table, ?_⟩
    rw [FieldDef.filterText, hget]
    exact bind_eq_ok_iff.mpr ⟨filter, hfilter, rfl⟩
  · obtain ⟨filter, hfilter, hperm⟩ := Filter.exists_filter hfits base table hj
    refine ⟨filter.text (Postgres.dialect base) table, ?_, Filter.carries_text hperm fun l hl =>
      Filter.exists_said hfits base table hj hl⟩
    rw [FieldDef.filterText, hget]
    exact bind_eq_ok_iff.mpr ⟨filter, hfilter, rfl⟩

/-- A filter with a condition and one that must not hold. -/
def osloFilter : Json :=
  .obj [("equals", .obj [("NAME", .str "Oslo")]),
    ("not", .arr [.obj [("isNull", .str "POPULATION")]])]

/-- The filter conforms to the type of the filters of cities. -/
theorem conforms_osloFilter (hbuild : (build tables).outcome = .ok schema)
    (hs : Filter.cityShape ∈ schema.tables) :
    Conforms schema.types (.named Filter.cityShape.filterName) osloFilter := by
  have hfilter : Filter.cityShape.filterInput.fields
      = [⟨"equals", .named "EQUALS_CITY", none⟩, ⟨"contains", .named "CONTAINS_CITY", none⟩,
        ⟨"begins", .named "BEGINS_OR_ENDS_CITY", none⟩,
        ⟨"ends", .named "BEGINS_OR_ENDS_CITY", none⟩,
        ⟨"greater", .named "GREATER_OR_LESS_CITY", none⟩,
        ⟨"less", .named "GREATER_OR_LESS_CITY", none⟩,
        ⟨"isNull", .named "IS_NULL_FIELDS_CITY", none⟩,
        ⟨"isEmpty", .named "IS_EMPTY_FIELDS_CITY", none⟩,
        ⟨"or", .list (.named "FILTER_CITY"), none⟩, ⟨"and", .list (.named "FILTER_CITY"), none⟩,
        ⟨"not", .list (.named "FILTER_CITY"), none⟩] := by cbv
  have hequals : Filter.cityShape.equalsInput
      = [⟨"EQUALS_CITY", [⟨"NAME", .named "String", some "NAME"⟩,
        ⟨"POPULATION", .named "Int", some "POPULATION"⟩]⟩] := by cbv
  have hmissing : Filter.cityShape.missingEnum
      = [⟨"IS_NULL_FIELDS_CITY", [("NAME", some "NAME"), ("POPULATION", some "POPULATION")]⟩] := by
    cbv
  have hobject : ∀ ms : Members Json, (Members.names ms).Nodup →
      (∀ m ∈ ms, ∃ f ∈ Filter.cityShape.filterInput.fields,
        f.name = m.1 ∧ Conforms schema.types f.type m.2) →
      Conforms schema.types (.named "FILTER_CITY") (.obj ms) := fun ms hn hms =>
    .of_members (i := Filter.cityShape.filterInput)
      (input_of_table hbuild hs (by simp [Shape.inputTypes]))
      (by rw [hfilter]; decide) (by rw [hfilter]; decide) hn hms
  have hoslo : Conforms schema.types (.named "EQUALS_CITY") (.obj [("NAME", .str "Oslo")]) := by
    refine .of_members (i := ⟨"EQUALS_CITY", _⟩) (input_of_table hbuild hs
      (by rw [Shape.inputTypes, hequals]; exact List.mem_cons_self)) (by decide) (by decide)
      (by decide) fun m hm => ?_
    rw [List.mem_singleton.mp hm]
    exact ⟨_, List.mem_cons_self, rfl, @Conforms.scalar _ .string _ rfl⟩
  have hpopulation : Conforms schema.types (.named "IS_NULL_FIELDS_CITY") (.str "POPULATION") := by
    have hget := enum_of_table hbuild hs
      (e := ⟨"IS_NULL_FIELDS_CITY", [("NAME", some "NAME"), ("POPULATION", some "POPULATION")]⟩)
      (by rw [Shape.enumTypes, hmissing]; exact List.mem_cons_self)
    exact .choice hget (by decide)
  refine hobject _ (by decide) fun m hm => ?_
  rw [hfilter]
  rcases List.mem_pair.mp hm with rfl | rfl
  · exact ⟨⟨"equals", .named "EQUALS_CITY", none⟩, by decide, rfl, hoslo⟩
  · refine ⟨⟨"not", .list (.named "FILTER_CITY"), none⟩, by decide, rfl, .items fun j hj => ?_⟩
    rw [List.mem_singleton.mp hj]
    refine hobject _ (by decide) fun m hm => ?_
    rw [hfilter, List.mem_singleton.mp hm]
    exact ⟨⟨"isNull", .named "IS_NULL_FIELDS_CITY", none⟩, by decide, rfl, hpopulation⟩

/-- The root field of cities carries both conditions of the filter. -/
theorem filterText_osloFilter :
    ∃ schema, (build [Filter.cityShape.table]).outcome = .ok schema
      ∧ schema.HasField Filter.cityShape.rootDef
      ∧ Conforms schema.types (.named Filter.cityShape.filterName) osloFilter
      ∧ ∃ text, Filter.cityShape.rootDef.filterText (Postgres.dialect "public") "t0"
          [("where", osloFilter)] = .ok text
        ∧ Filter.Carries (Postgres.dialect "public") Filter.cityShape "t0" osloFilter text := by
  have hbuilt : (built? [Filter.cityShape.table]).map (fun schema =>
      (schema.tables, Members.values schema.root))
        = some ([Filter.cityShape], [Filter.cityShape.rootDef]) := by cbv
  obtain ⟨schema, hschema, hparts⟩ := Option.map_eq_some_iff.mp hbuilt
  obtain ⟨htables, hroot⟩ := Prod.mk.inj hparts
  have hbuild := build_eq_ok_iff.mpr hschema
  have hfield : schema.HasField Filter.cityShape.rootDef :=
    Or.inl (by rw [hroot]; exact List.mem_cons_self)
  have hconforms := conforms_osloFilter hbuild (by rw [htables]; exact List.mem_cons_self)
  have hkind : ∀ type, Filter.cityShape.rootDef.kind ≠ .scalar type := by
    intro type hscalar
    cases hscalar
  obtain ⟨_, _, hread⟩ := filterText_of_conforms _ schema hbuild _ hfield hkind
  exact ⟨schema, hbuild, hfield, hconforms,
    (hread [("where", osloFilter)] osloFilter rfl hconforms).2 "public" "t0"⟩

end Schema

end TableGraph
