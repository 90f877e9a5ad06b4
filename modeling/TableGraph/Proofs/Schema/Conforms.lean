import TableGraph.Proofs.Schema.Registered
import TableGraph.Query.Value

/-!
# Values that conform to types

Which JSON values can be given where a schema declares a type: `null` unless it is ruled out, lists
and single values that stand for lists of one, scalars, names of an enumeration as strings, and
objects with the members that an input declares. What a value of a type looks like follows from the
name of the type, since no scalar, input or enumeration a filter refers to has the name of another.
-/

namespace TableGraph

/-- A JSON value conforms to a type, with the inputs and enumerations of a registry. -/
inductive Conforms (t : Registry) : TypeRef → Json → Prop
  /-- `null` stands for any value of a named type. -/
  | absent (name : String) : Conforms t (.named name) .null
  /-- `null` stands for any list. -/
  | absentList (item : TypeRef) : Conforms t (.list item) .null
  /-- Where `null` is ruled out, another value is given. -/
  | required {type : TypeRef} {j : Json} (h : Conforms t type j) (hn : j ≠ .null) :
    Conforms t (.nonNull type) j
  /-- A list of values of its type. -/
  | items {item : TypeRef} {js : List Json} (h : ∀ j ∈ js, Conforms t item j) :
    Conforms t (.list item) (.arr js)
  /-- A single value that stands for a list of one. -/
  | single {item : TypeRef} {j : Json} (h : Conforms t item j) (hn : j ≠ .null)
    (hl : ∀ js, j ≠ .arr js) : Conforms t (.list item) j
  /-- A value of a scalar type. -/
  | scalar {type : Scalar} {j : Json} (h : (Query.Value.ofJson j).fitsScalar (some type) = true) :
    Conforms t (.named type.typeName) j
  /-- The name of a value of an enumeration. -/
  | choice {name : String} {e : EnumType} {v : String} (he : Members.get? t.enums name = some e)
    (hv : v ∈ e.values.map (·.1)) : Conforms t (.named name) (.str v)
  /-- An object with members that are declared and conform, none twice, and none missing that must
  be given. -/
  | object {name : String} {i : InputType} {ms : Members Json}
    (hi : Members.get? t.inputs name = some i) (hn : (Members.names ms).Nodup)
    (hd : ∀ m ∈ ms, ∃ f ∈ i.fields, f.name = m.1)
    (hm : ∀ m ∈ ms, ∀ f ∈ i.fields, f.name = m.1 → Conforms t f.type m.2)
    (hr : ∀ f ∈ i.fields, Query.Value.isRequired f.type → f.name ∈ Members.names ms) :
    Conforms t (.named name) (.obj ms)

namespace Conforms

/-- An object conforms to an input whose members have different names and may be left out, when each
of its members has a declaration that it conforms to. -/
theorem of_members {t : Registry} {i : InputType} {ms : Members Json}
    (hi : Members.get? t.inputs i.name = some i) (hnames : (i.fields.map (·.name)).Nodup)
    (hoptional : ∀ f ∈ i.fields, Query.Value.isRequired f.type = false)
    (hn : (Members.names ms).Nodup)
    (hms : ∀ m ∈ ms, ∃ f ∈ i.fields, f.name = m.1 ∧ Conforms t f.type m.2) :
    Conforms t (.named i.name) (.obj ms) := by
  refine .object hi hn (fun m hm => ?_) (fun m hm f hf he => ?_) fun f hf hr => ?_
  · obtain ⟨f, hf, he, _⟩ := hms m hm
    exact ⟨f, hf, he⟩
  · obtain ⟨f', hf', he', hconforms⟩ := hms m hm
    rwa [List.inj_on_of_nodup_map hnames hf hf' (he.trans he'.symm)]
  · rw [hoptional f hf] at hr
    cases hr

/-- A list is `null`, a list of values of its type, or a single value. -/
theorem list_cases {t : Registry} {item : TypeRef} {j : Json} (h : Conforms t (.list item) j) :
    j = .null ∨ (∃ js, j = .arr js ∧ ∀ i ∈ js, Conforms t item i)
      ∨ (j ≠ .null ∧ (∀ js, j ≠ .arr js) ∧ Conforms t item j) := by
  cases h with
  | absentList => exact Or.inl rfl
  | items h => exact Or.inr (Or.inl ⟨_, rfl, h⟩)
  | single h hn hl => exact Or.inr (Or.inr ⟨hn, hl, h⟩)

/-- A value of an input is `null` or an object with members of the input, where neither a scalar nor
an enumeration has its name. -/
theorem object_cases {t : Registry} {i : InputType} (hi : Members.get? t.inputs i.name = some i)
    (hscalar : ∀ type : Scalar, i.name ≠ type.typeName)
    (henum : Members.get? t.enums i.name = none) {j : Json} (h : Conforms t (.named i.name) j) :
    j = .null ∨ ∃ ms, j = .obj ms ∧ (Members.names ms).Nodup
      ∧ ∀ m ∈ ms, ∃ f ∈ i.fields, f.name = m.1 ∧ Conforms t f.type m.2 := by
  generalize href : TypeRef.named i.name = ref at h
  cases h with
  | absent => exact Or.inl rfl
  | scalar => exact absurd (TypeRef.named.inj href) (hscalar _)
  | choice he =>
    rw [← TypeRef.named.inj href, henum] at he
    cases he
  | @object name i' ms hi' hn hd hm =>
    rw [← TypeRef.named.inj href, hi] at hi'
    obtain rfl := Option.some.inj hi'
    refine Or.inr ⟨ms, rfl, hn, fun m hmem => ?_⟩
    obtain ⟨f, hf, he⟩ := hd m hmem
    exact ⟨f, hf, he, hm m hmem f hf he⟩
  | absentList => cases href
  | required => cases href
  | items => cases href
  | single => cases href

/-- A value of an enumeration is `null` or the name of one of its values, where neither a scalar nor
an input has its name. -/
theorem choice_cases {t : Registry} {e : EnumType} (he : Members.get? t.enums e.name = some e)
    (hscalar : ∀ type : Scalar, e.name ≠ type.typeName)
    (hinput : Members.get? t.inputs e.name = none) {j : Json} (h : Conforms t (.named e.name) j) :
    j = .null ∨ ∃ v ∈ e.values.map (·.1), j = .str v := by
  generalize href : TypeRef.named e.name = ref at h
  cases h with
  | absent => exact Or.inl rfl
  | scalar => exact absurd (TypeRef.named.inj href) (hscalar _)
  | @choice name e' v he' hv =>
    rw [← TypeRef.named.inj href, he] at he'
    obtain rfl := Option.some.inj he'
    exact Or.inr ⟨v, hv, rfl⟩
  | object hi =>
    rw [← TypeRef.named.inj href, hinput] at hi
    cases hi
  | absentList => cases href
  | required => cases href
  | items => cases href
  | single => cases href

variable {tables : List Table} {schema : Schema}

/-- The words that names of inputs and enumerations begin with do not begin the names of scalars. -/
theorem lead_append_ne_typeName {lead : String}
    (h : lead ∈ Shape.inputLeads ++ Shape.enumLeads) (name : String) (type : Scalar) :
    lead ++ name ≠ type.typeName := by
  have hno : ∀ l ∈ Shape.inputLeads ++ Shape.enumLeads, ∀ type ∈ Scalar.all,
      ¬l.toList <+: type.typeName.toList := by decide
  intro he
  have hall : type ∈ Scalar.all := by cases type <;> decide
  refine hno lead h type hall ⟨name.toList, ?_⟩
  rw [← String.toList_append, he]

/-- What is found among the inputs is named after a table, with the words for an input in front. -/
theorem exists_lead_of_input (hbuild : (Schema.build tables).outcome = .ok schema) {name : String}
    {i : InputType} (hi : Members.get? schema.types.inputs name = some i) :
    ∃ lead ∈ Shape.inputLeads, ∃ u ∈ schema.tables, name = lead ++ u.name := by
  obtain ⟨hkey, u, hu, hmem⟩ := Schema.table_of_input hbuild (Members.mem_of_get? hi)
  obtain ⟨lead, hlead, hname⟩ := Shape.exists_lead_of_mem_inputTypes hmem
  exact ⟨lead, hlead, u, hu, hkey.trans hname⟩

/-- What is found among the enumerations is named after a table, with the words for an enumeration
in front. -/
theorem exists_lead_of_enum (hbuild : (Schema.build tables).outcome = .ok schema) {name : String}
    {e : EnumType} (he : Members.get? schema.types.enums name = some e) :
    ∃ lead ∈ Shape.enumLeads, ∃ u ∈ schema.tables, name = lead ++ u.name := by
  obtain ⟨hkey, u, hu, hmem⟩ := Schema.table_of_enum hbuild (Members.mem_of_get? he)
  obtain ⟨lead, hlead, hname⟩ := Shape.exists_lead_of_mem_enumTypes hmem
  exact ⟨lead, hlead, u, hu, hkey.trans hname⟩

/-- A value of a scalar type is `null` or fits the scalar. -/
theorem scalar_cases (hbuild : (Schema.build tables).outcome = .ok schema) {type : Scalar} {j : Json}
    (h : Conforms schema.types (.named type.typeName) j) :
    j = .null ∨ (Query.Value.ofJson j).fitsScalar (some type) = true := by
  -- No input or enumeration goes by the name of a scalar, so the value can only be a scalar.
  generalize hname : TypeRef.named type.typeName = ref at h
  cases h with
  | absent => exact Or.inl rfl
  | @scalar type' j h =>
    have hsame : type = type' := by
      have := TypeRef.named.inj hname
      revert this
      cases type <;> cases type' <;> decide
    exact Or.inr (hsame ▸ h)
  | choice he =>
    obtain ⟨lead, hlead, u, _, hlead'⟩ := exists_lead_of_enum hbuild he
    exact absurd ((TypeRef.named.inj hname).trans hlead').symm
      (lead_append_ne_typeName (List.mem_append_right _ hlead) _ _)
  | object hi =>
    obtain ⟨lead, hlead, u, _, hlead'⟩ := exists_lead_of_input hbuild hi
    exact absurd ((TypeRef.named.inj hname).trans hlead').symm
      (lead_append_ne_typeName (List.mem_append_left _ hlead) _ _)
  | absentList => cases hname
  | required => cases hname
  | items => cases hname
  | single => cases hname

variable {s : Shape}

/-- What the names of the inputs begin with that filters refer to. -/
def filterLeads : List String :=
  ["EQUALS_", "CONTAINS_", "BEGINS_OR_ENDS_", "GREATER_OR_LESS_", "FILTER_"]

/-- What the names of the enumerations begin with that filters refer to. -/
def filterEnumLeads : List String := ["IS_NULL_FIELDS_", "IS_EMPTY_FIELDS_"]

/-- A value of an input that filters refer to is `null` or an object with members of the input. -/
theorem input_cases (hbuild : (Schema.build tables).outcome = .ok schema) (hs : s ∈ schema.tables)
    {i : InputType} (hi : i ∈ s.inputTypes) {lead : String} (hlead : lead ∈ filterLeads)
    (hname : i.name = lead ++ s.name) {j : Json} (h : Conforms schema.types (.named i.name) j) :
    j = .null ∨ ∃ ms, j = .obj ms ∧ (Members.names ms).Nodup
      ∧ ∀ m ∈ ms, ∃ f ∈ i.fields, f.name = m.1 ∧ Conforms schema.types f.type m.2 := by
  have hapart : ∀ l ∈ filterLeads, ∀ l' ∈ Shape.enumLeads,
      ¬l.toList <+: l'.toList ∧ ¬l'.toList <+: l.toList := by decide
  have hsub : filterLeads ⊆ Shape.inputLeads := by decide
  have hscalar : ∀ type : Scalar, i.name ≠ type.typeName := fun type =>
    hname ▸ lead_append_ne_typeName (List.mem_append_left _ (hsub hlead)) _ _
  have henum : Members.get? schema.types.enums i.name = none := by
    by_contra hsome
    obtain ⟨e, he⟩ := Option.ne_none_iff_exists'.mp hsome
    obtain ⟨lead', hlead', u, _, hname'⟩ := exists_lead_of_enum hbuild he
    obtain ⟨hno, hno'⟩ := hapart lead hlead lead' hlead'
    exact append_ne_append hno hno' _ _ (hname.symm.trans hname')
  exact object_cases (Schema.input_of_table hbuild hs hi) hscalar henum h

/-- A value of an enumeration that filters refer to is `null` or the name of one of its values. -/
theorem enum_cases (hbuild : (Schema.build tables).outcome = .ok schema) (hs : s ∈ schema.tables)
    {e : EnumType} (he : e ∈ s.enumTypes) {lead : String} (hlead : lead ∈ filterEnumLeads)
    (hname : e.name = lead ++ s.name) {j : Json} (h : Conforms schema.types (.named e.name) j) :
    j = .null ∨ ∃ v ∈ e.values.map (·.1), j = .str v := by
  have hapart : ∀ l ∈ filterEnumLeads, ∀ l' ∈ Shape.inputLeads,
      ¬l.toList <+: l'.toList ∧ ¬l'.toList <+: l.toList := by decide
  have hsub : filterEnumLeads ⊆ Shape.enumLeads := by decide
  have hscalar : ∀ type : Scalar, e.name ≠ type.typeName := fun type =>
    hname ▸ lead_append_ne_typeName (List.mem_append_right _ (hsub hlead)) _ _
  have hinput : Members.get? schema.types.inputs e.name = none := by
    by_contra hsome
    obtain ⟨i, hi⟩ := Option.ne_none_iff_exists'.mp hsome
    obtain ⟨lead', hlead', u, _, hname'⟩ := exists_lead_of_input hbuild hi
    obtain ⟨hno, hno'⟩ := hapart lead hlead lead' hlead'
    exact append_ne_append hno hno' _ _ (hname.symm.trans hname')
  exact choice_cases (Schema.enum_of_table hbuild hs he) hscalar hinput h

end Conforms

end TableGraph
