import TableGraph.Schema.Inputs

/-!
# Members of inputs and enumerations

What stands in the inputs and enumerations that a table has for filters and orderings: columns of the
table with their scalar types, and references to other inputs and enumerations of the table. None is
empty, since one for columns is left out when there are no columns for it.
-/

namespace TableGraph.Shape

variable {s : Shape} {f : InputField}

/-- A member of one of some types. -/
theorem mem_membersOf {names types : List String} :
    f ∈ membersOf names types ↔ ∃ t ∈ types, ∃ n ∈ names, f = ⟨n, .named t, none⟩ := by
  simp only [membersOf, List.mem_flatMap, List.mem_map, eq_comm]

/-- An input for columns is named after the table and has members for columns. -/
theorem columnsInput_spec {lead : String} {included : Field → Bool} {i : InputType}
    (h : i ∈ s.columnsInput lead included) :
    i.name = lead ++ s.name ∧ ∀ f ∈ i.fields, ∃ c ∈ s.table.fields,
      f.name = s.columnField c.name ∧ f.type = .named (Scalar.ofColumn c.type).typeName := by
  unfold columnsInput at h
  split at h
  · cases h
  · obtain rfl := List.mem_singleton.mp h
    refine ⟨rfl, fun f hf => ?_⟩
    obtain ⟨c, hc, rfl⟩ := List.mem_map.mp hf
    exact ⟨c, (List.mem_filter.mp hc).1, rfl, rfl⟩

/-- An enumeration of columns is named after the table and has columns as values. -/
theorem columnsEnum_spec {lead : String} {included : Field → Bool} {e : EnumType}
    (h : e ∈ s.columnsEnum lead included) :
    e.name = lead ++ s.name ∧ ∀ v ∈ e.values.map (·.1), ∃ c ∈ s.table.fields,
      v = s.columnField c.name := by
  unfold columnsEnum at h
  split at h
  · cases h
  · obtain rfl := List.mem_singleton.mp h
    refine ⟨rfl, fun v hv => ?_⟩
    obtain ⟨x, hx, rfl⟩ := List.mem_map.mp hv
    obtain ⟨c, hc, rfl⟩ := List.mem_map.mp hx
    exact ⟨c, (List.mem_filter.mp hc).1, rfl⟩

/-- An input for columns has a member. -/
theorem fields_ne_nil_of_columnsInput {lead : String} {included : Field → Bool} {i : InputType}
    (h : i ∈ s.columnsInput lead included) : i.fields ≠ [] := by
  unfold columnsInput at h
  split at h
  · cases h
  · rename_i hne
    obtain rfl := List.mem_singleton.mp h
    exact fun he => hne (List.map_eq_nil_iff.mp he)

/-- An enumeration of columns has a value. -/
theorem values_ne_nil_of_columnsEnum {lead : String} {included : Field → Bool} {e : EnumType}
    (h : e ∈ s.columnsEnum lead included) : e.values ≠ [] := by
  unfold columnsEnum at h
  split at h
  · cases h
  · rename_i hne
    obtain rfl := List.mem_singleton.mp h
    exact fun he => hne (List.map_eq_nil_iff.mp he)

/-- Every input of a table has a member. -/
theorem fields_ne_nil {i : InputType} (h : i ∈ s.inputTypes) : i.fields ≠ [] := by
  simp only [inputTypes, List.mem_append] at h
  rcases h with ((((h | h) | h) | h) | h) | h
  · exact fields_ne_nil_of_columnsInput h
  · exact fields_ne_nil_of_columnsInput h
  · exact fields_ne_nil_of_columnsInput h
  · exact fields_ne_nil_of_columnsInput h
  · obtain rfl := List.mem_singleton.mp h
    exact List.append_ne_nil_of_right_ne_nil _ (List.cons_ne_nil _ _)
  · obtain ⟨e, _, rfl⟩ := List.mem_map.mp h
    exact List.cons_ne_nil _ _

/-- Every enumeration of a table has a value. -/
theorem values_ne_nil {e : EnumType} (h : e ∈ s.enumTypes) : e.values ≠ [] := by
  simp only [enumTypes, List.mem_append] at h
  rcases h with (h | h) | h
  · exact values_ne_nil_of_columnsEnum h
  · exact values_ne_nil_of_columnsEnum h
  · exact values_ne_nil_of_columnsEnum h

/-- The type of a name can be given for a table: a scalar, or an input or enumeration of the table. -/
def Takes (s : Shape) (name : String) : Prop :=
  (∃ type : Scalar, type.typeName = name) ∨ (∃ i ∈ s.inputTypes, i.name = name)
    ∨ ∃ e ∈ s.enumTypes, e.name = name

/-- The input for filters is one of the table. -/
theorem filterInput_mem (s : Shape) : s.filterInput ∈ s.inputTypes :=
  List.mem_append_left _ (List.mem_append_right _ List.mem_cons_self)

/-- The members of the input for filters can be given. -/
theorem takes_filterInput (h : f ∈ s.filterInput.fields) : s.Takes f.type.core := by
  simp only [filterInput, List.mem_append] at h
  have hinput : ∀ {names : List String} (types : List InputType), types ⊆ s.inputTypes →
      f ∈ membersOf names (types.map (·.name)) → s.Takes f.type.core := by
    intro names types hsub hf
    obtain ⟨_, ht, _, _, rfl⟩ := mem_membersOf.mp hf
    obtain ⟨i, hi, rfl⟩ := List.mem_map.mp ht
    exact Or.inr (Or.inl ⟨i, hsub hi, rfl⟩)
  have henum : ∀ {names : List String} (types : List EnumType), types ⊆ s.enumTypes →
      f ∈ membersOf names (types.map (·.name)) → s.Takes f.type.core := by
    intro names types hsub hf
    obtain ⟨_, ht, _, _, rfl⟩ := mem_membersOf.mp hf
    obtain ⟨e, he, rfl⟩ := List.mem_map.mp ht
    exact Or.inr (Or.inr ⟨e, hsub he, rfl⟩)
  rcases h with (((((h | h) | h) | h) | h) | h) | h
  · exact hinput s.equalsInput (fun i hi => by simp [inputTypes, hi]) h
  · exact hinput s.containsInput (fun i hi => by simp [inputTypes, hi]) h
  · exact hinput s.endsInput (fun i hi => by simp [inputTypes, hi]) h
  · exact hinput s.orderedInput (fun i hi => by simp [inputTypes, hi]) h
  · exact henum s.missingEnum (fun e he => by simp [enumTypes, he]) h
  · exact henum s.emptyEnum (fun e he => by simp [enumTypes, he]) h
  · obtain ⟨n, _, rfl⟩ := List.mem_map.mp h
    exact Or.inr (Or.inl ⟨s.filterInput, s.filterInput_mem, rfl⟩)

/-- The members of every input of a table can be given. -/
theorem takes_of_mem_inputTypes {i : InputType} (hi : i ∈ s.inputTypes) (h : f ∈ i.fields) :
    s.Takes f.type.core := by
  have hcolumns : ∀ {lead : String} {included : Field → Bool},
      i ∈ s.columnsInput lead included → s.Takes f.type.core := by
    intro lead included hi
    obtain ⟨c, _, _, htype⟩ := (columnsInput_spec hi).2 f h
    rw [htype]
    exact Or.inl ⟨_, rfl⟩
  simp only [inputTypes, List.mem_append] at hi
  rcases hi with ((((hi | hi) | hi) | hi) | hi) | hi
  · exact hcolumns hi
  · exact hcolumns hi
  · exact hcolumns hi
  · exact hcolumns hi
  · obtain rfl := List.mem_singleton.mp hi
    exact takes_filterInput h
  · obtain ⟨e, he, rfl⟩ := List.mem_map.mp hi
    obtain ⟨_, ht, _, _, rfl⟩ := mem_membersOf.mp h
    obtain rfl := List.mem_singleton.mp ht
    exact Or.inr (Or.inr ⟨e, List.mem_append_right _ he, rfl⟩)

/-- The arguments for rows can be given. -/
theorem takes_of_mem_rowArguments {a : String × TypeRef} (h : a ∈ s.rowArguments) :
    s.Takes a.2.core := by
  rcases List.mem_cons.mp h with rfl | h
  · exact Or.inr (Or.inl ⟨s.filterInput, s.filterInput_mem, rfl⟩)
  · obtain ⟨i, hi, rfl⟩ := List.mem_map.mp h
    exact Or.inr (Or.inl ⟨i, List.mem_append_right _ hi, rfl⟩)

/-- The arguments for a page of rows can be given. -/
theorem takes_of_mem_pageArguments {a : String × TypeRef} (h : a ∈ s.pageArguments) :
    s.Takes a.2.core := by
  rcases List.mem_append.mp h with h | h
  · have hscalar : ∀ a ∈ [("first", TypeRef.named "Int"), ("after", .named "String"),
        ("last", .named "Int"), ("before", .named "String")],
        ∃ type ∈ Scalar.all, type.typeName = a.2.core := by decide
    obtain ⟨type, _, htype⟩ := hscalar a h
    exact Or.inl ⟨type, htype⟩
  · exact takes_of_mem_rowArguments h

end TableGraph.Shape
