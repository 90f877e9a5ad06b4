import TableGraph.Proofs.Members
import TableGraph.Schema.Inputs

/-!
# Names of inputs and enumerations

The inputs and enumerations of a table are named after it, each kind with words of its own in front.
No words begin others of their kind, so a name tells the words and the table: neither two inputs nor
two enumerations of a set of tables have the same name.
-/

namespace TableGraph

/-- Words of which none begins another. -/
def LeadsApart (leads : List String) : Prop :=
  ∀ l ∈ leads, ∀ l' ∈ leads, l.toList <+: l'.toList → l = l'

instance (leads : List String) : Decidable (LeadsApart leads) :=
  inferInstanceAs (Decidable (∀ l ∈ leads, ∀ l' ∈ leads, l.toList <+: l'.toList → l = l'))

/-- A name behind such words tells the words and what follows. -/
theorem LeadsApart.append_inj {leads : List String} (h : LeadsApart leads) {l l' a b : String}
    (hl : l ∈ leads) (hl' : l' ∈ leads) (he : l ++ a = l' ++ b) : l = l' ∧ a = b := by
  have hlist := congrArg String.toList he
  rw [String.toList_append, String.toList_append] at hlist
  have hprefix : l.toList <+: l'.toList ++ b.toList := ⟨a.toList, hlist⟩
  have hsame : l = l' := by
    rcases List.prefix_or_prefix_of_prefix hprefix (List.prefix_append _ _) with hp | hp
    · exact h l hl l' hl' hp
    · exact (h l' hl' l hl hp).symm
  subst hsame
  exact ⟨rfl, String.toList_inj.mp (List.append_cancel_left hlist)⟩

/-- A name behind words that neither begin with other words nor begin them is no name behind those. -/
theorem append_ne_append {l l' : String} (h : ¬l.toList <+: l'.toList) (h' : ¬l'.toList <+: l.toList)
    (a b : String) : l ++ a ≠ l' ++ b := by
  intro he
  have hlist := congrArg String.toList he
  rw [String.toList_append, String.toList_append] at hlist
  have hprefix : l.toList <+: l'.toList ++ b.toList := ⟨a.toList, hlist⟩
  exact (List.prefix_or_prefix_of_prefix hprefix (List.prefix_append _ _)).elim h h'

namespace Shape

/-- What the names of inputs begin with. -/
def inputLeads : List String :=
  ["EQUALS_", "CONTAINS_", "BEGINS_OR_ENDS_", "GREATER_OR_LESS_", "FILTER_", "SORTING_"]

/-- What the names of enumerations begin with. -/
def enumLeads : List String := ["IS_NULL_FIELDS_", "IS_EMPTY_FIELDS_", "SORTING_FIELDS_"]

/-- No words of inputs begin others. -/
theorem leadsApart_inputs : LeadsApart inputLeads := by decide

/-- No words of enumerations begin others. -/
theorem leadsApart_enums : LeadsApart enumLeads := by decide

variable {s u : Shape}

/-- An input for columns has its words and the name of the table. -/
theorem names_columnsInput_sublist (s : Shape) (lead : String) (included : Field → Bool) :
    ((s.columnsInput lead included).map (·.name)).Sublist [lead ++ s.name] := by
  unfold columnsInput
  split
  · exact List.nil_sublist _
  · exact List.Sublist.refl _

/-- An enumeration of columns has its words and the name of the table. -/
theorem names_columnsEnum_sublist (s : Shape) (lead : String) (included : Field → Bool) :
    ((s.columnsEnum lead included).map (·.name)).Sublist [lead ++ s.name] := by
  unfold columnsEnum
  split
  · exact List.nil_sublist _
  · exact List.Sublist.refl _

/-- The input for orderings has its words and the name of the table. -/
theorem names_sortingInput_sublist (s : Shape) :
    (s.sortingInput.map (·.name)).Sublist ["SORTING_" ++ s.name] := by
  unfold sortingInput sortingEnum columnsEnum
  split
  · exact List.nil_sublist _
  · exact List.Sublist.refl _

/-- The inputs of a table have their words, each at most once, and the name of the table. -/
theorem names_inputTypes_sublist (s : Shape) :
    (s.inputTypes.map (·.name)).Sublist (inputLeads.map (· ++ s.name)) := by
  simp only [inputTypes, List.map_append]
  exact (((((names_columnsInput_sublist s "EQUALS_" _).append
    (names_columnsInput_sublist s "CONTAINS_" _)).append
    (names_columnsInput_sublist s "BEGINS_OR_ENDS_" _)).append
    (names_columnsInput_sublist s "GREATER_OR_LESS_" _)).append
    (List.Sublist.refl ["FILTER_" ++ s.name])).append (names_sortingInput_sublist s)

/-- The enumerations of a table have their words, each at most once, and the name of the table. -/
theorem names_enumTypes_sublist (s : Shape) :
    (s.enumTypes.map (·.name)).Sublist (enumLeads.map (· ++ s.name)) := by
  simp only [enumTypes, List.map_append]
  exact ((names_columnsEnum_sublist s "IS_NULL_FIELDS_" _).append
    (names_columnsEnum_sublist s "IS_EMPTY_FIELDS_" _)).append
    (names_columnsEnum_sublist s "SORTING_FIELDS_" _)

/-- An input has its words and the name of the table. -/
theorem exists_lead_of_mem_inputTypes {i : InputType} (h : i ∈ s.inputTypes) :
    ∃ lead ∈ inputLeads, i.name = lead ++ s.name := by
  obtain ⟨lead, hlead, he⟩ :=
    List.mem_map.mp ((names_inputTypes_sublist s).subset (List.mem_map_of_mem h))
  exact ⟨lead, hlead, he.symm⟩

/-- An enumeration has its words and the name of the table. -/
theorem exists_lead_of_mem_enumTypes {e : EnumType} (h : e ∈ s.enumTypes) :
    ∃ lead ∈ enumLeads, e.name = lead ++ s.name := by
  obtain ⟨lead, hlead, he⟩ :=
    List.mem_map.mp ((names_enumTypes_sublist s).subset (List.mem_map_of_mem h))
  exact ⟨lead, hlead, he.symm⟩

/-- Names of one table behind different words are different, and so are names of different tables. -/
theorem nodup_flatMap_leads {leads : List String} (ha : LeadsApart leads) (hn : leads.Nodup)
    {names : Shape → List String} (hs : ∀ s, (names s).Sublist (leads.map (· ++ s.name)))
    {shapes : List Shape} (h : (shapes.map (·.name)).Nodup) : (shapes.flatMap names).Nodup := by
  rw [List.nodup_flatMap]
  constructor
  · intro s _
    refine (hs s).nodup (List.Nodup.map_on ?_ hn)
    exact fun l hl l' hl' he => (ha.append_inj hl hl' he).1
  · rw [List.Nodup, List.pairwise_map] at h
    refine h.imp ?_
    intro s u hne name hname hname'
    obtain ⟨l, hl, rfl⟩ := List.mem_map.mp ((hs s).subset hname)
    obtain ⟨l', hl', he⟩ := List.mem_map.mp ((hs u).subset hname')
    exact hne (ha.append_inj hl' hl he).2.symm

/-- The inputs of tables with different names have different names. -/
theorem nodup_inputNames {shapes : List Shape} (h : (shapes.map (·.name)).Nodup) :
    ((shapes.flatMap inputTypes).map (·.name)).Nodup := by
  rw [List.map_flatMap]
  exact nodup_flatMap_leads leadsApart_inputs (by decide) names_inputTypes_sublist h

/-- The enumerations of tables with different names have different names. -/
theorem nodup_enumNames {shapes : List Shape} (h : (shapes.map (·.name)).Nodup) :
    ((shapes.flatMap enumTypes).map (·.name)).Nodup := by
  rw [List.map_flatMap]
  exact nodup_flatMap_leads leadsApart_enums (by decide) names_enumTypes_sublist h

end Shape

end TableGraph
