import TableGraph.Proofs.Schema.Built
import TableGraph.Proofs.Schema.InputNames

/-!
# The inputs and connections of a schema

A build adds the inputs and enumerations of a table the first time they are asked for, and its
connection the first time a field leads to it. So at each point the inputs, enumerations and
connections are those of some of the tables, each once; in the end they are those of all tables,
since every table has a root field that leads to it.
-/

namespace TableGraph

namespace Shape

/-- Tables with one more at the end, unless it is there. -/
def added (s : Shape) (shapes : List Shape) : List Shape :=
  if s ∈ shapes then shapes else shapes ++ [s]

variable {s u : Shape} {shapes : List Shape}

/-- The tables are those there were and the one that is added. -/
theorem mem_added : u ∈ s.added shapes ↔ u ∈ shapes ∨ u = s := by
  unfold added
  split
  · rename_i h
    exact ⟨Or.inl, fun hu => hu.elim id fun he => he ▸ h⟩
  · rw [List.mem_append, List.mem_singleton]

/-- Different tables stay different. -/
theorem nodup_added (h : shapes.Nodup) : (s.added shapes).Nodup := by
  unfold added
  split
  · exact h
  · rename_i hs
    exact List.nodup_append.mpr ⟨h, List.nodup_singleton s, fun a ha b hb he =>
      hs (List.mem_singleton.mp hb ▸ he ▸ ha)⟩

end Shape

namespace Registry

/-- The inputs and enumerations are those of the tables `filtered`, and the connections those of the
tables `linked`, all of them tables of the schema, each once. -/
structure Lists (shapes filtered linked : List Shape) (t : Registry) : Prop where
  /-- Tables with inputs are tables of the schema. -/
  filtered_subset : filtered ⊆ shapes
  /-- Each table has its inputs once. -/
  filtered_nodup : filtered.Nodup
  /-- Tables with a connection are tables of the schema. -/
  linked_subset : linked ⊆ shapes
  /-- Each table has its connection once. -/
  linked_nodup : linked.Nodup
  /-- The inputs. -/
  inputs : t.inputs = (filtered.flatMap Shape.inputTypes).map fun i => (i.name, i)
  /-- The enumerations. -/
  enums : t.enums = (filtered.flatMap Shape.enumTypes).map fun e => (e.name, e)
  /-- The connections. -/
  connections : t.connections = linked.map (·.name)

namespace Lists

variable {shapes filtered linked : List Shape} {t : Registry} {s : Shape}

/-- Nothing is there in the beginning. -/
theorem start (shapes : List Shape) : Lists shapes [] [] {} where
  filtered_subset := List.nil_subset _
  filtered_nodup := List.nodup_nil
  linked_subset := List.nil_subset _
  linked_nodup := List.nodup_nil
  inputs := rfl
  enums := rfl
  connections := rfl

/-- What else changes does not matter. -/
theorem congr (h : Lists shapes filtered linked t) {t' : Registry} (hi : t'.inputs = t.inputs)
    (he : t'.enums = t.enums) (hc : t'.connections = t.connections) :
    Lists shapes filtered linked t' :=
  ⟨h.filtered_subset, h.filtered_nodup, h.linked_subset, h.linked_nodup, hi.trans h.inputs,
    he.trans h.enums, hc.trans h.connections⟩

/-- A table that has its inputs has the one for filters, and no other table's has its name. -/
theorem isSome_filterName_iff (h : Lists shapes filtered linked t)
    (hn : (shapes.map (·.name)).Nodup) (hs : s ∈ shapes) :
    (Members.get? t.inputs s.filterName).isSome ↔ s ∈ filtered := by
  rw [h.inputs]
  constructor
  · intro hsome
    obtain ⟨i, hi⟩ := Option.isSome_iff_exists.mp hsome
    obtain ⟨i, hmem, he⟩ := List.mem_map.mp (Members.mem_of_get? hi)
    obtain ⟨u, hu, hmem⟩ := List.mem_flatMap.mp hmem
    obtain ⟨lead, hlead, hname⟩ := Shape.exists_lead_of_mem_inputTypes hmem
    have hfilter : "FILTER_" ∈ Shape.inputLeads := by decide
    have hname' : s.name = u.name :=
      (Shape.leadsApart_inputs.append_inj hfilter hlead ((Prod.mk.inj he).1.symm.trans hname)).2
    exact List.inj_on_of_nodup_map hn hs (h.filtered_subset hu) hname' ▸ hu
  · intro hmem
    rw [Option.isSome_iff_ne_none, Ne, Members.get?_eq_none_iff, not_not, Members.names,
      List.map_map]
    refine List.mem_map.mpr ⟨s.filterInput, List.mem_flatMap.mpr ⟨s, hmem, ?_⟩, rfl⟩
    simp [Shape.inputTypes]

/-- The inputs and enumerations of a table are added, unless it has them. -/
theorem addInputs (h : Lists shapes filtered linked t) (hn : (shapes.map (·.name)).Nodup)
    (hs : s ∈ shapes) : Lists shapes (s.added filtered) linked (t.addInputs s) := by
  unfold Registry.addInputs Shape.added
  by_cases hmem : s ∈ filtered
  · rw [if_pos ((h.isSome_filterName_iff hn hs).mpr hmem), if_pos hmem]
    exact h
  · rw [if_neg fun hsome => hmem ((h.isSome_filterName_iff hn hs).mp hsome), if_neg hmem]
    have hsubset : filtered ++ [s] ⊆ shapes :=
      List.append_subset.mpr ⟨h.filtered_subset, List.cons_subset.mpr ⟨hs, List.nil_subset _⟩⟩
    have hnodup : (filtered ++ [s]).Nodup := by
      have := Shape.nodup_added (s := s) h.filtered_nodup
      rwa [Shape.added, if_neg hmem] at this
    -- The names are all different, so nothing that is added takes the place of what is there.
    have hnames : ((filtered ++ [s]).map (·.name)).Nodup :=
      List.Nodup.map_on (fun u hu v hv he =>
        List.inj_on_of_nodup_map hn (hsubset hu) (hsubset hv) he) hnodup
    refine ⟨hsubset, hnodup, h.linked_subset, h.linked_nodup, ?_, ?_, h.connections⟩
    · have hinputs := Shape.nodup_inputNames hnames
      rw [List.flatMap_append, List.flatMap_singleton] at hinputs ⊢
      rw [h.inputs]
      exact Members.foldl_insert_keyed InputType.name hinputs
    · have henums := Shape.nodup_enumNames hnames
      rw [List.flatMap_append, List.flatMap_singleton] at henums ⊢
      rw [h.enums]
      exact Members.foldl_insert_keyed EnumType.name henums

/-- The connection of a table is added, unless it has one. -/
theorem addConnection (h : Lists shapes filtered linked t) (hn : (shapes.map (·.name)).Nodup)
    (hs : s ∈ shapes) : Lists shapes filtered (s.added linked) (t.addConnection s) := by
  have hiff : s.name ∈ t.connections ↔ s ∈ linked := by
    rw [h.connections]
    constructor
    · intro hmem
      obtain ⟨u, hu, he⟩ := List.mem_map.mp hmem
      exact List.inj_on_of_nodup_map hn (h.linked_subset hu) hs he ▸ hu
    · exact fun hmem => List.mem_map_of_mem hmem
  have hnodup := Shape.nodup_added (s := s) h.linked_nodup
  have hsubset : s.added linked ⊆ shapes := by
    intro u hu
    rcases Shape.mem_added.mp hu with hu | rfl
    · exact h.linked_subset hu
    · exact hs
  refine ⟨h.filtered_subset, h.filtered_nodup, hsubset, hnodup, ?_, ?_, ?_⟩
  · unfold Registry.addConnection
    split <;> exact h.inputs
  · unfold Registry.addConnection
    split <;> exact h.enums
  · unfold Registry.addConnection Shape.added
    by_cases hmem : s ∈ linked
    · rw [if_pos (hiff.mpr hmem), if_pos hmem]
      exact h.connections
    · rw [if_neg fun hname => hmem (hiff.mp hname), if_neg hmem, List.map_append, ← h.connections]
      rfl

/-- Object types do not matter. -/
theorem addField (h : Lists shapes filtered linked t) (s : Shape) (d : FieldDef) :
    Lists shapes filtered linked (t.addField s d) := by
  unfold Registry.addField
  split
  · exact h.congr rfl rfl rfl
  · exact h

/-- The types of groups do not matter. -/
theorem addGroupType (h : Lists shapes filtered linked t) (g : Group) (name : String) :
    Lists shapes filtered linked (t.addGroupType shapes g name) := by
  unfold Registry.addGroupType
  split
  · exact h.congr rfl rfl rfl
  · exact h

end Lists

end Registry

namespace BuildState

variable {shapes filtered linked : List Shape} {b b' : BuildState}

/-- A group asks for the inputs of its table at most. -/
theorem lists_makeGroup (h : b.types.Lists shapes filtered linked)
    (hn : (shapes.map (·.name)).Nodup) {s : Shape} (hs : s ∈ shapes) {r : Ref}
    (hmake : makeGroup shapes s b r = .ok b') :
    ∃ filtered', filtered ⊆ filtered' ∧ b'.types.Lists shapes filtered' linked := by
  obtain ⟨name, _, _, rfl, hcase⟩ := makeGroup_cases (g := ⟨s, r⟩) hmake
  have htype := h.addGroupType ⟨s, r⟩ name
  rcases hcase with ⟨_, htypes⟩ | ⟨o, key, _, _, htypes⟩
  · exact ⟨filtered, List.Subset.refl _, htypes ▸ htype⟩
  · refine ⟨s.added filtered, fun u hu => Shape.mem_added.mpr (Or.inl hu), ?_⟩
    rw [htypes]
    exact (htype.addInputs hn hs).addField _ _

/-- A step keeps the tables that have inputs and connections; one that leads to a table adds it to
both. -/
theorem lists_take (h : b.types.Lists shapes filtered linked) (hn : (shapes.map (·.name)).Nodup)
    {step : BuildStep} (hstep : step.shape ∈ shapes) (htake : b.take shapes step = .ok b') :
    ∃ filtered' linked', filtered ⊆ filtered' ∧ linked ⊆ linked'
      ∧ b'.types.Lists shapes filtered' linked'
      ∧ ∀ s, step = .reach s → s ∈ filtered' ∧ s ∈ linked' := by
  cases step with
  | openTable s =>
    cases htake
    exact ⟨filtered, linked, List.Subset.refl _, List.Subset.refl _, h.congr rfl rfl rfl, nofun⟩
  | reach s =>
    cases htake
    refine ⟨s.added filtered, s.added linked, fun u hu => Shape.mem_added.mpr (Or.inl hu),
      fun u hu => Shape.mem_added.mpr (Or.inl hu), (h.addConnection hn hstep).addInputs hn hstep, ?_⟩
    rintro _ ⟨⟩
    exact ⟨Shape.mem_added.mpr (Or.inr rfl), Shape.mem_added.mpr (Or.inr rfl)⟩
  | makeGroups s =>
    obtain ⟨filtered', hsub, hlists⟩ := foldlM_invariant
      (P := fun b : BuildState => ∃ between, filtered ⊆ between
        ∧ b.types.Lists shapes between linked)
      (fun r _ next next' ⟨between, hsub, hlists⟩ hmake => by
        obtain ⟨filtered', hsub', hlists'⟩ := lists_makeGroup hlists hn hstep hmake
        exact ⟨filtered', List.Subset.trans hsub hsub', hlists'⟩)
      ⟨filtered, List.Subset.refl _, h⟩ htake
    exact ⟨filtered', linked, hsub, List.Subset.refl _, hlists, nofun⟩

/-- Steps keep the tables that have inputs and connections, and add those they lead to. -/
theorem lists_run (hn : (shapes.map (·.name)).Nodup) : ∀ {steps : List BuildStep}
    {filtered linked : List Shape} {b : BuildState}, b.types.Lists shapes filtered linked →
    (∀ step ∈ steps, step.shape ∈ shapes) → steps.foldlM (take shapes) b = .ok b' →
    ∃ filtered' linked', filtered ⊆ filtered' ∧ linked ⊆ linked'
      ∧ b'.types.Lists shapes filtered' linked'
      ∧ ∀ s, .reach s ∈ steps → s ∈ filtered' ∧ s ∈ linked'
  | [], filtered, linked, _, h, _, hrun => by
    cases hrun
    exact ⟨filtered, linked, List.Subset.refl _, List.Subset.refl _, h, nofun⟩
  | step :: rest, filtered, linked, b, h, hsteps, hrun => by
    rw [List.foldlM_cons] at hrun
    obtain ⟨next, hnext, hrest⟩ := bind_eq_ok_iff.mp hrun
    rw [List.forall_mem_cons] at hsteps
    obtain ⟨between, between', hsub, hsub', hbetween, hreach⟩ := lists_take h hn hsteps.1 hnext
    obtain ⟨filtered', linked', hkept, hkept', hlists, hreached⟩ :=
      lists_run hn hbetween hsteps.2 hrest
    refine ⟨filtered', linked', List.Subset.trans hsub hkept, List.Subset.trans hsub' hkept', hlists,
      ?_⟩
    intro s hs
    rcases List.mem_cons.mp hs with he | hs
    · obtain ⟨hf, hl⟩ := hreach s he.symm
      exact ⟨hkept hf, hkept' hl⟩
    · exact hreached s hs

end BuildState

/-- A step that is to be taken is taken. -/
theorem BuildTask.mem_steps_of_take {shapes unopened : List Shape} {tasks : List BuildTask}
    {step : BuildStep} (h : take step ∈ tasks) : step ∈ steps shapes unopened tasks := by
  induction unopened, tasks using steps.induct shapes with
  | case1 unopened => cases h
  | case2 unopened step' rest ih =>
    rw [steps]
    rcases List.mem_cons.mp h with he | h
    · cases he
      exact List.mem_cons_self
    · exact List.mem_cons_of_mem _ (ih h)
  | case3 unopened s rest hs ih =>
    rw [steps, if_pos hs]
    refine List.mem_cons_of_mem _ (ih (List.mem_append_right _ ?_))
    rcases List.mem_cons.mp h with he | h
    · cases he
    · exact h
  | case4 unopened s rest hs ih =>
    rw [steps, if_neg hs]
    rcases List.mem_cons.mp h with he | h
    · cases he
    · exact ih h

/-- A root field leads to each table. -/
theorem BuildStep.reach_mem_ofShapes {shapes : List Shape} {s : Shape} (hs : s ∈ shapes) :
    reach s ∈ ofShapes shapes :=
  BuildTask.mem_steps_of_take
    (List.mem_flatMap.mpr ⟨s, hs, List.mem_cons_of_mem _ List.mem_cons_self⟩)

namespace Schema

variable {tables : List Table} {schema : Schema}

/-- The inputs, enumerations and connections of a schema are those of its tables. -/
theorem lists_of_build (hbuild : (build tables).outcome = .ok schema) :
    ∃ filtered linked, filtered.Perm schema.tables ∧ linked.Perm schema.tables
      ∧ schema.types.Lists schema.tables filtered linked := by
  obtain ⟨shapes, b, hshapes, hrun, rfl⟩ := exists_steps_of_build hbuild
  have hn : (shapes.map (·.name)).Nodup :=
    hshapes ▸ Shape.nodup_names_ofTables (Table.nodup_names_exposable tables)
  obtain ⟨filtered, linked, _, _, hlists, hreached⟩ :=
    BuildState.lists_run (b := ⟨{}, Name.Derived.reserving (shapes.map (·.name))⟩) hn
      (Registry.Lists.start shapes) (fun _ hstep => BuildStep.shape_mem_of_mem_ofShapes hstep) hrun
  have hnodup : shapes.Nodup := List.Nodup.of_map _ hn
  refine ⟨filtered, linked, ?_, ?_, hlists⟩
  · refine (List.perm_ext_iff_of_nodup hlists.filtered_nodup hnodup).mpr fun s => ?_
    exact ⟨fun hs => hlists.filtered_subset hs,
      fun hs => (hreached s (BuildStep.reach_mem_ofShapes hs)).1⟩
  · refine (List.perm_ext_iff_of_nodup hlists.linked_nodup hnodup).mpr fun s => ?_
    exact ⟨fun hs => hlists.linked_subset hs,
      fun hs => (hreached s (BuildStep.reach_mem_ofShapes hs)).2⟩

/-- The inputs of a table are found under their names. -/
theorem input_of_table (hbuild : (build tables).outcome = .ok schema) {s : Shape}
    (hs : s ∈ schema.tables) {i : InputType} (hi : i ∈ s.inputTypes) :
    Members.get? schema.types.inputs i.name = some i := by
  obtain ⟨filtered, _, hperm, _, hlists⟩ := lists_of_build hbuild
  have hnames := Shape.nodup_inputNames ((hperm.map (·.name)).nodup_iff.mpr (nodup_names hbuild))
  rw [hlists.inputs]
  exact Members.get?_keyed InputType.name hnames
    (List.mem_flatMap.mpr ⟨s, hperm.mem_iff.mpr hs, hi⟩)

/-- The enumerations of a table are found under their names. -/
theorem enum_of_table (hbuild : (build tables).outcome = .ok schema) {s : Shape}
    (hs : s ∈ schema.tables) {e : EnumType} (he : e ∈ s.enumTypes) :
    Members.get? schema.types.enums e.name = some e := by
  obtain ⟨filtered, _, hperm, _, hlists⟩ := lists_of_build hbuild
  have hnames := Shape.nodup_enumNames ((hperm.map (·.name)).nodup_iff.mpr (nodup_names hbuild))
  rw [hlists.enums]
  exact Members.get?_keyed EnumType.name hnames
    (List.mem_flatMap.mpr ⟨s, hperm.mem_iff.mpr hs, he⟩)

/-- Every input is one of a table. -/
theorem table_of_input (hbuild : (build tables).outcome = .ok schema) {e : String × InputType}
    (he : e ∈ schema.types.inputs) : e.1 = e.2.name ∧ ∃ s ∈ schema.tables, e.2 ∈ s.inputTypes := by
  obtain ⟨filtered, _, hperm, _, hlists⟩ := lists_of_build hbuild
  rw [hlists.inputs] at he
  obtain ⟨i, hi, rfl⟩ := List.mem_map.mp he
  obtain ⟨s, hs, hi⟩ := List.mem_flatMap.mp hi
  exact ⟨rfl, s, hperm.mem_iff.mp hs, hi⟩

/-- Every enumeration is one of a table. -/
theorem table_of_enum (hbuild : (build tables).outcome = .ok schema) {e : String × EnumType}
    (he : e ∈ schema.types.enums) : e.1 = e.2.name ∧ ∃ s ∈ schema.tables, e.2 ∈ s.enumTypes := by
  obtain ⟨filtered, _, hperm, _, hlists⟩ := lists_of_build hbuild
  rw [hlists.enums] at he
  obtain ⟨i, hi, rfl⟩ := List.mem_map.mp he
  obtain ⟨s, hs, hi⟩ := List.mem_flatMap.mp hi
  exact ⟨rfl, s, hperm.mem_iff.mp hs, hi⟩

/-- The connections are those of the tables. -/
theorem mem_connections_iff (hbuild : (build tables).outcome = .ok schema) {name : String} :
    name ∈ schema.types.connections ↔ ∃ s ∈ schema.tables, s.name = name := by
  obtain ⟨_, linked, _, hperm, hlists⟩ := lists_of_build hbuild
  rw [hlists.connections, List.mem_map]
  simp only [hperm.mem_iff]

end Schema

end TableGraph
