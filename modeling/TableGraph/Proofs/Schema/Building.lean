import TableGraph.Proofs.Listing
import TableGraph.Proofs.Outcome
import TableGraph.Schema.Build

/-!
# What a build does

A build takes its steps one after another, each about one of the tables that are shown. Which types
it ends with does not depend on its reports.
-/

namespace TableGraph

namespace Table

/-- The tables that stay stand in the order in which they stood. -/
theorem settled_sublist (tables : List Table) : (settled tables).Sublist tables := by
  induction tables using settled.induct with
  | case1 tables hlt ih =>
    rw [settled, if_pos hlt]
    exact ih.trans List.filter_sublist
  | case2 tables hlt => rw [settled, if_neg hlt]

/-- The tables that can be shown stand in the order in which they stood. -/
theorem exposable_sublist (tables : List Table) : (exposable tables).Sublist tables :=
  (settled_sublist _).trans (distinctFrom_sublist _ _ _)

/-- The tables that can be shown are among those there are. -/
theorem mem_of_mem_exposable {tables : List Table} {t : Table} (h : t ∈ exposable tables) :
    t ∈ tables := (exposable_sublist tables).subset h

end Table

namespace Shape

variable {shapes : List Shape}

/-- The tables of shapes are those they are made of. -/
@[simp]
theorem map_table_ofTables (tables : List Table) : (ofTables tables).map (·.table) = tables := by
  rw [ofTables, List.map_map]
  exact List.map_id _

/-- The table of a shape is one of those the shapes are made of. -/
theorem table_mem_of_mem_ofTables {tables : List Table} {s : Shape} (h : s ∈ ofTables tables) :
    s.table ∈ tables := by
  rw [← map_table_ofTables tables]
  exact List.mem_map_of_mem h

/-- A reference leads to one of the tables that are shown, on the column it is joined on. -/
theorem target?_eq_some {f : Field} {t : Shape × String} (h : target? shapes f = some t) :
    t.1 ∈ shapes ∧ f.joinColumn? t.1.table = some t.2 := by
  obtain ⟨table, _, h⟩ := Option.bind_eq_some_iff.mp h
  obtain ⟨s, hs, h⟩ := Option.bind_eq_some_iff.mp h
  obtain ⟨column, hc, h⟩ := Option.bind_eq_some_iff.mp h
  cases h
  exact ⟨List.mem_of_find?_eq_some hs, hc⟩

end Shape

/-- The table that a step is about. -/
def BuildStep.shape : BuildStep → Shape
  | openTable s => s
  | reach s => s
  | makeGroups s => s

/-- The table that a task is about. -/
def BuildTask.shape : BuildTask → Shape
  | visit s => s
  | take step => step.shape

/-- The tasks for a field are about the table it leads to. -/
theorem BuildTask.shape_of_mem_follow {s : Shape} {task : BuildTask} (h : task ∈ follow s) :
    task.shape = s := by
  simp only [follow, List.mem_cons, List.not_mem_nil, or_false] at h
  rcases h with rfl | rfl <;> rfl

/-- The tasks behind the opening of a table are about tables there are. -/
theorem BuildTask.shape_mem_of_mem_inside {shapes : List Shape} {s : Shape} (hs : s ∈ shapes)
    {task : BuildTask} (h : task ∈ inside shapes s) : task.shape ∈ shapes := by
  rcases List.mem_append.mp h with h | h
  · obtain ⟨t, ht, h⟩ := List.mem_flatMap.mp h
    obtain ⟨f, _, ht⟩ := List.mem_filterMap.mp ht
    rw [shape_of_mem_follow h]
    exact (Shape.target?_eq_some ht).1
  · rw [List.mem_singleton.mp h]
    exact hs

/-- The steps of tasks are about tables there are. -/
theorem BuildTask.shape_mem_of_mem_steps {shapes unopened : List Shape} {tasks : List BuildTask}
    (hu : ∀ s ∈ unopened, s ∈ shapes) (ht : ∀ task ∈ tasks, task.shape ∈ shapes) {step : BuildStep}
    (h : step ∈ steps shapes unopened tasks) : step.shape ∈ shapes := by
  induction unopened, tasks using steps.induct shapes with
  | case1 unopened =>
    rw [steps] at h
    cases h
  | case2 unopened step' rest ih =>
    rw [steps] at h
    rcases List.mem_cons.mp h with rfl | h
    · exact ht _ List.mem_cons_self
    · exact ih hu (fun task hmem => ht task (List.mem_cons_of_mem _ hmem)) h
  | case3 unopened s rest hs ih =>
    rw [steps, if_pos hs] at h
    rcases List.mem_cons.mp h with rfl | h
    · exact hu s hs
    · refine ih (fun t hmem => hu t (List.mem_of_mem_erase hmem)) ?_ h
      intro task hmem
      rcases List.mem_append.mp hmem with hmem | hmem
      · exact shape_mem_of_mem_inside (hu s hs) hmem
      · exact ht task (List.mem_cons_of_mem _ hmem)
  | case4 unopened s rest hs ih =>
    rw [steps, if_neg hs] at h
    exact ih hu (fun task hmem => ht task (List.mem_cons_of_mem _ hmem)) h

/-- The steps of a build are about the tables that are shown. -/
theorem BuildStep.shape_mem_of_mem_ofShapes {shapes : List Shape} {step : BuildStep}
    (h : step ∈ ofShapes shapes) : step.shape ∈ shapes := by
  refine BuildTask.shape_mem_of_mem_steps (fun _ hs => hs) ?_ h
  intro task hmem
  obtain ⟨s, hs, hmem⟩ := List.mem_flatMap.mp hmem
  rw [BuildTask.shape_of_mem_follow hmem]
  exact hs

/-- The reports of a run do not matter for its outcome. -/
theorem BuildState.run_outcome (shapes : List Shape) (weight : Float) (b : BuildState)
    (steps : List BuildStep) :
    (b.run shapes weight steps).outcome = steps.foldlM (take shapes) b := by
  induction steps generalizing b with
  | nil => rfl
  | cons step rest ih =>
    rw [run, List.foldlM_cons]
    cases ht : b.take shapes step with
    | error e => rfl
    | ok next => exact ih next

/-- A run that succeeds has the reports of all its steps. -/
theorem BuildState.run_ticks {shapes : List Shape} {weight : Float} {b b' : BuildState}
    {steps : List BuildStep} (h : (b.run shapes weight steps).outcome = .ok b') :
    (b.run shapes weight steps).ticks = steps.flatMap (·.ticks weight) := by
  induction steps generalizing b with
  | nil => rfl
  | cons step rest ih =>
    rw [run] at h ⊢
    cases ht : b.take shapes step with
    | error e =>
      rw [ht] at h
      cases h
    | ok next =>
      rw [ht] at h
      exact congrArg (step.ticks weight ++ ·) (ih h)

/-- The schema of a snapshot of tables without reports: there is one when a table can be shown and
every step can be taken. -/
def Schema.built? (tables : List Table) : Option Schema :=
  let shapes := Shape.ofTables (Table.exposable tables)
  if shapes = [] then none
  else ((BuildStep.ofShapes shapes).foldlM (BuildState.take shapes)
    ⟨{}, Name.Derived.reserving (shapes.map (·.name))⟩).toOption.map fun b => ofTypes shapes b.types

/-- A build ends with the schema that there is. -/
theorem Schema.build_eq_ok_iff {tables : List Table} {schema : Schema} :
    (build tables).outcome = .ok schema ↔ built? tables = some schema := by
  unfold build built?
  cases Table.exposable tables with
  | nil =>
    constructor
    · intro h
      cases h
    · intro h
      cases h
  | cons t rest =>
    have hne : Shape.ofTables (t :: rest) ≠ [] := List.cons_ne_nil _ _
    dsimp only
    rw [if_neg hne, BuildState.run_outcome]
    generalize Shape.ofTables (t :: rest) = shapes
    cases (BuildStep.ofShapes shapes).foldlM (BuildState.take shapes)
      ⟨{}, Name.Derived.reserving (shapes.map (·.name))⟩ with
    | error e =>
      constructor
      · intro h
        cases h
      · intro h
        cases h
    | ok b =>
      constructor
      · intro h
        exact congrArg some (Except.ok.inj h)
      · intro h
        exact congrArg Except.ok (Option.some.inj h)

/-- A schema is the one of the types that the steps end with. -/
theorem Schema.exists_steps_of_build {tables : List Table} {schema : Schema}
    (h : (build tables).outcome = .ok schema) :
    ∃ shapes b, shapes = Shape.ofTables (Table.exposable tables)
      ∧ (BuildStep.ofShapes shapes).foldlM (BuildState.take shapes)
        ⟨{}, Name.Derived.reserving (shapes.map (·.name))⟩ = .ok b
      ∧ schema = ofTypes shapes b.types := by
  have hbuilt := build_eq_ok_iff.mp h
  unfold built? at hbuilt
  dsimp only at hbuilt
  split at hbuilt
  · cases hbuilt
  · obtain ⟨b, hb, rfl⟩ := Option.map_eq_some_iff.mp hbuilt
    exact ⟨_, b, rfl, toOption_eq_some_iff.mp hb, rfl⟩

end TableGraph
