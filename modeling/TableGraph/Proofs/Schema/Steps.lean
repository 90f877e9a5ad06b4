import TableGraph.Proofs.Schema.Exposed

/-!
# The order of the steps

A build opens each table just once and makes its groups just once, after it has been opened. The
tables that are open while their groups are still to be made form a stack: the groups of the table
opened last are made first.
-/

namespace TableGraph

namespace BuildStep

/-- The tables that are opened, in order. -/
def opened (steps : List BuildStep) : List Shape :=
  steps.filterMap fun
    | openTable s => some s
    | reach _ => none
    | makeGroups _ => none

/-- The tables whose groups are made, in order. -/
def grouped (steps : List BuildStep) : List Shape :=
  steps.filterMap fun
    | openTable _ => none
    | reach _ => none
    | makeGroups s => some s

/-- Steps that open each of the tables `unopened`. The tables `pending` are open while their groups
are still to be made, the one opened last in front. -/
inductive Orderly : List Shape → List Shape → List BuildStep → Prop
  /-- Every table is open and has its groups. -/
  | done : Orderly [] [] []
  /-- A table is opened. -/
  | openTable {s : Shape} {unopened pending : List Shape} {rest : List BuildStep}
    (hs : s ∈ unopened) (tail : Orderly (unopened.erase s) (s :: pending) rest) :
    Orderly unopened pending (openTable s :: rest)
  /-- A field leads to a table. -/
  | reach (s : Shape) {unopened pending : List Shape} {rest : List BuildStep}
    (tail : Orderly unopened pending rest) : Orderly unopened pending (reach s :: rest)
  /-- The groups of the table opened last are made. -/
  | makeGroups {s : Shape} {unopened pending : List Shape} {rest : List BuildStep}
    (tail : Orderly unopened pending rest) :
    Orderly unopened (s :: pending) (makeGroups s :: rest)

/-- Each table is opened once. -/
theorem Orderly.opened_perm {unopened pending : List Shape} {steps : List BuildStep}
    (h : Orderly unopened pending steps) : (opened steps).Perm unopened := by
  induction h with
  | done => exact List.Perm.refl []
  | openTable hs _ ih => exact (ih.cons _).trans (List.perm_cons_erase hs).symm
  | reach _ _ ih => exact ih
  | makeGroups _ ih => exact ih

/-- The groups of each table are made once. -/
theorem Orderly.grouped_perm {unopened pending : List Shape} {steps : List BuildStep}
    (h : Orderly unopened pending steps) : (grouped steps).Perm (unopened ++ pending) := by
  induction h with
  | done => exact List.Perm.refl []
  | openTable hs _ ih =>
    refine ih.trans (List.perm_middle.trans ?_)
    exact (List.perm_cons_erase hs).symm.append_right _
  | reach _ _ ih => exact ih
  | makeGroups _ ih => exact (ih.cons _).trans List.perm_middle.symm

end BuildStep

namespace BuildTask

/-- The tables whose groups are to be made. -/
def pending (tasks : List BuildTask) : List Shape :=
  tasks.filterMap fun
    | visit _ => none
    | take step => match step with
      | .openTable _ => none
      | .reach _ => none
      | .makeGroups s => some s

/-- Tasks for fields make no groups. -/
@[simp]
theorem pending_flatMap_follow {α : Type} (target : α → Shape) (xs : List α) :
    pending (xs.flatMap fun x => follow (target x)) = [] := by
  unfold pending
  rw [List.filterMap_eq_nil_iff]
  intro task hmem
  obtain ⟨x, _, hmem⟩ := List.mem_flatMap.mp hmem
  simp only [follow, List.mem_cons, List.not_mem_nil, or_false] at hmem
  rcases hmem with rfl | rfl <;> rfl

/-- Behind the opening of a table its groups are made. -/
@[simp]
theorem pending_inside (shapes : List Shape) (s : Shape) (rest : List BuildTask) :
    pending (inside shapes s ++ rest) = s :: pending rest := by
  have hfollow := pending_flatMap_follow (fun t : Shape × String => t.1)
    (s.table.fields.filterMap (Shape.target? shapes))
  unfold pending at hfollow ⊢
  rw [inside, List.append_assoc, List.filterMap_append, hfollow]
  rfl

/-- Tasks for fields and behind the opening of a table open no table by themselves. -/
theorem openTable_not_mem_inside (shapes : List Shape) (s u : Shape) :
    take (.openTable u) ∉ inside shapes s := by
  intro h
  rcases List.mem_append.mp h with h | h
  · obtain ⟨t, _, h⟩ := List.mem_flatMap.mp h
    simp only [follow, List.mem_cons, List.not_mem_nil, or_false] at h
    rcases h with h | h <;> cases h
  · cases List.mem_singleton.mp h

/-- The steps of tasks are in order when every table that is not open is visited. -/
theorem orderly_steps {shapes unopened : List Shape} {tasks : List BuildTask}
    (hn : unopened.Nodup) (hvisit : ∀ s ∈ unopened, visit s ∈ tasks)
    (hopen : ∀ s, take (.openTable s) ∉ tasks) :
    BuildStep.Orderly unopened (pending tasks) (steps shapes unopened tasks) := by
  induction unopened, tasks using steps.induct shapes with
  | case1 unopened =>
    have hnil : unopened = [] :=
      List.eq_nil_iff_forall_not_mem.mpr fun s hs => List.not_mem_nil (hvisit s hs)
    rw [steps, hnil]
    exact .done
  | case2 unopened step rest ih =>
    have hrest := ih hn
      (fun s hs => (List.mem_cons.mp (hvisit s hs)).resolve_left (by rintro ⟨⟩))
      (fun s hs => hopen s (List.mem_cons_of_mem _ hs))
    rw [steps]
    cases step with
    | openTable s => exact absurd List.mem_cons_self (hopen s)
    | reach s => exact .reach s hrest
    | makeGroups s => exact .makeGroups hrest
  | case3 unopened s rest hs ih =>
    rw [steps, if_pos hs]
    refine .openTable hs ?_
    rw [pending_inside] at ih
    refine ih (hn.erase s) ?_ ?_
    · intro u hu
      have hmem := hvisit u (List.mem_of_mem_erase hu)
      refine List.mem_append_right _ ((List.mem_cons.mp hmem).resolve_left ?_)
      rintro ⟨⟩
      exact (List.Nodup.not_mem_erase hn) hu
    · intro u hu
      rcases List.mem_append.mp hu with hu | hu
      · exact openTable_not_mem_inside shapes s u hu
      · exact hopen u (List.mem_cons_of_mem _ hu)
  | case4 unopened s rest hs ih =>
    rw [steps, if_neg hs]
    refine ih hn ?_ fun u hu => hopen u (List.mem_cons_of_mem _ hu)
    intro u hu
    refine (List.mem_cons.mp (hvisit u hu)).resolve_left ?_
    rintro ⟨⟩
    exact hs hu

end BuildTask

/-- The steps of a build are in order. -/
theorem BuildStep.orderly_ofShapes {shapes : List Shape} (hn : shapes.Nodup) :
    Orderly shapes [] (ofShapes shapes) := by
  have hvisit : ∀ s ∈ shapes, BuildTask.visit s ∈ shapes.flatMap BuildTask.follow := fun s hs =>
    List.mem_flatMap.mpr ⟨s, hs, List.mem_cons_self⟩
  have hopen : ∀ s, BuildTask.take (.openTable s) ∉ shapes.flatMap BuildTask.follow := by
    intro s h
    obtain ⟨u, _, h⟩ := List.mem_flatMap.mp h
    simp only [BuildTask.follow, List.mem_cons, List.not_mem_nil, or_false] at h
    rcases h with h | h <;> cases h
  rw [ofShapes, ← BuildTask.pending_flatMap_follow (fun s : Shape => s) shapes]
  exact BuildTask.orderly_steps hn hvisit hopen

end TableGraph
