import Mathlib.Order.Bounds.Defs
import TableGraph.Proofs.Schema.Exposed

/-!
# The largest set of tables that can be shown

Tables sustain each other when each of them keeps a field among them. Thinning out loses no table of
such a set: what its fields need is there before each round, so it is there after the round. Where
nothing is lost any more the tables that are left sustain each other themselves. So the tables that
can be shown are the largest such set, also where tables refer to each other in a circle.
-/

namespace TableGraph

/-- Whether a field stays when the tables are those of a set: it is a plain column, or it refers to
a table of the set, and it names the column to join on or that table has a primary key. -/
def Field.StaysAmong (S : Set Table) (f : Field) : Prop :=
  f.tableRef = none ∨ ∃ u ∈ S, f.tableRef = some u.name
    ∧ (f.fieldRef.isSome ∨ ∃ g ∈ u.fields, g.primary = true)

/-- A field that stays among some tables stays among more of them. -/
theorem Field.StaysAmong.mono {S T : Set Table} (hST : S ⊆ T) {f : Field} (h : f.StaysAmong S) :
    f.StaysAmong T :=
  h.imp_right fun ⟨u, hu, hname, hcolumn⟩ => ⟨u, hST hu, hname, hcolumn⟩

/-- A reference has a column to join on when it names one or the table has a primary key. -/
theorem Field.isSome_joinColumn?_iff {f : Field} {u : Table} :
    (f.joinColumn? u).isSome ↔ f.fieldRef.isSome ∨ ∃ g ∈ u.fields, g.primary = true := by
  unfold Field.joinColumn? Table.primaryField?
  rw [Option.isSome_or, Bool.or_eq_true, Option.isSome_map, List.find?_isSome]

namespace Table

/-- Tables that sustain each other: each has a field that stays among them. -/
def Sustained (S : Set Table) : Prop := ∀ t ∈ S, ∃ f ∈ t.fields, f.StaysAmong S

variable {tables : List Table}

/-- What is found by a name is a table of that name. -/
theorem byName?_eq_some {name : String} {u : Table} (h : byName? tables name = some u) :
    u ∈ tables ∧ u.name = name := by
  unfold byName? at h
  have hname := List.find?_some h
  exact ⟨List.mem_of_find?_eq_some h, of_decide_eq_true hname⟩

/-- A table is found by its name among tables with different names. -/
theorem byName?_of_nodup (hn : (tables.map (·.name)).Nodup) {t : Table} (ht : t ∈ tables) :
    byName? tables t.name = some t := by
  have hfirst : t ∈ distinctFrom (·.name) [] tables := by
    rw [distinctFrom_of_nodup hn fun _ _ => List.not_mem_nil]
    exact ht
  exact find?_of_mem_distinctFrom hfirst

/-- Of tables with different names a field stays just when it stays among them. -/
theorem keepsField_iff (hn : (tables.map (·.name)).Nodup) {f : Field} :
    keepsField tables f = true ↔ f.StaysAmong {t | t ∈ tables} := by
  unfold keepsField Field.StaysAmong
  cases hr : f.tableRef with
  | none => simp
  | some name =>
    dsimp only
    constructor
    · intro h
      cases hu : byName? tables name with
      | none =>
        rw [hu] at h
        cases h
      | some u =>
        rw [hu] at h
        obtain ⟨hmem, hname⟩ := byName?_eq_some hu
        exact Or.inr ⟨u, hmem, congrArg some hname.symm, Field.isSome_joinColumn?_iff.mp h⟩
    · rintro (h | ⟨u, hu, hname, hcolumn⟩)
      · cases h
      · rw [Option.some.inj hname, byName?_of_nodup hn hu]
        exact Field.isSome_joinColumn?_iff.mpr hcolumn

/-- A round of thinning out loses no table of those that sustain each other. -/
theorem subset_thinned (hn : (tables.map (·.name)).Nodup) {S : Set Table} (hs : Sustained S)
    (h : S ⊆ {t | t ∈ tables}) : S ⊆ {t | t ∈ thinned tables} := by
  intro t ht
  obtain ⟨f, hf, hstays⟩ := hs t ht
  exact List.mem_filter.mpr
    ⟨h ht, List.any_eq_true.mpr ⟨f, hf, (keepsField_iff hn).mpr (hstays.mono h)⟩⟩

/-- Thinning out until nothing is lost loses no table of those that sustain each other. -/
theorem subset_settled (hn : (tables.map (·.name)).Nodup) {S : Set Table} (hs : Sustained S)
    (h : S ⊆ {t | t ∈ tables}) : S ⊆ {t | t ∈ settled tables} := by
  induction tables using settled.induct with
  | case1 tables hlt ih =>
    rw [settled, if_pos hlt]
    exact ih ((List.filter_sublist.map _).nodup hn) (subset_thinned hn hs h)
  | case2 tables hlt =>
    rw [settled, if_neg hlt]
    exact h

/-- The tables that can be shown sustain each other. -/
theorem sustained_exposable (tables : List Table) : Sustained {t | t ∈ exposable tables} := by
  intro t ht
  obtain ⟨f, hf, hkeeps⟩ := exists_keepsField_of_mem_exposable ht
  exact ⟨f, hf, (keepsField_iff (nodup_names_exposable tables)).mp hkeeps⟩

/-- The first tables of each name are those that are found by their name. -/
theorem mem_firstOfEach_iff {t : Table} :
    t ∈ firstOfEach tables ↔ byName? tables t.name = some t :=
  ⟨find?_of_mem_distinctFrom, mem_distinctFrom_of_find? List.not_mem_nil⟩

/-- The first table of each name is found by its name, and each name has one. Of these tables, in
their order, those that can be shown are the largest set in which the tables sustain each other. -/
theorem exposable_isGreatest (tables : List Table) :
    (firstOfEach tables).Sublist tables ∧ ((firstOfEach tables).map (·.name)).Nodup
      ∧ (∀ t, t ∈ firstOfEach tables ↔ byName? tables t.name = some t)
      ∧ (exposable tables).Sublist (firstOfEach tables)
      ∧ IsGreatest {S : Set Table | S ⊆ {t | t ∈ firstOfEach tables} ∧ Sustained S}
        {t | t ∈ exposable tables} := by
  have hnames : ((firstOfEach tables).map (·.name)).Nodup := nodup_map_distinctFrom _ _ _
  have hsub : (exposable tables).Sublist (firstOfEach tables) := settled_sublist _
  refine ⟨distinctFrom_sublist _ _ _, hnames, fun t => mem_firstOfEach_iff, hsub,
    ⟨hsub.subset, sustained_exposable tables⟩, ?_⟩
  rintro S ⟨hfirst, hs⟩
  exact subset_settled hnames hs hfirst

/-- A chain of tables that ends nowhere is not shown; two tables that refer to each other are. -/
example : (exposable [
    ⟨"A", "A", [], [(Field.plain "A" "B" .int).references "B" "ID"]⟩,
    ⟨"B", "B", [], [(Field.plain "B" "C" .int).references "C" "ID"]⟩,
    ⟨"D", "D", [], [(Field.plain "D" "E" .int).references "E" "ID"]⟩,
    ⟨"E", "E", [], [(Field.plain "E" "D" .int).references "D" "ID"]⟩]).map (·.name)
    = ["D", "E"] := by cbv

end Table

end TableGraph
