import TableGraph.Filter.Reading
import TableGraph.Proofs.Outcome

/-!
# Which filters are accepted

A filter is accepted when all its parts are. What an accepted filter is read as, part by part.
-/

namespace TableGraph.Filter

variable {s : Shape}

/-- What holds of a value whenever it holds of the filters below it holds of all values. -/
theorem nested_induction {P : Json → Prop}
    (step : ∀ j, (∀ ms, j = .obj ms → ∀ name, ∀ i ∈ Members.nested ms name, P i) → P j) (j : Json) :
    P j := by
  -- A filter below is found by name, and is smaller also when it stands alone in place of a list.
  induction hn : sizeOf j using Nat.strongRecOn generalizing j with
  | _ n ih =>
    subst hn
    refine step j ?_
    rintro ms rfl name i hi
    exact ih _ (Members.sizeOf_nested_lt hi) i rfl

/-- The column that is found is the one of the shape. -/
theorem column_eq_ok_iff {name : String} {f : Field} :
    column s name = .ok f ↔ s.column? name = some f := by
  unfold column
  cases s.column? name with
  | none => simp
  | some g => simp

/-- A column is found when the name stands for one. -/
theorem exists_column_iff {name : String} :
    (∃ f, column s name = .ok f) ↔ (s.column? name).isSome := by
  simp only [column_eq_ok_iff, Option.isSome_iff_exists]

/-- Conditions without values are read of a name that stands for a column, and of the items behind. -/
theorem namedConditions_cons_eq_ok_iff {c : Comparison} {j : Json} {items : List Json}
    {cs : List Condition} : namedConditions s c (j :: items) = .ok cs
      ↔ ∃ name f more, j = .str name ∧ s.column? name = some f
        ∧ namedConditions s c items = .ok more ∧ cs = ⟨c, f, none⟩ :: more := by
  constructor
  · intro h
    cases j with
    | str name =>
      rw [namedConditions] at h
      obtain ⟨f, hf, h⟩ := bind_eq_ok_iff.mp h
      obtain ⟨more, hmore, h⟩ := bind_eq_ok_iff.mp h
      exact ⟨name, f, more, rfl, column_eq_ok_iff.mp hf, hmore, (Except.ok.inj h).symm⟩
    | _ => cases h
  · rintro ⟨name, f, more, rfl, hf, hmore, rfl⟩
    rw [namedConditions]
    exact bind_eq_ok_iff.mpr ⟨f, column_eq_ok_iff.mpr hf, bind_eq_ok_iff.mpr ⟨more, hmore, rfl⟩⟩

/-- Conditions with values are read of a name that stands for a column, and of the names behind. -/
theorem valuedConditions_cons_eq_ok_iff {c : Comparison} {name : String} {v : Json}
    {values : List (String × Json)} {cs : List Condition} :
    valuedConditions s c ((name, v) :: values) = .ok cs
      ↔ ∃ f more, s.column? name = some f ∧ valuedConditions s c values = .ok more
        ∧ cs = ⟨c, f, if v.isNull then none else some v⟩ :: more := by
  rw [valuedConditions]
  constructor
  · intro h
    obtain ⟨f, hf, h⟩ := bind_eq_ok_iff.mp h
    obtain ⟨more, hmore, h⟩ := bind_eq_ok_iff.mp h
    exact ⟨f, more, column_eq_ok_iff.mp hf, hmore, (Except.ok.inj h).symm⟩
  · rintro ⟨f, more, hf, hmore, rfl⟩
    exact bind_eq_ok_iff.mpr ⟨f, column_eq_ok_iff.mpr hf, bind_eq_ok_iff.mpr ⟨more, hmore, rfl⟩⟩

/-- A list of names is accepted when all its items are names that stand for columns. -/
theorem exists_namedConditions_iff {c : Comparison} {items : List Json} :
    (∃ cs, namedConditions s c items = .ok cs)
      ↔ ∃ names : List String, items = names.map .str ∧ ∀ name ∈ names, (s.column? name).isSome := by
  induction items with
  | nil => exact ⟨fun _ => ⟨[], rfl, nofun⟩, fun _ => ⟨[], rfl⟩⟩
  | cons j items ih =>
    constructor
    · rintro ⟨cs, h⟩
      obtain ⟨name, f, more, rfl, hf, hmore, _⟩ := namedConditions_cons_eq_ok_iff.mp h
      obtain ⟨names, rfl, hnames⟩ := ih.mp ⟨more, hmore⟩
      have hname : (s.column? name).isSome := by simp [hf]
      exact ⟨name :: names, rfl, List.forall_mem_cons.mpr ⟨hname, hnames⟩⟩
    · rintro ⟨names, hitems, hnames⟩
      cases names with
      | nil => cases hitems
      | cons name names =>
        obtain ⟨rfl, rfl⟩ := List.cons.inj hitems
        rw [List.forall_mem_cons] at hnames
        obtain ⟨f, hf⟩ := Option.isSome_iff_exists.mp hnames.1
        obtain ⟨more, hmore⟩ := ih.mpr ⟨names, rfl, hnames.2⟩
        exact ⟨_, namedConditions_cons_eq_ok_iff.mpr ⟨name, f, more, rfl, hf, hmore, rfl⟩⟩

/-- Names with values are accepted when all names stand for columns. -/
theorem exists_valuedConditions_iff {c : Comparison} {values : List (String × Json)} :
    (∃ cs, valuedConditions s c values = .ok cs) ↔ ∀ m ∈ values, (s.column? m.1).isSome := by
  induction values with
  | nil => exact ⟨fun _ => nofun, fun _ => ⟨[], rfl⟩⟩
  | cons m values ih =>
    obtain ⟨name, v⟩ := m
    rw [List.forall_mem_cons, ← ih, Option.isSome_iff_exists]
    constructor
    · rintro ⟨cs, h⟩
      obtain ⟨f, more, hf, hmore, _⟩ := valuedConditions_cons_eq_ok_iff.mp h
      exact ⟨⟨f, hf⟩, more, hmore⟩
    · rintro ⟨⟨f, hf⟩, more, hmore⟩
      exact ⟨_, valuedConditions_cons_eq_ok_iff.mpr ⟨f, more, hf, hmore, rfl⟩⟩

/-- A column that is found is one of the table. -/
theorem mem_fields_of_column? {name : String} {f : Field} (h : s.column? name = some f) :
    f ∈ s.table.fields := by
  obtain ⟨column, _, hf⟩ := Option.bind_eq_some_iff.mp h
  exact List.mem_of_find?_eq_some hf

/-- The column that must have no value is one of the table. -/
theorem mem_fields_of_missing {v : Option Json} {f : Field} (h : missing s v = .ok (some f)) :
    f ∈ s.table.fields := by
  cases v with
  | none => cases h
  | some j =>
    cases j with
    | str name =>
      obtain ⟨g, hg, h⟩ := bind_eq_ok_iff.mp h
      cases h
      exact mem_fields_of_column? (column_eq_ok_iff.mp hg)
    | null => cases h
    | bool b => cases h
    | num n => cases h
    | arr items => cases h
    | obj members => cases h

/-- The members that are no comparisons have other words. -/
theorem ofKey?_of_mem_combinations {key : String} (h : key ∈ combinations) :
    Comparison.ofKey? key = none := by
  simp only [combinations, List.mem_cons, List.not_mem_nil, or_false] at h
  rcases h with rfl | rfl | rfl | rfl <;> rfl

/-- The conditions of one more member are accepted when it is no comparison, or those under the
comparison are. -/
theorem groups_cons_eq_ok_iff {key : String} {v : Json} {ms : List (String × Json)}
    {gs : List (List Condition)} :
    groups s ((key, v) :: ms) = .ok gs ↔
      key ∈ combinations ∧ groups s ms = .ok gs
        ∨ key ∉ combinations ∧ ∃ c group more, Comparison.ofKey? key = some c
          ∧ conditions s c v = .ok group ∧ groups s ms = .ok more ∧ gs = group :: more := by
  rw [groups]
  by_cases hk : key ∈ combinations
  · rw [if_pos hk]
    exact ⟨fun h => Or.inl ⟨hk, h⟩, fun h => h.elim (fun h => h.2) fun h => absurd hk h.1⟩
  · rw [if_neg hk]
    constructor
    · intro h
      cases hc : Comparison.ofKey? key with
      | none =>
        rw [hc] at h
        cases h
      | some c =>
        rw [hc] at h
        obtain ⟨group, hgroup, h⟩ := bind_eq_ok_iff.mp h
        obtain ⟨more, hmore, h⟩ := bind_eq_ok_iff.mp h
        exact Or.inr ⟨hk, c, group, more, rfl, hgroup, hmore, (Except.ok.inj h).symm⟩
    · rintro (⟨hk', _⟩ | ⟨_, c, group, more, hc, hgroup, hmore, rfl⟩)
      · exact absurd hk' hk
      · rw [hc]
        exact bind_eq_ok_iff.mpr ⟨group, hgroup, bind_eq_ok_iff.mpr ⟨more, hmore, rfl⟩⟩

/-- A filter is read of nothing, or of an object. -/
theorem null_or_obj_of_ofJson {j : Json} {f : Filter} (h : ofJson s j = .ok f) :
    j = .null ∧ f = empty ∨ ∃ ms, j = .obj ms := by
  cases j with
  | null =>
    rw [ofJson] at h
    exact Or.inl ⟨rfl, (Except.ok.inj h).symm⟩
  | obj ms => exact Or.inr ⟨ms, rfl⟩
  | _ => simp [ofJson] at h

/-- An object is accepted when its conditions are, the column that has no value and the filters
below it. -/
theorem ofJson_obj_eq_ok_iff {ms : Members Json} {f : Filter} :
    ofJson s (.obj ms) = .ok f ↔ ∃ gs m noneOf anyOf allOf, groups s ms = .ok gs
      ∧ missing s (Members.get? ms "isNull") = .ok m
      ∧ List.Forall₂ (fun j g => ofJson s j = .ok g) (Members.nested ms "not") noneOf
      ∧ List.Forall₂ (fun j g => ofJson s j = .ok g) (Members.nested ms "or") anyOf
      ∧ List.Forall₂ (fun j g => ofJson s j = .ok g) (Members.nested ms "and") allOf
      ∧ f = .node gs m noneOf anyOf allOf := by
  rw [ofJson]
  constructor
  · intro h
    obtain ⟨gs, hg, h⟩ := bind_eq_ok_iff.mp h
    obtain ⟨m, hm, h⟩ := bind_eq_ok_iff.mp h
    obtain ⟨noneOf, hnone, h⟩ := bind_eq_ok_iff.mp h
    obtain ⟨anyOf, hany, h⟩ := bind_eq_ok_iff.mp h
    obtain ⟨allOf, hall, h⟩ := bind_eq_ok_iff.mp h
    exact ⟨gs, m, noneOf, anyOf, allOf, hg, hm, mapM_attach_eq_ok_iff.mp hnone,
      mapM_attach_eq_ok_iff.mp hany, mapM_attach_eq_ok_iff.mp hall, (Except.ok.inj h).symm⟩
  · rintro ⟨gs, m, noneOf, anyOf, allOf, hg, hm, hnone, hany, hall, rfl⟩
    refine bind_eq_ok_iff.mpr ⟨gs, hg, bind_eq_ok_iff.mpr ⟨m, hm, ?_⟩⟩
    refine bind_eq_ok_iff.mpr ⟨noneOf, mapM_attach_eq_ok_iff.mpr hnone, ?_⟩
    refine bind_eq_ok_iff.mpr ⟨anyOf, mapM_attach_eq_ok_iff.mpr hany, ?_⟩
    exact bind_eq_ok_iff.mpr ⟨allOf, mapM_attach_eq_ok_iff.mpr hall, rfl⟩

/-- An object is accepted when its comparisons are, the column that has no value and each filter
below it. -/
theorem exists_ofJson_obj_iff {ms : Members Json} :
    (∃ f, ofJson s (.obj ms) = .ok f) ↔ (∃ gs, groups s ms = .ok gs)
      ∧ (∃ m, missing s (Members.get? ms "isNull") = .ok m)
      ∧ ∀ name ∈ ["not", "or", "and"], ∀ j ∈ Members.nested ms name, ∃ f, ofJson s j = .ok f := by
  rw [List.forall_mem_cons, List.forall_mem_cons, List.forall_mem_singleton,
    ← exists_forall₂_iff, ← exists_forall₂_iff, ← exists_forall₂_iff]
  constructor
  · rintro ⟨f, hf⟩
    obtain ⟨gs, m, noneOf, anyOf, allOf, hgs, hm, hnone, hany, hall, _⟩ :=
      ofJson_obj_eq_ok_iff.mp hf
    exact ⟨⟨gs, hgs⟩, ⟨m, hm⟩, ⟨noneOf, hnone⟩, ⟨anyOf, hany⟩, allOf, hall⟩
  · rintro ⟨⟨gs, hgs⟩, ⟨m, hm⟩, ⟨noneOf, hnone⟩, ⟨anyOf, hany⟩, allOf, hall⟩
    exact ⟨_, ofJson_obj_eq_ok_iff.mpr ⟨gs, m, noneOf, anyOf, allOf, hgs, hm, hnone, hany, hall, rfl⟩⟩

end TableGraph.Filter
