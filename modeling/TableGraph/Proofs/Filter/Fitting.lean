import TableGraph.Proofs.Filter.Leaves
import TableGraph.Proofs.Listing
import TableGraph.Proofs.Members
import TableGraph.Proofs.Sql.Conditions

/-!
# Members that a filter can be read from

What each member of a filter may hold so that the filter is accepted and says what it was asked for:
comparisons with columns of the table and values that have a literal, one column that has no value or
is empty, and filters. A filter of such members is read, and its conditions are those it asks for,
each once.
-/

namespace TableGraph

/-- What the member of a name stands for, if there is one, found among all members. -/
theorem Members.flatMap_ite_name {α β : Type} {ms : Members α} (hn : (names ms).Nodup)
    (name : String) (f : α → List β) :
    (ms.flatMap fun m => if m.1 = name then f m.2 else []) = ((get? ms name).map f).getD [] := by
  cases hget : get? ms name with
  | none =>
    rw [List.flatMap_eq_nil_iff.mpr]
    · rfl
    · intro m hm
      have hname : m.1 ∈ names ms := List.mem_map_of_mem hm
      exact if_neg fun he : m.1 = name => get?_eq_none_iff.mp hget (he ▸ hname)
  | some v => exact flatMap_ite_key Prod.fst (fun m => f m.2) hn (mem_of_get? hget)

end TableGraph

namespace TableGraph.Filter

open Formula

/-- The members of a filter. -/
def filterKeys : List String := valued.map (·.key) ++ ["isNull", "isEmpty"] ++ combined

/-- A member of a filter can be read when the filters below it can. -/
inductive Fits (s : Shape) (below : Json → Prop) : String → Json → Prop
  /-- Nothing is asked for. -/
  | nothing {key : String} (hk : key ∈ filterKeys) : Fits s below key .null
  /-- Columns are compared with values. -/
  | compared {c : Comparison} (hc : c ∈ valued) {values : List (String × Json)}
    (h : ∀ m ∈ values, (s.column? m.1).isSome
      ∧ (m.2 = .null ∨ (Postgres.literal? m.2).isSome)) : Fits s below c.key (.obj values)
  /-- A column has no value. -/
  | missing {name : String} (h : (s.column? name).isSome) : Fits s below "isNull" (.str name)
  /-- A column is empty. -/
  | empty {name : String} (h : (s.column? name).isSome) : Fits s below "isEmpty" (.str name)
  /-- There are filters. -/
  | nested {key : String} (hk : key ∈ combined) {v : Json} (h : below v) : Fits s below key v

variable {s : Shape} {below : Json → Prop} {ms : List (String × Json)}

/-- A member that fits is no comparison, or its comparisons are read. -/
theorem Fits.conditions {key : String} {v : Json} (h : Fits s below key v)
    (hk : key ∉ combinations) :
    ∃ c group, Comparison.ofKey? key = some c ∧ conditions s c v = .ok group := by
  cases h with
  | nothing hkey =>
    have hall : ∀ key ∈ filterKeys, key ∉ combinations → (Comparison.ofKey? key).isSome := by decide
    obtain ⟨c, hc⟩ := Option.isSome_iff_exists.mp (hall key hkey hk)
    exact ⟨c, [], hc, rfl⟩
  | @compared c hc values h =>
    have hall : ∀ c ∈ valued, Comparison.ofKey? c.key = some c := by decide
    obtain ⟨cs, hcs⟩ := exists_valuedConditions_iff.mpr fun m hm => (h m hm).1
    exact ⟨c, cs, hall c hc, hcs⟩
  | missing h => exact absurd (by decide) hk
  | @empty name h =>
    obtain ⟨f, hf⟩ := exists_column_iff.mpr h
    exact ⟨.isEmpty, _, rfl, bind_eq_ok_iff.mpr ⟨f, hf, rfl⟩⟩
  | nested hkey h => exact absurd (mem_combinations_of_mem_combined hkey) hk

/-- The comparisons of members that fit are read. -/
theorem exists_groups (h : ∀ m ∈ ms, Fits s below m.1 m.2) : ∃ gs, groups s ms = .ok gs := by
  induction ms with
  | nil => exact ⟨[], rfl⟩
  | cons m ms ih =>
    obtain ⟨key, v⟩ := m
    rw [List.forall_mem_cons] at h
    obtain ⟨gs, hgs⟩ := ih h.2
    by_cases hk : key ∈ combinations
    · exact ⟨gs, groups_cons_eq_ok_iff.mpr (Or.inl ⟨hk, hgs⟩)⟩
    · obtain ⟨c, group, hc, hgroup⟩ := h.1.conditions hk
      exact ⟨_, groups_cons_eq_ok_iff.mpr (Or.inr ⟨hk, c, group, gs, hc, hgroup, hgs, rfl⟩)⟩

/-- The column that has no value is read. -/
theorem exists_missing (h : ∀ m ∈ ms, Fits s below m.1 m.2) :
    ∃ f, missing s (Members.get? ms "isNull") = .ok f := by
  cases hget : Members.get? ms "isNull" with
  | none => exact ⟨none, rfl⟩
  | some v =>
    have hfits := h _ (Members.mem_of_get? hget)
    generalize hkey : "isNull" = key at hfits
    cases hfits with
    | nothing => exact ⟨none, rfl⟩
    | missing h =>
      obtain ⟨f, hf⟩ := exists_column_iff.mpr h
      exact ⟨some f, bind_eq_ok_iff.mpr ⟨f, hf, rfl⟩⟩
    | @compared c hc =>
      have hall : ∀ c ∈ valued, "isNull" ≠ c.key := by decide
      exact absurd hkey (hall c hc)
    | empty => exact absurd hkey (by decide)
    | nested hk =>
      have hno : "isNull" ∉ combined := by decide
      exact absurd (hkey ▸ hk) hno

/-- A comparison without a value says nothing. -/
theorem condition_none {c : Comparison} (hc : c ∈ valued) (table : String) (f : Field) :
    Postgres.condition c table f none = "" := by
  have hne : c ≠ .isEmpty := by
    rintro rfl
    revert hc
    decide
  exact if_neg hne

/-- The test for the empty text, and a comparison with a value that has a literal, say something. -/
theorem condition_ne_empty {c : Comparison} {v : Option Json}
    (h : c = .isEmpty ∨ (v.bind Postgres.literal?).isSome) (table : String) (f : Field) :
    Postgres.condition c table f v ≠ "" := by
  unfold Postgres.condition
  dsimp only
  by_cases hc : c = .isEmpty
  · rw [if_pos hc]
    exact Postgres.compare_ne_empty _ _ _
  · obtain ⟨l, hl⟩ := Option.isSome_iff_exists.mp (h.resolve_left hc)
    rw [if_neg hc, hl]
    exact Postgres.compare_ne_empty _ _ _

section

variable (base table : String)

/-- Comparisons that say something are those with values. -/
theorem spoken_compared {c : Comparison} (hc : c ∈ valued) {values : List (String × Json)}
    (h : ∀ m ∈ values, (s.column? m.1).isSome ∧ (m.2 = .null ∨ (Postgres.literal? m.2).isSome)) :
    spoken ((compared (.obj values)).filterMap fun x =>
        (s.column? x.1).map fun f => (Postgres.dialect base).condition c table f x.2)
      = (values.filterMap fun m =>
          if m.2.isNull then none else some (Leaf.compared c m.1 (some m.2))).filterMap
        (Leaf.text? (Postgres.dialect base) s table) := by
  induction values with
  | nil => rfl
  | cons m values ih =>
    obtain ⟨name, v⟩ := m
    rw [List.forall_mem_cons] at h
    obtain ⟨⟨hcolumn, hv⟩, hrest⟩ := h
    obtain ⟨f, hf⟩ := Option.isSome_iff_exists.mp hcolumn
    have hih := ih hrest
    dsimp only at hf hv
    simp only [compared, List.map_cons, List.filterMap_cons, hf, Option.map_some] at hih ⊢
    by_cases hnull : v.isNull = true
    · have hnone : (Postgres.dialect base).condition c table f none = "" :=
        condition_none hc table f
      rw [if_pos hnull, if_pos hnull, spoken, hnone, List.filter_cons_of_neg (by decide)]
      exact hih
    · have hliteral : (Postgres.literal? v).isSome := by
        rcases hv with rfl | hv
        · exact absurd rfl hnull
        · exact hv
      have hne : (Postgres.dialect base).condition c table f (some v) ≠ "" :=
        condition_ne_empty (v := some v) (Or.inr hliteral) table f
      rw [if_neg hnull, if_neg hnull, spoken, List.filter_cons_of_pos (by simpa using hne)]
      simp only [List.filterMap_cons, Leaf.text?, Leaf.column?, Leaf.textAbout, hf, Option.map_some]
      exact congrArg _ hih

/-- The texts of the conditions that a value asks for. -/
def leafTexts (d : Dialect) (s : Shape) (table : String) (j : Json) : List String :=
  (leaves j).filterMap (Leaf.text? d s table)

/-- What a member that fits asks for: what is read as comparisons, as a column without a value, and
as filters. -/
theorem Fits.leafTexts {key : String} {v : Json} (h : Fits s below key v) :
    (if key ∈ combined then leaves v else ownLeaves key v).filterMap
        (Leaf.text? (Postgres.dialect base) s table)
      = memberAtoms (Postgres.dialect base) s table key v
        ++ (if key = "isNull" then missingAtoms (Postgres.dialect base) s table (some v) else [])
        ++ (if key = "not" then leafTexts (Postgres.dialect base) s table v else [])
        ++ (if key = "or" then leafTexts (Postgres.dialect base) s table v else [])
        ++ (if key = "and" then leafTexts (Postgres.dialect base) s table v else []) := by
  cases h with
  | nothing hk =>
    have hatoms : memberAtoms (Postgres.dialect base) s table key .null = [] := by
      unfold memberAtoms
      split <;> rfl
    simp [hatoms, leaves, ownLeaves, missingAtoms, Filter.leafTexts]
  | @compared c hc values h =>
    have hall : ∀ c ∈ valued, c.key ∉ combined ∧ c.key ≠ "isNull" ∧ c.key ≠ "not" ∧ c.key ≠ "or"
        ∧ c.key ≠ "and" ∧ Comparison.ofKey? c.key = some c
        ∧ (valued.filter fun c' => c'.key = c.key) = [c] := by decide
    obtain ⟨hcombined, hmissing, hnot, hor, hand, hkey, hown⟩ := hall c hc
    rw [if_neg hcombined, if_neg hmissing, if_neg hnot, if_neg hor, if_neg hand, ownLeaves, hown,
      List.flatMap_singleton, memberAtoms, hkey, ← spoken_compared base table hc h]
    simp only [List.append_nil]
  | @missing name h =>
    obtain ⟨f, hf⟩ := Option.isSome_iff_exists.mp h
    have hkey : Comparison.ofKey? "isNull" = none := rfl
    simp [memberAtoms, hkey, missingAtoms, ownLeaves, combined, Leaf.text?, Leaf.column?,
      Leaf.textAbout, hf]
  | @empty name h =>
    obtain ⟨f, hf⟩ := Option.isSome_iff_exists.mp h
    have hkey : Comparison.ofKey? "isEmpty" = some .isEmpty := rfl
    have hne : (Postgres.dialect base).condition .isEmpty table f none ≠ "" :=
      condition_ne_empty (v := none) (Or.inl rfl) table f
    simp [memberAtoms, hkey, ownLeaves, combined, Leaf.text?, Leaf.column?, Leaf.textAbout, hf,
      Filter.compared, spoken, hne]
  | nested hk h =>
    have hkey := ofKey?_of_mem_combinations (mem_combinations_of_mem_combined hk)
    have hatoms : memberAtoms (Postgres.dialect base) s table key v = [] := by
      rw [memberAtoms, hkey]
    rw [if_pos hk, hatoms]
    simp only [combined, List.mem_cons, List.not_mem_nil, or_false] at hk
    rcases hk with rfl | rfl | rfl <;> simp [Filter.leafTexts]

/-- What the filters under a name ask for. -/
theorem flatMap_leafTexts_nested (d : Dialect) (ms : Members Json) (name : String) :
    (Members.nested ms name).flatMap (leafTexts d s table)
      = ((Members.get? ms name).map (leafTexts d s table)).getD [] := by
  have h := congrArg (List.filterMap (Leaf.text? d s table)) (flatMap_leaves_nested ms name)
  rw [List.filterMap_flatMap] at h
  refine h.trans ?_
  cases Members.get? ms name <;> rfl

/-- A filter of members that fit asks for its comparisons, its column without a value and its
filters. -/
theorem leafTexts_obj_perm {ms : Members Json} (hn : (Members.names ms).Nodup)
    (h : ∀ m ∈ ms, Fits s below m.1 m.2) :
    (leafTexts (Postgres.dialect base) s table (.obj ms)).Perm
      ((ms.flatMap fun m => memberAtoms (Postgres.dialect base) s table m.1 m.2)
        ++ missingAtoms (Postgres.dialect base) s table (Members.get? ms "isNull")
        ++ (Members.nested ms "not").flatMap (leafTexts (Postgres.dialect base) s table)
        ++ (Members.nested ms "or").flatMap (leafTexts (Postgres.dialect base) s table)
        ++ (Members.nested ms "and").flatMap (leafTexts (Postgres.dialect base) s table)) := by
  have hmembers : leafTexts (Postgres.dialect base) s table (.obj ms) = ms.flatMap fun m =>
      (if m.1 ∈ combined then leaves m.2 else ownLeaves m.1 m.2).filterMap
        (Leaf.text? (Postgres.dialect base) s table) := by
    rw [leafTexts, leaves, memberLeaves_eq_flatMap, List.filterMap_flatMap]
  rw [hmembers, List.flatMap_congr fun m hm => (h m hm).leafTexts base table]
  have hmissing : ((Members.get? ms "isNull").map fun v =>
        missingAtoms (Postgres.dialect base) s table (some v)).getD []
      = missingAtoms (Postgres.dialect base) s table (Members.get? ms "isNull") := by
    cases Members.get? ms "isNull" <;> rfl
  rw [flatMap_leafTexts_nested, flatMap_leafTexts_nested, flatMap_leafTexts_nested, ← hmissing,
    ← Members.flatMap_ite_name hn, ← Members.flatMap_ite_name hn, ← Members.flatMap_ite_name hn,
    ← Members.flatMap_ite_name hn]
  -- What is gathered kind by kind from all members is also there member by member.
  refine List.Perm.symm ?_
  refine (List.Perm.append_right _ ?_).trans (List.flatMap_append_perm _ _ _)
  refine (List.Perm.append_right _ ?_).trans (List.flatMap_append_perm _ _ _)
  refine (List.Perm.append_right _ ?_).trans (List.flatMap_append_perm _ _ _)
  exact List.flatMap_append_perm _ _ _

/-- A condition has a text that says something. -/
def Leaf.Said (d : Dialect) (s : Shape) (table : String) (l : Leaf) (text : String) : Prop :=
  l.text? d s table = some text ∧ text ≠ ""

/-- What a member without filters asks for has a text. -/
theorem Fits.exists_said {key : String} {v : Json} (h : Fits s below key v) (hk : key ∉ combined)
    {l : Leaf} (hl : l ∈ ownLeaves key v) :
    ∃ text, l.Said (Postgres.dialect base) s table text := by
  cases h with
  | nothing => cases hl
  | @compared c hc values h =>
    obtain ⟨c', hc', hl⟩ := List.mem_flatMap.mp hl
    obtain ⟨m, hm, hl⟩ := List.mem_filterMap.mp hl
    obtain ⟨hcolumn, hv⟩ := h m hm
    obtain ⟨f, hf⟩ := Option.isSome_iff_exists.mp hcolumn
    rw [Option.ite_none_left_eq_some, Option.some.injEq] at hl
    obtain ⟨hnull, rfl⟩ := hl
    have hliteral : (Postgres.literal? m.2).isSome := by
      refine hv.resolve_left fun he => hnull ?_
      rw [he]
      rfl
    exact ⟨_, by rw [Leaf.text?, Leaf.column?, hf]; rfl,
      condition_ne_empty (v := some m.2) (Or.inr hliteral) table f⟩
  | @missing name h =>
    obtain ⟨f, hf⟩ := Option.isSome_iff_exists.mp h
    rw [ownLeaves, if_pos rfl, List.mem_singleton] at hl
    subst hl
    refine ⟨_, by rw [Leaf.text?, Leaf.column?, hf]; rfl, ?_⟩
    intro he
    have hnull := (String.append_eq_empty_iff.mp he).2
    revert hnull
    decide
  | @empty name h =>
    obtain ⟨f, hf⟩ := Option.isSome_iff_exists.mp h
    have hne : "isEmpty" ≠ "isNull" := by decide
    rw [ownLeaves, if_neg hne, if_pos rfl, List.mem_singleton] at hl
    subst hl
    exact ⟨_, by rw [Leaf.text?, Leaf.column?, hf]; rfl,
      condition_ne_empty (v := none) (Or.inl rfl) table f⟩
  | nested hkey => exact absurd hkey hk

end

/-- What a member with filters holds: nothing, filters, or a single filter. -/
def ListOf (P : Json → Prop) (v : Json) : Prop :=
  v = .null ∨ (∃ js, v = .arr js ∧ ∀ j ∈ js, P j) ∨ (v ≠ .null ∧ (∀ js, v ≠ .arr js) ∧ P v)

section

variable {P : Json → Prop}

/-- The filters below members that fit are filters. -/
theorem nested_of_fits {ms : Members Json} (h : ∀ m ∈ ms, Fits s (ListOf P) m.1 m.2) {name : String}
    (hk : name ∈ combined) {j : Json} (hj : j ∈ Members.nested ms name) : P j := by
  obtain ⟨v, hget, hmem⟩ := mem_nested_iff.mp hj
  have hfits := h _ (Members.mem_of_get? hget)
  have hlist : ListOf P v := by
    cases hfits with
    | nothing => exact Or.inl rfl
    | nested _ hv => exact hv
    | @compared c hc =>
      have hall : ∀ c ∈ valued, c.key ∉ combined := by decide
      exact absurd hk (hall c hc)
    | missing => exact absurd hk (by decide)
    | empty => exact absurd hk (by decide)
  rcases hmem with ⟨js, rfl, hmem⟩ | ⟨rfl, hnull, harr⟩
  · rcases hlist with he | ⟨_, ⟨rfl⟩, hjs⟩ | ⟨_, harr, _⟩
    · cases he
    · exact hjs j hmem
    · exact absurd rfl (harr js)
  · rcases hlist with he | ⟨js, he, _⟩ | ⟨_, _, hv⟩
    · exact absurd he hnull
    · exact absurd he (harr js)
    · exact hv

/-- Filters that are read one by one, each with the conditions it asks for. -/
theorem exists_items {d : Dialect} {table : String} {js : List Json}
    (h : ∀ j ∈ js, ∃ f, ofJson s j = .ok f ∧ (f.atoms d table).Perm (leafTexts d s table j)) :
    ∃ fs, List.Forall₂ (fun j f => ofJson s j = .ok f) js fs
      ∧ (itemAtoms d table fs).Perm (js.flatMap (leafTexts d s table)) := by
  induction js with
  | nil => exact ⟨[], .nil, List.Perm.refl _⟩
  | cons j js ih =>
    rw [List.forall_mem_cons] at h
    obtain ⟨f, hf, hperm⟩ := h.1
    obtain ⟨fs, hfs, hrest⟩ := ih h.2
    refine ⟨f :: fs, .cons hf hfs, ?_⟩
    rw [itemAtoms, List.flatMap_cons]
    exact hperm.append hrest

/-- A filter whose members fit at every level is read, and its conditions are those it asks for, each
once. -/
theorem exists_filter (hP : ∀ j, P j → j = .null ∨ ∃ ms, j = .obj ms ∧ (Members.names ms).Nodup
      ∧ ∀ m ∈ ms, Fits s (ListOf P) m.1 m.2) (base table : String) {j : Json} (hj : P j) :
    ∃ f, ofJson s j = .ok f
      ∧ (f.atoms (Postgres.dialect base) table).Perm (leafTexts (Postgres.dialect base) s table j) := by
  induction j using nested_induction with
  | step j ih =>
    rcases hP j hj with rfl | ⟨ms, rfl, hn, hfits⟩
    · exact ⟨empty, by rw [ofJson], List.Perm.refl _⟩
    · have hitems : ∀ name ∈ combined, ∃ fs,
          List.Forall₂ (fun j f => ofJson s j = .ok f) (Members.nested ms name) fs
            ∧ (itemAtoms (Postgres.dialect base) table fs).Perm ((Members.nested ms name).flatMap
              (leafTexts (Postgres.dialect base) s table)) := fun name hk =>
        exists_items fun j hj =>
          ih ms rfl name j hj (nested_of_fits hfits hk hj)
      obtain ⟨gs, hgs⟩ := exists_groups hfits
      obtain ⟨m, hm⟩ := exists_missing hfits
      obtain ⟨noneOf, hnone, hnonePerm⟩ := hitems "not" (by decide)
      obtain ⟨anyOf, hany, hanyPerm⟩ := hitems "or" (by decide)
      obtain ⟨allOf, hall, hallPerm⟩ := hitems "and" (by decide)
      refine ⟨.node gs m noneOf anyOf allOf,
        ofJson_obj_eq_ok_iff.mpr ⟨gs, m, noneOf, anyOf, allOf, hgs, hm, hnone, hany, hall, rfl⟩, ?_⟩
      rw [atoms, groups_atoms hgs, missing_atoms hm]
      exact (((hnonePerm.append_left _).append hanyPerm).append hallPerm).trans
        (leafTexts_obj_perm base table hn hfits).symm

/-- Every condition that a filter asks for has a text. -/
theorem exists_said (hP : ∀ j, P j → j = .null ∨ ∃ ms, j = .obj ms ∧ (Members.names ms).Nodup
      ∧ ∀ m ∈ ms, Fits s (ListOf P) m.1 m.2) (base table : String) {j : Json} (hj : P j) {l : Leaf}
    (hl : l ∈ leaves j) : ∃ text, l.Said (Postgres.dialect base) s table text := by
  induction j using nested_induction with
  | step j ih =>
    rcases hP j hj with rfl | ⟨ms, rfl, hn, hfits⟩
    · cases hl
    · rw [leaves, memberLeaves_eq_flatMap] at hl
      obtain ⟨m, hm, hl⟩ := List.mem_flatMap.mp hl
      by_cases hk : m.1 ∈ combined
      · rw [if_pos hk] at hl
        have hnested := flatMap_leaves_nested ms m.1
        rw [Members.get?_of_mem hn hm] at hnested
        have hmem : l ∈ (Members.nested ms m.1).flatMap leaves := hnested ▸ hl
        obtain ⟨i, hi, hl⟩ := List.mem_flatMap.mp hmem
        exact ih ms rfl m.1 i hi (nested_of_fits hfits hk hi) hl
      · rw [if_neg hk] at hl
        exact (hfits m hm).exists_said base table hk hl

end

end TableGraph.Filter
