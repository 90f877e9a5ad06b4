import Mathlib.Data.List.Dedup
import TableGraph.Proofs.Members
import TableGraph.Proofs.Name.Fresh
import TableGraph.Proofs.Name.Valid

/-!
# Names of a scope keep apart

Every name of a scope has an escaped form, and different names have different forms. A form is
either the name itself or no name of the scope, so a form handed out early cannot meet a name that
comes later. So the names of a scope and their forms stand for each other, one for one.
-/

namespace TableGraph.Name.Scope

variable {all names : List String} {scope : Scope} {name other form : String}

/-- The form picked for a text that is no name is free. -/
theorem pick_not_mem_of_not_isValid (h : isValid name = false) (all issued : List String) :
    pick all issued name ∉ all ++ issued := by
  unfold pick
  rw [h, if_neg Bool.false_ne_true]
  exact firstFree_not_mem (substitute_injective h) (all ++ issued)

/-- A name keeps its text, or its form is neither a name of the scope nor handed out before. -/
theorem pick_cases (all issued : List String) (name : String) :
    pick all issued name = name ∨ pick all issued name ∉ all ++ issued := by
  cases hv : isValid name with
  | true => exact Or.inl (if_pos hv)
  | false => exact Or.inr (pick_not_mem_of_not_isValid hv all issued)

/-- A name that is there already is not added. -/
theorem add_of_some (h : scope.escaped? name = some form) : scope.add all name = scope := by
  have hentered : Members.get? scope.entries name = some form := h
  rw [add, hentered, if_pos Option.isSome_some]

/-- A name that is not there yet is added with the form picked for it. -/
theorem add_of_none (h : scope.escaped? name = none) :
    scope.add all name = ⟨scope.entries ++ [(name, pick all scope.issued name)]⟩ := by
  have hentered : Members.get? scope.entries name = none := h
  have hsome : ¬(none : Option String).isSome = true := by simp
  rw [add, hentered, if_neg hsome]
  rfl

/-- A scope in which the names are kept apart. -/
structure Sound (all : List String) (scope : Scope) : Prop where
  /-- A form is the name itself or no name of the scope. -/
  form : ∀ e ∈ scope.entries, e.2 = e.1 ∨ e.2 ∉ all
  /-- No form is handed out twice. -/
  apart : (Members.values scope.entries).Nodup

/-- Adding a name keeps the names apart. -/
theorem Sound.add (h : Sound all scope) (hn : name ∈ all) : Sound all (scope.add all name) := by
  cases hk : scope.escaped? name with
  | some form =>
    rw [add_of_some hk]
    exact h
  | none =>
    rw [add_of_none hk]
    have hpick := pick_cases all scope.issued name
    have hnew : pick all scope.issued name ∉ scope.issued := by
      rcases hpick with hsame | hfree
      · rw [hsame]
        intro hmem
        obtain ⟨e, he, hform⟩ := List.mem_map.mp hmem
        rcases h.form e he with hown | hforeign
        · have hkey : name ∈ Members.names scope.entries :=
            List.mem_map.mpr ⟨e, he, hown.symm.trans hform⟩
          exact Members.get?_eq_none_iff.mp hk hkey
        · exact hforeign (hform ▸ hn)
      · exact fun hmem => hfree (List.mem_append_right _ hmem)
    refine ⟨?_, ?_⟩
    · intro e he
      rcases List.mem_append.mp he with he | he
      · exact h.form e he
      · rw [List.mem_singleton.mp he]
        exact hpick.imp_right fun hfree hmem => hfree (List.mem_append_left _ hmem)
    · have hvalues : Members.values
            (scope.entries ++ [(name, pick all scope.issued name)])
          = scope.issued ++ [pick all scope.issued name] := Members.values_append _ _
      rw [hvalues, List.nodup_append]
      refine ⟨h.apart, List.nodup_singleton _, ?_⟩
      rintro a ha b hb rfl
      exact hnew (List.mem_singleton.mp hb ▸ ha)

/-- Adding a name does not enter it twice. -/
theorem nodup_names_add (all : List String) (h : (Members.names scope.entries).Nodup)
    (name : String) : (Members.names (scope.add all name).entries).Nodup := by
  cases hk : scope.escaped? name with
  | some form =>
    rw [add_of_some hk]
    exact h
  | none =>
    rw [add_of_none hk, Members.names_append, List.nodup_append]
    refine ⟨h, List.nodup_singleton _, ?_⟩
    rintro a ha b hb rfl
    rw [List.mem_singleton.mp hb] at ha
    exact Members.get?_eq_none_iff.mp hk ha

/-- A name that is not there yet has the form picked for it. -/
theorem escaped?_add_of_none (h : scope.escaped? name = none) :
    (scope.add all name).escaped? name = some (pick all scope.issued name) := by
  have hentered : Members.get? scope.entries name = none := h
  simp [add_of_none h, escaped?, hentered]

/-- A name that is added has a form. -/
theorem exists_escaped?_add (all : List String) (scope : Scope) (name : String) :
    ∃ form, (scope.add all name).escaped? name = some form := by
  cases hk : scope.escaped? name with
  | some form =>
    refine ⟨form, ?_⟩
    rw [add_of_some hk, hk]
  | none => exact ⟨_, escaped?_add_of_none hk⟩

/-- A name keeps its form when others are added. -/
theorem escaped?_add_of_some (h : scope.escaped? other = some form) :
    (scope.add all name).escaped? other = some form := by
  cases hk : scope.escaped? name with
  | some own =>
    rw [add_of_some hk]
    exact h
  | none =>
    have hentered : Members.get? scope.entries other = some form := h
    simp [add_of_none hk, escaped?, hentered]

/-- Adding a name enters no other one. -/
theorem mem_names_add (h : other ∈ Members.names (scope.add all name).entries) :
    other ∈ Members.names scope.entries ∨ other = name := by
  cases hk : scope.escaped? name with
  | some own =>
    rw [add_of_some hk] at h
    exact Or.inl h
  | none =>
    rw [add_of_none hk, Members.names_append, List.mem_append] at h
    exact h.imp_right List.mem_singleton.mp

/-- A scope whose forms have been picked for their names. -/
def Picked (all : List String) (scope : Scope) : Prop :=
  ∀ e ∈ scope.entries, ∃ issued, e.2 = pick all issued e.1

/-- Adding a name picks a form for it. -/
theorem Picked.add (h : Picked all scope) (name : String) : Picked all (scope.add all name) := by
  cases hk : scope.escaped? name with
  | some form =>
    rw [add_of_some hk]
    exact h
  | none =>
    rw [add_of_none hk]
    intro e he
    rcases List.mem_append.mp he with he | he
    · exact h e he
    · rw [List.mem_singleton.mp he]
      exact ⟨_, rfl⟩

section

variable {added : List String}

/-- Adding names of the scope keeps the names apart. -/
theorem Sound.foldl_add (hsub : added ⊆ all) (h : Sound all scope) :
    Sound all (added.foldl (Scope.add all) scope) := by
  induction added generalizing scope with
  | nil => exact h
  | cons name added ih =>
    exact ih (fun n hn => hsub (List.mem_cons_of_mem _ hn)) (h.add (hsub List.mem_cons_self))

/-- A name keeps its form when others are added. -/
theorem escaped?_foldl_add_of_some (h : scope.escaped? name = some form) :
    (added.foldl (add all) scope).escaped? name = some form := by
  induction added generalizing scope with
  | nil => exact h
  | cons first added ih => exact ih (escaped?_add_of_some h)

/-- Every name that is added has a form in the end. -/
theorem exists_escaped?_foldl_add (h : name ∈ added) :
    ∃ form, (added.foldl (add all) scope).escaped? name = some form := by
  induction added generalizing scope with
  | nil => cases h
  | cons first added ih =>
    rw [List.foldl_cons]
    rcases List.mem_cons.mp h with rfl | h
    · obtain ⟨form, hform⟩ := exists_escaped?_add all scope name
      exact ⟨form, escaped?_foldl_add_of_some hform⟩
    · exact ih h

/-- Adding names does not enter any of them twice. -/
theorem nodup_names_foldl_add (h : (Members.names scope.entries).Nodup) :
    (Members.names (added.foldl (add all) scope).entries).Nodup := by
  induction added generalizing scope with
  | nil => exact h
  | cons first added ih => exact ih (nodup_names_add all h first)

/-- Adding names enters no others. -/
theorem mem_names_foldl_add (h : name ∈ Members.names (added.foldl (add all) scope).entries) :
    name ∈ Members.names scope.entries ∨ name ∈ added := by
  induction added generalizing scope with
  | nil => exact Or.inl h
  | cons first added ih =>
    rcases ih h with h | h
    · rcases mem_names_add h with h | rfl
      · exact Or.inl h
      · exact Or.inr List.mem_cons_self
    · exact Or.inr (List.mem_cons_of_mem _ h)

/-- Adding names picks forms for them. -/
theorem Picked.foldl_add (h : Picked all scope) : Picked all (added.foldl (Scope.add all) scope) := by
  induction added generalizing scope with
  | nil => exact h
  | cons first added ih => exact ih (h.add first)

end

/-- The names of a scope are kept apart. -/
theorem sound_ofNames (names : List String) : Sound names (ofNames names) := by
  have hempty : Sound names ⟨[]⟩ := ⟨fun _ h => (nomatch h), List.nodup_nil⟩
  exact hempty.foldl_add fun _ h => h

/-- Every name of a scope has a form. -/
theorem exists_escaped?_ofNames (h : name ∈ names) :
    ∃ form, (ofNames names).escaped? name = some form := exists_escaped?_foldl_add h

/-- No name of a scope is entered twice. -/
theorem nodup_names_ofNames (names : List String) :
    (Members.names (ofNames names).entries).Nodup := nodup_names_foldl_add List.nodup_nil

/-- A form that is found has been handed out. -/
theorem mem_issued (h : scope.escaped? name = some form) : form ∈ scope.issued :=
  List.mem_map_of_mem (Members.mem_of_get? h)

/-- Different names have different forms. -/
theorem Sound.name_eq (h : Sound all scope) (hn : scope.escaped? name = some form)
    (ho : scope.escaped? other = some form) : name = other := by
  have he := List.inj_on_of_nodup_map h.apart (Members.mem_of_get? hn) (Members.mem_of_get? ho) rfl
  exact congrArg Prod.fst he

/-- The form of a name has been picked for it among the names of the scope. -/
theorem eq_pick_of_escaped? (h : (ofNames names).escaped? name = some form) :
    ∃ issued, form = pick names issued name := by
  have hempty : Picked names ⟨[]⟩ := fun _ he => nomatch he
  have hpicked : Picked names (ofNames names) := hempty.foldl_add
  exact hpicked (name, form) (Members.mem_of_get? h)

/-- The form of a name stands for the name. -/
theorem Sound.name?_of_escaped? (h : Sound all scope) (hn : scope.escaped? name = some form) :
    scope.name? form = some name := by
  have hmem : (name, form) ∈ scope.entries := Members.mem_of_get? hn
  unfold name?
  cases hfind : scope.entries.find? fun e => e.2 = form with
  | none => exact absurd (decide_eq_true rfl) (List.find?_eq_none.mp hfind _ hmem)
  | some e =>
    have hfound := List.find?_some hfind
    have hform : e.2 = form := of_decide_eq_true hfound
    have he : e = (name, form) :=
      List.inj_on_of_nodup_map h.apart (List.mem_of_find?_eq_some hfind) hmem hform
    rw [Option.map_some, he]

/-- A form stands for the name that it was handed out for. -/
theorem name?_ofNames_eq_some_iff :
    (ofNames names).name? form = some name ↔ (ofNames names).escaped? name = some form := by
  constructor
  · intro h
    obtain ⟨e, he, rfl⟩ := Option.map_eq_some_iff.mp h
    have hfound := List.find?_some he
    have hform : e.2 = form := of_decide_eq_true hfound
    rw [← hform]
    exact Members.get?_of_mem (nodup_names_ofNames names) (List.mem_of_find?_eq_some he)
  · exact (sound_ofNames names).name?_of_escaped?

/-- The names that are entered are those of the scope. -/
theorem mem_names_ofNames : name ∈ Members.names (ofNames names).entries ↔ name ∈ names := by
  constructor
  · intro h
    exact (mem_names_foldl_add h).resolve_left List.not_mem_nil
  · intro h
    obtain ⟨form, hform⟩ := exists_escaped?_ofNames h
    exact List.mem_map_of_mem (Members.mem_of_get? hform)

/-- A scope has as many names as there are different ones. -/
theorem size_ofNames (names : List String) : (ofNames names).size = names.dedup.length := by
  have hperm : (Members.names (ofNames names).entries).Perm names.dedup :=
    (List.perm_ext_iff_of_nodup (nodup_names_ofNames names) names.nodup_dedup).mpr fun name =>
      mem_names_ofNames.trans List.mem_dedup.symm
  rw [← hperm.length_eq, Members.names, List.length_map, size]

/-- A scope in which the names of a list and their forms stand for each other. -/
structure StandsFor (names : List String) (scope : Scope) : Prop where
  /-- The names of the list have forms, and no other text has one. -/
  named : ∀ name, (∃ form, scope.escaped? name = some form) ↔ name ∈ names
  /-- Forms are names of the graph. -/
  valid : ∀ name form, scope.escaped? name = some form → IsName form
  /-- A name of the graph is its own form. -/
  kept : ∀ name ∈ names, IsName name → scope.escaped? name = some name
  /-- Different names have different forms. -/
  apart : ∀ name other form, scope.escaped? name = some form → scope.escaped? other = some form →
    name = other
  /-- What is no name of the graph has a form that is not in the list. -/
  fresh : ∀ name form, scope.escaped? name = some form → ¬IsName name → form ∉ names
  /-- A form stands for the name it has been handed out for, and nothing else stands for a name. -/
  back : ∀ name form, scope.name? form = some name ↔ scope.escaped? name = some form
  /-- There are as many names as different ones in the list. -/
  count : scope.size = names.dedup.length

/-- The names of any list and their forms stand for each other. -/
theorem standsFor_ofNames (names : List String) : StandsFor names (ofNames names) where
  named name := by
    refine ⟨?_, exists_escaped?_ofNames⟩
    rintro ⟨form, hform⟩
    exact mem_names_ofNames.mp (List.mem_map_of_mem (Members.mem_of_get? hform))
  valid name form h := by
    obtain ⟨issued, rfl⟩ := eq_pick_of_escaped? h
    exact (isValid_iff _).mp (isValid_pick names issued name)
  kept name hname hvalid := by
    obtain ⟨form, hform⟩ := exists_escaped?_ofNames hname
    obtain ⟨issued, rfl⟩ := eq_pick_of_escaped? hform
    have hpick : pick names issued name = name := if_pos ((isValid_iff name).mpr hvalid)
    rwa [hpick] at hform
  apart name other form hname hother := (sound_ofNames names).name_eq hname hother
  fresh name form h hvalid := by
    obtain ⟨issued, rfl⟩ := eq_pick_of_escaped? h
    have hnot : isValid name = false :=
      Bool.eq_false_iff.mpr fun hv => hvalid ((isValid_iff name).mp hv)
    exact fun hmem => pick_not_mem_of_not_isValid hnot names issued (List.mem_append_left _ hmem)
  back name form := name?_ofNames_eq_some_iff
  count := size_ofNames names

/-- Names of which three compete for one form, with one that comes twice and the empty one. -/
def crowded : List String := ["A$B", "A__B", "A#B", "", "A$B", "1"]

/-- Each form differs from the others and from the names, and the forms stand for the names. -/
theorem standsFor_crowded : StandsFor crowded
    ⟨[("A$B", "A___B"), ("A__B", "A__B"), ("A#B", "A____B"), ("", "__"), ("1", "__1")]⟩ := by
  have hscope : ofNames crowded
      = ⟨[("A$B", "A___B"), ("A__B", "A__B"), ("A#B", "A____B"), ("", "__"), ("1", "__1")]⟩ := by
    decide
  rw [← hscope]
  exact standsFor_ofNames crowded

end TableGraph.Name.Scope
