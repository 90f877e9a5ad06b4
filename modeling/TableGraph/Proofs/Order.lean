import TableGraph.Order
import TableGraph.Proofs.Members
import TableGraph.Proofs.Outcome

/-!
# Which orderings are read

An `order` argument is read just when it is `null`, an entry, or a list of entries: objects that hold
nothing or a column of the table under each direction. An ordering speaks of columns of its table
only.
-/

namespace TableGraph.Ordering

variable {s : Shape}

/-- Terms that speak of columns of the table. -/
def Within (s : Shape) (terms : Terms) : Prop := ∀ e ∈ terms, ∃ f ∈ s.table.fields, f.name = e.1

/-- One more member keeps to the columns of the table. -/
theorem enter_within {terms terms' : Terms} (ht : Within s terms) {key : String} {name : Json}
    (h : enter s terms key name = .ok terms') : Within s terms' := by
  unfold enter at h
  cases hd : Direction.ofKey? key with
  | none =>
    rw [hd] at h
    cases h
  | some direction =>
    rw [hd] at h
    cases name with
    | null =>
      cases h
      exact ht
    | str column =>
      dsimp only at h
      cases hc : s.column? column with
      | none =>
        rw [hc] at h
        cases h
      | some f =>
        rw [hc] at h
        cases h
        intro e he
        rcases Members.mem_insert he with rfl | he
        · obtain ⟨name, _, hf⟩ := Option.bind_eq_some_iff.mp hc
          exact ⟨f, List.mem_of_find?_eq_some hf, rfl⟩
        · exact ht e he
    | bool b => cases h
    | num n => cases h
    | arr items => cases h
    | obj members => cases h

/-- The members of an entry keep to the columns of the table. -/
theorem enterAll_within {entry : List (String × Json)} {terms terms' : Terms}
    (ht : Within s terms) (h : enterAll s terms entry = .ok terms') : Within s terms' := by
  induction entry generalizing terms with
  | nil =>
    cases h
    exact ht
  | cons m entry ih =>
    obtain ⟨next, hnext, h⟩ := bind_eq_ok_iff.mp h
    exact ih (enter_within ht hnext) h

/-- A list of entries keeps to the columns of the table. -/
theorem ofEntries_within {entries : List Json} {terms terms' : Terms}
    (ht : Within s terms) (h : ofEntries s terms entries = .ok terms') : Within s terms' := by
  induction entries generalizing terms with
  | nil =>
    cases h
    exact ht
  | cons j entries ih =>
    cases j with
    | obj entry =>
      obtain ⟨next, hnext, h⟩ := bind_eq_ok_iff.mp h
      exact ih (enterAll_within ht hnext) h
    | _ => cases h

/-- The terms of an argument are columns of the table. -/
theorem ofArgument_within {argument : Option Json} {terms : Option Terms}
    (h : ofArgument s argument = .ok terms) : Within s (terms.getD []) := by
  have hnil : Within s [] := fun _ he => absurd he List.not_mem_nil
  have hsome : ∀ {entries : List Json},
      (do return some (← ofEntries s [] entries) : Except RequestError (Option Terms)) = .ok terms →
        Within s (terms.getD []) := by
    intro entries h
    obtain ⟨found, hfound, h⟩ := bind_eq_ok_iff.mp h
    cases h
    exact ofEntries_within hnil hfound
  cases argument with
  | none =>
    cases h
    exact hnil
  | some j =>
    cases j with
    | null =>
      cases h
      exact hnil
    | _ => exact hsome h

/-- The words that stand for a direction are `asc` and `desc`. -/
theorem isSome_ofKey?_iff {key : String} :
    (Direction.ofKey? key).isSome ↔ key ∈ ["asc", "desc"] := by
  unfold Direction.ofKey?
  by_cases hasc : key = "asc"
  · simp [hasc]
  · by_cases hdesc : key = "desc"
    · simp [hdesc]
    · simp [hasc, hdesc]

/-- A member of an entry that is read: nothing or the name of a column, under a direction. -/
def Directs (s : Shape) (m : String × Json) : Prop :=
  (Direction.ofKey? m.1).isSome ∧ (m.2 = .null ∨ ∃ name, m.2 = .str name ∧ (s.column? name).isSome)

/-- An entry that is read: an object of such members. -/
def Entry (s : Shape) (j : Json) : Prop := ∃ ms, j = .obj ms ∧ ∀ m ∈ ms, Directs s m

/-- A member is read just when it holds nothing or a column under a direction. -/
theorem exists_enter_iff {terms : Terms} {key : String} {value : Json} :
    (∃ terms', enter s terms key value = .ok terms') ↔ Directs s (key, value) := by
  unfold enter Directs
  cases hd : Direction.ofKey? key with
  | none => simp
  | some direction =>
    cases value with
    | str name =>
      cases hc : s.column? name with
      | none => simp [hc]
      | some f => simp [hc]
    | _ => simp

/-- The members of an entry are read just when each is. -/
theorem exists_enterAll_iff {ms : List (String × Json)} {terms : Terms} :
    (∃ terms', enterAll s terms ms = .ok terms') ↔ ∀ m ∈ ms, Directs s m := by
  induction ms generalizing terms with
  | nil => exact ⟨fun _ _ h => absurd h List.not_mem_nil, fun _ => ⟨terms, rfl⟩⟩
  | cons m ms ih =>
    rw [enterAll, exists_bind_eq_ok_iff_and fun _ => ih, exists_enter_iff, List.forall_mem_cons]

/-- A list is read just when each of its items is an entry. -/
theorem exists_ofEntries_iff (js : List Json) (terms : Terms) :
    (∃ terms', ofEntries s terms js = .ok terms') ↔ ∀ j ∈ js, Entry s j := by
  induction js generalizing terms with
  | nil => exact ⟨fun _ _ h => absurd h List.not_mem_nil, fun _ => ⟨terms, rfl⟩⟩
  | cons j js ih =>
    rw [List.forall_mem_cons]
    cases j with
    | obj ms =>
      have hentry : Entry s (.obj ms) ↔ ∀ m ∈ ms, Directs s m := by
        constructor
        · rintro ⟨_, ⟨rfl⟩, hms⟩
          exact hms
        · exact fun hms => ⟨ms, rfl, hms⟩
      rw [ofEntries, exists_bind_eq_ok_iff_and ih, exists_enterAll_iff, hentry]
    | _ => simp [ofEntries, Entry]

/-- The first item of a list that is `null` refuses the list, when the items before it are read. -/
theorem ofEntries_of_null {js : List Json} (hjs : ∀ j ∈ js, j = .null ∨ Entry s j)
    (hnull : .null ∈ js) (terms : Terms) :
    ofEntries s terms js = .error (.order (.notAnObject .null)) := by
  induction js generalizing terms with
  | nil => cases hnull
  | cons j js ih =>
    rw [List.forall_mem_cons] at hjs
    rcases hjs.1 with rfl | ⟨ms, rfl, hms⟩
    · rfl
    · have hrest : .null ∈ js := (List.mem_cons.mp hnull).resolve_left nofun
      obtain ⟨next, hnext⟩ := exists_enterAll_iff.mpr hms
      have herror := ih hjs.2 hrest next
      rw [ofEntries, hnext]
      exact herror

/-- An argument is read just when it is `null`, a list of entries, or an entry. -/
theorem exists_ofArgument_iff {j : Json} : (∃ terms, ofArgument s (some j) = .ok terms)
    ↔ j = .null ∨ (∃ js, j = .arr js ∧ ∀ i ∈ js, Entry s i) ∨ Entry s j := by
  have hlist : ∀ js, (∃ terms : Option Terms,
      (do return some (← ofEntries s [] js) : Except RequestError (Option Terms)) = .ok terms)
        ↔ ∀ i ∈ js, Entry s i := by
    intro js
    rw [exists_bind_eq_ok_iff, ← exists_ofEntries_iff js []]
    exact exists_congr fun terms => and_iff_left ⟨_, rfl⟩
  have hsingle : ∀ i, (∀ j ∈ [i], Entry s j) ↔ Entry s i := fun i => List.forall_mem_singleton
  cases j with
  | null => exact ⟨fun _ => Or.inl rfl, fun _ => ⟨none, rfl⟩⟩
  | arr js =>
    rw [ofArgument, hlist]
    simp [Entry]
  | _ =>
    rw [ofArgument, hlist, hsingle]
    · simp
    · nofun
    · nofun

end TableGraph.Ordering
