import Mathlib.Data.List.Permutation
import TableGraph.Proofs.Filter.Accepted
import TableGraph.Proofs.Filter.Formula
import TableGraph.Sql.Postgres

/-!
# What a filter means

The meaning of a `where` argument, read off the argument itself: the conjunction of its conditions,
of the condition that a column has no value, of the negated conjunction of the filters under `not`,
of the disjunction of those under `or` and of the conjunction of those under `and`. What renders
empty is left out. The text of the filter, read with the precedence of the database, means the same.
-/

namespace TableGraph.Filter

open Formula

/-- The column names that a value names under a comparison, each with the value it is compared with,
if there is one. -/
def compared : Json → List (String × Option Json)
  | .str name => [(name, none)]
  | .arr items => (items.filterMap Json.asString?).map fun name => (name, none)
  | .obj values => values.map fun (name, v) => (name, if v.isNull then none else some v)
  | _ => []

variable (d : Dialect) (s : Shape) (table : String)

/-- The conditions of a member of a filter, those that render empty left out. -/
def memberAtoms (key : String) (v : Json) : List String :=
  match Comparison.ofKey? key with
  | none => []
  | some c => spoken ((compared v).filterMap fun x =>
    (s.column? x.1).map fun f => d.condition c table f x.2)

/-- The condition that a column has no value. -/
def missingAtoms : Option Json → List String
  | some (.str name) => (s.column? name).toList.map fun f => d.column table f.name ++ " IS NULL"
  | _ => []

/-- The meaning of a filter when its conditions have given values; none if nothing is left of it. -/
def meaning? (v : String → Truth) : Json → Option Truth
  | .obj ms => Truth.all? <|
    (ms.flatMap fun m => memberAtoms d s table m.1 m.2).map v
      ++ (missingAtoms d s table (Members.get? ms "isNull")).map v
      ++ ((Truth.all? ((Members.nested ms "not").attach.filterMap fun ⟨j, _⟩ => meaning? v j)).map
        Truth.not).toList
      ++ (Truth.any? ((Members.nested ms "or").attach.filterMap fun ⟨j, _⟩ => meaning? v j)).toList
      ++ (Truth.all? ((Members.nested ms "and").attach.filterMap fun ⟨j, _⟩ => meaning? v j)).toList
  | _ => none
termination_by j => sizeOf j
decreasing_by all_goals (exact Members.sizeOf_nested_lt (by assumption))

/-- The meaning of an object. -/
theorem meaning?_obj (v : String → Truth) (ms : Members Json) :
    meaning? d s table v (.obj ms) = Truth.all? (
      (ms.flatMap fun m => memberAtoms d s table m.1 m.2).map v
        ++ (missingAtoms d s table (Members.get? ms "isNull")).map v
        ++ ((Truth.all? ((Members.nested ms "not").filterMap (meaning? d s table v))).map
          Truth.not).toList
        ++ (Truth.any? ((Members.nested ms "or").filterMap (meaning? d s table v))).toList
        ++ (Truth.all? ((Members.nested ms "and").filterMap (meaning? d s table v))).toList) := by
  have hsub : ∀ js : List Json, js.attach.filterMap (fun j => meaning? d s table v j.1)
      = js.filterMap (meaning? d s table v) := by
    intro js
    rw [List.filterMap_subtype fun _ _ => rfl, List.unattach_attach]
  rw [meaning?]
  simp only [hsub]

variable {d s table}

/-- Conditions without values are those of the names. -/
theorem namedConditions_texts {c : Comparison} {names : List Json} {cs : List Condition}
    (h : namedConditions s c names = .ok cs) :
    cs.map (conditionText d table) = (compared (.arr names)).filterMap fun x =>
      (s.column? x.1).map fun f => d.condition c table f x.2 := by
  induction names generalizing cs with
  | nil =>
    cases h
    rfl
  | cons j names ih =>
    obtain ⟨name, f, more, rfl, hf, hmore, rfl⟩ := namedConditions_cons_eq_ok_iff.mp h
    have hrest := ih hmore
    simp only [compared, List.filterMap_cons, Json.asString?, List.map_cons] at hrest ⊢
    rw [hf, hrest]
    rfl

/-- Conditions with values are those of the names with their values. -/
theorem valuedConditions_texts {c : Comparison} {values : List (String × Json)}
    {cs : List Condition} (h : valuedConditions s c values = .ok cs) :
    cs.map (conditionText d table) = (compared (.obj values)).filterMap fun x =>
      (s.column? x.1).map fun f => d.condition c table f x.2 := by
  induction values generalizing cs with
  | nil =>
    cases h
    rfl
  | cons m values ih =>
    obtain ⟨name, v⟩ := m
    obtain ⟨f, more, hf, hmore, rfl⟩ := valuedConditions_cons_eq_ok_iff.mp h
    have hrest := ih hmore
    simp only [compared, List.map_cons, List.filterMap_cons] at hrest ⊢
    rw [hf, hrest]
    rfl

/-- The conditions under a comparison are those of the columns that are named. -/
theorem conditions_texts {c : Comparison} {v : Json} {cs : List Condition}
    (h : conditions s c v = .ok cs) :
    cs.map (conditionText d table) = (compared v).filterMap fun x =>
      (s.column? x.1).map fun f => d.condition c table f x.2 := by
  cases v with
  | null =>
    cases h
    rfl
  | str name => exact @namedConditions_texts d s table c [.str name] cs h
  | arr names => exact namedConditions_texts h
  | obj values => exact valuedConditions_texts h
  | bool b => cases h
  | num n => cases h

/-- The conditions of the groups are those of the members. -/
theorem groups_atoms {ms : List (String × Json)} {gs : List (List Condition)}
    (h : groups s ms = .ok gs) :
    gs.flatMap (groupAtoms d table) = ms.flatMap fun m => memberAtoms d s table m.1 m.2 := by
  induction ms generalizing gs with
  | nil =>
    cases h
    rfl
  | cons m ms ih =>
    obtain ⟨key, v⟩ := m
    rw [List.flatMap_cons, memberAtoms]
    rcases groups_cons_eq_ok_iff.mp h with ⟨hk, h⟩ | ⟨_, c, group, more, hc, hgroup, hmore, rfl⟩
    · rw [ih h, ofKey?_of_mem_combinations hk, List.nil_append]
    · rw [List.flatMap_cons, ih hmore, hc, groupAtoms, conditions_texts hgroup]

/-- The condition that a column has no value is that of the member. -/
theorem missing_atoms {v : Option Json} {f : Option Field} (h : missing s v = .ok f) :
    missingTexts d table f = missingAtoms d s table v := by
  cases v with
  | none =>
    cases h
    rfl
  | some j =>
    cases j with
    | null =>
      cases h
      rfl
    | str name =>
      obtain ⟨g, hg, h⟩ := bind_eq_ok_iff.mp h
      cases h
      rw [missingAtoms, column_eq_ok_iff.mp hg]
      rfl
    | _ => cases h

/-- The values of filters are those of the values they are read from, if each has its own. -/
theorem itemTruths_eq {v : String → Truth} {js : List Json} {fs : List Filter}
    (h : List.Forall₂ (fun j f => ofJson s j = .ok f) js fs)
    (hj : ∀ j ∈ js, ∀ f, ofJson s j = .ok f →
      meaning? d s table v j = Truth.all? (f.partTruths d table v)) :
    itemTruths d table v fs = js.filterMap (meaning? d s table v) := by
  induction h with
  | nil => rfl
  | @cons j f js fs head tail ih =>
    rw [itemTruths, List.filterMap_cons, ih fun j' hmem => hj j' (List.mem_cons_of_mem _ hmem),
      ← hj j List.mem_cons_self f head]
    cases meaning? d s table v j <;> rfl

/-- A filter means what the value it is read from means. -/
theorem meaning?_of_ofJson {v : String → Truth} {j : Json} {f : Filter} (h : ofJson s j = .ok f) :
    meaning? d s table v j = Truth.all? (f.partTruths d table v) := by
  induction j using nested_induction generalizing f with
  | step j ih =>
    rcases null_or_obj_of_ofJson h with ⟨rfl, rfl⟩ | ⟨ms, rfl⟩
    · rw [meaning?]
      · rfl
      · intro _ h
        cases h
    · have hitems : ∀ {name : String} {fs : List Filter},
          List.Forall₂ (fun j f => ofJson s j = .ok f) (Members.nested ms name) fs →
            itemTruths d table v fs
              = (Members.nested ms name).filterMap (meaning? d s table v) := by
        intro name fs hfs
        refine itemTruths_eq hfs ?_
        intro j hj f hf
        exact ih ms rfl name j hj hf
      obtain ⟨gs, missing, noneOf, anyOf, allOf, hg, hm, hnone, hany, hall, rfl⟩ :=
        ofJson_obj_eq_ok_iff.mp h
      have hgroups : Truth.all? (gs.filterMap fun g => Truth.all? ((groupAtoms d table g).map v))
          = Truth.all? ((ms.flatMap fun m => memberAtoms d s table m.1 m.2).map v) := by
        rw [← groups_atoms hg, List.map_flatMap, List.flatMap]
        have hj := Truth.joined_filterMap_joined Truth.and
          (gs.map fun g => (groupAtoms d table g).map v)
        rw [List.filterMap_map] at hj
        exact hj
      rw [meaning?_obj, partTruths, hitems hnone, hitems hany, hitems hall, missing_atoms hm]
      simp only [Truth.all?, List.append_assoc] at hgroups ⊢
      rw [Truth.joined_append, ← hgroups, ← Truth.joined_append]

/-- The text of an accepted filter is that of words that are read, with the precedence of the
database, as a formula with the meaning of the filter; it is empty exactly when nothing is left of
the filter. -/
theorem argumentText_means (d : Dialect) (s : Shape) (table : String) (argument : Option Json)
    (text : String) (h : argumentText d s table argument = .ok text) :
    ∃ ts, written ts = text
      ∧ (text = "" ↔ ∀ v, meaning? d s table v (argument.getD .null) = none)
      ∧ (text ≠ "" → ∃ a, read ts = some a
        ∧ ∀ v, meaning? d s table v (argument.getD .null) = some (a.eval v)) := by
  unfold argumentText at h
  obtain ⟨f, hf, h⟩ := bind_eq_ok_iff.mp h
  cases h
  have hmeaning : ∀ v, meaning? d s table v (argument.getD .null)
      = Truth.all? (f.partTruths d table v) := fun v => meaning?_of_ofJson hf
  refine ⟨f.tokens d table, written_tokens f, ?_, ?_⟩
  · constructor
    · intro he v
      rw [hmeaning]
      exact (read_tokens f v).1.mp he
    · intro hn
      have hv := hn fun _ => .unknown
      rw [hmeaning] at hv
      exact (read_tokens f _).1.mpr hv
  · intro hne
    have hvalue : ∀ v, ∃ a, read (f.tokens d table) = some a
        ∧ meaning? d s table v (argument.getD .null) = some (a.eval v) := by
      intro v
      obtain ⟨hempty, hread⟩ := @read_tokens d table f v
      rw [hmeaning]
      cases ht : Truth.all? (f.partTruths d table v) with
      | none => exact absurd (hempty.mpr ht) hne
      | some t =>
        obtain ⟨a, ha, he⟩ := hread t ht
        exact ⟨a, ha, congrArg some he.symm⟩
    obtain ⟨a, ha, _⟩ := hvalue fun _ => .unknown
    refine ⟨a, ha, ?_⟩
    intro v
    obtain ⟨b, hb, hv⟩ := hvalue v
    rw [ha] at hb
    cases hb
    exact hv

/-- The shape of a table of cities. -/
def cityShape : Shape :=
  .ofTable ⟨"CITY", "CITY", [], [.plain "CITY" "NAME" .string, .plain "CITY" "POPULATION" .int]⟩
    "CITY"

/-- A filter with conditions at two levels and an item that says nothing. -/
def cityFilter : Json :=
  .obj [("equals", .obj [("NAME", .str "Oslo")]), ("isNull", .str "POPULATION"),
    ("not", .arr [.obj [("less", .obj [("POPULATION", .num (.int 5))])], .obj []]),
    ("or", .arr [.obj [("begins", .obj [("NAME", .str "O")])], .obj [("isEmpty", .str "NAME")]])]

/-- The text of the filter. -/
def cityText : String :=
  "(t0.\"NAME\" = 'Oslo') AND t0.\"POPULATION\" IS NULL AND NOT ((t0.\"POPULATION\" < 5))"
    ++ " AND ((LEFT(t0.\"NAME\", LENGTH('O')) = 'O') OR (t0.\"NAME\" = ''))"

/-- The text of the filter is read as a formula with the meaning of the filter. -/
theorem cityText_means :
    argumentText (Postgres.dialect "public") cityShape "t0" (some cityFilter) = .ok cityText
      ∧ ∃ ts a, written ts = cityText ∧ read ts = some a
        ∧ ∀ v, meaning? (Postgres.dialect "public") cityShape "t0" v cityFilter
          = some (a.eval v) := by
  have h : argumentText (Postgres.dialect "public") cityShape "t0" (some cityFilter)
      = .ok cityText := by cbv
  have hne : cityText ≠ "" := by decide
  obtain ⟨ts, hts, _, hread⟩ :=
    argumentText_means (Postgres.dialect "public") cityShape "t0" (some cityFilter) cityText h
  obtain ⟨a, ha, hv⟩ := hread hne
  exact ⟨h, ts, a, hts, ha, hv⟩

end TableGraph.Filter
