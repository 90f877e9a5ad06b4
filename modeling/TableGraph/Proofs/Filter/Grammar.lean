import TableGraph.Proofs.Filter.Leaves
import TableGraph.Proofs.Json.Distinct
import TableGraph.Proofs.Schema.Exposed

/-!
# The grammar of filters

Which values are filters on a table, whatever the dialect makes of them: `null`, and objects whose
members are comparisons with columns, `isNull` with a column, and `not`, `or` and `and` with filters.
A filter is accepted just when it is one of these, so one that names anything else than a column of
the table is refused, however deep the name stands and whether or not its condition says something.
-/

namespace TableGraph

/-- A name in the graph that has been handed out for a column of the table. -/
def Shape.Names (s : Shape) (name : String) : Prop :=
  ∃ f ∈ s.table.fields, s.columns.escaped? f.name = some name

namespace Filter

/-- What a comparison may be given, where the names of columns are known. -/
inductive Compared (column : String → Prop) : Json → Prop
  /-- Nothing. -/
  | nothing : Compared column .null
  /-- A column. -/
  | name {name : String} (h : column name) : Compared column (.str name)
  /-- A list of columns. -/
  | names {names : List String} (h : ∀ name ∈ names, column name) : Compared column (.strings names)
  /-- Columns with any values. -/
  | values {ms : Members Json} (h : ∀ name ∈ Members.names ms, column name) :
    Compared column (.obj ms)

mutual

/-- A filter, where the names of columns are known. -/
inductive Accepted (column : String → Prop) : Json → Prop
  /-- A filter that says nothing. -/
  | nothing : Accepted column .null
  /-- An object whose members may all stand in a filter. -/
  | object {ms : Members Json} (h : ∀ m ∈ ms, AcceptedUnder column m.1 m.2) :
    Accepted column (.obj ms)

/-- What may stand under a name in a filter. -/
inductive AcceptedUnder (column : String → Prop) : String → Json → Prop
  /-- What a comparison may be given. -/
  | compared (c : Comparison) {v : Json} (h : Compared column v) : AcceptedUnder column c.key v
  /-- Nothing that must have no value. -/
  | notMissing : AcceptedUnder column "isNull" .null
  /-- A column that must have no value. -/
  | missing {name : String} (h : column name) : AcceptedUnder column "isNull" (.str name)
  /-- A single filter. -/
  | single {key : String} (hk : key ∈ combined) {v : Json} (h : Accepted column v) :
    AcceptedUnder column key v
  /-- A list of filters. -/
  | list {key : String} (hk : key ∈ combined) {js : List Json} (h : ∀ j ∈ js, Accepted column j) :
    AcceptedUnder column key (.arr js)

end

/-- A value names something where a comparison expects columns. -/
inductive ComparesWith : Json → String → Prop
  /-- It is the name. -/
  | name (name : String) : ComparesWith (.str name) name
  /-- It is a list with the name. -/
  | item {items : List Json} {name : String} (h : .str name ∈ items) :
    ComparesWith (.arr items) name
  /-- It is an object with a value under the name. -/
  | value {ms : Members Json} {name : String} (h : name ∈ Members.names ms) :
    ComparesWith (.obj ms) name

/-- A value names something where a filter expects a column, at any depth. -/
inductive Mentions : Json → String → Prop
  /-- Under a comparison. -/
  | compared {ms : Members Json} (c : Comparison) {v : Json} {name : String} (hm : (c.key, v) ∈ ms)
    (h : ComparesWith v name) : Mentions (.obj ms) name
  /-- Where a column must have no value. -/
  | missing {ms : Members Json} {name : String} (hm : ("isNull", .str name) ∈ ms) :
    Mentions (.obj ms) name
  /-- In a single filter below. -/
  | single {ms : Members Json} {key : String} (hk : key ∈ combined) {v : Json} {name : String}
    (hm : (key, v) ∈ ms) (h : Mentions v name) : Mentions (.obj ms) name
  /-- In a filter of a list below. -/
  | item {ms : Members Json} {key : String} (hk : key ∈ combined) {js : List Json} {name : String}
    (hm : (key, .arr js) ∈ ms) {j : Json} (hj : j ∈ js) (h : Mentions j name) :
    Mentions (.obj ms) name

variable {column : String → Prop} {s : Shape}

/-- The word of a comparison stands for it. -/
@[simp]
theorem ofKey?_key (c : Comparison) : Comparison.ofKey? c.key = some c := by
  cases c <;> rfl

/-- A comparison is found under its own word only. -/
theorem key_eq_of_ofKey? {key : String} {c : Comparison} (h : Comparison.ofKey? key = some c) :
    c.key = key := by
  have hfound := List.find?_some h
  exact of_decide_eq_true hfound

/-- The word of a comparison is none of the others. -/
theorem key_not_mem_combinations (c : Comparison) : c.key ∉ combinations := by
  cases c <;> decide

/-- A member with filters holds no column and no comparison. -/
theorem AcceptedUnder.cases_combined {key : String} {v : Json} (h : AcceptedUnder column key v)
    (hk : key ∈ combined) : Accepted column v ∨ ∃ js, v = .arr js ∧ ∀ j ∈ js, Accepted column j := by
  cases h with
  | compared c => exact absurd (mem_combinations_of_mem_combined hk) (key_not_mem_combinations c)
  | notMissing => exact absurd hk (by decide)
  | missing => exact absurd hk (by decide)
  | single _ h => exact Or.inl h
  | list _ h => exact Or.inr ⟨_, rfl, h⟩

/-- The member for a column without a value holds nothing or the name of a column. -/
theorem AcceptedUnder.cases_missing {v : Json} (h : AcceptedUnder column "isNull" v) :
    v = .null ∨ ∃ name, v = .str name ∧ column name := by
  generalize hkey : "isNull" = key at h
  cases h with
  | compared c => exact absurd (hkey ▸ by decide) (key_not_mem_combinations c)
  | notMissing => exact Or.inl rfl
  | missing h => exact Or.inr ⟨_, rfl, h⟩
  | single hk => exact absurd (hkey ▸ hk) (by decide)
  | list hk => exact absurd (hkey ▸ hk) (by decide)

/-- Any other member is a comparison that is given what it may be given. -/
theorem AcceptedUnder.exists_comparison {key : String} {v : Json} (h : AcceptedUnder column key v)
    (hk : key ∉ combinations) : ∃ c : Comparison, c.key = key ∧ Compared column v := by
  cases h with
  | compared c h => exact ⟨c, rfl, h⟩
  | notMissing => exact absurd (by decide) hk
  | missing => exact absurd (by decide) hk
  | single hcombined => exact absurd (mem_combinations_of_mem_combined hcombined) hk
  | list hcombined => exact absurd (mem_combinations_of_mem_combined hcombined) hk

/-- A comparison is accepted just when it is given what it may be given. -/
theorem exists_conditions_iff {c : Comparison} {v : Json} :
    (∃ cs, conditions s c v = .ok cs) ↔ Compared (fun name => (s.column? name).isSome) v := by
  constructor
  · intro h
    cases v with
    | null => exact .nothing
    | str name =>
      obtain ⟨names, hnames, hcolumns⟩ := exists_namedConditions_iff.mp h
      cases names with
      | nil => cases hnames
      | cons first names =>
        cases (List.cons.inj hnames).1
        exact .name (hcolumns name List.mem_cons_self)
    | arr items =>
      obtain ⟨names, rfl, hcolumns⟩ := exists_namedConditions_iff.mp h
      exact .names hcolumns
    | obj ms =>
      have hcolumns := exists_valuedConditions_iff.mp h
      exact .values (List.forall_mem_map.mpr hcolumns)
    | bool b => exact absurd h (by rintro ⟨_, ⟨⟩⟩)
    | num n => exact absurd h (by rintro ⟨_, ⟨⟩⟩)
  · intro h
    cases h with
    | nothing => exact ⟨[], rfl⟩
    | @name name h =>
      exact exists_namedConditions_iff.mpr ⟨[name], rfl, List.forall_mem_singleton.mpr h⟩
    | @names names h => exact exists_namedConditions_iff.mpr ⟨names, rfl, h⟩
    | values h => exact exists_valuedConditions_iff.mpr (List.forall_mem_map.mp h)

/-- The comparisons of an object are accepted just when each member is one that is accepted, or no
comparison. -/
theorem exists_groups_iff {ms : Members Json} : (∃ gs, groups s ms = .ok gs) ↔ ∀ m ∈ ms,
    m.1 ∈ combinations
      ∨ ∃ c : Comparison, c.key = m.1 ∧ Compared (fun name => (s.column? name).isSome) m.2 := by
  induction ms with
  | nil => exact ⟨fun _ _ h => absurd h List.not_mem_nil, fun _ => ⟨[], rfl⟩⟩
  | cons m ms ih =>
    obtain ⟨key, v⟩ := m
    rw [List.forall_mem_cons, ← ih]
    constructor
    · rintro ⟨gs, hgs⟩
      rcases groups_cons_eq_ok_iff.mp hgs with ⟨hk, hgs⟩ | ⟨_, c, group, more, hc, hgroup, hmore, _⟩
      · exact ⟨Or.inl hk, gs, hgs⟩
      · exact ⟨Or.inr ⟨c, key_eq_of_ofKey? hc, exists_conditions_iff.mp ⟨group, hgroup⟩⟩, more, hmore⟩
    · rintro ⟨hk | ⟨c, rfl, hv⟩, gs, hgs⟩
      · exact ⟨gs, groups_cons_eq_ok_iff.mpr (Or.inl ⟨hk, hgs⟩)⟩
      · obtain ⟨group, hgroup⟩ := exists_conditions_iff.mpr hv
        exact ⟨group :: gs, groups_cons_eq_ok_iff.mpr (Or.inr
          ⟨key_not_mem_combinations c, c, group, gs, ofKey?_key c, hgroup, hgs, rfl⟩)⟩

/-- The column without a value is accepted just when nothing or a column is given. -/
theorem exists_missing_iff {v : Json} : (∃ f, missing s (some v) = .ok f)
    ↔ v = .null ∨ ∃ name, v = .str name ∧ (s.column? name).isSome := by
  constructor
  · intro h
    cases v with
    | null => exact Or.inl rfl
    | str name =>
      obtain ⟨f, hf, _⟩ := exists_bind_eq_ok_iff.mp h
      exact Or.inr ⟨name, rfl, exists_column_iff.mp ⟨f, hf⟩⟩
    | _ => exact absurd h (by rintro ⟨_, ⟨⟩⟩)
  · rintro (rfl | ⟨name, rfl, hname⟩)
    · exact ⟨none, rfl⟩
    · obtain ⟨f, hf⟩ := exists_column_iff.mpr hname
      exact ⟨some f, bind_eq_ok_iff.mpr ⟨f, hf, rfl⟩⟩

/-- What stands under a name is accepted just when the filters there are. -/
theorem nested_accepted_iff {ms : Members Json} {key : String} {v : Json}
    (hget : Members.get? ms key = some v) (hk : key ∈ combined) :
    (∀ j ∈ Members.nested ms key, Accepted column j) ↔ AcceptedUnder column key v := by
  have hsingle : (∀ js, v ≠ .arr js) →
      ((∀ j ∈ [v], Accepted column j) ↔ AcceptedUnder column key v) := by
    intro hlist
    rw [List.forall_mem_singleton]
    refine ⟨.single hk, fun h => (h.cases_combined hk).resolve_right ?_⟩
    rintro ⟨js, hjs, _⟩
    exact hlist js hjs
  unfold Members.nested
  rw [hget]
  cases v with
  | null => exact ⟨fun _ => .single hk .nothing, fun _ => nofun⟩
  | arr items =>
    refine ⟨.list hk, fun h => ?_⟩
    rcases h.cases_combined hk with h | ⟨js, hjs, h⟩
    · cases h
    · cases hjs
      exact h
  | bool b => exact hsingle nofun
  | num n => exact hsingle nofun
  | str t => exact hsingle nofun
  | obj ms => exact hsingle nofun

/-- The members are kept apart in the filters below an object in which they are. -/
theorem distinct_nested {ms : Members Json} (h : ∀ m ∈ ms, m.2.Distinct) {key : String} {j : Json}
    (hj : j ∈ Members.nested ms key) : j.Distinct := by
  obtain ⟨v, hget, hmem⟩ := mem_nested_iff.mp hj
  have hv : v.Distinct := h _ (Members.mem_of_get? hget)
  rcases hmem with ⟨js, rfl, hmem⟩ | ⟨rfl, _⟩
  · cases hv with
    | arr hjs => exact hjs j hmem
  · exact hv

/-- An object is read as a filter just when it is one, if this holds of the filters below it. -/
theorem exists_ofJson_object_iff {ms : Members Json} (hn : (Members.names ms).Nodup)
    (hbelow : ∀ key, ∀ j ∈ Members.nested ms key,
      (∃ f, ofJson s j = .ok f) ↔ Accepted (fun name => (s.column? name).isSome) j) :
    (∃ f, ofJson s (.obj ms) = .ok f)
      ↔ Accepted (fun name => (s.column? name).isSome) (.obj ms) := by
  rw [exists_ofJson_obj_iff]
  constructor
  · rintro ⟨hgroups, hmissing, hnested⟩
    refine .object fun m hm => ?_
    obtain ⟨key, v⟩ := m
    have hget : Members.get? ms key = some v := Members.get?_of_mem hn hm
    rcases exists_groups_iff.mp hgroups _ hm with hk | ⟨c, rfl, hv⟩
    · have hkeys : ∀ key ∈ combinations, key = "isNull" ∨ key ∈ combined := by decide
      rcases hkeys key hk with rfl | hk
      · rw [hget] at hmissing
        rcases exists_missing_iff.mp hmissing with rfl | ⟨name, rfl, hname⟩
        · exact .notMissing
        · exact .missing hname
      · exact (nested_accepted_iff hget hk).mp fun j hj =>
          (hbelow key j hj).mp (hnested key hk j hj)
    · exact .compared c hv
  · intro haccepted
    cases haccepted with
    | object h =>
      refine ⟨exists_groups_iff.mpr fun m hm => ?_, ?_, fun key hk j hj => ?_⟩
      · by_cases hk : m.1 ∈ combinations
        · exact Or.inl hk
        · exact Or.inr ((h m hm).exists_comparison hk)
      · cases hget : Members.get? ms "isNull" with
        | none => exact ⟨none, rfl⟩
        | some v => exact exists_missing_iff.mpr (h _ (Members.mem_of_get? hget)).cases_missing
      · obtain ⟨v, hget, _⟩ := mem_nested_iff.mp hj
        have hunder : AcceptedUnder _ key v := h _ (Members.mem_of_get? hget)
        exact (hbelow key j hj).mpr ((nested_accepted_iff hget hk).mpr hunder j hj)

/-- A value that is neither an object nor `null` is no filter, and is refused. -/
theorem exists_ofJson_plain_iff {j : Json} (hnull : j ≠ .null) (hobject : ∀ ms, j ≠ .obj ms) :
    (∃ f, ofJson s j = .ok f) ↔ Accepted column j := by
  constructor
  · rintro ⟨f, hf⟩
    rcases null_or_obj_of_ofJson hf with ⟨rfl, _⟩ | ⟨ms, rfl⟩
    · exact absurd rfl hnull
    · exact absurd rfl (hobject ms)
  · intro h
    cases h with
    | nothing => exact absurd rfl hnull
    | object h => exact absurd rfl (hobject _)

/-- A value is read as a filter just when it is one. -/
theorem exists_ofJson_iff {j : Json} (hj : j.Distinct) :
    (∃ f, ofJson s j = .ok f) ↔ Accepted (fun name => (s.column? name).isSome) j := by
  induction j using nested_induction with
  | step j ih =>
    cases hj with
    | null => exact ⟨fun _ => .nothing, fun _ => ⟨empty, by rw [ofJson]⟩⟩
    | obj hn h =>
      exact exists_ofJson_object_iff hn fun key j hj =>
        ih _ rfl key j hj (distinct_nested h hj)
    | bool b => exact exists_ofJson_plain_iff (by simp) (by simp)
    | num n => exact exists_ofJson_plain_iff (by simp) (by simp)
    | str t => exact exists_ofJson_plain_iff (by simp) (by simp)
    | arr h => exact exists_ofJson_plain_iff (by simp) (by simp)

/-- What a comparison is given names columns only. -/
theorem Compared.column_of_comparesWith {v : Json} (h : Compared column v) {name : String}
    (hname : ComparesWith v name) : column name := by
  cases hname with
  | name =>
    cases h with
    | name h => exact h
  | item hitem =>
    generalize hv : Json.arr _ = v at h
    cases h with
    | names h =>
      cases hv
      obtain ⟨n, hn, he⟩ := List.mem_map.mp hitem
      cases he
      exact h _ hn
    | nothing => cases hv
    | name => cases hv
    | values => cases hv
  | value hmem =>
    cases h with
    | values h => exact h name hmem

/-- A filter names columns only, at every depth. -/
theorem Accepted.column_of_mentions {j : Json} {name : String} (hname : Mentions j name)
    (h : Accepted column j) : column name := by
  induction hname with
  | compared c hm hcompares =>
    cases h with
    | object h =>
      obtain ⟨_, _, hv⟩ := (h _ hm).exists_comparison (key_not_mem_combinations c)
      exact hv.column_of_comparesWith hcompares
  | missing hm =>
    cases h with
    | object h =>
      rcases (h _ hm).cases_missing with hnull | ⟨_, he, hcolumn⟩
      · cases hnull
      · cases he
        exact hcolumn
  | single hk hm hbelow ih =>
    cases h with
    | object h =>
      rcases (h _ hm).cases_combined hk with hv | ⟨js, rfl, _⟩
      · exact ih hv
      · cases hbelow
  | item hk hm hj _ ih =>
    cases h with
    | object h =>
      rcases (h _ hm).cases_combined hk with hv | ⟨js, he, hjs⟩
      · cases hv
      · cases he
        exact ih (hjs _ hj)

/-- A `where` argument has a text just when it is a filter whose names are those of columns of the
table. So a name that is none, wherever it stands, refuses the whole argument. -/
theorem argumentText_accepts_iff (t : Table) (name : String) (d : Dialect) (table : String)
    (j : Json) (hj : j.Distinct) :
    ((∃ text, argumentText d (.ofTable t name) table (some j) = .ok text)
        ↔ Accepted (Shape.ofTable t name).Names j)
      ∧ ∀ column, Mentions j column → ¬(Shape.ofTable t name).Names column →
        ∃ e, argumentText d (.ofTable t name) table (some j) = .error e := by
  have hnames : (fun n => ((Shape.ofTable t name).column? n).isSome = true)
      = (Shape.ofTable t name).Names := funext fun _ => propext Shape.isSome_column?_iff
  have haccepts : (∃ text, argumentText d (.ofTable t name) table (some j) = .ok text)
      ↔ Accepted (Shape.ofTable t name).Names j := by
    rw [← hnames, ← exists_ofJson_iff hj, argumentText, Option.getD_some, exists_bind_eq_ok_iff]
    exact exists_congr fun f => and_iff_left ⟨_, rfl⟩
  refine ⟨haccepts, fun column hmentions hcolumn => ?_⟩
  cases htext : argumentText d (.ofTable t name) table (some j) with
  | error e => exact ⟨e, rfl⟩
  | ok text =>
    have haccepted := haccepts.mp ⟨text, htext⟩
    exact absurd (haccepted.column_of_mentions hmentions) hcolumn

/-- A filter by the end of a column of cities, without a text that the column ends with. -/
def quietFilter (column : String) : Json :=
  .obj [("or", .arr [.obj [("ends", .obj [(column, .null)])], .null])]

/-- Without a text to compare with, the filter says nothing about a column, and is refused all the
same when there is no such column. -/
theorem argumentText_accepts_quietFilter :
    (quietFilter "MAYOR").Distinct ∧ Mentions (quietFilter "MAYOR") "MAYOR"
      ∧ ¬cityShape.Names "MAYOR"
      ∧ argumentText (Postgres.dialect "public") cityShape "t0" (some (quietFilter "NAME")) = .ok ""
      ∧ ∃ e, argumentText (Postgres.dialect "public") cityShape "t0"
        (some (quietFilter "MAYOR")) = .error e := by
  have hread : Json.parse? "\x7b\"or\": [\x7b\"ends\": \x7b\"MAYOR\": null\x7d\x7d, null]\x7d"
      = some (quietFilter "MAYOR") := by cbv
  have hdistinct := Json.distinct_of_parse? hread
  have hmentions : Mentions (quietFilter "MAYOR") "MAYOR" :=
    .item (by decide) List.mem_cons_self List.mem_cons_self
      (.compared .ends List.mem_cons_self (.value List.mem_cons_self))
  have hnames : ¬cityShape.Names "MAYOR" := by
    have hcolumn : (cityShape.column? "MAYOR").isSome = false := by cbv
    exact fun h => Bool.false_ne_true (hcolumn.symm.trans (Shape.isSome_column?_iff.mpr h))
  have htext : argumentText (Postgres.dialect "public") cityShape "t0"
      (some (quietFilter "NAME")) = .ok "" := by cbv
  obtain ⟨_, hrefused⟩ := argumentText_accepts_iff cityShape.table cityShape.name
    (Postgres.dialect "public") "t0" (quietFilter "MAYOR") hdistinct
  exact ⟨hdistinct, hmentions, hnames, htext, hrefused "MAYOR" hmentions hnames⟩

end Filter

end TableGraph
