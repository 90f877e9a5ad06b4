import TableGraph.Proofs.Filter.Accepted
import TableGraph.Proofs.Listing

/-!
# The columns a filter speaks of

An accepted filter speaks of columns of its table only, at every level.
-/

namespace TableGraph.Filter

/-- A filter speaks only of columns of which `P` holds. -/
inductive About (P : Field → Prop) : Filter → Prop
  /-- The conditions, the column without a value and the filters below speak of such columns. -/
  | node {groups : List (List Condition)} {missing : Option Field}
    {noneOf anyOf allOf : List Filter} (hgroups : ∀ g ∈ groups, ∀ c ∈ g, P c.field)
    (hmissing : ∀ f, missing = some f → P f) (hnone : ∀ f ∈ noneOf, About P f)
    (hany : ∀ f ∈ anyOf, About P f) (hall : ∀ f ∈ allOf, About P f) :
    About P (.node groups missing noneOf anyOf allOf)

/-- A filter that speaks of some columns only speaks of more columns only. -/
theorem About.mono {P Q : Field → Prop} (hPQ : ∀ f, P f → Q f) {f : Filter} (h : About P f) :
    About Q f := by
  induction h with
  | node hgroups hmissing _ _ _ hnone hany hall =>
    exact .node (fun g hg c hc => hPQ _ (hgroups g hg c hc)) (fun f hf => hPQ _ (hmissing f hf))
      hnone hany hall

variable {s : Shape}

/-- Conditions without values speak of columns of the table. -/
theorem namedConditions_about {c : Comparison} {names : List Json} {cs : List Condition}
    (h : namedConditions s c names = .ok cs) : ∀ x ∈ cs, x.field ∈ s.table.fields := by
  induction names generalizing cs with
  | nil =>
    cases h
    exact fun x hx => absurd hx List.not_mem_nil
  | cons j names ih =>
    obtain ⟨name, f, more, rfl, hf, hmore, rfl⟩ := namedConditions_cons_eq_ok_iff.mp h
    exact List.forall_mem_cons.mpr ⟨mem_fields_of_column? hf, ih hmore⟩

/-- Conditions with values speak of columns of the table. -/
theorem valuedConditions_about {c : Comparison} {values : List (String × Json)}
    {cs : List Condition} (h : valuedConditions s c values = .ok cs) :
    ∀ x ∈ cs, x.field ∈ s.table.fields := by
  induction values generalizing cs with
  | nil =>
    cases h
    exact fun x hx => absurd hx List.not_mem_nil
  | cons m values ih =>
    obtain ⟨name, v⟩ := m
    obtain ⟨f, more, hf, hmore, rfl⟩ := valuedConditions_cons_eq_ok_iff.mp h
    exact List.forall_mem_cons.mpr ⟨mem_fields_of_column? hf, ih hmore⟩

/-- The conditions under a comparison speak of columns of the table. -/
theorem conditions_about {c : Comparison} {v : Json} {cs : List Condition}
    (h : conditions s c v = .ok cs) : ∀ x ∈ cs, x.field ∈ s.table.fields := by
  cases v with
  | null =>
    cases h
    exact fun x hx => absurd hx List.not_mem_nil
  | str name =>
    have hnamed : namedConditions s c [.str name] = .ok cs := h
    exact namedConditions_about hnamed
  | arr names => exact namedConditions_about h
  | obj values => exact valuedConditions_about h
  | bool b => cases h
  | num n => cases h

/-- The groups of conditions speak of columns of the table. -/
theorem groups_about {ms : List (String × Json)} {gs : List (List Condition)}
    (h : groups s ms = .ok gs) : ∀ g ∈ gs, ∀ c ∈ g, c.field ∈ s.table.fields := by
  induction ms generalizing gs with
  | nil =>
    cases h
    exact fun g hg => absurd hg List.not_mem_nil
  | cons m ms ih =>
    obtain ⟨key, v⟩ := m
    rcases groups_cons_eq_ok_iff.mp h with ⟨_, h⟩ | ⟨_, c, group, more, _, hgroup, hmore, rfl⟩
    · exact ih h
    · intro g hg
      rcases List.mem_cons.mp hg with rfl | hg
      · exact conditions_about hgroup
      · exact ih hmore g hg

/-- An accepted filter speaks of columns of the table only. -/
theorem ofJson_about {j : Json} {f : Filter} (h : ofJson s j = .ok f) :
    About (fun c => c ∈ s.table.fields) f := by
  induction j using nested_induction generalizing f with
  | step j ih =>
    rcases null_or_obj_of_ofJson h with ⟨rfl, rfl⟩ | ⟨ms, rfl⟩
    · exact .node nofun nofun nofun nofun nofun
    · obtain ⟨gs, m, noneOf, anyOf, allOf, hg, hm, hnone, hany, hall, rfl⟩ :=
        ofJson_obj_eq_ok_iff.mp h
      have hitems : ∀ {name : String} {fs : List Filter},
          List.Forall₂ (fun j f => ofJson s j = .ok f) (Members.nested ms name) fs →
            ∀ f ∈ fs, About (fun c => c ∈ s.table.fields) f := by
        intro name fs hfs f hf
        obtain ⟨j, hj, hread⟩ := exists_of_mem_forall₂ hfs.flip hf
        exact ih ms rfl name j hj hread
      refine .node (groups_about hg) ?_ (hitems hnone) (hitems hany) (hitems hall)
      rintro f rfl
      exact mem_fields_of_missing hm

end TableGraph.Filter
