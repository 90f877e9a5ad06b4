import TableGraph.Proofs.Filter.Accepted
import TableGraph.Proofs.Members
import TableGraph.Proofs.Sql.Conditions

/-!
# Filters that differ in strings only

Two `where` arguments that are the same but for the contents of the strings that columns are
compared with. If one of them is accepted then so is the other, and they are read as filters that
are the same but for these strings.
-/

namespace TableGraph.Filter

open Postgres

/-- The members of a filter that hold filters. -/
def nestingKeys : List String := ["not", "or", "and"]

section

variable (R : String → String → Prop)

/-- Entries of a comparison that are the same but for strings. -/
inductive SameEntry : String × Json → String × Json → Prop
  /-- A value that is no string. -/
  | same (name : String) (v : Json) (h : ∀ a, v ≠ .str a) : SameEntry (name, v) (name, v)
  /-- Strings. -/
  | text (name : String) {a b : String} (h : R a b) : SameEntry (name, .str a) (name, .str b)

mutual

/-- Filters that are the same but for the strings that columns are compared with. `R` holds of the
strings at the same place, and of two empty strings if anything is compared with the empty one. -/
inductive Same : Json → Json → Prop
  /-- Filters with members. -/
  | object {ms ns : List (String × Json)} (h : SameMembers ms ns) : Same (.obj ms) (.obj ns)
  /-- Lists of filters. -/
  | list {js ks : List Json} (h : SameItems js ks) : Same (.arr js) (.arr ks)
  /-- Anything else. -/
  | other (j : Json) (ho : ∀ ms, j ≠ .obj ms) (ha : ∀ js, j ≠ .arr js) : Same j j

/-- Lists of filters that are the same but for strings. -/
inductive SameItems : List Json → List Json → Prop
  /-- No filters. -/
  | nil : SameItems [] []
  /-- One more filter on either side. -/
  | cons {j k : Json} {js ks : List Json} (head : Same j k) (tail : SameItems js ks) :
    SameItems (j :: js) (k :: ks)

/-- Members of filters that are the same but for strings. -/
inductive SameMembers : List (String × Json) → List (String × Json) → Prop
  /-- No members. -/
  | nil : SameMembers [] []
  /-- A member that holds filters. -/
  | nested {key : String} {v w : Json} {ms ns : List (String × Json)} (hk : key ∈ nestingKeys)
    (head : Same v w) (tail : SameMembers ms ns) : SameMembers ((key, v) :: ms) ((key, w) :: ns)
  /-- A comparison of columns with values. -/
  | compared {key : String} {vs ws ms ns : List (String × Json)}
    (hk : (Comparison.ofKey? key).isSome) (he : Comparison.ofKey? key = some .isEmpty → R "" "")
    (head : List.Forall₂ (SameEntry R) vs ws) (tail : SameMembers ms ns) :
    SameMembers ((key, .obj vs) :: ms) ((key, .obj ws) :: ns)
  /-- Any other member. -/
  | other {key : String} {v : Json} {ms ns : List (String × Json)} (hk : key ∉ nestingKeys)
    (hv : (Comparison.ofKey? key).isSome → ∀ vs, v ≠ .obj vs)
    (he : Comparison.ofKey? key = some .isEmpty → R "" "") (tail : SameMembers ms ns) :
    SameMembers ((key, v) :: ms) ((key, v) :: ns)

end

/-- Conditions that are the same but for the string of the value. `N` holds of the column. -/
structure SameCondition (N : String → Prop) (c c' : Condition) : Prop where
  /-- The same comparison. -/
  comparison : c.comparison = c'.comparison
  /-- The same column. -/
  field : c.field = c'.field
  /-- A column with a known name. -/
  named : N c.field.name
  /-- Values that are the same but for strings. -/
  value : SameValue R c.value c'.value
  /-- Two empty strings, if the column is compared with the empty one. -/
  empty : c.comparison = .isEmpty → R "" ""

mutual

/-- Filters that are the same but for strings. -/
inductive SameFilter (N : String → Prop) : Filter → Filter → Prop
  /-- The same groups, the same column without a value and the same filters. -/
  | node {gs gs' : List (List Condition)} {missing : Option Field}
    {noneOf noneOf' anyOf anyOf' allOf allOf' : List Filter}
    (groups : List.Forall₂ (List.Forall₂ (SameCondition R N)) gs gs')
    (named : ∀ f, missing = some f → N f.name) (hnone : SameFilters N noneOf noneOf')
    (hany : SameFilters N anyOf anyOf') (hall : SameFilters N allOf allOf') :
    SameFilter N (.node gs missing noneOf anyOf allOf) (.node gs' missing noneOf' anyOf' allOf')

/-- Lists of filters that are the same but for strings. -/
inductive SameFilters (N : String → Prop) : List Filter → List Filter → Prop
  /-- No filters. -/
  | nil : SameFilters N [] []
  /-- One more filter on either side. -/
  | cons {f f' : Filter} {fs fs' : List Filter} (head : SameFilter N f f')
    (tail : SameFilters N fs fs') : SameFilters N (f :: fs) (f' :: fs')

end

end

section

variable {R : String → String → Prop} {N : String → Prop} {s : Shape}

/-- Strings and nothing else differ in entries of a comparison. -/
theorem SameEntry.value {x y : String × Json} (h : SameEntry R x y) :
    x.1 = y.1 ∧ SameValue R (if x.2.isNull then none else some x.2)
      (if y.2.isNull then none else some y.2) := by
  cases h with
  | text name h => exact ⟨rfl, .text h⟩
  | same name v h =>
    refine ⟨rfl, .same _ ?_⟩
    intro a he
    split at he
    · cases he
    · exact h a (Option.some.inj he)

/-- Conditions with values are the same but for strings. -/
theorem valuedConditions_same (hN : ∀ g ∈ s.table.fields, N g.name) {c : Comparison}
    (hR : c = .isEmpty → R "" "") {vs ws : List (String × Json)}
    (h : List.Forall₂ (SameEntry R) vs ws) {cs : List Condition}
    (hc : valuedConditions s c vs = .ok cs) :
    ∃ cs', valuedConditions s c ws = .ok cs' ∧ List.Forall₂ (SameCondition R N) cs cs' := by
  induction h generalizing cs with
  | nil =>
    cases hc
    exact ⟨[], rfl, .nil⟩
  | @cons x y vs ws hx _ ih =>
    obtain ⟨name, v⟩ := x
    obtain ⟨name', w⟩ := y
    obtain ⟨hname, hvalue⟩ := hx.value
    dsimp only at hname
    subst hname
    obtain ⟨f, more, hf, hmore, rfl⟩ := valuedConditions_cons_eq_ok_iff.mp hc
    obtain ⟨more', hmore', hsame⟩ := ih hmore
    have hn : N f.name := hN f (mem_fields_of_column? hf)
    exact ⟨_, valuedConditions_cons_eq_ok_iff.mpr ⟨f, more', hf, hmore', rfl⟩,
      .cons ⟨rfl, rfl, hn, hvalue, hR⟩ hsame⟩

/-- Conditions without values hold no strings. -/
theorem namedConditions_same (hN : ∀ g ∈ s.table.fields, N g.name) {c : Comparison}
    (hR : c = .isEmpty → R "" "") {names : List Json} {cs : List Condition}
    (hc : namedConditions s c names = .ok cs) :
    List.Forall₂ (SameCondition R N) cs cs := by
  induction names generalizing cs with
  | nil =>
    cases hc
    exact .nil
  | cons j names ih =>
    obtain ⟨name, f, more, rfl, hf, hmore, rfl⟩ := namedConditions_cons_eq_ok_iff.mp hc
    have hn : N f.name := hN f (mem_fields_of_column? hf)
    exact .cons ⟨rfl, rfl, hn, .same none fun _ h => (nomatch h), hR⟩ (ih hmore)

/-- Conditions under a value that is no object hold no strings. -/
theorem conditions_same (hN : ∀ g ∈ s.table.fields, N g.name) {c : Comparison}
    (hR : c = .isEmpty → R "" "") {v : Json} (hv : ∀ vs, v ≠ .obj vs) {cs : List Condition}
    (hc : conditions s c v = .ok cs) :
    List.Forall₂ (SameCondition R N) cs cs := by
  cases v with
  | null =>
    cases hc
    exact .nil
  | str name => exact @namedConditions_same R N s hN c hR [.str name] cs hc
  | arr names => exact namedConditions_same hN hR hc
  | obj values => exact absurd rfl (hv values)
  | bool b => cases hc
  | num n => cases hc

/-- The members that hold filters are no comparisons. -/
theorem mem_combinations_of_mem_nestingKeys {key : String} (h : key ∈ nestingKeys) :
    key ∈ combinations := by
  simp only [nestingKeys, List.mem_cons, List.not_mem_nil, or_false] at h
  rcases h with rfl | rfl | rfl <;> decide

/-- The groups of conditions are the same but for strings. -/
theorem groups_same (hN : ∀ g ∈ s.table.fields, N g.name) :
    ∀ {ms ns : List (String × Json)}, SameMembers R ms ns → ∀ {gs : List (List Condition)},
      groups s ms = .ok gs →
        ∃ gs', groups s ns = .ok gs' ∧ List.Forall₂ (List.Forall₂ (SameCondition R N)) gs gs'
  | _, _, .nil, gs, hg => by
    cases hg
    exact ⟨[], rfl, .nil⟩
  | _, _, .nested hk _ tail, gs, hg => by
    have hskip := mem_combinations_of_mem_nestingKeys hk
    rcases groups_cons_eq_ok_iff.mp hg with ⟨_, hg⟩ | ⟨hnot, _⟩
    · obtain ⟨gs', hgs', hsame⟩ := groups_same hN tail hg
      exact ⟨gs', groups_cons_eq_ok_iff.mpr (Or.inl ⟨hskip, hgs'⟩), hsame⟩
    · exact absurd hskip hnot
  | _, _, .compared hk he head tail, gs, hg => by
    rcases groups_cons_eq_ok_iff.mp hg with ⟨hskip, _⟩
      | ⟨hnot, c, group, more, hc, hgroup, hmore, rfl⟩
    · rw [ofKey?_of_mem_combinations hskip] at hk
      cases hk
    · obtain ⟨group', hgroup', hconditions⟩ :=
        valuedConditions_same hN (fun hempty => he (hempty ▸ hc)) head hgroup
      obtain ⟨more', hmore', hsame⟩ := groups_same hN tail hmore
      exact ⟨group' :: more',
        groups_cons_eq_ok_iff.mpr (Or.inr ⟨hnot, c, group', more', hc, hgroup', hmore', rfl⟩),
        .cons hconditions hsame⟩
  | _, _, .other _ hv he tail, gs, hg => by
    rcases groups_cons_eq_ok_iff.mp hg with ⟨hskip, hg⟩
      | ⟨hnot, c, group, more, hc, hgroup, hmore, rfl⟩
    · obtain ⟨gs', hgs', hsame⟩ := groups_same hN tail hg
      exact ⟨gs', groups_cons_eq_ok_iff.mpr (Or.inl ⟨hskip, hgs'⟩), hsame⟩
    · obtain ⟨more', hmore', hsame⟩ := groups_same hN tail hmore
      exact ⟨group :: more',
        groups_cons_eq_ok_iff.mpr (Or.inr ⟨hnot, c, group, more', hc, hgroup, hmore', rfl⟩),
        .cons (conditions_same hN (fun hempty => he (hempty ▸ hc)) (hv (by rw [hc]; rfl)) hgroup)
          hsame⟩

/-- Members that are no filters and no comparisons are the same. -/
theorem get?_same {name : String} (hk : name ∉ nestingKeys) (hc : Comparison.ofKey? name = none) :
    ∀ {ms ns : List (String × Json)}, SameMembers R ms ns →
      Members.get? ms name = Members.get? ns name
  | _, _, .nil => rfl
  | _, _, @SameMembers.nested _ key _ _ _ _ hkey _ tail => by
    have hne : ¬key = name := fun he => hk (he ▸ hkey)
    simp [hne, get?_same hk hc tail]
  | _, _, @SameMembers.compared _ key _ _ _ _ hkey _ _ tail => by
    have hne : ¬key = name := by
      rintro rfl
      rw [hc] at hkey
      cases hkey
    simp [hne, get?_same hk hc tail]
  | _, _, .other _ _ _ tail => by simp [get?_same hk hc tail]

/-- The first member holds no filters under other names. -/
@[simp]
theorem nested_cons_of_ne {key name : String} (h : key ≠ name) (v : Json) (ms : Members Json) :
    Members.nested ((key, v) :: ms) name = Members.nested ms name := by
  simp [Members.nested, h]

/-- Filters under a name are the same but for strings. -/
theorem nested_same {name : String} (hk : name ∈ nestingKeys) :
    ∀ {ms ns : List (String × Json)}, SameMembers R ms ns →
      SameItems R (Members.nested ms name) (Members.nested ns name)
  | _, _, .nil => .nil
  | _, _, @SameMembers.nested _ key v _ _ _ _ head tail => by
    by_cases he : key = name
    · simp only [Members.nested, Members.get?_cons, if_pos he]
      cases head with
      | object h => exact .cons (.object h) .nil
      | list h => exact h
      | other _ ho ha =>
        cases v with
        | null => exact .nil
        | arr items => exact absurd rfl (ha items)
        | obj members => exact absurd rfl (ho members)
        | bool b => exact .cons (.other _ ho ha) .nil
        | num n => exact .cons (.other _ ho ha) .nil
        | str t => exact .cons (.other _ ho ha) .nil
    · simpa [he] using nested_same hk tail
  | _, _, @SameMembers.compared _ key _ _ _ _ hkey _ _ tail => by
    have hne : ¬key = name := by
      rintro rfl
      rw [ofKey?_of_mem_combinations (mem_combinations_of_mem_nestingKeys hk)] at hkey
      cases hkey
    simpa [hne] using nested_same hk tail
  | _, _, @SameMembers.other _ key _ _ _ hkey _ _ tail => by
    have hne : ¬key = name := fun he => hkey (he ▸ hk)
    simpa [hne] using nested_same hk tail

/-- Filters are read as filters that are the same but for strings, if each of them is. -/
theorem items_same {js ks : List Json} {fs : List Filter}
    (h : List.Forall₂ (fun j f => ofJson s j = .ok f) js fs)
    (hj : ∀ j ∈ js, ∀ {k : Json} {f : Filter}, Same R j k → ofJson s j = .ok f →
      ∃ g, ofJson s k = .ok g ∧ SameFilter R N f g) (hs : SameItems R js ks) :
    ∃ gs, List.Forall₂ (fun k g => ofJson s k = .ok g) ks gs ∧ SameFilters R N fs gs := by
  induction h generalizing ks with
  | nil =>
    cases hs
    exact ⟨[], .nil, .nil⟩
  | cons hf _ ih =>
    cases hs with
    | cons head tail =>
      obtain ⟨g, hg, hsame⟩ := hj _ List.mem_cons_self head hf
      obtain ⟨gs, hgs, hrest⟩ := ih (fun j hmem => hj j (List.mem_cons_of_mem _ hmem)) tail
      exact ⟨g :: gs, .cons hg hgs, .cons hsame hrest⟩

/-- If a filter is accepted then so is one that is the same but for strings, and what they are read
as is the same but for strings. -/
theorem ofJson_same (hN : ∀ g ∈ s.table.fields, N g.name) {j k : Json} {f : Filter}
    (h : Same R j k) (hf : ofJson s j = .ok f) :
    ∃ g, ofJson s k = .ok g ∧ SameFilter R N f g := by
  induction j using nested_induction generalizing k f with
  | step j ih =>
    cases h with
    | list h => simp [ofJson] at hf
    | other j ho ha =>
      rcases null_or_obj_of_ofJson hf with ⟨rfl, rfl⟩ | ⟨ms, rfl⟩
      · refine ⟨empty, hf, .node .nil ?_ .nil .nil .nil⟩
        intro f he
        cases he
      · exact absurd rfl (ho ms)
    | @object ms ns h =>
      have hitems : ∀ {name : String} {fs : List Filter}, name ∈ nestingKeys →
          List.Forall₂ (fun j f => ofJson s j = .ok f) (Members.nested ms name) fs →
          ∃ gs, List.Forall₂ (fun k g => ofJson s k = .ok g) (Members.nested ns name) gs
            ∧ SameFilters R N fs gs := by
        intro name fs hk hfs
        refine items_same hfs ?_ (nested_same hk h)
        intro j hj k f hs hf
        exact ih ms rfl name j hj hs hf
      obtain ⟨gs, m, noneOf, anyOf, allOf, hg, hm, hnone, hany, hall, rfl⟩ :=
        ofJson_obj_eq_ok_iff.mp hf
      obtain ⟨gs', hg', hgroups⟩ := groups_same hN h hg
      obtain ⟨noneOf', hnone', hsameNone⟩ := hitems (by decide) hnone
      obtain ⟨anyOf', hany', hsameAny⟩ := hitems (by decide) hany
      obtain ⟨allOf', hall', hsameAll⟩ := hitems (by decide) hall
      rw [get?_same (by decide) (by decide) h] at hm
      refine ⟨.node gs' m noneOf' anyOf' allOf',
        ofJson_obj_eq_ok_iff.mpr
          ⟨gs', m, noneOf', anyOf', allOf', hg', hm, hnone', hany', hall', rfl⟩,
        .node hgroups ?_ hsameNone hsameAny hsameAll⟩
      intro g he
      exact hN g (mem_fields_of_missing (he ▸ hm))

end

end TableGraph.Filter
