import TableGraph.Proofs.Filter.Formula
import TableGraph.Proofs.Filter.Same

/-!
# Filters spelt alike

The texts of filters that are the same but for strings are spelt alike: whatever is compared with a
column, the strings stay quoted tokens in the same places.
-/

namespace TableGraph.Filter

open Sql Postgres

variable {R : String → String → Prop} {N : String → Prop}

/-- Texts that are spelt alike and are both empty or not. -/
def SpokenAlike (R : String → String → Prop) (N : String → Prop) (a b : String) : Prop :=
  Spelt R N a b ∧ (a = "" ↔ b = "")

/-- Of texts that are spelt alike, those that are not empty are. -/
theorem spoken_alike {xs ys : List String} (h : List.Forall₂ (SpokenAlike R N) xs ys) :
    List.Forall₂ (Spelt R N) (spoken xs) (spoken ys) := by
  induction h with
  | nil => exact .nil
  | @cons x y xs ys hx _ ih =>
    unfold spoken at ih ⊢
    by_cases he : x = ""
    · rw [List.filter_cons_of_neg (by simp [he]), List.filter_cons_of_neg (by simp [hx.2.mp he])]
      exact ih
    · have hy : y ≠ "" := fun h => he (hx.2.mpr h)
      rw [List.filter_cons_of_pos (by simp [he]), List.filter_cons_of_pos (by simp [hy])]
      exact .cons hx.1 ih

/-- Texts in parentheses are spelt alike. -/
theorem enclosed_alike {lead separator : String} (hl : Plain (lead ++ "(")) (hs : Plain separator)
    (hne : separator ≠ "") {xs ys : List String} (h : List.Forall₂ (Spelt R N) xs ys) :
    List.Forall₂ (Spelt R N) (enclosed lead separator xs) (enclosed lead separator ys) := by
  unfold enclosed
  cases h with
  | nil => exact .nil
  | cons hx hxs =>
    rw [if_neg (List.cons_ne_nil _ _), if_neg (List.cons_ne_nil _ _)]
    refine .cons ?_ .nil
    have hbody := (spelt_joined hs hne (.cons hx hxs)).behind hl (by simp)
    exact hbody.spelt.before (by decide)

/-- Groups of conditions are spelt alike. -/
theorem groupTexts_alike (db : String) {table : String} (ht : Plain table)
    {gs gs' : List (List Condition)}
    (h : List.Forall₂ (List.Forall₂ (SameCondition R N)) gs gs') :
    List.Forall₂ (Spelt R N) (groupTexts (dialect db) table gs)
      (groupTexts (dialect db) table gs') := by
  unfold groupTexts
  induction h with
  | nil => exact .nil
  | cons hg _ ih =>
    rw [List.flatMap_cons, List.flatMap_cons]
    refine List.rel_append (enclosed_alike (by decide) (by decide) (by decide) (spoken_alike ?_)) ih
    rw [List.forall₂_map_left_iff, List.forall₂_map_right_iff]
    refine hg.imp ?_
    intro c c' hc
    unfold conditionText
    rw [← hc.comparison, ← hc.field]
    exact condition_alike ht hc.empty hc.named hc.value

/-- The condition that a column has no value is spelt with the name of the column. -/
theorem missingTexts_alike (db : String) {table : String} (ht : Plain table)
    {missing : Option Field}
    (hn : ∀ f, missing = some f → N f.name) :
    List.Forall₂ (Spelt R N) (missingTexts (dialect db) table missing)
      (missingTexts (dialect db) table missing) := by
  cases missing with
  | none => exact .nil
  | some f => exact .cons ((column_spelt ht (hn f rfl)).before (by decide)) .nil

/-- Filters with parts that are spelt alike have texts that are. -/
theorem text_alike {db table : String} {f f' : Filter}
    (h : List.Forall₂ (Spelt R N) (f.parts (dialect db) table) (f'.parts (dialect db) table)) :
    SpokenAlike R N (f.text (dialect db) table) (f'.text (dialect db) table) := by
  refine ⟨spelt_joined (by decide) (by decide) h, ?_⟩
  rw [text_eq_empty_iff, text_eq_empty_iff, ← List.length_eq_zero_iff, ← List.length_eq_zero_iff,
    h.length_eq]

mutual

/-- The parts of filters that are the same but for strings are spelt alike. -/
theorem SameFilter.parts (db : String) {table : String} (ht : Plain table) :
    ∀ {f f' : Filter}, SameFilter R N f f' →
      List.Forall₂ (Spelt R N) (f.parts (dialect db) table) (f'.parts (dialect db) table)
  | _, _, .node groups named hnone hany hall => by
    have hgroups := groupTexts_alike db ht groups
    have hmissing := missingTexts_alike (R := R) db ht named
    have hnot := enclosed_alike (show Plain ("NOT " ++ "(") by decide)
      (show Plain " AND " by decide) (by decide) (SameFilters.texts db ht hnone)
    have hor := enclosed_alike (show Plain ("" ++ "(") by decide) (show Plain " OR " by decide)
      (by decide) (SameFilters.texts db ht hany)
    have hand := enclosed_alike (show Plain ("" ++ "(") by decide) (show Plain " AND " by decide)
      (by decide) (SameFilters.texts db ht hall)
    unfold Filter.parts
    exact List.rel_append (List.rel_append (List.rel_append (List.rel_append hgroups hmissing) hnot)
      hor) hand

/-- The texts of filters that are the same but for strings are spelt alike. -/
theorem SameFilters.texts (db : String) {table : String} (ht : Plain table) :
    ∀ {fs fs' : List Filter}, SameFilters R N fs fs' →
      List.Forall₂ (Spelt R N) (Filter.texts (dialect db) table fs)
        (Filter.texts (dialect db) table fs')
  | _, _, .nil => .nil
  | _, _, .cons head tail => by
    have hspoken := text_alike (SameFilter.parts db ht head)
    unfold Filter.texts
    exact List.rel_append (spoken_alike (.cons hspoken .nil)) (SameFilters.texts db ht tail)

end

/-- If a `where` argument is accepted then so is one that is the same but for strings, and their
texts are spelt alike. -/
theorem argumentText_alike (db : String) {table : String} (ht : Plain table) {s : Shape}
    (hN : ∀ g ∈ s.table.fields, N g.name) {argument argument' : Option Json}
    (h : Option.Rel (Same R) argument argument') {text : String}
    (htext : argumentText (dialect db) s table argument = .ok text) :
    ∃ text', argumentText (dialect db) s table argument' = .ok text'
      ∧ SpokenAlike R N text text' := by
  have hvalue : Same R (argument.getD .null) (argument'.getD .null) := by
    cases h with
    | none => exact .other _ (fun _ h => by cases h) fun _ h => by cases h
    | some h => exact h
  obtain ⟨f, hf, htext⟩ := bind_eq_ok_iff.mp htext
  cases htext
  obtain ⟨g, hg, hsame⟩ := ofJson_same hN hvalue hf
  exact ⟨g.text (dialect db) table, bind_eq_ok_iff.mpr ⟨g, hg, rfl⟩,
    text_alike (SameFilter.parts db ht hsame)⟩

end TableGraph.Filter
