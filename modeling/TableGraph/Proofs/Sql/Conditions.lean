import TableGraph.Proofs.Sql.Literal

/-!
# Conditions spelt alike

Whatever text a column is compared with, the condition is spelt alike: the text stays one quoted
token.
-/

namespace TableGraph.Postgres

open Sql

variable {R : String → String → Prop} {N : String → Prop}

/-- Values of a comparison that are the same but for the contents of strings, of which `R` holds. -/
inductive SameValue (R : String → String → Prop) : Option Json → Option Json → Prop
  /-- The same value that is no string. -/
  | same (v : Option Json) (h : ∀ a, v ≠ some (.str a)) : SameValue R v v
  /-- Strings. -/
  | text {a b : String} (h : R a b) : SameValue R (some (.str a)) (some (.str b))

/-- Literals of values that are the same but for strings. -/
theorem literal?_alike {v v' : Option Json} (h : SameValue R v v') :
    v.bind literal? = none ∧ v'.bind literal? = none
      ∨ ∃ l l', v.bind literal? = some l ∧ v'.bind literal? = some l' ∧ Spelt R N l l' := by
  cases h with
  | text h => exact Or.inr ⟨_, _, rfl, rfl, spelt_text h⟩
  | same v hv =>
    cases v with
    | none => exact Or.inl ⟨rfl, rfl⟩
    | some j =>
      cases j with
      | null => exact Or.inl ⟨rfl, rfl⟩
      | arr items => exact Or.inl ⟨rfl, rfl⟩
      | obj members => exact Or.inl ⟨rfl, rfl⟩
      | str a => exact absurd rfl (hv a)
      | num n => exact Or.inr ⟨_, _, rfl, rfl, (plain_number n).spelt.spelt⟩
      | bool b =>
        have ht : Plain "TRUE" := by decide
        have hf : Plain "FALSE" := by decide
        cases b with
        | true => exact Or.inr ⟨_, _, rfl, rfl, ht.spelt.spelt⟩
        | false => exact Or.inr ⟨_, _, rfl, rfl, hf.spelt.spelt⟩

/-- Expressions taken as time stamps are spelt alike. -/
theorem asStamp_alike (f : Field) {a b : String} (h : Spelt R N a b) :
    Spelt R N (asStamp f a) (asStamp f b) := by
  unfold asStamp
  by_cases hd : f.type = .date
  · rw [if_pos hd, if_pos hd]
    exact (h.behind (by decide) (by decide)).spelt.before (by decide)
  · rw [if_neg hd, if_neg hd]
    exact h

/-- Comparisons of one expression with literals are spelt alike. -/
theorem compare_alike {c : Comparison} (hR : c = .isEmpty → R "" "") {column l l' : String}
    (hc : Spelt R N column column) (hl : Spelt R N l l') :
    Spelt R N (compare c column l) (compare c column l') := by
  cases c with
  | equals => exact hc.between (by decide) (by decide) hl
  | contains =>
    exact ((hc.behind (by decide) (by decide)).spelt.between (by decide) (by decide) hl).before
      (by decide)
  | begins =>
    exact ((hc.behind (by decide) (by decide)).spelt.between (by decide) (by decide) hl).between
      (by decide) (by decide) hl
  | ends =>
    exact ((hc.behind (by decide) (by decide)).spelt.between (by decide) (by decide) hl).between
      (by decide) (by decide) hl
  | greater => exact hc.between (by decide) (by decide) hl
  | less => exact hc.between (by decide) (by decide) hl
  | isEmpty =>
    have he : column ++ " = ''" = column ++ " = " ++ Text.delimited '\'' "" := by
      rw [String.append_assoc]
      rfl
    change Spelt R N (column ++ " = ''") (column ++ " = ''")
    rw [he]
    exact hc.between (by decide) (by decide) (spelt_text (hR rfl))

/-- A comparison says something. -/
theorem compare_ne_empty (c : Comparison) (column l : String) : compare c column l ≠ "" := by
  have hbehind : ∀ {a b : String}, b ≠ "" → a ++ b ≠ "" := fun hb h =>
    hb (String.append_eq_empty_iff.mp h).2
  have hamid : ∀ {a b : String} (c : String), b ≠ "" → a ++ b ++ c ≠ "" := fun _ hb h =>
    hbehind hb (String.append_eq_empty_iff.mp h).1
  cases c with
  | equals => exact hamid l (by decide)
  | contains => exact hbehind (by decide)
  | begins => exact hamid l (by decide)
  | ends => exact hamid l (by decide)
  | greater => exact hamid l (by decide)
  | less => exact hamid l (by decide)
  | isEmpty => exact hbehind (by decide)

/-- A column of an alias is spelt with its name. -/
theorem column_spelt {table : String} (ht : Plain table) {name : String} (hn : N name) :
    Spelt R N (table ++ "." ++ Catalog.quoteIdentifier name)
      (table ++ "." ++ Catalog.quoteIdentifier name) :=
  ht.spelt.spelt.between (by decide) (by decide) (spelt_identifier hn)

/-- Conditions are spelt alike, and are both there or not, whatever strings are compared with. -/
theorem condition_alike {table : String} (ht : Plain table) {c : Comparison}
    (hR : c = .isEmpty → R "" "") {f : Field} (hf : N f.name) {v v' : Option Json}
    (hv : SameValue R v v') :
    Spelt R N (condition c table f v) (condition c table f v')
      ∧ (condition c table f v = "" ↔ condition c table f v' = "") := by
  have hcolumn : Spelt R N (asStamp f (table ++ "." ++ Catalog.quoteIdentifier f.name))
      (asStamp f (table ++ "." ++ Catalog.quoteIdentifier f.name)) :=
    asStamp_alike f (column_spelt ht hf)
  unfold condition
  dsimp only
  by_cases he : c = .isEmpty
  · rw [if_pos he, if_pos he]
    have hempty : Plain "" := by decide
    exact ⟨compare_alike (fun _ => hR he) hcolumn hempty.spelt.spelt, Iff.rfl⟩
  · rw [if_neg he, if_neg he]
    have hl := @literal?_alike R N v v' hv
    rcases hl with ⟨hn, hn'⟩ | ⟨l, l', hl, hl', halike⟩
    · rw [hn, hn']
      have hempty : Plain "" := by decide
      exact ⟨hempty.spelt.spelt, Iff.rfl⟩
    · rw [hl, hl']
      refine ⟨compare_alike hR hcolumn (asStamp_alike f halike), ?_⟩
      exact ⟨fun h => absurd h (compare_ne_empty _ _ _), fun h => absurd h (compare_ne_empty _ _ _)⟩

end TableGraph.Postgres
