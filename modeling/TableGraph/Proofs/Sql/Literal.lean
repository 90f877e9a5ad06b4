import TableGraph.Plan.Planning
import TableGraph.Proofs.Decimal.Digits
import TableGraph.Proofs.Sql.Spelling
import TableGraph.Sql.Postgres

/-!
# Literals and aliases

Numbers and aliases are written without quotes, so they are made of unquoted characters only.
-/

namespace TableGraph.Sql

open Decimal

/-- A digit is no mark. -/
theorem isMark_of_isDigit {c : Char} (h : isDigit c = true) : isMark c = false := by
  unfold isMark
  rw [Bool.or_eq_false_iff, decide_eq_false_iff_not, decide_eq_false_iff_not]
  constructor
  · rintro rfl
    revert h
    decide
  · rintro rfl
    revert h
    decide

/-- Characters without marks. -/
def PlainChars (cs : List Char) : Prop := ∀ c ∈ cs, isMark c = false

instance (cs : List Char) : Decidable (PlainChars cs) :=
  List.decidableBAll (fun c => isMark c = false) cs

/-- Lists without marks put together. -/
theorem PlainChars.append {cs ds : List Char} (hc : PlainChars cs) (hd : PlainChars ds) :
    PlainChars (cs ++ ds) := by
  intro c h
  rcases List.mem_append.mp h with h | h
  · exact hc c h
  · exact hd c h

/-- A list without marks with one more such character. -/
theorem PlainChars.cons {c : Char} {cs : List Char} (h : isMark c = false) (hc : PlainChars cs) :
    PlainChars (c :: cs) := by
  intro d hd
  rcases List.mem_cons.mp hd with rfl | hd
  · exact h
  · exact hc d hd

/-- Part of a list without marks. -/
theorem PlainChars.sublist {cs ds : List Char} (hd : PlainChars ds) (h : cs ⊆ ds) :
    PlainChars cs := fun c hc => hd c (h hc)

/-- Zeros are no marks. -/
theorem plainChars_zeros (n : Nat) : PlainChars (List.replicate n '0') := by
  intro c hc
  rw [List.eq_of_mem_replicate hc]
  rfl

/-- Digits are no marks. -/
theorem plainChars_digits (n : Nat) : PlainChars (digits n) :=
  fun _ hc => isMark_of_isDigit (isDigit_of_mem_digits hc)

/-- Digits with a point among them are written without marks. -/
theorem plainChars_positional {cs : List Char} (h : PlainChars cs) (places : Int) :
    PlainChars (positional cs places) := by
  unfold positional
  split
  · exact .cons rfl (.cons rfl ((plainChars_zeros _).append h))
  · dsimp only
    split
    · exact (h.append (plainChars_zeros _)).append (by decide)
    · exact (h.sublist (List.take_subset _ _)).append (.cons rfl (h.sublist (List.drop_subset _ _)))

/-- Digits with an exponent are written without marks. -/
theorem plainChars_scientific {cs : List Char} (h : PlainChars cs) (e : Int) :
    PlainChars (scientific cs e) := by
  unfold scientific
  refine (((h.sublist (List.take_subset _ _)).append ?_).append ?_).append (plainChars_digits _)
  · split
    · exact fun c hc => absurd hc List.not_mem_nil
    · exact .cons rfl (h.sublist (List.drop_subset _ _))
  · split
    · decide
    · decide

/-- A floating-point number is written without marks. -/
theorem plain_double (d : Double) : Plain d.text := by
  have hsign : PlainChars (if d.isNegative then ['-'] else []) := by
    split
    · decide
    · decide
  have hchars : ∀ cs, PlainChars cs → Plain (String.ofList cs) := by
    intro cs hcs c hc
    rw [String.toList_ofList] at hc
    exact hcs c hc
  unfold Double.text
  dsimp only
  generalize (if d.isNegative then ['-'] else []) = sign at *
  split
  · split
    · exact hchars _ (hsign.append (by decide))
    · decide
  · split
    · exact hchars _ (hsign.append (by decide))
    · split
      · rename_i s _
        refine hchars _ (hsign.append ?_)
        unfold Scaled.text
        dsimp only
        split
        · exact plainChars_positional (plainChars_digits _) _
        · exact plainChars_scientific (plainChars_digits _) _
      · decide

/-- A number is written without marks. -/
theorem plain_number : ∀ n : Number, Plain n.text
  | .int i => by
    intro c hc
    rw [Number.text, String.toList_ofList] at hc
    rcases mem_signed hc with rfl | hd
    · rfl
    · exact isMark_of_isDigit hd
  | .float d => plain_double d

/-- An alias is written without marks. -/
theorem plain_aliasOf (n : Nat) : Plain (Plan.aliasOf n) := by
  have ht : Plain "t" := by decide
  refine ht.append ?_
  intro c hc
  rw [String.toList_ofList] at hc
  exact plainChars_digits n c hc

end TableGraph.Sql
