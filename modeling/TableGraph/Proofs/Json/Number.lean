import Mathlib.Algebra.Group.Int.Defs
import Mathlib.Algebra.Group.Nat.Defs
import Mathlib.Data.List.TakeWhile
import TableGraph.Json.Number
import TableGraph.Proofs.Decimal.Digits

/-!
# Integers are read back

An integer that fits 64 bits, with or without a sign, is read from its text as it was, up to a
character that does not go on with the number.
-/

namespace TableGraph.Decimal

/-- Whether an integer fits 64 bits, with a sign or without, as the integers of JSON values do. -/
def FitsWord (i : Int) : Prop := -(2 ^ 63 : Int) ≤ i ∧ i < 2 ^ 64

/-- Whether a text does not go on with a number. -/
def EndsNumber (cs : List Char) : Prop :=
  ∀ c ∈ cs.head?, isDigit c = false ∧ c ≠ '.' ∧ c ≠ 'e' ∧ c ≠ 'E'

/-- More digits do not make a number smaller. -/
theorem le_foldl_digitValue (cs : List Char) (n : Nat) :
    n ≤ cs.foldl (fun n c => 10 * n + digitValue c) n := by
  induction cs generalizing n with
  | nil => exact Nat.le_refl n
  | cons c cs ih =>
    have hstep := ih (10 * n + digitValue c)
    rw [List.foldl_cons]
    omega

/-- Digits of a number that fits 64 bits are gathered without dropping any. -/
theorem foldl_whole (cs : List Char) (n : Nat)
    (h : cs.foldl (fun n c => 10 * n + digitValue c) n < 2 ^ 64) :
    cs.foldl Gathered.whole ⟨n, 0, false⟩
      = ⟨cs.foldl (fun n c => 10 * n + digitValue c) n, 0, false⟩ := by
  have htwo : twoTo 64 = 2 ^ 64 := rfl
  induction cs generalizing n with
  | nil => rfl
  | cons c cs ih =>
    rw [List.foldl_cons] at h
    have hle := le_foldl_digitValue cs (10 * n + digitValue c)
    have hstep : Gathered.whole ⟨n, 0, false⟩ c = ⟨10 * n + digitValue c, 0, false⟩ := by
      have hcomm : n * 10 + digitValue c = 10 * n + digitValue c := by omega
      unfold Gathered.whole
      dsimp only
      rw [if_neg Bool.false_ne_true, hcomm, htwo, if_pos (by omega)]
    rw [List.foldl_cons, List.foldl_cons, hstep, ih _ h]

/-- Digits end where a number ends. -/
theorem EndsNumber.cut_digits {rest : List Char} (hrest : EndsNumber rest) (n : Nat) :
    (digits n ++ rest).takeWhile isDigit = digits n
      ∧ (digits n ++ rest).dropWhile isDigit = rest := by
  have hall : ∀ c ∈ digits n, isDigit c = true := fun _ => isDigit_of_mem_digits
  have hstop : rest.takeWhile isDigit = [] ∧ rest.dropWhile isDigit = rest := by
    cases rest with
    | nil => exact ⟨rfl, rfl⟩
    | cons c cs =>
      have hc := (hrest c rfl).1
      simp [hc]
  rw [List.takeWhile_append_of_pos hall, List.dropWhile_append_of_pos hall, hstop.1, hstop.2]
  exact ⟨List.append_nil _, rfl⟩

/-- Only zero is written with a zero in front, so the digits of a number start a number. -/
theorem digits_start (n : Nat) :
    ¬(digits n = [] ∨ ((digits n).head? = some '0' ∧ digits n ≠ ['0'])) := by
  rintro (hnil | ⟨hhead, hne⟩)
  · exact digits_ne_nil n hnil
  · obtain ⟨cs, hcs⟩ := List.head?_eq_some_iff.mp hhead
    rw [eq_zero_of_digits_eq_cons hcs] at hne
    exact hne rfl

/-- The digits of a number are read up to its end. -/
theorem unsigned_digits {n : Nat} (hn : n < 2 ^ 64) (negative : Bool) {rest : List Char}
    (hrest : EndsNumber rest) :
    unsigned negative (digits n ++ rest)
      = (Gathered.integer ⟨n, 0, false⟩ negative).map fun i => (i, rest) := by
  obtain ⟨htake, hdrop⟩ := hrest.cut_digits n
  have hfold : (digits n).foldl Gathered.whole ⟨0, 0, false⟩ = ⟨n, 0, false⟩ := by
    have hvalue : (digits n).foldl (fun n c => 10 * n + digitValue c) 0 = n := ofDigits_digits n
    rw [foldl_whole _ _ (hvalue.symm ▸ hn), hvalue]
  unfold unsigned
  simp only [htake, hdrop, hfold]
  rw [if_neg (digits_start n)]
  split
  next more => exact absurd rfl (hrest '.' rfl).2.1
  next cs => exact absurd rfl (hrest 'e' rfl).2.2.1
  next cs => exact absurd rfl (hrest 'E' rfl).2.2.2
  next => cases Gathered.integer ⟨n, 0, false⟩ negative <;> rfl

/-- An integer that fits 64 bits is read up to its end. -/
theorem number?_signed {i : Int} (h : FitsWord i) {rest : List Char} (hrest : EndsNumber rest) :
    number? (signed i ++ rest) = some (.int i, rest) := by
  obtain ⟨hlow, hhigh⟩ := h
  have htwo : twoTo 63 = 2 ^ 63 := rfl
  by_cases hi : i < 0
  · have hcoefficient : 0 < i.natAbs ∧ i.natAbs ≤ twoTo 63 := by omega
    have hvalue : -(i.natAbs : Int) = i := by omega
    rw [signed, if_pos hi, List.cons_append, number?, unsigned_digits (by omega) true hrest,
      Gathered.integer, if_neg Bool.false_ne_true, if_neg (by decide), if_pos hcoefficient, hvalue]
    rfl
  · have hvalue : (i.natAbs : Int) = i := by omega
    have hplain : number? (digits i.natAbs ++ rest) = unsigned false (digits i.natAbs ++ rest) := by
      unfold number?
      split
      next cs hcs => exact absurd hcs (digits_append_ne_cons (by decide) _ _ _)
      next => rfl
    rw [signed, if_neg hi, hplain, unsigned_digits (by omega) false hrest, Gathered.integer,
      if_neg Bool.false_ne_true, if_pos (by decide), hvalue]
    rfl

end TableGraph.Decimal
