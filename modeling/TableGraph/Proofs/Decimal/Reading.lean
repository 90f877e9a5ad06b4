import Mathlib.Data.List.Induction
import Mathlib.Tactic.Ring
import TableGraph.Proofs.Decimal.Digits

/-!
# What digits stand for

Digits stand for a number whatever zeros are in front of them, and zeros behind them count as powers
of ten. An optional sign with at least one digit is read as an integer, and nothing else is.
-/

namespace TableGraph.Decimal

/-- Digits in front of others count for as many places more. -/
@[simp]
theorem ofDigits_append (xs ys : List Char) :
    ofDigits (xs ++ ys) = ofDigits xs * 10 ^ ys.length + ofDigits ys := by
  have hfold : ∀ (ys : List Char) (n : ℕ), ys.foldl (fun n c => 10 * n + digitValue c) n
      = n * 10 ^ ys.length + ofDigits ys := by
    intro ys
    induction ys with
    | nil => intro n; simp [ofDigits]
    | cons c ys ih =>
      intro n
      rw [ofDigits, List.foldl_cons, List.foldl_cons, ih, ih (10 * 0 + digitValue c), List.length_cons]
      ring
  rw [ofDigits, List.foldl_append, hfold]
  rfl

/-- Zeros stand for nothing. -/
@[simp]
theorem ofDigits_zeros (n : ℕ) : ofDigits (List.replicate n '0') = 0 := by
  induction n with
  | zero => rfl
  | succ n ih =>
    rw [List.replicate_succ', ofDigits_append, ih]
    rfl

/-- A zero in front does not change what digits stand for. -/
@[simp]
theorem ofDigits_zero_cons (cs : List Char) : ofDigits ('0' :: cs) = ofDigits cs := rfl

/-- A zero in front of digits or behind them is a digit. -/
theorem isDigit_of_mem_zeros {n : ℕ} {c : Char} (h : c ∈ List.replicate n '0') :
    isDigit c = true := by
  rw [List.eq_of_mem_replicate h]
  decide

/-- Digits stand for less than the power of ten with as many zeros. -/
theorem ofDigits_lt {cs : List Char} (h : ∀ c ∈ cs, isDigit c = true) :
    ofDigits cs < 10 ^ cs.length := by
  induction cs using List.reverseRecOn with
  | nil => exact Nat.one_pos
  | append_singleton cs c ih =>
    have hinit := ih fun d hd => h d (List.mem_append_left _ hd)
    have hlast : digitValue c < 10 := by
      have hc := h c (List.mem_append_right _ List.mem_cons_self)
      rw [isDigit, Bool.and_eq_true, decide_eq_true_iff, decide_eq_true_iff] at hc
      have hle : c.toNat ≤ 57 := hc.2
      rw [digitValue]
      omega
    have hone : ofDigits [c] = digitValue c := by rw [ofDigits, List.foldl_cons, List.foldl_nil]; omega
    simp only [ofDigits_append, hone, List.length_append, List.length_singleton, pow_succ]
    omega

/-- A number has no more digits than digits that stand for it. -/
theorem length_digits_ofDigits {cs : List Char} (hne : cs ≠ []) (h : ∀ c ∈ cs, isDigit c = true) :
    (digits (ofDigits cs)).length ≤ cs.length :=
  (Nat.length_toDigits_le_iff (by decide) (List.length_pos_iff.mpr hne)).mpr (ofDigits_lt h)

/-- Digits have no marks among them. -/
theorem not_mem_of_isDigit {mark : Char} {cs : List Char} (hmark : isDigit mark = false)
    (hcs : ∀ c ∈ cs, isDigit c = true) : mark ∉ cs :=
  fun h => absurd (hmark.symm.trans (hcs mark h)) Bool.false_ne_true

section

variable (width n : ℕ)

/-- Zeros in front do not change what digits stand for. -/
@[simp]
theorem ofDigits_padded : ofDigits (padded width n) = n := by
  simp [padded]

/-- The digits of a number are ASCII digits also with zeros in front. -/
theorem isDigit_of_mem_padded {c : Char} (h : c ∈ padded width n) : isDigit c = true := by
  rcases List.mem_append.mp h with h | h
  · exact isDigit_of_mem_zeros h
  · exact isDigit_of_mem_digits h

/-- A number that needs no more digits is filled up to as many as asked for. -/
@[simp]
theorem length_padded (hw : 0 < width) (hn : n < 10 ^ width) : (padded width n).length = width := by
  have hle : (digits n).length ≤ width := (Nat.length_toDigits_le_iff (by decide) hw).mpr hn
  rw [padded, List.length_append, List.length_replicate]
  omega

end

/-- At least one decimal digit and nothing else. -/
def AreDigits (cs : List Char) : Prop := cs ≠ [] ∧ ∀ c ∈ cs, '0' ≤ c ∧ c ≤ '9'

/-- Digits are recognized. -/
theorem isDigit_iff (c : Char) : isDigit c = true ↔ '0' ≤ c ∧ c ≤ '9' := by
  rw [isDigit, Bool.and_eq_true, decide_eq_true_iff, decide_eq_true_iff]

/-- Exactly digits are read as a number, and they are read as the one they stand for. -/
theorem natural?_eq_some_iff {cs : List Char} {n : ℕ} :
    natural? cs = some n ↔ AreDigits cs ∧ n = ofDigits cs := by
  have hdigits : (cs ≠ [] ∧ cs.all isDigit = true) ↔ AreDigits cs := by
    simp only [AreDigits, List.all_eq_true, isDigit_iff]
  unfold natural?
  split_ifs with h
  · rw [Option.some_inj]
    exact ⟨fun he => ⟨hdigits.mp h, he.symm⟩, fun he => he.2.symm⟩
  · exact ⟨fun he => (nomatch he), fun he => absurd (hdigits.mpr he.1) h⟩

/-- A decimal text of an integer: digits, with or without a sign in front. -/
inductive IsInteger : List Char → ℤ → Prop
  | plain {ds : List Char} (h : AreDigits ds) : IsInteger ds (ofDigits ds)
  | plus {ds : List Char} (h : AreDigits ds) : IsInteger ('+' :: ds) (ofDigits ds)
  | minus {ds : List Char} (h : AreDigits ds) : IsInteger ('-' :: ds) (-(ofDigits ds : ℤ))

/-- Digits do not start with what is no digit. -/
theorem AreDigits.ne_cons {ds cs : List Char} {c : Char} (h : AreDigits ds)
    (hc : isDigit c = false) : ds ≠ c :: cs := by
  rintro rfl
  have hdigit := (isDigit_iff c).mpr (h.2 c List.mem_cons_self)
  rw [hc] at hdigit
  cases hdigit

/-- What digits stand for as an integer is what they are read as. -/
theorem natural?_lift_eq_some_iff {cs : List Char} {i : ℤ} :
    (do return ((← natural? cs : ℕ) : ℤ)) = some i ↔ AreDigits cs ∧ i = ofDigits cs := by
  simp only [Option.bind_eq_bind, Option.bind_eq_some_iff, natural?_eq_some_iff, Option.pure_def,
    Option.some_inj]
  constructor
  · rintro ⟨n, ⟨h, rfl⟩, rfl⟩
    exact ⟨h, rfl⟩
  · rintro ⟨h, rfl⟩
    exact ⟨_, ⟨h, rfl⟩, rfl⟩

/-- Exactly decimal texts are read as integers, and each as the one it stands for. -/
theorem integer?_eq_some_iff {cs : List Char} {i : ℤ} :
    integer? cs = some i ↔ IsInteger cs i := by
  constructor
  · intro h
    unfold integer? at h
    split at h
    next ds =>
      obtain ⟨n, hn, rfl⟩ := Option.map_eq_some_iff.mp h
      obtain ⟨hds, rfl⟩ := natural?_lift_eq_some_iff.mp hn
      exact .minus hds
    next ds =>
      obtain ⟨n, hn, rfl⟩ := Option.map_eq_some_iff.mp h
      obtain ⟨hds, rfl⟩ := natural?_lift_eq_some_iff.mp hn
      exact .plus hds
    next =>
      obtain ⟨n, hn, rfl⟩ := Option.map_eq_some_iff.mp h
      obtain ⟨hds, rfl⟩ := natural?_lift_eq_some_iff.mp hn
      exact .plain hds
  · rintro (h | h | h)
    · unfold integer?
      split
      next => exact absurd rfl (h.ne_cons rfl)
      next => exact absurd rfl (h.ne_cons rfl)
      next => exact Option.map_eq_some_iff.mpr ⟨_, natural?_lift_eq_some_iff.mpr ⟨h, rfl⟩, rfl⟩
    · exact Option.map_eq_some_iff.mpr ⟨_, natural?_lift_eq_some_iff.mpr ⟨h, rfl⟩, rfl⟩
    · exact Option.map_eq_some_iff.mpr ⟨_, natural?_lift_eq_some_iff.mpr ⟨h, rfl⟩, rfl⟩

end TableGraph.Decimal
