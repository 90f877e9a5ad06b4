import TableGraph.Decimal.Digits

/-!
# Digits tell numbers apart

The digits of a number are ASCII digits and are read back as the number, so different numbers have
different digits.
-/

namespace TableGraph.Decimal

/-- The digits of a number are ASCII digits. -/
theorem isDigit_of_mem_digits {n : Nat} {c : Char} (h : c ∈ digits n) : isDigit c = true := by
  have hc : c.isDigit = true := Nat.isDigit_of_mem_toDigits (by omega) (by omega) h
  simpa only [isDigit, Char.isDigit, ge_iff_le, Char.le_def] using hc

/-- The digits of a number stand for it. -/
@[simp]
theorem ofDigits_digits (n : Nat) : ofDigits (digits n) = n := Nat.ofDigitChars_ten_toDigits

/-- Different numbers have different digits. -/
theorem digits_injective {m n : Nat} (h : digits m = digits n) : m = n := by
  simpa using congrArg ofDigits h

/-- A number has a digit. -/
theorem digits_ne_nil (n : Nat) : digits n ≠ [] := Nat.toDigits_ne_nil

/-- Only zero is written with a zero in front. -/
theorem eq_zero_of_digits_eq_cons {n : Nat} {cs : List Char} (h : digits n = '0' :: cs) : n = 0 := by
  induction n using Nat.strongRecOn generalizing cs with
  | _ n ih =>
    unfold digits at h
    by_cases hn : n < 10
    · rw [Nat.toDigits_of_lt_base hn] at h
      have hzero : ∀ m < 10, Nat.digitChar m = '0' → m = 0 := by decide
      exact hzero n hn (List.cons.inj h).1
    · rw [Nat.toDigits_of_base_le (by decide) (by omega)] at h
      have hquotient : ∃ ds, digits (n / 10) = '0' :: ds := by
        cases hd : Nat.toDigits 10 (n / 10) with
        | nil => exact absurd hd (digits_ne_nil _)
        | cons d ds =>
          rw [hd, List.cons_append] at h
          exact ⟨ds, hd.trans (congrArg (· :: ds) (List.cons.inj h).1)⟩
      obtain ⟨ds, hds⟩ := hquotient
      have hsmall := ih (n / 10) (by omega) hds
      omega

/-- The number written by digits is read back. -/
@[simp]
theorem natural?_digits (n : Nat) : natural? (digits n) = some n := by
  have hall : (digits n).all isDigit = true := List.all_eq_true.mpr fun _ => isDigit_of_mem_digits
  simp only [natural?, digits_ne_nil, hall, ne_eq, not_false_eq_true, and_self, if_true,
    ofDigits_digits]

/-- What starts with the digits of a number starts with nothing else. -/
theorem digits_append_ne_cons {c : Char} (hc : isDigit c = false) (n : Nat)
    (rest cs : List Char) : digits n ++ rest ≠ c :: cs := by
  intro h
  obtain ⟨d, ds, hds⟩ := List.exists_cons_of_ne_nil (digits_ne_nil n)
  have hd : isDigit d = true := isDigit_of_mem_digits (hds ▸ List.mem_cons_self)
  rw [hds, List.cons_append] at h
  rw [(List.cons.inj h).1, hc] at hd
  cases hd

/-- The digits of a number do not start with a minus. -/
theorem digits_ne_minus (n : Nat) (cs : List Char) : digits n ≠ '-' :: cs := by
  simpa using digits_append_ne_cons (c := '-') (by decide) n [] cs

/-- The number written by digits is read back where a sign may stand. -/
@[simp]
theorem integer?_digits (n : Nat) : integer? (digits n) = some (n : Int) := by
  have hplus : ∀ cs, digits n ≠ '+' :: cs := by
    intro cs
    simpa using digits_append_ne_cons (c := '+') (by decide) n [] cs
  unfold integer?
  split
  next cs h => exact absurd h (digits_ne_minus n cs)
  next cs h => exact absurd h (hplus cs)
  next => simp

/-- Different integers are written differently. -/
theorem signed_injective {i j : Int} (h : signed i = signed j) : i = j := by
  unfold signed at h
  by_cases hi : i < 0
  · by_cases hj : j < 0
    · rw [if_pos hi, if_pos hj] at h
      have hn := digits_injective (List.cons.inj h).2
      omega
    · rw [if_pos hi, if_neg hj] at h
      exact absurd h.symm (digits_ne_minus _ _)
  · by_cases hj : j < 0
    · rw [if_neg hi, if_pos hj] at h
      exact absurd h (digits_ne_minus _ _)
    · rw [if_neg hi, if_neg hj] at h
      have hn := digits_injective h
      omega

/-- An integer is written with a minus and digits only. -/
theorem mem_signed {i : Int} {c : Char} (h : c ∈ signed i) : c = '-' ∨ isDigit c = true := by
  unfold signed at h
  split at h
  · rcases List.mem_cons.mp h with hc | hc
    · exact Or.inl hc
    · exact Or.inr (isDigit_of_mem_digits hc)
  · exact Or.inr (isDigit_of_mem_digits h)

/-- An integer has a first character. -/
theorem exists_signed_eq (i : Int) : ∃ c cs, signed i = c :: cs := by
  unfold signed
  split
  · exact ⟨_, _, rfl⟩
  · exact List.exists_cons_of_ne_nil (digits_ne_nil _)

/-- An integer has none of some marks, which are no digits and no minus. -/
theorem not_mem_of_mem_signed {marks : List Char}
    (hmarks : marks.all (fun d => !isDigit d && d != '-') = true) {i : Int} {c : Char}
    (h : c ∈ signed i) : c ∉ marks := by
  intro hmem
  have hc := List.all_eq_true.mp hmarks c hmem
  rw [Bool.and_eq_true, Bool.not_eq_true', bne_iff_ne] at hc
  rcases mem_signed h with rfl | hd
  · exact hc.2 rfl
  · rw [hd] at hc
    cases hc.1

end TableGraph.Decimal
