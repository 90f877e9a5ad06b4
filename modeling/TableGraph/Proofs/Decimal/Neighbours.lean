import Mathlib.Algebra.Order.Field.Rat
import Mathlib.Algebra.Order.Field.Power
import Mathlib.Data.Nat.Cast.Order.Field
import Mathlib.Order.Monotone.Basic
import Mathlib.Tactic.FieldSimp
import Mathlib.Tactic.Linarith
import Mathlib.Tactic.NormNum
import Mathlib.Tactic.Positivity
import Mathlib.Tactic.Ring
import TableGraph.Decimal.Shortest

/-!
# Numbers that read back as a value

The magnitudes of the binary64 values are numbered by their lower 63 bits, from zero on. The numbers
that read back as a magnitude lie between the midpoints to its two neighbours. The upper midpoint of
one magnitude is the lower midpoint of the next one, also where the exponent changes, and of two
neighbours only one has an even mantissa. So no number reads back as two magnitudes.
-/

namespace TableGraph.Decimal

/-- A power is the quotient of its numerator and denominator, which are positive. -/
theorem power_spec (base : ℕ) (hbase : 0 < base) (e : ℤ) :
    0 < (power base e).1 ∧ 0 < (power base e).2
      ∧ ((power base e).1 : ℚ) / (power base e).2 = (base : ℚ) ^ e := by
  have hpow : 0 < Nat.pow base e.natAbs := Nat.pow_pos hbase
  have hne : (base : ℚ) ≠ 0 := Nat.cast_ne_zero.mpr hbase.ne'
  have hcast : ((Nat.pow base e.natAbs : ℕ) : ℚ) = (base : ℚ) ^ e.natAbs := Nat.cast_pow base _
  unfold power
  by_cases he : e < 0
  · have hnegative : e = -(e.natAbs : ℤ) := by omega
    rw [if_pos he]
    refine ⟨Nat.one_pos, hpow, ?_⟩
    conv_rhs => rw [hnegative, zpow_neg, zpow_natCast]
    rw [hcast, Nat.cast_one, one_div]
  · have hnatural : e = (e.natAbs : ℤ) := by omega
    rw [if_neg he]
    refine ⟨hpow, Nat.one_pos, ?_⟩
    conv_rhs => rw [hnatural, zpow_natCast]
    rw [hcast, Nat.cast_one, div_one]

/-- The mantissa of the magnitude of a number. -/
def mantissaAt (k : ℕ) : ℕ := if k / 2 ^ 52 = 0 then k % 2 ^ 52 else 2 ^ 52 + k % 2 ^ 52

/-- The exponent of the magnitude of a number. -/
def exponentAt (k : ℕ) : ℤ := if k / 2 ^ 52 = 0 then -1074 else (k / 2 ^ 52 : ℕ) - 1075

/-- The distance to the lower midpoint, in units of the last place. The neighbour below a power of
two is nearer. -/
def marginAt (k : ℕ) : ℚ := if mantissaAt k = 2 ^ 52 ∧ 1 < k / 2 ^ 52 then 1 / 4 else 1 / 2

/-- The midpoint between a magnitude and the one below. -/
def lowerAt (k : ℕ) : ℚ := (mantissaAt k - marginAt k) * 2 ^ exponentAt k

/-- The midpoint between a magnitude and the one above. -/
def upperAt (k : ℕ) : ℚ := (mantissaAt k + 1 / 2) * 2 ^ exponentAt k

/-- The lower midpoint is below the upper one. -/
theorem lowerAt_lt_upperAt (k : ℕ) : lowerAt k < upperAt k := by
  have hunit : (0 : ℚ) < 2 ^ exponentAt k := zpow_pos (by norm_num) _
  have hmargin : 0 < marginAt k := by
    unfold marginAt
    split <;> norm_num
  unfold lowerAt upperAt
  exact mul_lt_mul_of_pos_right (by linarith) hunit

/-- Within an exponent the next magnitude has the next mantissa. -/
theorem upperAt_of_lt {k : ℕ} (h : k % 2 ^ 52 + 1 < 2 ^ 52) : upperAt k = lowerAt (k + 1) := by
  have hquotient : (k + 1) / 2 ^ 52 = k / 2 ^ 52 := by omega
  have hrest : (k + 1) % 2 ^ 52 = k % 2 ^ 52 + 1 := by omega
  have hmantissa : mantissaAt (k + 1) = mantissaAt k + 1 := by
    unfold mantissaAt
    rw [hquotient, hrest]
    split <;> omega
  have hexponent : exponentAt (k + 1) = exponentAt k := by rw [exponentAt, hquotient, exponentAt]
  have hmargin : marginAt (k + 1) = 1 / 2 := by
    unfold marginAt mantissaAt
    rw [hquotient, hrest, if_neg]
    rintro ⟨hm, he⟩
    rw [if_neg (by omega)] at hm
    omega
  rw [upperAt, lowerAt, hmantissa, hexponent, hmargin]
  push_cast
  ring

/-- Where the fraction is full the exponent of the next magnitude is larger by one, unless the
magnitude has no exponent bits. -/
theorem upperAt_of_full {k : ℕ} (h : k % 2 ^ 52 + 1 = 2 ^ 52) : upperAt k = lowerAt (k + 1) := by
  have hquotient : (k + 1) / 2 ^ 52 = k / 2 ^ 52 + 1 := by omega
  have hrest : (k + 1) % 2 ^ 52 = 0 := by omega
  have hmantissa : mantissaAt (k + 1) = 2 ^ 52 := by
    rw [mantissaAt, hquotient, hrest, if_neg (Nat.succ_ne_zero _), Nat.add_zero]
  have hexponent : exponentAt (k + 1) = (k / 2 ^ 52 : ℕ) - 1074 := by
    rw [exponentAt, hquotient, if_neg (Nat.succ_ne_zero _)]
    push_cast
    ring
  rw [upperAt, lowerAt, hmantissa, hexponent]
  by_cases hfirst : k / 2 ^ 52 = 0
  · have hold : mantissaAt k = 2 ^ 52 - 1 := by
      rw [mantissaAt, if_pos hfirst]
      omega
    have hmargin : marginAt (k + 1) = 1 / 2 := by
      rw [marginAt, hquotient, hfirst, if_neg (fun hlt => absurd hlt.2 (by decide))]
    rw [hold, hmargin, exponentAt, if_pos hfirst, hfirst]
    norm_num
  · have hold : mantissaAt k = 2 ^ 53 - 1 := by
      rw [mantissaAt, if_neg hfirst]
      omega
    have hmargin : marginAt (k + 1) = 1 / 4 := by
      rw [marginAt, hmantissa, hquotient, if_pos ⟨rfl, by omega⟩]
    have hstep : (2 : ℚ) ^ (((k / 2 ^ 52 : ℕ) : ℤ) - 1074)
        = 2 * 2 ^ (((k / 2 ^ 52 : ℕ) : ℤ) - 1075) := by
      rw [← zpow_one_add₀ (by norm_num)]
      congr 1
      ring
    rw [hold, hmargin, exponentAt, if_neg hfirst, hstep]
    norm_num
    ring

/-- The upper midpoint of a magnitude is the lower midpoint of the next one. -/
theorem upperAt_eq (k : ℕ) : upperAt k = lowerAt (k + 1) := by
  have hlt : k % 2 ^ 52 < 2 ^ 52 := Nat.mod_lt _ (by norm_num)
  by_cases h : k % 2 ^ 52 + 1 < 2 ^ 52
  · exact upperAt_of_lt h
  · exact upperAt_of_full (by omega)

/-- Larger magnitudes have larger midpoints. -/
theorem upperAt_strictMono : StrictMono upperAt :=
  strictMono_nat_of_lt_succ fun k => upperAt_eq k ▸ lowerAt_lt_upperAt (k + 1)

/-- A number between the midpoints of two magnitudes is the midpoint between them, which are
neighbours. -/
theorem eq_midpoint {k k' : ℕ} (hk : k < k') {x : ℚ} (hx : x ≤ upperAt k) (hx' : lowerAt k' ≤ x) :
    k' = k + 1 ∧ x = upperAt k := by
  obtain ⟨j, rfl⟩ : ∃ j, k' = j + 1 := ⟨k' - 1, by omega⟩
  rw [← upperAt_eq] at hx'
  have hj : j ≤ k := upperAt_strictMono.le_iff_le.mp (hx'.trans hx)
  obtain rfl : j = k := by omega
  exact ⟨rfl, le_antisymm hx hx'⟩

end TableGraph.Decimal
