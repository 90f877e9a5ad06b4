import TableGraph.Proofs.Decimal.Digits
import TableGraph.Proofs.Decimal.Neighbours

/-!
# A number that reads back

The interval that a value is written from is the one between the midpoints to its neighbours. A grid
of seventeen digits is finer than the interval, so a number that reads back is always found, and a
number that is found reads back as the value. A number reads back as one magnitude only.
-/

namespace TableGraph.Decimal

/-- A number reads back as a magnitude: it is not beyond the midpoints, and it is none of them unless
the mantissa is even. -/
structure ReadsBack (k : ℕ) (x : ℚ) : Prop where
  /-- It is not below the lower midpoint. -/
  low : lowerAt k ≤ x
  /-- It is not above the upper midpoint. -/
  high : x ≤ upperAt k
  /-- Only an even mantissa takes the midpoints. -/
  even : x = lowerAt k ∨ x = upperAt k → mantissaAt k % 2 = 0

/-- The mantissas of neighbours are not both even. -/
theorem mantissaAt_mod_two (k : ℕ) : mantissaAt k % 2 = k % 2 := by
  unfold mantissaAt
  split <;> omega

/-- A number reads back as one magnitude only. -/
theorem ReadsBack.eq {k k' : ℕ} {x : ℚ} (h : ReadsBack k x) (h' : ReadsBack k' x) : k = k' := by
  have hnot : ∀ {i j : ℕ}, ReadsBack i x → ReadsBack j x → ¬ i < j := by
    intro i j hi hj hlt
    obtain ⟨rfl, hx⟩ := eq_midpoint hlt hi.high hj.low
    have heven := hi.even (Or.inr hx)
    have hnext := hj.even (Or.inl (hx.trans (upperAt_eq i)))
    rw [mantissaAt_mod_two] at heven hnext
    omega
  exact le_antisymm (not_lt.mp (hnot h' h)) (not_lt.mp (hnot h h'))

/-- Zero reads back as the magnitude zero. -/
theorem readsBack_zero : ReadsBack 0 0 := by
  have hunit : (0 : ℚ) < 2 ^ exponentAt 0 := zpow_pos (by norm_num) _
  have hlow : lowerAt 0 < 0 := by
    norm_num [lowerAt, mantissaAt, marginAt, hunit]
  have hhigh : 0 < upperAt 0 := by
    norm_num [upperAt, mantissaAt, hunit]
  exact ⟨hlow.le, hhigh.le, fun h => (h.elim hlow.ne' hhigh.ne).elim⟩

namespace Double

/-- The number of the magnitude of a value: its bits without the sign. -/
def magnitude (d : Double) : ℕ := d.bits.toNat % 2 ^ 63

/-- The exponent bits are those of the magnitude. -/
theorem exponentField_eq (d : Double) : d.exponentField = d.magnitude / 2 ^ 52 := by
  have htwo : twoTo 52 = 2 ^ 52 ∧ twoTo 11 = 2 ^ 11 := ⟨rfl, rfl⟩
  unfold exponentField magnitude
  rw [htwo.1, htwo.2]
  omega

/-- The fraction bits are those of the magnitude. -/
theorem fractionField_eq (d : Double) : d.fractionField = d.magnitude % 2 ^ 52 := by
  have htwo : twoTo 52 = 2 ^ 52 := rfl
  unfold fractionField magnitude
  rw [htwo]
  omega

/-- The mantissa is that of the magnitude. -/
theorem mantissa_eq (d : Double) : d.mantissa = mantissaAt d.magnitude := by
  have htwo : twoTo 52 = 2 ^ 52 := rfl
  rw [mantissa, mantissaAt, exponentField_eq, fractionField_eq, htwo]

/-- The exponent is that of the magnitude. -/
theorem exponent_eq (d : Double) : d.exponent = exponentAt d.magnitude := by
  rw [exponent, exponentAt, exponentField_eq]

/-- A value is its sign and its magnitude. -/
theorem eq_of_magnitude {d d' : Double} (hsign : d.isNegative = d'.isNegative)
    (hmagnitude : d.magnitude = d'.magnitude) : d = d' := by
  have htwo : twoTo 63 = 2 ^ 63 := rfl
  obtain ⟨b⟩ := d
  obtain ⟨b'⟩ := d'
  have hb := b.toNat_lt
  have hb' := b'.toNat_lt
  simp only [isNegative, magnitude, htwo, decide_eq_decide] at hsign hmagnitude
  have hbits : b.toNat = b'.toNat := by omega
  rw [UInt64.toNat_inj.mp hbits]

end Double

/-- The number that a coefficient and a power of ten stand for. -/
def Scaled.value (s : Scaled) : ℚ := s.coefficient * 10 ^ s.exponent

/-- A rounded quotient is at most one half away. -/
theorem abs_roundDiv_sub_le (num : ℕ) {den : ℕ} (h : 0 < den) :
    |(roundDiv num den : ℚ) - num / den| ≤ 1 / 2 := by
  have hden : (0 : ℚ) < den := by exact_mod_cast h
  have hsplit : den * (num / den) + num % den = num := Nat.div_add_mod num den
  have hbounds : 2 * (roundDiv num den * den) ≤ 2 * num + den
      ∧ 2 * num ≤ 2 * (roundDiv num den * den) + den := by
    have hsucc : (num / den + 1) * den = den * (num / den) + den := by ring
    have hsame : num / den * den = den * (num / den) := Nat.mul_comm _ _
    have hrest := Nat.mod_lt num h
    unfold roundDiv
    dsimp only
    split_ifs <;> constructor <;> first | (rw [hsame]; omega) | (rw [hsucc]; omega)
  have hlow : (2 : ℚ) * (roundDiv num den * den) ≤ 2 * num + den := by exact_mod_cast hbounds.1
  have hhigh : (2 : ℚ) * num ≤ 2 * (roundDiv num den * den) + den := by exact_mod_cast hbounds.2
  have hnum : (num : ℚ) / den * den = num := div_mul_cancel₀ _ hden.ne'
  rw [abs_le]
  constructor
  · refine le_of_mul_le_mul_right ?_ hden
    linarith
  · refine le_of_mul_le_mul_right ?_ hden
    linarith

namespace Interval

variable {i : Interval} {n : ℕ} {e : ℤ}

/-- The lower end. -/
def low (i : Interval) : ℚ := ((i.value : ℚ) - i.below) / i.den

/-- The upper end. -/
def high (i : Interval) : ℚ := ((i.value : ℚ) + i.above) / i.den

/-- A fraction is compared with a scaled number over the common denominator. -/
theorem div_le_scaled_iff (a : ℚ) (hden : 0 < i.den) :
    a / i.den ≤ n * (10 : ℚ) ^ e ↔ a * (power 10 e).2 ≤ n * (power 10 e).1 * i.den := by
  obtain ⟨_, hq, hpow⟩ := power_spec 10 (by norm_num) e
  have hden' : (0 : ℚ) < i.den := by exact_mod_cast hden
  have hq' : (0 : ℚ) < (power 10 e).2 := by exact_mod_cast hq
  have hten : (10 : ℚ) ^ e = (power 10 e).1 / (power 10 e).2 := by rw [hpow]; norm_num
  rw [hten, mul_div_assoc', div_le_div_iff₀ hden' hq']

/-- A scaled number is compared with a fraction over the common denominator. -/
theorem scaled_le_div_iff (a : ℚ) (hden : 0 < i.den) :
    n * (10 : ℚ) ^ e ≤ a / i.den ↔ n * (power 10 e).1 * i.den ≤ a * (power 10 e).2 := by
  obtain ⟨_, hq, hpow⟩ := power_spec 10 (by norm_num) e
  have hden' : (0 : ℚ) < i.den := by exact_mod_cast hden
  have hq' : (0 : ℚ) < (power 10 e).2 := by exact_mod_cast hq
  have hten : (10 : ℚ) ^ e = (power 10 e).1 / (power 10 e).2 := by rw [hpow]; norm_num
  rw [hten, mul_div_assoc', div_le_div_iff₀ hq' hden']

/-- A number reads back when it is between the ends; the ends themselves read back when the interval
is closed. -/
theorem contains_iff (hbelow : i.below ≤ i.value) (hden : 0 < i.den) : i.contains n e = true
    ↔ i.low ≤ n * 10 ^ e ∧ n * 10 ^ e ≤ i.high
      ∧ (n * 10 ^ e = i.low ∨ n * 10 ^ e = i.high → i.closed = true) := by
  have hlow : i.low ≤ n * 10 ^ e
      ↔ (i.value - i.below) * (power 10 e).2 ≤ n * (power 10 e).1 * i.den := by
    rw [low, ← Nat.cast_sub hbelow, div_le_scaled_iff _ hden]
    norm_cast
  have hlow' : n * 10 ^ e ≤ i.low
      ↔ n * (power 10 e).1 * i.den ≤ (i.value - i.below) * (power 10 e).2 := by
    rw [low, ← Nat.cast_sub hbelow, scaled_le_div_iff _ hden]
    norm_cast
  have hhigh : n * 10 ^ e ≤ i.high
      ↔ n * (power 10 e).1 * i.den ≤ (i.value + i.above) * (power 10 e).2 := by
    rw [high, ← Nat.cast_add, scaled_le_div_iff _ hden]
    norm_cast
  have hhigh' : i.high ≤ n * 10 ^ e
      ↔ (i.value + i.above) * (power 10 e).2 ≤ n * (power 10 e).1 * i.den := by
    rw [high, ← Nat.cast_add, div_le_scaled_iff _ hden]
    norm_cast
  rw [le_antisymm_iff (b := i.low), le_antisymm_iff (b := i.high), hlow, hlow', hhigh, hhigh']
  unfold contains
  cases i.closed <;> simp
  omega

/-- The first digit of a positive value does not stand above it. -/
theorem ten_pow_magnitude_le (hvalue : 0 < i.value) (hden : 0 < i.den) :
    (10 : ℚ) ^ i.magnitude ≤ i.value / i.den := by
  have hden' : (0 : ℚ) < i.den := by exact_mod_cast hden
  unfold magnitude
  by_cases hwhole : i.den ≤ i.value
  · have hpos : 0 < i.value / i.den := Nat.div_pos hwhole hden
    have hlength := List.length_pos_iff.mpr (digits_ne_nil (i.value / i.den))
    have hpow : 10 ^ ((digits (i.value / i.den)).length - 1) ≤ i.value / i.den := by
      by_contra hlt
      by_cases hone : (digits (i.value / i.den)).length - 1 = 0
      · rw [hone] at hlt
        omega
      · have hle := (Nat.length_toDigits_le_iff (by norm_num) (Nat.pos_of_ne_zero hone)).mpr
          (not_le.mp hlt)
        exact absurd hle (not_le.mpr (Nat.sub_lt hlength Nat.one_pos))
    have hexponent : ((digits (i.value / i.den)).length : ℤ) - 1
        = ((digits (i.value / i.den)).length - 1 : ℕ) := by omega
    have hcast : (10 : ℚ) ^ ((digits (i.value / i.den)).length - 1) ≤ (i.value / i.den : ℕ) := by
      exact_mod_cast hpow
    rw [if_pos hwhole, hexponent, zpow_natCast]
    exact hcast.trans Nat.cast_div_le
  · have hlength := List.length_pos_iff.mpr (digits_ne_nil ((i.den - 1) / i.value))
    have hpow := (Nat.length_toDigits_le_iff (by norm_num) hlength).mp (le_refl _)
    have hden_le : i.den ≤ 10 ^ (digits ((i.den - 1) / i.value)).length * i.value := by
      have hlt := (Nat.div_lt_iff_lt_mul hvalue).mp hpow
      omega
    have hcast : (i.den : ℚ) ≤ 10 ^ (digits ((i.den - 1) / i.value)).length * i.value := by
      exact_mod_cast hden_le
    rw [if_neg hwhole, zpow_neg, zpow_natCast, inv_le_iff_one_le_mul₀ (by positivity),
      div_mul_eq_mul_div, le_div_iff₀ hden', one_mul, mul_comm]
    exact hcast

/-- What is found on a grid is on that grid, and it is positive and reads back. -/
theorem contains_of_onGrid {s : Scaled} (h : i.onGrid e = some s) :
    0 < s.coefficient ∧ i.contains s.coefficient s.exponent = true := by
  obtain ⟨n, hn, rfl⟩ := Option.map_eq_some_iff.mp h
  have hfound := List.find?_some hn
  simpa using hfound

/-- Something is found on a grid whose steps are finer than the interval. -/
theorem isSome_onGrid (hbelow : i.below ≤ i.value) (hden : 0 < i.den)
    (hlower : i.low + 10 ^ e / 2 < i.value / i.den)
    (hupper : i.value / i.den + 10 ^ e / 2 < i.high) : (i.onGrid e).isSome = true := by
  obtain ⟨hp, hq, hpow⟩ := power_spec 10 (by norm_num) e
  have hten : ((power 10 e).1 : ℚ) / (power 10 e).2 = 10 ^ e := by rw [hpow]; norm_num
  have hunit : (0 : ℚ) < 10 ^ e := zpow_pos (by norm_num) _
  have hquotient : ((i.value * (power 10 e).2 : ℕ) : ℚ) / (i.den * (power 10 e).1 : ℕ) * 10 ^ e
      = i.value / i.den := by
    have hp' : ((power 10 e).1 : ℚ) ≠ 0 := by exact_mod_cast hp.ne'
    have hq' : ((power 10 e).2 : ℚ) ≠ 0 := by exact_mod_cast hq.ne'
    have hden' : (i.den : ℚ) ≠ 0 := by exact_mod_cast hden.ne'
    rw [← hten]
    push_cast
    field_simp
  have hnear := abs_le.mp (abs_roundDiv_sub_le (i.value * (power 10 e).2) (Nat.mul_pos hden hp))
  rw [onGrid]
  dsimp only
  rw [Option.isSome_map, List.find?_isSome]
  refine ⟨_, List.mem_cons_self, ?_⟩
  generalize roundDiv (i.value * (power 10 e).2) (i.den * (power 10 e).1) = near at hnear ⊢
  have hfrom := mul_le_mul_of_nonneg_right hnear.1 hunit.le
  have hto := mul_le_mul_of_nonneg_right hnear.2 hunit.le
  rw [sub_mul, hquotient] at hfrom hto
  have habove : i.low < near * 10 ^ e := by linarith
  have hunder : near * 10 ^ e < i.high := by linarith
  have hnonneg : 0 ≤ i.low := by
    rw [low, ← Nat.cast_sub hbelow]
    positivity
  have hpos : 0 < near := by
    refine Nat.pos_of_ne_zero fun hzero => ?_
    rw [hzero, Nat.cast_zero, zero_mul] at habove
    exact absurd habove (not_lt.mpr hnonneg)
  have hcontains := (contains_iff hbelow hden).mpr ⟨habove.le, hunder.le,
    fun hends => (hends.elim habove.ne' hunder.ne).elim⟩
  rw [hcontains, Bool.and_true]
  exact decide_eq_true hpos

section

variable {d : Double}

/-- The denominator of an interval is positive. -/
theorem den_of_pos (d : Double) : 0 < (of d).den :=
  Nat.mul_pos (by norm_num) (power_spec 2 (by norm_num) _).2.1

/-- The value of an interval is positive. -/
theorem value_of_pos (hm : 0 < d.mantissa) : 0 < (of d).value :=
  Nat.mul_pos (Nat.mul_pos (by norm_num) hm) (power_spec 2 (by norm_num) _).1

/-- The neighbour below is not below zero. -/
theorem below_of_le (hm : 0 < d.mantissa) : (of d).below ≤ (of d).value := by
  have hle : (of d).below ≤ 2 * (power 2 d.exponent).1 := by
    unfold of
    dsimp only
    split <;> omega
  have hvalue : 4 * (power 2 d.exponent).1 ≤ (of d).value :=
    Nat.mul_le_mul_right _ (Nat.le_mul_of_pos_right 4 hm)
  omega

/-- The unit of the last place as a fraction. -/
theorem unit_eq (d : Double) : ((power 2 d.exponent).2 : ℚ) ≠ 0
    ∧ (2 : ℚ) ^ exponentAt d.magnitude = (power 2 d.exponent).1 / (power 2 d.exponent).2 := by
  obtain ⟨_, hq, hpow⟩ := power_spec 2 (by norm_num) d.exponent
  refine ⟨Nat.cast_ne_zero.mpr hq.ne', ?_⟩
  rw [hpow, d.exponent_eq]
  norm_num

/-- The value of an interval is that of the magnitude. -/
theorem value_div_den_of (d : Double) : ((of d).value : ℚ) / (of d).den
    = mantissaAt d.magnitude * 2 ^ exponentAt d.magnitude := by
  obtain ⟨hq, htwo⟩ := unit_eq d
  rw [htwo, ← d.mantissa_eq]
  unfold of
  push_cast
  field_simp

/-- The half distance below is that of the magnitude. -/
theorem below_div_den_of (d : Double) : ((of d).below : ℚ) / (of d).den
    = marginAt d.magnitude * 2 ^ exponentAt d.magnitude := by
  obtain ⟨hq, htwo⟩ := unit_eq d
  have hnarrow : (d.mantissa = twoTo 52 ∧ 1 < d.exponentField)
      = (mantissaAt d.magnitude = 2 ^ 52 ∧ 1 < d.magnitude / 2 ^ 52) := by
    have hpower : twoTo 52 = 2 ^ 52 := rfl
    rw [d.mantissa_eq, d.exponentField_eq, hpower]
  rw [htwo, marginAt]
  unfold of
  simp only [hnarrow]
  split
  · push_cast
    field_simp
  · push_cast
    field_simp
    ring

/-- The half distance above is half a unit of the last place. -/
theorem above_div_den_of (d : Double) : ((of d).above : ℚ) / (of d).den
    = 1 / 2 * 2 ^ exponentAt d.magnitude := by
  obtain ⟨hq, htwo⟩ := unit_eq d
  rw [htwo]
  unfold of
  push_cast
  field_simp
  ring

/-- The lower end is the midpoint to the neighbour below. -/
theorem low_of (d : Double) : (of d).low = lowerAt d.magnitude := by
  rw [low, sub_div, value_div_den_of, below_div_den_of, lowerAt]
  ring

/-- The upper end is the midpoint to the neighbour above. -/
theorem high_of (d : Double) : (of d).high = upperAt d.magnitude := by
  rw [high, add_div, value_div_den_of, above_div_den_of, upperAt]
  ring

/-- What is in the interval of a value is what reads back as its magnitude. -/
theorem contains_of_iff (hm : 0 < d.mantissa) :
    (of d).contains n e = true ↔ ReadsBack d.magnitude (n * 10 ^ e) := by
  have hclosed : (of d).closed = true ↔ mantissaAt d.magnitude % 2 = 0 := by
    rw [← d.mantissa_eq]
    exact decide_eq_true_iff
  rw [contains_iff (below_of_le hm) (den_of_pos d), low_of, high_of, hclosed]
  exact ⟨fun ⟨hlow, hhigh, heven⟩ => ⟨hlow, hhigh, heven⟩, fun h => ⟨h.low, h.high, h.even⟩⟩

/-- The mantissas of the magnitudes have less than sixteen decimal digits, with room for the nearer
neighbour below a power of two. -/
theorem mantissaAt_lt (k : ℕ) : (mantissaAt k : ℚ) < 2 * 10 ^ 16 * marginAt k := by
  unfold marginAt
  split
  next h =>
    rw [h.1]
    norm_num
  next =>
    have hlt : mantissaAt k < 10 ^ 16 := by
      unfold mantissaAt
      split <;> omega
    have hcast : (mantissaAt k : ℚ) < 10 ^ 16 := by exact_mod_cast hlt
    linarith

/-- The steps of the grid of seventeen digits are less than twice the half distances to the
neighbours. -/
theorem step_lt (hm : 0 < d.mantissa) : (10 : ℚ) ^ ((of d).magnitude + 1 - 17) / 2
    < marginAt d.magnitude * 2 ^ exponentAt d.magnitude := by
  have hunit : (0 : ℚ) < 2 ^ exponentAt d.magnitude := zpow_pos (by norm_num) _
  have hfirst := ten_pow_magnitude_le (value_of_pos hm) (den_of_pos d)
  have hlast : (10 : ℚ) ^ ((of d).magnitude + 1 - 17) = 10 ^ (of d).magnitude / 10 ^ 16 := by
    rw [add_sub_assoc, zpow_add₀ (by norm_num), div_eq_mul_inv]
    norm_num
  have hmantissa := mul_lt_mul_of_pos_right (mantissaAt_lt d.magnitude) hunit
  rw [value_div_den_of] at hfirst
  rw [hlast, div_div, div_lt_iff₀ (by norm_num)]
  calc (10 : ℚ) ^ (of d).magnitude
      ≤ mantissaAt d.magnitude * 2 ^ exponentAt d.magnitude := hfirst
    _ < 2 * 10 ^ 16 * marginAt d.magnitude * 2 ^ exponentAt d.magnitude := hmantissa
    _ = marginAt d.magnitude * 2 ^ exponentAt d.magnitude * (10 ^ 16 * 2) := by ring

/-- A positive value is written by a number that reads back. -/
theorem exists_shortest (hm : 0 < d.mantissa) :
    ∃ s, (of d).shortest = some s ∧ 0 < s.coefficient ∧ ReadsBack d.magnitude s.value := by
  have hstep := step_lt hm
  have hgrid : ((of d).onGrid ((of d).magnitude + 1 - (17 : ℕ))).isSome := by
    refine isSome_onGrid (below_of_le hm) (den_of_pos d) ?_ ?_
    · rw [low_of, lowerAt, value_div_den_of, sub_mul]
      push_cast
      linarith
    · have hmargin : marginAt d.magnitude ≤ 1 / 2 := by
        unfold marginAt
        split <;> norm_num
      have hunit : (0 : ℚ) < 2 ^ exponentAt d.magnitude := zpow_pos (by norm_num) _
      have habove := mul_le_mul_of_nonneg_right hmargin hunit.le
      rw [high_of, upperAt, value_div_den_of, add_mul]
      push_cast
      linarith
  have hsome : (of d).shortest.isSome :=
    List.findSome?_isSome_iff.mpr ⟨17, List.mem_range.mpr (by norm_num), hgrid⟩
  obtain ⟨s, hs⟩ := Option.isSome_iff_exists.mp hsome
  obtain ⟨k, _, hk⟩ := List.exists_of_findSome?_eq_some hs
  obtain ⟨hpos, hcontains⟩ := contains_of_onGrid hk
  exact ⟨s, hs, hpos, (contains_of_iff hm).mp hcontains⟩

end

end Interval

end TableGraph.Decimal
