import Mathlib.Algebra.BigOperators.Intervals
import Mathlib.Algebra.Order.SuccPred
import Mathlib.Data.Int.ConditionallyCompleteOrder
import Mathlib.Data.Int.SuccPred
import Mathlib.Order.SuccPred.IntervalSucc
import Mathlib.Tactic.IntervalCases
import TableGraph.Time.Calendar

/-!
# Counting days

Months and years are laid end to end, and a day is numbered by what is before it. The count in eras
of 400 years that start in March gives the same numbers up to where it starts, and leads back from
every number to the one day of the calendar that has it.
-/

namespace TableGraph.Time

/-- The days of the months of a year. -/
def monthLengths (year : ℤ) : List ℕ :=
  [31, if 4 ∣ year ∧ (100 ∣ year → 400 ∣ year) then 29 else 28, 31, 30, 31, 30, 31, 31, 30, 31, 30, 31]

/-- The days of a year. -/
def yearLength (year : ℤ) : ℤ := (monthLengths year).sum

/-- The days from the start of year zero to the start of a year. -/
def daysBefore : ℤ → ℤ
  | .ofNat n => ∑ k ∈ Finset.range n, yearLength k
  | .negSucc n => -∑ k ∈ Finset.range (n + 1), yearLength (-(k + 1))

/-- The calendar has the day. -/
def Date.Exists (d : Date) : Prop :=
  1 ≤ d.month ∧ 1 ≤ d.day ∧ ∃ n, (monthLengths d.year)[d.month - 1]? = some n ∧ d.day ≤ n

/-- The days of a year before one of its months, counted from zero. -/
def monthStart (year : ℤ) (month : ℕ) : ℕ := ((monthLengths year).take month).sum

/-- The number of a day, where the first day of year zero is the first. -/
def Date.number (d : Date) : ℤ := daysBefore d.year + (monthStart d.year (d.month - 1) + d.day : ℕ)

/-- A leap year is one that the rule of the calendar makes one. -/
theorem isLeap_iff (year : ℤ) : isLeap year = true ↔ 4 ∣ year ∧ (100 ∣ year → 400 ∣ year) := by
  simp only [isLeap, Bool.and_eq_true, Bool.or_eq_true, decide_eq_true_iff, Int.dvd_iff_emod_eq_zero]
  tauto

/-- A year has a day more when it is a leap year. -/
theorem yearLength_eq (year : ℤ) : yearLength year = if isLeap year then 366 else 365 := by
  simp only [yearLength, monthLengths, isLeap_iff]
  split_ifs <;> rfl

/-- A year starts as many days after the one before it as that has. -/
theorem daysBefore_add_one (year : ℤ) : daysBefore (year + 1) = daysBefore year + yearLength year := by
  match year with
  | .ofNat n => exact Finset.sum_range_succ _ n
  | .negSucc 0 => decide
  | .negSucc (n + 1) =>
    show daysBefore (Int.negSucc n) = _
    have hlast : -((n + 1 : ℕ) + 1 : ℤ) = Int.negSucc (n + 1) := (Int.negSucc_eq _).symm
    rw [daysBefore, daysBefore, Finset.sum_range_succ _ (n + 1), hlast, neg_add, neg_add_cancel_right]

/-- Later years start later. -/
theorem daysBefore_mono : Monotone daysBefore := by
  refine monotone_int_of_le_succ fun year => ?_
  have hpos : 0 ≤ yearLength year := by rw [yearLength_eq]; split_ifs <;> decide
  rw [daysBefore_add_one]
  omega

/-- The days from the first of March of year zero to the first of March of a year. -/
def marchStart (year : ℤ) : ℤ := year * 365 + year / 4 - year / 100 + year / 400

/-- A year starts as many days after the first of March of the year before as the count in leap
years says. -/
theorem daysBefore_add_one_eq (year : ℤ) : daysBefore (year + 1) = marchStart year + 366 := by
  -- The two counts agree at year zero and grow alike, in both directions.
  have hstep : ∀ y : ℤ, marchStart (y + 1) = marchStart y + yearLength (y + 1) := by
    intro y
    simp only [marchStart, yearLength_eq, isLeap, Bool.and_eq_true, Bool.or_eq_true,
      decide_eq_true_iff]
    split_ifs <;> omega
  induction year using Int.induction_on with
  | zero => decide
  | succ n ih => rw [daysBefore_add_one, ih, hstep]; omega
  | pred n ih =>
    have hback := hstep (-n - 1)
    rw [daysBefore_add_one] at ih
    rw [Int.sub_add_cancel] at hback ⊢
    omega

/-- A month has the days that its place among the months says. -/
theorem getElem?_monthLengths (year : ℤ) {month : ℕ} (h : 1 ≤ month ∧ month ≤ 12) :
    (monthLengths year)[month - 1]? = some (monthLength year month) := by
  obtain ⟨h1, h12⟩ := h
  simp only [monthLengths, ← isLeap_iff]
  interval_cases month <;> rfl

/-- The calendar has the days that the lengths of the months allow. -/
theorem Date.exists_iff (d : Date) :
    d.Exists ↔ 1 ≤ d.month ∧ d.month ≤ 12 ∧ 1 ≤ d.day ∧ d.day ≤ monthLength d.year d.month := by
  constructor
  · rintro ⟨hmonth, hday, n, hn, hle⟩
    obtain ⟨hlt, -⟩ := List.getElem?_eq_some_iff.mp hn
    have h12 : d.month ≤ 12 := by
      change d.month - 1 < 12 at hlt
      omega
    rw [getElem?_monthLengths _ ⟨hmonth, h12⟩, Option.some_inj] at hn
    exact ⟨hmonth, h12, hday, hn ▸ hle⟩
  · rintro ⟨hmonth, h12, hday, hle⟩
    exact ⟨hmonth, hday, _, getElem?_monthLengths _ ⟨hmonth, h12⟩, hle⟩

/-- A day is found exactly when the calendar has it. -/
theorem Date.of?_eq_some_iff {year : ℤ} {month day : ℕ} {d : Date} :
    Date.of? year month day = some d ↔ d = ⟨year, month, day⟩ ∧ d.Exists := by
  unfold Date.of?
  split_ifs with h
  · rw [Option.some_inj, eq_comm]
    exact ⟨fun he => ⟨he, he ▸ (Date.exists_iff _).mpr h⟩, And.left⟩
  · constructor
    · intro he
      cases he
    · rintro ⟨rfl, he⟩
      exact absurd ((Date.exists_iff _).mp he) h

/-- The start of a month: the months from March on follow a rule of their own. -/
theorem monthStart_eq (year : ℤ) {month : ℕ} (h : 1 ≤ month ∧ month ≤ 12) :
    monthStart year (month - 1) =
      if month ≤ 2 then 31 * (month - 1)
      else (153 * (month - 3) + 2) / 5 + if isLeap year then 60 else 59 := by
  obtain ⟨h1, h12⟩ := h
  simp only [monthStart, monthLengths, ← isLeap_iff]
  interval_cases month <;> split <;> rfl

/-- A day counted from March of year zero is a day of the year that starts in March. -/
theorem Date.toDays_eq (d : Date) :
    d.toDays = if d.month ≤ 2 then marchStart (d.year - 1) + (153 * (d.month + 9) + 2) / 5 + d.day - 1
      else marchStart d.year + (153 * (d.month - 3) + 2) / 5 + d.day - 1 := by
  simp only [toDays, marchStart, Int.fdiv_eq_ediv_of_nonneg _ (show (0 : ℤ) ≤ 4 by decide),
    Int.fdiv_eq_ediv_of_nonneg _ (show (0 : ℤ) ≤ 100 by decide),
    Int.fdiv_eq_ediv_of_nonneg _ (show (0 : ℤ) ≤ 400 by decide)]
  split_ifs <;> rfl

/-- The count from March of year zero numbers the days in their order. -/
theorem Date.number_eq (d : Date) (h : d.Exists) : d.number = d.toDays + 61 := by
  obtain ⟨hmonth, h12, -, -⟩ := d.exists_iff.mp h
  have hthis := daysBefore_add_one_eq (d.year - 1)
  have hnext := daysBefore_add_one_eq d.year
  rw [Int.sub_add_cancel] at hthis
  rw [daysBefore_add_one, yearLength_eq] at hnext
  rw [number, toDays_eq, monthStart_eq _ ⟨hmonth, h12⟩]
  split_ifs at hnext ⊢ <;> omega

/-- What lies between two successive values of a monotone function lies between no others. -/
theorem eq_of_mem_Ioc_succ {ι α : Type} [LinearOrder ι] [SuccOrder ι] [Preorder α] {f : ι → α}
    (hf : Monotone f) {i j : ι} {x : α} (hi : x ∈ Set.Ioc (f i) (f (Order.succ i)))
    (hj : x ∈ Set.Ioc (f j) (f (Order.succ j))) : i = j :=
  hf.pairwise_disjoint_on_Ioc_succ.eq (Set.not_disjoint_iff.mpr ⟨x, hi, hj⟩)

/-- Later months start later. -/
theorem monthStart_mono (year : ℤ) : Monotone (monthStart year) := by
  refine monotone_nat_of_le_succ fun month => ?_
  rw [monthStart, monthStart, List.take_add_one, List.sum_append]
  exact Nat.le_add_right _ _

/-- A day is between the start of its month and that of the next. -/
theorem Date.mem_month {d : Date} (h : d.Exists) : monthStart d.year (d.month - 1) + d.day ∈
    Set.Ioc (monthStart d.year (d.month - 1)) (monthStart d.year (Order.succ (d.month - 1))) := by
  obtain ⟨-, hday, n, hn, hle⟩ := h
  have hnext : monthStart d.year (d.month - 1 + 1) = monthStart d.year (d.month - 1) + n := by
    rw [monthStart, List.take_add_one, hn, Option.toList_some, List.sum_append, List.sum_singleton]
    rfl
  rw [Order.succ_eq_add_one, hnext]
  exact ⟨by omega, by omega⟩

/-- A day is between the start of its year and that of the next. -/
theorem Date.mem_year {d : Date} (h : d.Exists) :
    d.number ∈ Set.Ioc (daysBefore d.year) (daysBefore (Order.succ d.year)) := by
  obtain ⟨hmonth, h12, -, -⟩ := d.exists_iff.mp h
  obtain ⟨hlow, hhigh⟩ := mem_month h
  have hyear : monthStart d.year (Order.succ (d.month - 1)) ≤ monthStart d.year 12 :=
    monthStart_mono _ (by rw [Order.succ_eq_add_one]; omega)
  rw [Order.succ_eq_add_one, daysBefore_add_one, number, Set.mem_Ioc]
  have hwhole : yearLength d.year = monthStart d.year 12 := rfl
  omega

/-- Each number is that of one day. -/
theorem Date.number_injective {d e : Date} (hd : d.Exists) (he : e.Exists)
    (h : d.number = e.number) : d = e := by
  obtain ⟨year, month, day⟩ := d
  obtain ⟨year', month', day'⟩ := e
  obtain rfl : year = year' :=
    eq_of_mem_Ioc_succ daysBefore_mono (Date.mem_year hd) (h ▸ Date.mem_year he)
  have hday : monthStart year (month - 1) + day = monthStart year (month' - 1) + day' :=
    Int.ofNat_inj.mp (Int.add_left_cancel h)
  have hmonth : month - 1 = month' - 1 :=
    eq_of_mem_Ioc_succ (monthStart_mono year) (Date.mem_month hd) (hday ▸ Date.mem_month he)
  obtain rfl : month = month' := by
    have h1 := hd.1
    have h1' := he.1
    dsimp only at h1 h1'
    omega
  rw [Nat.add_left_cancel hday]

/-- The day a number of days after the first of March of a year. -/
def Date.ofMarch (year dayOfYear : ℤ) : Date :=
  let shifted := (5 * dayOfYear + 2) / 153
  let day := dayOfYear - (153 * shifted + 2) / 5 + 1
  let month := if shifted < 10 then shifted + 3 else shifted - 9
  ⟨if month ≤ 2 then year + 1 else year, month.toNat, day.toNat⟩

/-- A day of a year that starts in March: the last day of February only when there is one. -/
def InMarchYear (year dayOfYear : ℤ) : Prop :=
  0 ≤ dayOfYear ∧ dayOfYear < if isLeap (year + 1) then 366 else 365

/-- Months of 31 and 30 days alternate from March on, so 153 days are five months; what February has
is what is left of the year. -/
theorem Date.ofMarch_spec {year dayOfYear : ℤ} (h : InMarchYear year dayOfYear) :
    (ofMarch year dayOfYear).Exists
      ∧ (ofMarch year dayOfYear).toDays = marchStart year + dayOfYear := by
  obtain ⟨hnonneg, hlt⟩ := h
  rw [exists_iff, toDays_eq]
  obtain ⟨shifted, hshifted⟩ : ∃ s, s = (5 * dayOfYear + 2) / 153 := ⟨_, rfl⟩
  have hlow : 0 ≤ shifted := by omega
  have hhigh : shifted ≤ 11 := by split_ifs at hlt <;> omega
  simp only [ofMarch, ← hshifted, monthLength]
  -- Each month has its number and its first day, which `simp` works out.
  interval_cases shifted
  all_goals
    simp
    split_ifs at hlt ⊢ <;> omega

/-- A day of an era as its century, its fours of years, its year and its day: a century has 36524
days and the last of an era one more, four years have 1461 days and the last of a century one less
unless the era ends there, and a year has 365 days and the last of four one more. -/
structure IsEraDay (n c q y d : ℤ) : Prop where
  eq : n = 36524 * c + 1461 * q + 365 * y + d
  century : 0 ≤ c ∧ c ≤ 3
  four : 0 ≤ q ∧ q ≤ 24
  year : 0 ≤ y ∧ y ≤ 3
  day : 0 ≤ d ∧ (d ≤ 364 ∨ d = 365 ∧ y = 3 ∧ (q = 24 → c = 3))

/-- Each day of an era has its place in the cycles of the era. -/
theorem exists_isEraDay {n : ℤ} (h : 0 ≤ n ∧ n < 146097) : ∃ c q y d, IsEraDay n c q y d := by
  obtain ⟨hlow, hhigh⟩ := h
  -- The last day of an era is set apart: by its quotient it would start a fifth century.
  by_cases hlast : n = 146096
  · exact ⟨3, 24, 3, 365, by omega, by omega, by omega, by omega, by omega⟩
  obtain ⟨c, hc⟩ : ∃ c, c = n / 36524 := ⟨_, rfl⟩
  obtain ⟨r, hr⟩ : ∃ r, r = n - 36524 * c := ⟨_, rfl⟩
  obtain ⟨q, hq⟩ : ∃ q, q = r / 1461 := ⟨_, rfl⟩
  obtain ⟨s, hs⟩ : ∃ s, s = r - 1461 * q := ⟨_, rfl⟩
  by_cases hleap : s = 1460
  · exact ⟨c, q, 3, 365, by omega, by omega, by omega, by omega, by omega⟩
  · exact ⟨c, q, s / 365, s % 365, by omega, by omega, by omega, by omega, by omega⟩

/-- Taking out the leap days leaves years of 365 days. -/
theorem IsEraDay.yearOfEra {n c q y d : ℤ} (h : IsEraDay n c q y d) :
    (n - n / 1460 + n / 36524 - n / 146096) / 365 = 100 * c + 4 * q + y := by
  obtain ⟨hn, hc, hq, hy, hd, hlong⟩ := h
  have hcentury : 1461 * q + 365 * y + d ≤ 36523 ∨ c = 3 ∧ 1461 * q + 365 * y + d = 36524 := by omega
  have hlast : n / 36524 - n / 146096 = c := by
    rcases hcentury with h | ⟨rfl, h⟩ <;> omega
  have hfour : 365 * y + d ≤ 1459 ∨ 365 * y + d = 1460 := by omega
  -- Near the end of four years the count of leap days is already one ahead, by `e`.
  obtain ⟨e, he⟩ : ∃ e, e = (24 * c + q + 365 * y + d) / 1460 := ⟨_, rfl⟩
  have hleaps : n / 1460 = 25 * c + q + e := by omega
  have hcount : n - n / 1460 + n / 36524 - n / 146096 = 365 * (100 * c + 4 * q + y) + (d - e) := by
    omega
  have hday : 0 ≤ d - e ∧ d - e ≤ 364 := by omega
  rw [hcount]
  omega

/-- The leap years up to a year of an era: one in four, but not one in a hundred, but one in four
hundred. -/
theorem IsEraDay.leaps {n c q y d : ℤ} (h : IsEraDay n c q y d) (era : ℤ) :
    (100 * c + 4 * q + y + era * 400) / 4 = 25 * c + q + 100 * era ∧
      (100 * c + 4 * q + y + era * 400) / 100 = c + 4 * era ∧
      (100 * c + 4 * q + y + era * 400) / 400 = era := by
  obtain ⟨-, hc, hq, hy, -⟩ := h
  exact ⟨by omega, by omega, by omega⟩

/-- The years of a place in an era start on the first of March, and the place is a day of its year. -/
theorem IsEraDay.marchYear {n c q y d : ℤ} (h : IsEraDay n c q y d) (era : ℤ) :
    marchStart (100 * c + 4 * q + y + era * 400) + d = era * 146097 + n ∧
      InMarchYear (100 * c + 4 * q + y + era * 400) d := by
  obtain ⟨h4, h100, h400⟩ := h.leaps era
  obtain ⟨hn, hc, hq, hy, hd, hlong⟩ := h
  constructor
  · rw [marchStart, h4, h100, h400]
    omega
  · refine ⟨hd, ?_⟩
    rw [isLeap]
    simp only [Bool.and_eq_true, Bool.or_eq_true, decide_eq_true_iff]
    split_ifs with hleap
    · omega
    · rcases hlong with hd | ⟨rfl, rfl, hq24⟩
      · omega
      · exact absurd (by omega) hleap

/-- The day of each number is a day of the calendar, and its number is that one. -/
theorem Date.ofDays_spec (days : ℤ) : (ofDays days).Exists ∧ (ofDays days).toDays = days := by
  obtain ⟨era, hera⟩ : ∃ e, e = Int.fdiv days 146097 := ⟨_, rfl⟩
  have hrest : 0 ≤ days - era * 146097 ∧ days - era * 146097 < 146097 := by
    rw [hera, Int.fdiv_eq_ediv_of_nonneg days (by decide)]
    omega
  obtain ⟨c, q, y, d, h⟩ := exists_isEraDay hrest
  obtain ⟨h4, h100, -⟩ := h.leaps 0
  obtain ⟨hstart, hin⟩ := h.marchYear era
  have hday : days - era * 146097 - (365 * (100 * c + 4 * q + y) + (100 * c + 4 * q + y) / 4
      - (100 * c + 4 * q + y) / 100) = d := by
    rw [Int.zero_mul, Int.add_zero] at h4 h100
    rw [h4, h100, h.eq]
    omega
  have hof : ofDays days = ofMarch (100 * c + 4 * q + y + era * 400) d := by
    simp only [ofDays, ← hera, h.yearOfEra, hday]
    rfl
  obtain ⟨hexists, hdays⟩ := ofMarch_spec hin
  rw [hof]
  exact ⟨hexists, by omega⟩

namespace Instant

/-- An instant of a day that the calendar has. -/
structure Exists (i : Instant) : Prop where
  date : i.date.Exists
  hour : i.clock.hour < 24
  minute : i.clock.minute < 60

/-- The minutes up to an instant, counted from the day before year zero. -/
def minutes (i : Instant) : ℤ := i.date.number * 1440 + i.clock.hour * 60 + i.clock.minute

/-- An instant is the only one with its minute, its second and its nanosecond. -/
theorem eq_of_minutes_eq {i j : Instant} (hi : i.Exists) (hj : j.Exists)
    (hminutes : i.minutes = j.minutes) (hsecond : i.clock.second = j.clock.second)
    (hnano : i.clock.nano = j.clock.nano) : i = j := by
  obtain ⟨date, ⟨hour, minute, second, nano⟩⟩ := i
  obtain ⟨date', ⟨hour', minute', second', nano'⟩⟩ := j
  obtain ⟨hdate, hhour, hminute⟩ := hi
  obtain ⟨hdate', hhour', hminute'⟩ := hj
  simp only [minutes] at hdate hdate' hhour hhour' hminute hminute' hminutes hsecond hnano
  obtain rfl : date = date' := Date.number_injective hdate hdate' (by omega)
  obtain rfl : hour = hour' := by omega
  obtain rfl : minute = minute' := by omega
  rw [hsecond, hnano]

/-- Going back by minutes leads to the instant of the calendar that is as many minutes before. -/
theorem minus_spec {i : Instant} (h : i.date.Exists) (m : ℤ) :
    (i.minus m).Exists ∧ (i.minus m).minutes = i.minutes - m ∧
      (i.minus m).clock.second = i.clock.second ∧ (i.minus m).clock.nano = i.clock.nano := by
  obtain ⟨total, htotal⟩ :
      ∃ t, t = i.date.toDays * 1440 + i.clock.hour * 60 + i.clock.minute - m := ⟨_, rfl⟩
  have hfdiv := Int.fdiv_eq_ediv_of_nonneg total (show (0 : ℤ) ≤ 1440 by decide)
  obtain ⟨hexists, hdays⟩ := Date.ofDays_spec (Int.fdiv total 1440)
  have hnumber := Date.number_eq _ hexists
  have hbefore := Date.number_eq _ h
  refine ⟨⟨?_, ?_, ?_⟩, ?_, rfl, rfl⟩ <;> simp only [minus, minutes, ← htotal]
  · exact hexists
  all_goals omega

end Instant

end TableGraph.Time
