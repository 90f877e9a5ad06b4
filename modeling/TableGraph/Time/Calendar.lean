/-!
# The calendar

Dates of the Gregorian calendar, also before its introduction, and instants of a day to the
nanosecond. Days are counted from the first of March of year zero, in eras of 400 years.
-/

namespace TableGraph.Time

/-- Whether a year has 366 days. -/
def isLeap (year : Int) : Bool := year % 4 = 0 && (year % 100 ≠ 0 || year % 400 = 0)

/-- The number of days of a month. -/
def monthLength (year : Int) (month : Nat) : Nat :=
  match month with
  | 2 => if isLeap year then 29 else 28
  | 4 | 6 | 9 | 11 => 30
  | _ => 31

/-- A day of the calendar. -/
structure Date where
  /-- The year; zero is the year before the first. -/
  year : Int
  /-- The month, from one on. -/
  month : Nat
  /-- The day of the month, from one on. -/
  day : Nat
  deriving DecidableEq, Repr, Inhabited

/-- The day, if the calendar has it. -/
def Date.of? (year : Int) (month day : Nat) : Option Date :=
  if 1 ≤ month ∧ month ≤ 12 ∧ 1 ≤ day ∧ day ≤ monthLength year month then some ⟨year, month, day⟩
  else none

/-- Days since the first of March of year zero. -/
def Date.toDays (d : Date) : Int :=
  let year := if d.month ≤ 2 then d.year - 1 else d.year
  let month : Int := if d.month ≤ 2 then d.month + 9 else d.month - 3
  year * 365 + Int.fdiv year 4 - Int.fdiv year 100 + Int.fdiv year 400
    + (153 * month + 2) / 5 + d.day - 1

/-- The day a number of days after the first of March of year zero. -/
def Date.ofDays (days : Int) : Date :=
  let era := Int.fdiv days 146097
  let dayOfEra := days - era * 146097
  let yearOfEra := (dayOfEra - dayOfEra / 1460 + dayOfEra / 36524 - dayOfEra / 146096) / 365
  let dayOfYear := dayOfEra - (365 * yearOfEra + yearOfEra / 4 - yearOfEra / 100)
  let shifted := (5 * dayOfYear + 2) / 153
  let day := dayOfYear - (153 * shifted + 2) / 5 + 1
  let month := if shifted < 10 then shifted + 3 else shifted - 9
  let year := yearOfEra + era * 400
  ⟨if month ≤ 2 then year + 1 else year, month.toNat, day.toNat⟩

/-- A time of day. In a leap second, `second` is 60. -/
structure Clock where
  /-- The hour. -/
  hour : Nat
  /-- The minute. -/
  minute : Nat
  /-- The second. -/
  second : Nat
  /-- The nanosecond. -/
  nano : Nat
  deriving DecidableEq, Repr, Inhabited

/-- The time of day, if a day has it; the seconds may reach 60. -/
def Clock.of? (hour minute second nano : Nat) : Option Clock :=
  if hour < 24 ∧ minute < 60 ∧ second ≤ 60 ∧ nano < 1000000000 then some ⟨hour, minute, second, nano⟩
  else none

/-- A day with a time. -/
structure Instant where
  /-- The day. -/
  date : Date
  /-- The time. -/
  clock : Clock
  deriving DecidableEq, Repr, Inhabited

/-- The instant a number of minutes earlier. Seconds are kept as they are. -/
def Instant.minus (i : Instant) (minutes : Int) : Instant :=
  let total := i.date.toDays * 1440 + i.clock.hour * 60 + i.clock.minute - minutes
  let days := Int.fdiv total 1440
  let rest := (total - days * 1440).toNat
  ⟨Date.ofDays days, { i.clock with hour := rest / 60, minute := rest % 60 }⟩

end TableGraph.Time
