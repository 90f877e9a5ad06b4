import TableGraph.Proofs.Decimal.Reading
import TableGraph.Proofs.Text.Cutting
import TableGraph.Proofs.Time.Calendar
import TableGraph.Time.Reading

/-!
# Dates are read as they are written

A written date has four digits for the year and two for the month and the day. It may be followed by a
time, and this by an offset from UTC. Each reader takes just what was written for it and leaves the
rest, so the three ways to read a date agree on what a text says, and the calendar decides whether it
says anything.
-/

namespace TableGraph.Time

open Decimal (isDigit ofDigits padded)

/-- A date as it is written; it need not be one of the calendar. -/
structure WrittenDate where
  /-- The year. -/
  year : ℕ
  /-- The month. -/
  month : ℕ
  /-- The day of the month. -/
  day : ℕ
  year_pos : 1 ≤ year
  year_lt : year < 10 ^ 4
  month_lt : month < 10 ^ 2
  day_lt : day < 10 ^ 2

/-- A time of day as it is written. -/
structure WrittenClock where
  /-- The hour. -/
  hour : ℕ
  /-- The minute. -/
  minute : ℕ
  /-- The second. -/
  second : ℕ
  /-- The digits of the fraction; there are none without a fraction. -/
  fraction : List Char
  hour_lt : hour < 24
  minute_lt : minute < 60
  second_lt : second < 60
  isDigit_of_mem : ∀ c ∈ fraction, isDigit c = true
  length_le : fraction.length ≤ 9

/-- An offset from UTC as it is written. -/
inductive Offset
  | utc
  | east (hours : Fin 24) (minutes : Fin 60)
  | west (hours : Fin 24) (minutes : Fin 60)

/-- What is written behind a date. -/
inductive Ending
  | none
  | clock (time : WrittenClock) (spaced : Bool)
  | stamp (time : WrittenClock) (offset : Offset)

namespace WrittenDate

/-- The characters of a date. -/
def chars (d : WrittenDate) : List Char :=
  padded 4 d.year ++ '-' :: padded 2 d.month ++ '-' :: padded 2 d.day

/-- The day that is written. -/
def date (d : WrittenDate) : Date := ⟨d.year, d.month, d.day⟩

end WrittenDate

namespace WrittenClock

/-- The fraction behind its point, if there is one. -/
def fractionChars (t : WrittenClock) : List Char :=
  if t.fraction = [] then [] else '.' :: t.fraction

/-- The characters of a time. -/
def chars (t : WrittenClock) : List Char :=
  padded 2 t.hour ++ ':' :: padded 2 t.minute ++ ':' :: padded 2 t.second ++ t.fractionChars

/-- The nanoseconds: the fraction to nine digits. -/
def nano (t : WrittenClock) : ℕ :=
  ofDigits (t.fraction ++ List.replicate (9 - t.fraction.length) '0')

/-- The time that is written. -/
def clock (t : WrittenClock) : Clock := ⟨t.hour, t.minute, t.second, t.nano⟩

end WrittenClock

namespace Offset

/-- The characters of an offset. -/
def chars : Offset → List Char
  | utc => ['Z']
  | east hours minutes => '+' :: padded 2 hours ++ ':' :: padded 2 minutes
  | west hours minutes => '-' :: padded 2 hours ++ ':' :: padded 2 minutes

/-- The minutes by which clocks are ahead of UTC. -/
def minutes : Offset → ℤ
  | utc => 0
  | east hours minutes => hours * 60 + minutes
  | west hours minutes => -(hours * 60 + minutes)

end Offset

namespace Ending

/-- What joins a date and a time. -/
def mark (spaced : Bool) : Char := if spaced then ' ' else 'T'

/-- The characters behind a date. -/
def chars : Ending → List Char
  | none => []
  | clock t spaced => mark spaced :: t.chars
  | stamp t o => 'T' :: t.chars ++ o.chars

/-- The instant of a day that is written: midnight when there is no time. -/
def instant : Ending → Date → Instant
  | none, day => ⟨day, ⟨0, 0, 0, 0⟩⟩
  | clock t _, day => ⟨day, t.clock⟩
  | stamp t o, day => Instant.minus ⟨day, t.clock⟩ o.minutes

end Ending

/-- A digit is no blank. -/
theorem isBlank_of_isDigit {c : Char} (h : isDigit c = true) : Text.isBlank c = false := by
  rw [isDigit, Bool.and_eq_true, decide_eq_true_iff, decide_eq_true_iff] at h
  have hlow : 48 ≤ c.toNat := h.1
  have hhigh : c.toNat ≤ 57 := h.2
  simp only [Text.isBlank, Text.blankRanges, List.any_cons, List.any_nil, Bool.or_eq_false_iff,
    Bool.and_eq_false_iff, decide_eq_false_iff_not, and_true]
  omega

/-- A number with zeros in front starts with a digit. -/
theorem exists_cons_padded (width n : ℕ) :
    ∃ c cs, padded width n = c :: cs ∧ isDigit c = true := by
  have hne : padded width n ≠ [] := List.append_ne_nil_of_right_ne_nil _ (Decimal.digits_ne_nil n)
  obtain ⟨c, cs, hcons⟩ := List.exists_cons_of_ne_nil hne
  exact ⟨c, cs, hcons, Decimal.isDigit_of_mem_padded width n (hcons ▸ List.mem_cons_self)⟩

/-- There are no blanks in front of the digits of a number. -/
theorem dropWhile_padded (width n : ℕ) (rest : List Char) :
    (padded width n ++ rest).dropWhile Text.isBlank = padded width n ++ rest := by
  obtain ⟨c, cs, hcons, hc⟩ := exists_cons_padded width n
  have hneg : ¬Text.isBlank c = true := Bool.eq_false_iff.mp (isBlank_of_isDigit hc)
  rw [hcons, List.cons_append, List.dropWhile_cons_of_neg hneg]

section Numbers

variable {width n : ℕ} (hw : 0 < width) (hn : n < 10 ^ width) (rest : List Char)

include hw hn

/-- A number of fixed width is read, and what is behind it is left. -/
theorem fixedNumber_padded : fixedNumber width (padded width n ++ rest) = some (n, rest) := by
  have hlength := Decimal.length_padded width n hw hn
  have hdigits : (padded width n).all isDigit = true :=
    List.all_eq_true.mpr fun c hc => Decimal.isDigit_of_mem_padded width n hc
  rw [fixedNumber, List.take_left' hlength, List.drop_left' hlength, if_pos ⟨hlength, hdigits⟩,
    Decimal.ofDigits_padded]

/-- A number of the greatest width is read, and what is behind it is left. -/
theorem looseNumber_padded : looseNumber width (padded width n ++ rest) = some (n, rest) := by
  have hlength := Decimal.length_padded width n hw hn
  obtain ⟨c, cs, hcons, -⟩ := exists_cons_padded width n
  have htake : (padded width n).takeWhile isDigit = padded width n :=
    List.takeWhile_eq_self_iff.mpr fun d hd => Decimal.isDigit_of_mem_padded width n hd
  simp only [looseNumber, dropWhile_padded, List.take_left' hlength, htake]
  rw [if_neg (hcons ▸ List.cons_ne_nil c cs), Decimal.ofDigits_padded, List.drop_left]

end Numbers

/-- Blanks in front of a number are skipped. -/
theorem looseNumber_blank {c : Char} (hc : Text.isBlank c = true) (width : ℕ) (cs : List Char) :
    looseNumber width (c :: cs) = looseNumber width cs := by
  rw [looseNumber, looseNumber, List.dropWhile_cons_of_pos hc]

/-- A year of four digits is read, and what is behind it is left. -/
theorem looseYear_padded {n : ℕ} (hn : n < 10 ^ 4) (rest : List Char) :
    looseYear (padded 4 n ++ rest) = some ((n : ℤ), rest) := by
  obtain ⟨c, cs, hcons, hc⟩ := exists_cons_padded 4 n
  unfold looseYear
  rw [dropWhile_padded]
  split
  next cs' h =>
    rw [hcons] at h
    obtain ⟨rfl, -⟩ := List.cons.inj h
    cases hc
  next cs' h =>
    rw [hcons] at h
    obtain ⟨rfl, -⟩ := List.cons.inj h
    cases hc
  next =>
    rw [looseNumber_padded (by decide) hn]
    rfl

/-- A text that does not go on with the digits of a number or with a fraction. -/
def NoFraction (cs : List Char) : Prop := ∀ c rest, cs = c :: rest → isDigit c = false ∧ c ≠ '.'

/-- There is no fraction at the end of a text. -/
theorem noFraction_nil : NoFraction [] := nofun

/-- What is written for an offset does not go on with a fraction. -/
theorem noFraction_offset (o : Offset) : NoFraction o.chars := by
  intro c cs h
  cases o <;> obtain ⟨rfl, -⟩ := List.cons.inj h <;> decide

/-- A fraction is read to the nanosecond, and what is behind it is left. -/
theorem fraction_chars (t : WrittenClock) {rest : List Char} (hrest : NoFraction rest) :
    fraction (t.fractionChars ++ rest) = some (t.nano, rest) := by
  unfold WrittenClock.fractionChars WrittenClock.nano
  split_ifs with h
  · rw [h, List.nil_append]
    unfold fraction
    split
    next cs => exact absurd rfl (hrest '.' cs rfl).2
    next => rw [List.nil_append, Decimal.ofDigits_zeros]
  · obtain ⟨hkept, hleft⟩ := (Text.cut_iff (p := isDigit)).mpr
      ⟨rfl, t.isDigit_of_mem, fun c cs hcons => (hrest c cs hcons).1⟩
    simp only [List.cons_append, fraction, hkept, hleft, if_neg h, List.take_of_length_le t.length_le]
    rw [Decimal.ofDigits_append, Decimal.ofDigits_zeros, List.length_replicate]
    rfl

/-- A written time is one of a day. -/
theorem of?_clock (t : WrittenClock) : Clock.of? t.hour t.minute t.second t.nano = some t.clock := by
  have hnano : t.nano < 10 ^ 9 := by
    have hdigits : ∀ c ∈ t.fraction ++ List.replicate (9 - t.fraction.length) '0',
        isDigit c = true :=
      fun c hc => (List.mem_append.mp hc).elim (t.isDigit_of_mem c) Decimal.isDigit_of_mem_zeros
    have hlt := Decimal.ofDigits_lt hdigits
    rwa [List.length_append, List.length_replicate, Nat.add_sub_cancel' t.length_le] at hlt
  rw [Clock.of?, if_pos ⟨t.hour_lt, t.minute_lt, t.second_lt.le, hnano⟩]
  rfl

section Readers

/-- What is read is handed on. -/
theorem some_bind_eq {α β : Type} (a : α) (f : α → Option β) : (some a >>= f) = f a := rfl

/-- A character that is expected is taken. -/
@[simp]
theorem expect_self (c : Char) (cs : List Char) : expect c (c :: cs) = some cs := if_pos rfl

/-- A number of two digits is read by either reader. -/
theorem two_digits {n : ℕ} (hn : n < 10 ^ 2) (rest : List Char) :
    fixedNumber 2 (padded 2 n ++ rest) = some (n, rest) ∧
      looseNumber 2 (padded 2 n ++ rest) = some (n, rest) :=
  ⟨fixedNumber_padded (by decide) hn rest, looseNumber_padded (by decide) hn rest⟩

/-- An offset is read as its minutes. -/
theorem offset_chars (o : Offset) : offset o.chars = some o.minutes := by
  have hhours (h : Fin 24) (rest : List Char) :
      fixedNumber 2 (padded 2 h ++ rest) = some ((h : ℕ), rest) :=
    (two_digits (h.isLt.trans (by decide)) rest).1
  have hminutes (m : Fin 60) : fixedNumber 2 (padded 2 m) = some ((m : ℕ), []) := by
    have hread := (two_digits (m.isLt.trans (by decide)) []).1
    rwa [List.append_nil] at hread
  cases o with
  | utc => rfl
  | east h m => simp [Offset.chars, Offset.minutes, offset, hhours, hminutes]
  | west h m => simp [Offset.chars, Offset.minutes, offset, hhours, hminutes]

variable (d : WrittenDate) (t : WrittenClock)

/-- Hours, minutes and seconds have two digits. -/
theorem WrittenClock.lt_hundred : t.hour < 10 ^ 2 ∧ t.minute < 10 ^ 2 ∧ t.second < 10 ^ 2 :=
  ⟨t.hour_lt.trans (by decide), t.minute_lt.trans (by decide), t.second_lt.trans (by decide)⟩

/-- A time is read to the end of a text. -/
theorem looseClock_chars : looseClock t.chars = some t.clock := by
  obtain ⟨hhour, hminute, hsecond⟩ := t.lt_hundred
  have hfraction := fraction_chars t noFraction_nil
  rw [List.append_nil] at hfraction
  simp only [looseClock, WrittenClock.chars, List.append_assoc, List.cons_append, some_bind_eq,
    (two_digits hhour _).2, (two_digits hminute _).2, (two_digits hsecond _).2, expect_self,
    hfraction, ↓reduceIte, of?_clock]

/-- A date is read, and what is behind it is left. -/
theorem looseDate_chars (rest : List Char) :
    looseDate (d.chars ++ rest) = (Date.of? d.year d.month d.day).map (·, rest) := by
  have hknown : isKnownYear d.year = true := by
    have hlt := d.year_lt
    rw [isKnownYear, Bool.and_eq_true, decide_eq_true_iff, decide_eq_true_iff]
    omega
  simp only [looseDate, WrittenDate.chars, List.append_assoc, List.cons_append, some_bind_eq,
    looseYear_padded d.year_lt, (two_digits d.month_lt _).2, (two_digits d.day_lt _).2, expect_self,
    ↓reduceIte, hknown]
  exact (Option.map_eq_bind ..).symm

/-- The part of a time stamp behind its date. -/
def stampTime (date : Option Date) (cs : List Char) : Option Instant := do
  let (hour, rest) ← fixedNumber 2 cs
  let rest ← expect ':' rest
  let (minute, rest) ← fixedNumber 2 rest
  let rest ← expect ':' rest
  let (second, rest) ← fixedNumber 2 rest
  let (nano, rest) ← fraction rest
  let minutes ← offset rest
  let date ← date
  let clock ← Clock.of? hour minute second nano
  some (Instant.minus ⟨date, clock⟩ minutes)

/-- A time stamp goes on behind its date with a mark and a time. -/
theorem stamp_date {mark : Char} (h : mark = 'T' ∨ mark = ' ') (rest : List Char) :
    stamp (d.chars ++ mark :: rest) = stampTime (Date.of? d.year d.month d.day) rest := by
  have hmark : (expect 'T' (mark :: rest)).or
      ((expect 't' (mark :: rest)).or (expect ' ' (mark :: rest))) = some rest := by
    rcases h with rfl | rfl <;> rfl
  have hyear := fixedNumber_padded (by decide) d.year_lt
  simp only [stamp, WrittenDate.chars, List.append_assoc, List.cons_append, some_bind_eq, hyear,
    (two_digits d.month_lt _).1, (two_digits d.day_lt _).1, expect_self, hmark]
  rfl

/-- The time of a time stamp and an offset make an instant. -/
theorem stampTime_chars {rest : List Char} (hrest : NoFraction rest) (date : Option Date) :
    stampTime date (t.chars ++ rest) =
      offset rest >>= fun minutes => date.map fun day => Instant.minus ⟨day, t.clock⟩ minutes := by
  obtain ⟨hhour, hminute, hsecond⟩ := t.lt_hundred
  simp only [stampTime, WrittenClock.chars, List.append_assoc, List.cons_append, some_bind_eq,
    (two_digits hhour _).1, (two_digits hminute _).1, (two_digits hsecond _).1, expect_self,
    fraction_chars t hrest, of?_clock]
  exact congrArg _ (funext fun minutes => (Option.map_eq_bind ..).symm)

/-- Only a time with an offset is read as a time stamp, and it is brought to UTC. -/
theorem stamp_chars (e : Ending) : stamp (d.chars ++ e.chars) =
    match e with
    | .stamp _ _ => (Date.of? d.year d.month d.day).map e.instant
    | _ => none := by
  have hyear := fixedNumber_padded (by decide) d.year_lt
  cases e with
  | none =>
    simp only [stamp, WrittenDate.chars, Ending.chars, List.append_assoc, List.cons_append,
      some_bind_eq, hyear, (two_digits d.month_lt _).1, (two_digits d.day_lt _).1, expect_self]
    rfl
  | clock t spaced =>
    have hmark : Ending.mark spaced = 'T' ∨ Ending.mark spaced = ' ' := by cases spaced <;> decide
    rw [Ending.chars, stamp_date d hmark, ← List.append_nil t.chars, stampTime_chars t noFraction_nil]
    rfl
  | stamp t o =>
    rw [Ending.chars, List.cons_append, stamp_date d (.inl rfl),
      stampTime_chars t (noFraction_offset o), offset_chars, some_bind_eq]
    rfl

/-- A time without an offset is read behind a `T` and behind a space. -/
theorem local?_clock {cs : List Char} {day : Date} {spaced : Bool}
    (h : looseDate cs = some (day, Ending.mark spaced :: t.chars)) :
    local? cs = some ⟨day, t.clock⟩ := by
  have hblank : looseClock (' ' :: t.chars) = looseClock t.chars := by
    rw [looseClock, looseNumber_blank (by decide)]
    rfl
  rw [local?, h, some_bind_eq]
  cases spaced with
  | false =>
    change (looseClock t.chars >>= fun clock => some (⟨day, clock⟩ : Instant)) = _
    rw [looseClock_chars, some_bind_eq]
  | true =>
    change (looseClock (' ' :: t.chars) >>= fun clock => some (⟨day, clock⟩ : Instant)) = _
    rw [hblank, looseClock_chars, some_bind_eq]

/-- A written date is read as the instant it says, if the calendar has the day. -/
theorem parse?_chars (e : Ending) : parse? (String.ofList (d.chars ++ e.chars)) =
    (Date.of? d.year d.month d.day).map e.instant := by
  have hloose := looseDate_chars d e.chars
  rw [parse?, String.toList_ofList, stamp_chars]
  cases hday : Date.of? d.year d.month d.day with
  | none =>
    rw [hday] at hloose
    rw [local?, midnight?, hloose]
    cases e <;> rfl
  | some day =>
    rw [hday] at hloose
    cases e with
    | none =>
      rw [local?, midnight?, hloose]
      rfl
    | clock t spaced =>
      rw [local?_clock t hloose]
      rfl
    | stamp t o => rfl

end Readers

namespace WrittenDate

/-- A date and what is written behind it. -/
def text (d : WrittenDate) (e : Ending) : String := String.ofList (d.chars ++ e.chars)

/-- What is read from the texts that start with a date. -/
structure ReadAsWritten (d : WrittenDate) : Prop where
  /-- A date alone is its first instant. -/
  alone : d.date.Exists → parse? (d.text .none) = some ⟨d.date, ⟨0, 0, 0, 0⟩⟩
  /-- A date and a time are that day and that time, with a `T` or a space between them. -/
  clock : d.date.Exists → ∀ t spaced, parse? (d.text (.clock t spaced)) = some ⟨d.date, t.clock⟩
  /-- With an offset they are the instant of the calendar that is as many minutes before. -/
  stamp : d.date.Exists → ∀ t o, ∃ i, parse? (d.text (.stamp t o)) = some i ∧ i.Exists ∧
    i.minutes = (⟨d.date, t.clock⟩ : Instant).minutes - o.minutes ∧
    i.clock.second = t.second ∧ i.clock.nano = t.nano
  /-- Two texts of one instant are read alike, whatever their offsets. -/
  alike : d.date.Exists → ∀ d' : WrittenDate, d'.date.Exists → ∀ t t' o o',
    (⟨d.date, t.clock⟩ : Instant).minutes - o.minutes =
      (⟨d'.date, t'.clock⟩ : Instant).minutes - o'.minutes →
    t.second = t'.second → t.nano = t'.nano →
    parse? (d.text (.stamp t o)) = parse? (d'.text (.stamp t' o'))
  /-- A day that the calendar does not have is not read, whatever is written behind it. -/
  missing : ¬d.date.Exists → ∀ e, parse? (d.text e) = none

variable {d : WrittenDate}

/-- The day of a written date is found exactly when the calendar has it. -/
theorem of?_date : (d.date.Exists → Date.of? d.year d.month d.day = some d.date) ∧
    (¬d.date.Exists → Date.of? d.year d.month d.day = none) :=
  ⟨fun h => Date.of?_eq_some_iff.mpr ⟨rfl, h⟩, fun h =>
    Option.eq_none_iff_forall_ne_some.mpr fun _ he => by
      obtain ⟨rfl, hexists⟩ := Date.of?_eq_some_iff.mp he
      exact h hexists⟩

/-- What is written behind a day of the calendar is read as its instant. -/
theorem parse?_text (h : d.date.Exists) (e : Ending) :
    parse? (d.text e) = some (e.instant d.date) := by
  rw [text, parse?_chars, of?_date.1 h]
  rfl

/-- Every date of four, two and two digits is read as it is written: as midnight when it stands alone,
as the day and the time that follow it, and before or after them by the offset that follows; and it is
read only if the calendar has it. -/
theorem readAsWritten (d : WrittenDate) : d.ReadAsWritten := by
  refine ⟨fun h => parse?_text h .none, fun h t spaced => parse?_text h (.clock t spaced), ?_, ?_, ?_⟩
  · intro h t o
    exact ⟨_, parse?_text h (.stamp t o), Instant.minus_spec h o.minutes⟩
  · intro h d' h' t t' o o' hminutes hsecond hnano
    obtain ⟨hexists, hthis, hs, hn⟩ := Instant.minus_spec (i := ⟨d.date, t.clock⟩) h o.minutes
    obtain ⟨hexists', hthis', hs', hn'⟩ := Instant.minus_spec (i := ⟨d'.date, t'.clock⟩) h' o'.minutes
    have hsame := Instant.eq_of_minutes_eq hexists hexists'
      (hthis.trans (hminutes.trans hthis'.symm)) (hs.trans (hsecond.trans hs'.symm))
      (hn.trans (hnano.trans hn'.symm))
    rw [parse?_text h, parse?_text h']
    exact congrArg some hsame
  · intro h e
    rw [text, parse?_chars, of?_date.2 h]
    rfl

/-- Half an hour after midnight on the first of March, where clocks are an hour ahead, is still the
leap day in UTC, and a year without a leap day has no such day. -/
theorem readAsWritten_leapDay :
    parse? "2024-03-01T00:30:00.5+01:00" = some ⟨⟨2024, 2, 29⟩, ⟨23, 30, 0, 500000000⟩⟩ ∧
      parse? "2023-02-29 12:00:00" = none := by
  have hmarch : (⟨2024, 3, 1⟩ : Date).Exists := (Date.exists_iff _).mpr (by decide)
  have hleap : (⟨2024, 2, 29⟩ : Date).Exists := (Date.exists_iff _).mpr (by decide)
  have hnone : ¬(⟨2023, 2, 29⟩ : Date).Exists := fun h => absurd ((Date.exists_iff _).mp h) (by decide)
  constructor
  · obtain ⟨i, hread, hexists, hminutes, hsecond, hnano⟩ :=
      (readAsWritten ⟨2024, 3, 1, by decide, by decide, by decide, by decide⟩).stamp hmarch
        ⟨0, 30, 0, ['5'], by decide, by decide, by decide, List.forall_mem_singleton.mpr rfl, by decide⟩
        (.east 1 0)
    have hbefore : i.minutes = (⟨⟨2024, 2, 29⟩, ⟨23, 30, 0, 500000000⟩⟩ : Instant).minutes := by
      rw [hminutes]
      change (⟨2024, 3, 1⟩ : Date).number * 1440 + 0 * 60 + 30 - 60
        = (⟨2024, 2, 29⟩ : Date).number * 1440 + 23 * 60 + 30
      rw [Date.number_eq _ hmarch, Date.number_eq _ hleap]
      decide
    rw [← Instant.eq_of_minutes_eq hexists ⟨hleap, by decide, by decide⟩ hbefore hsecond hnano,
      ← hread]
    rfl
  · rw [← (readAsWritten ⟨2023, 2, 29, by decide, by decide, by decide, by decide⟩).missing hnone
      (.clock ⟨12, 0, 0, [], by decide, by decide, by decide, nofun, by decide⟩ true)]
    rfl

end WrittenDate

end TableGraph.Time
