import Mathlib.Tactic.Common
import Mathlib.Tactic.IntervalCases

/-! The Gregorian calendar, with its days counted from the first day of the year 0: the number of
a date, the date of a number by closed forms, and that they are inverse.
-/

namespace Panuti.Library.Calendar

def IsLeap (year : Nat) : Prop :=
  year % 4 = 0 ∧ (year % 100 ≠ 0 ∨ year % 400 = 0)

instance (year : Nat) : Decidable (IsLeap year) :=
  inferInstanceAs (Decidable (year % 4 = 0 ∧ (year % 100 ≠ 0 ∨ year % 400 = 0)))

def yearLength (year : Nat) : Nat :=
  if IsLeap year then 366 else 365

def monthLength (year month : Nat) : Nat :=
  if month = 2 then if IsLeap year then 29 else 28
  else if month = 4 ∨ month = 6 ∨ month = 9 ∨ month = 11 then 30
  else 31

structure Date where
  year : Nat
  month : Nat
  day : Nat
deriving Repr, DecidableEq

structure Date.Valid (date : Date) : Prop where
  month_pos : 1 ≤ date.month
  month_le : date.month ≤ 12
  day_pos : 1 ≤ date.day
  day_le : date.day ≤ monthLength date.year date.month

def spans (length : Nat → Nat) (start : Nat) : (count : Nat) → Nat
  | 0 => 0
  | count + 1 => spans length start count + length (start + count)

def daysBefore (year : Nat) : Nat :=
  spans yearLength 0 year

def daysInto (year month : Nat) : Nat :=
  spans (monthLength year) 1 (month - 1)

def Date.number (date : Date) : Nat :=
  daysBefore date.year + daysInto date.year date.month + (date.day - 1)

-- Spans

section

variable {length : Nat → Nat} {start count : Nat}

theorem spans_succ_left
    : spans length start (count + 1) = length start + spans length (start + 1) count := by
  induction count with
  | zero => simp [spans]
  | succ count ih =>
      rw [spans, ih, spans, Nat.add_assoc, Nat.add_right_comm start 1 count, Nat.add_assoc start]

theorem spans_add {more : Nat}
    : spans length start (count + more)
      = spans length start count + spans length (start + count) more := by
  induction more with
  | zero => rfl
  | succ more ih => rw [← Nat.add_assoc, spans, ih, spans, Nat.add_assoc, Nat.add_assoc start]

theorem spans_mono {more : Nat} (le : count ≤ more)
    : spans length start count ≤ spans length start more := by
  obtain ⟨rest, rfl⟩ := Nat.exists_eq_add_of_le le
  rw [spans_add]
  exact Nat.le_add_right ..

theorem spans_unique {other rest rest' : Nat}
    (same : spans length start count + rest = spans length start other + rest')
    (within : rest < length (start + count)) (within' : rest' < length (start + other))
    : count = other ∧ rest = rest' := by
  rcases Nat.lt_trichotomy count other with less | rfl | more
  · have past : spans length start (count + 1) ≤ spans length start other := spans_mono less
    rw [spans] at past
    omega
  · exact ⟨rfl, Nat.add_left_cancel same⟩
  · have past : spans length start (other + 1) ≤ spans length start count := spans_mono more
    rw [spans] at past
    omega

theorem exists_span {place : Nat} (inside : place < spans length start count)
    : ∃ index < count, ∃ rest < length (start + index),
        place = spans length start index + rest := by
  induction count with
  | zero => cases inside
  | succ count ih =>
      rw [spans] at inside
      by_cases early : place < spans length start count
      · obtain ⟨index, less, found⟩ := ih early
        exact ⟨index, Nat.lt_succ_of_lt less, found⟩
      · exact ⟨count, Nat.lt_succ_self count, place - spans length start count, by omega,
          by omega⟩

end

-- Years and months

theorem daysBefore_add (year more : Nat)
    : daysBefore (year + more) = daysBefore year + spans yearLength year more := by
  rw [daysBefore, spans_add, Nat.zero_add]
  rfl

theorem monthLength_le (year month : Nat) : monthLength year month ≤ 31 := by
  rw [monthLength]
  split
  · split
    · decide
    · decide
  · split
    · decide
    · decide

/-- The days before a year, in closed form. -/
theorem daysBefore_succ (year : Nat)
    : daysBefore (year + 1) + year / 100 = 365 * year + year / 4 + year / 400 + 366 := by
  induction year with
  | zero => rfl
  | succ year ih =>
      have step : daysBefore (year + 1 + 1) = daysBefore (year + 1) + yearLength (year + 1) := by
        rw [daysBefore, spans, Nat.zero_add]
        rfl
      have turns (n : Nat) (some : 0 < n)
          : (year + 1) / n = year / n + if (year + 1) % n = 0 then 1 else 0 := by
        rw [Nat.succ_div]
        simp only [Nat.dvd_iff_mod_eq_zero]
      rw [step, yearLength, turns 4 (by decide), turns 100 (by decide), turns 400 (by decide)]
      by_cases leap : IsLeap (year + 1)
      · obtain ⟨four, other⟩ := leap
        rw [if_pos ⟨four, other⟩, if_pos four]
        rcases other with hundred | hundreds
        · rw [if_neg hundred, if_neg (by omega)]
          omega
        · rw [if_pos (by omega : (year + 1) % 100 = 0), if_pos hundreds]
          omega
      · rw [if_neg leap, IsLeap] at *
        by_cases four : (year + 1) % 4 = 0
        · have hundred : (year + 1) % 100 = 0 := by omega
          rw [if_pos four, if_pos hundred, if_neg (by omega)]
          omega
        · rw [if_neg four, if_neg (by omega), if_neg (by omega)]
          omega

variable {year month day : Nat} {date : Date}

theorem daysInto_eq (low : 1 ≤ month) (high : month ≤ 12)
    : daysInto year month
      = if month ≤ 2 then 31 * (month - 1)
        else monthLength year 2 + 31 + (153 * (month - 3) + 2) / 5 := by
  interval_cases month <;> simp [daysInto, spans, monthLength] <;> omega

theorem spans_months (year : Nat) : spans (monthLength year) 1 12 = yearLength year := by
  by_cases leap : IsLeap year
  · simp [spans, monthLength, yearLength, leap]
  · simp [spans, monthLength, yearLength, leap]

theorem Date.Valid.inside (valid : date.Valid)
    : daysInto date.year date.month + (date.day - 1) < yearLength date.year := by
  have low := valid.month_pos
  have length := valid.day_le
  have first := valid.day_pos
  have whole : spans (monthLength date.year) 1 (date.month - 1 + 1)
      ≤ spans (monthLength date.year) 1 12 := spans_mono (by have := valid.month_le; omega)
  rw [spans_months, spans, Nat.add_sub_cancel' low] at whole
  rw [daysInto]
  omega

theorem Date.Valid.number_inj {other : Date} (valid : date.Valid) (validToo : other.Valid)
    (same : date.number = other.number)
    : date = other := by
  obtain ⟨year, month, day⟩ := date
  obtain ⟨year', month', day'⟩ := other
  have ⟨low, _, first, length⟩ := valid
  have ⟨low', _, first', length'⟩ := validToo
  simp only [Date.number, daysBefore, Nat.add_assoc] at same
  obtain ⟨rfl, rest⟩ := spans_unique same (by rw [Nat.zero_add]; exact valid.inside)
    (by rw [Nat.zero_add]; exact validToo.inside)
  simp only [daysInto] at rest low low' first first' length length'
  obtain ⟨months, days⟩ := spans_unique rest
    (by rw [Nat.add_sub_cancel' low]; omega) (by rw [Nat.add_sub_cancel' low']; omega)
  rw [Date.mk.injEq]
  omega

-- The date of a number

/-- The year in its era of 400 years that a day of the era is in, years being from March on. -/
def yearOfEra (day : Nat) : Nat :=
  (day - day / 1460 + day / 36524 - day / 146096) / 365

def eraDays (year : Nat) : Nat :=
  365 * year + year / 4 - year / 100

theorem yearOfEra_mono {later : Nat} (le : day ≤ later) : yearOfEra day ≤ yearOfEra later := by
  apply Nat.div_le_div_right
  omega

theorem yearOfEra_ends
    : ∀ year < 400, yearOfEra (eraDays year) = year
      ∧ yearOfEra (if year = 399 then 146096 else eraDays (year + 1) - 1) = year := by
  decide +kernel

theorem eraDays_le (small : year < 400) : eraDays year + 366 ≤ 146097 := by
  rw [eraDays]
  omega

theorem yearOfEra_eq {rest : Nat} (small : year < 400)
    (inside : eraDays year + rest ≤ if year = 399 then 146096 else eraDays (year + 1) - 1)
    : yearOfEra (eraDays year + rest) = year := by
  obtain ⟨first, last⟩ := yearOfEra_ends year small
  have above := yearOfEra_mono (Nat.le_add_right (eraDays year) rest)
  have below := yearOfEra_mono inside
  omega

theorem month_eq (small : month < 12)
    (inside : (153 * month + 2) / 5 + day < if month = 11 then 366 else (153 * month + 155) / 5)
    : (5 * ((153 * month + 2) / 5 + day) + 2) / 153 = month := by
  interval_cases month <;> simp at inside ⊢ <;> omega

theorem daysBefore_eq (year : Nat)
    : daysBefore year + 31 + monthLength year 2 = 60 + (365 * year + year / 4 + year / 400)
        - year / 100 := by
  have february : monthLength year 2 + 337 = yearLength year := by
    by_cases leap : IsLeap year
    · simp [monthLength, yearLength, leap]
    · simp [monthLength, yearLength, leap]
  have next : daysBefore (year + 1) = daysBefore year + yearLength year := by
    rw [daysBefore, spans, Nat.zero_add]
    rfl
  have closed := daysBefore_succ year
  omega

theorem Date.Valid.number_march (valid : date.Valid) (late : 1 ≤ date.year ∨ 3 ≤ date.month)
    : ∃ year month, month < 12
      ∧ date.number = 60 + (365 * year + year / 4 + year / 400) - year / 100
        + (153 * month + 2) / 5 + (date.day - 1)
      ∧ date.year = year + (if month < 10 then 0 else 1)
      ∧ date.month = if month < 10 then month + 3 else month - 9 := by
  have low := valid.month_pos
  have high := valid.month_le
  by_cases early : date.month ≤ 2
  · obtain ⟨year, same⟩ : ∃ year, date.year = year + 1 := ⟨date.year - 1, by omega⟩
    refine ⟨year, date.month + 9, by omega, ?_, ?_, ?_⟩
    · rw [number, daysInto_eq low high, if_pos early, same]
      have closed := daysBefore_succ year
      have small : year / 100 ≤ year := Nat.div_le_self ..
      have one : date.month = 1 ∨ date.month = 2 := by omega
      rcases one with one | two
      · rw [one]
        omega
      · rw [two]
        omega
    · rw [if_neg (by omega)]
      exact same
    · rw [if_neg (by omega)]
      omega
  · refine ⟨date.year, date.month - 3, by omega, ?_, ?_, ?_⟩
    · rw [number, daysInto_eq low high, if_neg early]
      have closed := daysBefore_eq date.year
      omega
    · rw [if_pos (by omega), Nat.add_zero]
    · rw [if_pos (by omega)]
      omega

theorem march_day (small : month < 12) (first : 1 ≤ day)
    (length : day ≤ monthLength year (if month < 10 then month + 3 else month - 9))
    : (month ≠ 11 → (153 * month + 2) / 5 + (day - 1) < (153 * month + 155) / 5)
      ∧ (month = 11 → (153 * month + 2) / 5 + (day - 1) < if IsLeap year then 366 else 365) := by
  constructor
  · intro other
    interval_cases month <;> simp [monthLength] at length other ⊢ <;> omega
  · rintro rfl
    by_cases leap : IsLeap year
    · simp [monthLength, leap] at length ⊢
      omega
    · simp [monthLength, leap] at length ⊢
      omega

theorem eraDays_succ {era year : Nat} (small : year < 400)
    : eraDays year + (if IsLeap (year + 400 * era + 1) then 366 else 365)
      = if year = 399 then 146097 else eraDays (year + 1) := by
  by_cases last : year = 399
  · subst last
    rw [if_pos rfl, if_pos ⟨by omega, by omega⟩]
    rfl
  have turns (n : Nat) (some : 0 < n)
      : (year + 1) / n = year / n + if (year + 1) % n = 0 then 1 else 0 := by
    rw [Nat.succ_div]
    simp only [Nat.dvd_iff_mod_eq_zero]
  rw [if_neg last, eraDays, eraDays, turns 4 (by decide), turns 100 (by decide)]
  have below : year / 100 ≤ year / 4 := by omega
  by_cases leap : IsLeap (year + 400 * era + 1)
  · obtain ⟨four, other⟩ := leap
    rw [if_pos ⟨four, other⟩, if_pos (by omega), if_neg (by omega)]
    omega
  · rw [if_neg leap]
    rw [IsLeap] at leap
    by_cases four : (year + 1) % 4 = 0
    · rw [if_pos four, if_pos (by omega)]
      omega
    · rw [if_neg four, if_neg (by omega)]
      omega

/-- The day of the era a date is in: the year, the month and the day of it, all from March on, are
what the closed forms find of that day.
-/
structure InEra (date : Date) (era year month : Nat) : Prop where
  year_lt : year < 400
  month_lt : month < 12
  rest_lt : (153 * month + 2) / 5 + (date.day - 1) < 366
  number
    : date.number = 60 + (146097 * era + (eraDays year + ((153 * month + 2) / 5 + (date.day - 1))))
  isYear : yearOfEra (eraDays year + ((153 * month + 2) / 5 + (date.day - 1))) = year
  isMonth : (5 * ((153 * month + 2) / 5 + (date.day - 1)) + 2) / 153 = month
  year_eq : date.year = year + 400 * era + if month < 10 then 0 else 1
  month_eq : date.month = if month < 10 then month + 3 else month - 9

theorem Date.Valid.inEra (valid : date.Valid) (late : 1 ≤ date.year ∨ 3 ≤ date.month)
    : ∃ era year month, InEra date era year month := by
  obtain ⟨year, month, small, number, isYear, isMonth⟩ := valid.number_march late
  have first := valid.day_pos
  have length := valid.day_le
  rw [isMonth, isYear] at length
  obtain ⟨usual, february⟩ := march_day small first length
  -- the era of the year and the year of the era
  obtain ⟨era, ofEra, few, rfl⟩ : ∃ era ofEra, ofEra < 400 ∧ year = ofEra + 400 * era :=
    ⟨year / 400, year % 400, Nat.mod_lt _ (by decide), (Nat.mod_add_div ..).symm⟩
  have step := @eraDays_succ era ofEra few
  have below : (153 * month + 2) / 5 + (date.day - 1)
      < if IsLeap (ofEra + 400 * era + 1) then 366 else 365 := by
    by_cases last : month = 11
    · subst last
      exact february rfl
    · have inside := usual last
      split
      · omega
      · omega
  have short : (153 * month + 2) / 5 + (date.day - 1) < 366 :=
    Nat.lt_of_lt_of_le below (by split <;> decide)
  have inside : eraDays ofEra + ((153 * month + 2) / 5 + (date.day - 1))
      ≤ if ofEra = 399 then 146096 else eraDays (ofEra + 1) - 1 := by
    by_cases last : ofEra = 399
    · rw [if_pos last] at step ⊢
      omega
    · rw [if_neg last] at step ⊢
      omega
  have inMonth : (153 * month + 2) / 5 + (date.day - 1)
      < if month = 11 then 366 else (153 * month + 155) / 5 := by
    split
    · exact short
    · rename_i other
      exact usual other
  have whole : date.number
      = 60 + (146097 * era + (eraDays ofEra + ((153 * month + 2) / 5 + (date.day - 1)))) := by
    rw [number, eraDays]
    omega
  exact ⟨era, ofEra, month, few, small, short, whole, yearOfEra_eq few inside,
    Calendar.month_eq small inMonth, isYear, isMonth⟩

end Panuti.Library.Calendar
