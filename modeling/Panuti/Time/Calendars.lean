import Panuti.Time.Rtc

/-! The other calendars of the system: the closed forms by which programs print a timestamp,
`pcrutils.c`, and the recording times of ISO 9660 directories, `isofs.c`. They agree with the clock.
-/

namespace Panuti.Time

open Panuti.Library.Calendar

def pcrFloorDiv (a b : Int) : Int :=
  let q := a.tdiv b
  if a.tmod b ≠ 0 ∧ (decide (a < 0) ≠ decide (b < 0)) then q - 1 else q

/-- The year, the month and the day that `pcr_civil_from_days` gives. Its `unsigned` values wrap at
2^32, and so does the year, which is an `int`.
-/
def pcrCivilFromDays (days : Int) : Int × Int × Int :=
  let z := days + 719468
  let era := (if 0 ≤ z then z else z - 146096).tdiv 146097
  let doe := UInt32.ofInt (z - era * 146097)
  let yoe := (doe - doe / 1460 + doe / 36524 - doe / 146096) / 365
  let y := (yoe.toNat + era * 400).bmod (2 ^ 32)
  let doy := doe - (365 * yoe + yoe / 4 - yoe / 100)
  let mp := (5 * doy + 2) / 153
  let d := doy - (153 * mp + 2) / 5 + 1
  let m := if mp < 10 then mp + 3 else mp - 9
  (y + (if m ≤ 2 then 1 else 0), m.toNat, d.toNat)

/-- The fields that `pcr_format_centis` prints. -/
structure Printed where
  year : Int
  month : Int
  day : Int
  hour : Int
  minute : Int
  second : Int
deriving Repr, DecidableEq

/-- `pcr_format_centis`, less the printing. -/
def pcrFormatCentis (centis : Int) : Printed :=
  let seconds := pcrFloorDiv centis 100
  let days := pcrFloorDiv seconds 86400
  let rem := seconds - days * 86400
  let (year, month, day) := pcrCivilFromDays days
  { year, month, day, hour := rem.tdiv 3600, minute := (rem.tmod 3600).tdiv 60
    second := (rem.tmod 3600).tmod 60 }

def isofsIsLeapYear (year : Nat) : Bool :=
  (year % 4 = 0 ∧ year % 100 ≠ 0) ∨ year % 400 = 0

def isofsDaysInMonth (year month : Nat) : Nat :=
  if month = 2 ∧ isofsIsLeapYear year then 29
  else [31, 28, 31, 30, 31, 30, 31, 31, 30, 31, 30, 31].getD (month - 1) 0

/-- The days of a year, as the loops of `isofs_time_to_unix` count them. -/
def isofsDaysInYear (year : Nat) : Nat :=
  if isofsIsLeapYear year then 366 else 365

/-- The days from the start of 1970 to the start of a year. -/
def isofsYearDays (year : Nat) : Int :=
  if 1970 ≤ year then (spans isofsDaysInYear 1970 (year - 1970) : Nat)
  else - (spans isofsDaysInYear year (1970 - year) : Nat)

def isofsTimeToUnix (p : Nat → UInt8) : Option Int :=
  let year := 1900 + (p 0).toNat
  let month := (p 1).toNat
  let day := (p 2).toNat
  let hour := (p 3).toNat
  let minute := (p 4).toNat
  let second := (p 5).toNat
  let gmtOffset := (p 6).toInt8.toInt
  if month < 1 ∨ 12 < month ∨ day < 1 ∨ isofsDaysInMonth year month < day ∨ 23 < hour ∨ 59 < minute
      ∨ 59 < second then none
  else
    let days := isofsYearDays year + (spans (isofsDaysInMonth year) 1 (month - 1) : Nat)
      + ((day : Int) - 1)
    let seconds := days * 86400 + hour * 3600 + minute * 60 + second
    some ((seconds - gmtOffset * 15 * 60) * 100)

-- The closed forms of the programs

section

variable {a b : UInt32}

theorem sub_toNat (le : b.toNat ≤ a.toNat) : (a - b).toNat = a.toNat - b.toNat :=
  UInt32.toNat_sub_of_le a b (UInt32.le_iff_toNat_le.mpr le)

theorem add_toNat (lt : a.toNat + b.toNat < 2 ^ 32) : (a + b).toNat = a.toNat + b.toNat := by
  rw [UInt32.toNat_add, Nat.mod_eq_of_lt lt]

theorem mul_toNat (lt : a.toNat * b.toNat < 2 ^ 32) : (a * b).toNat = a.toNat * b.toNat := by
  rw [UInt32.toNat_mul, Nat.mod_eq_of_lt lt]

end

theorem div_toNat (a : UInt32) (n : Nat) (small : n < 2 ^ 32)
    : (a / UInt32.ofNat n).toNat = a.toNat / n := by
  rw [UInt32.toNat_div, UInt32.toNat_ofNat_of_lt' small]

theorem pcrFloorDiv_eq (a : Int) {b : Int} (positive : 0 < b) : pcrFloorDiv a b = a / b := by
  have sign : decide (b < 0) = false := by
    rw [decide_eq_false_iff_not]
    omega
  rw [pcrFloorDiv]
  simp only [sign]
  rw [Int.tdiv_eq_ediv]
  by_cases low : 0 ≤ a
  · rw [if_neg (by simp [low]), if_pos (.inl low), Int.add_zero]
  · by_cases exact' : b ∣ a
    · rw [if_neg (by simp [Int.tmod_eq_zero_of_dvd exact']), if_pos (.inr exact'), Int.add_zero]
    · have rest : a.tmod b ≠ 0 := fun zero => exact' (Int.dvd_of_tmod_eq_zero zero)
      rw [if_pos ⟨rest, by simpa using low⟩, if_neg (by simp [low, exact']),
        Int.sign_eq_one_of_pos positive, Int.add_sub_cancel]

theorem yoe_toNat {doe : UInt32} (small : doe.toNat < 146097)
    : ((doe - doe / 1460 + doe / 36524 - doe / 146096) / 365).toNat = yearOfEra doe.toNat := by
  have fours : (doe / 1460).toNat = doe.toNat / 1460 := div_toNat doe 1460 (by decide)
  have centuries : (doe / 36524).toNat = doe.toNat / 36524 := div_toNat doe 36524 (by decide)
  have eras : (doe / 146096).toNat = doe.toNat / 146096 := div_toNat doe 146096 (by decide)
  have first : (doe - doe / 1460).toNat = doe.toNat - doe.toNat / 1460 := by
    rw [← fours]
    exact sub_toNat (by rw [fours]; omega)
  have second : (doe - doe / 1460 + doe / 36524).toNat
      = doe.toNat - doe.toNat / 1460 + doe.toNat / 36524 := by
    rw [← first, ← centuries]
    exact add_toNat (by rw [first, centuries]; omega)
  have third : (doe - doe / 1460 + doe / 36524 - doe / 146096).toNat
      = doe.toNat - doe.toNat / 1460 + doe.toNat / 36524 - doe.toNat / 146096 := by
    rw [← second, ← eras]
    exact sub_toNat (by rw [second, eras]; omega)
  rw [yearOfEra, ← third]
  exact div_toNat _ 365 (by decide)

theorem eraDays_toNat {yoe : UInt32} (small : yoe.toNat < 400)
    : (365 * yoe + yoe / 4 - yoe / 100).toNat = eraDays yoe.toNat := by
  have fours : (yoe / 4).toNat = yoe.toNat / 4 := div_toNat yoe 4 (by decide)
  have centuries : (yoe / 100).toNat = yoe.toNat / 100 := div_toNat yoe 100 (by decide)
  have years : (365 * yoe).toNat = 365 * yoe.toNat := mul_toNat (by
    have number : (365 : UInt32).toNat = 365 := rfl
    rw [number]
    omega)
  have first : (365 * yoe + yoe / 4).toNat = 365 * yoe.toNat + yoe.toNat / 4 := by
    rw [← years, ← fours]
    exact add_toNat (by rw [years, fours]; omega)
  rw [eraDays, ← first, ← centuries]
  exact sub_toNat (by rw [first, centuries]; omega)

/-- The month and the day, from March on. -/
theorem month_toNat {doy : UInt32} (small : doy.toNat < 366)
    : ((5 * doy + 2) / 153).toNat = (5 * doy.toNat + 2) / 153
      ∧ (doy - (153 * ((5 * doy + 2) / 153) + 2) / 5 + 1).toNat
        = doy.toNat - (153 * ((5 * doy.toNat + 2) / 153) + 2) / 5 + 1 := by
  have number : (5 : UInt32).toNat = 5 ∧ (2 : UInt32).toNat = 2 ∧ (153 : UInt32).toNat = 153
      ∧ (1 : UInt32).toNat = 1 := ⟨rfl, rfl, rfl, rfl⟩
  obtain ⟨five, two, many, one⟩ := number
  have fives : (5 * doy).toNat = 5 * doy.toNat := mul_toNat (by rw [five]; omega)
  have up : (5 * doy + 2).toNat = 5 * doy.toNat + 2 := by
    rw [← fives, ← two]
    exact add_toNat (by rw [fives, two]; omega)
  have month : ((5 * doy + 2) / 153).toNat = (5 * doy.toNat + 2) / 153 := by
    rw [← up]
    exact div_toNat _ 153 (by decide)
  refine ⟨month, ?_⟩
  generalize (5 * doy + 2) / 153 = mp at month ⊢
  rw [← month]
  have days : (153 * mp).toNat = 153 * mp.toNat := mul_toNat (by rw [many]; omega)
  have more : (153 * mp + 2).toNat = 153 * mp.toNat + 2 := by
    rw [← days, ← two]
    exact add_toNat (by rw [days, two]; omega)
  have before : ((153 * mp + 2) / 5).toNat = (153 * mp.toNat + 2) / 5 := by
    rw [← more]
    exact div_toNat _ 5 (by decide)
  have rest : (doy - (153 * mp + 2) / 5).toNat = doy.toNat - (153 * mp.toNat + 2) / 5 := by
    rw [← before]
    exact sub_toNat (by rw [before]; omega)
  rw [← rest, ← one]
  exact add_toNat (by rw [rest, one]; omega)

/-- The closed forms of the programs give the date of a number of days after 1970. -/
theorem pcrCivilFromDays_number {date : Date} (valid : date.Valid)
    (late : 1 ≤ date.year ∨ 3 ≤ date.month) (early : date.year < 2 ^ 31)
    : pcrCivilFromDays ((date.number : Int) - 719528)
      = ((date.year : Int), (date.month : Int), (date.day : Int)) := by
  obtain ⟨era, year, month, inEra⟩ := valid.inEra late
  have first := valid.day_pos
  have ends := eraDays_le inEra.year_lt
  have short := inEra.rest_lt
  have isYear := inEra.isYear
  have isMonth := inEra.isMonth
  have month_lt := inEra.month_lt
  have year_lt := inEra.year_lt
  generalize isRest : (153 * month + 2) / 5 + (date.day - 1) = rest at short isYear isMonth
  have number := inEra.number
  rw [isRest] at number
  have inYear : eraDays year + rest < 146097 := by omega
  have isZ : (date.number : Int) - 719528 + 719468
      = ((146097 * era + (eraDays year + rest) : Nat) : Int) := by omega
  have isEra : ((146097 * era + (eraDays year + rest) : Nat) : Int).tdiv 146097 = era := by
    rw [Int.natCast_tdiv_eq_ediv]
    omega
  have isDoe : (UInt32.ofInt (((146097 * era + (eraDays year + rest) : Nat) : Int)
      - era * 146097)).toNat = eraDays year + rest := by
    have same : ((146097 * era + (eraDays year + rest) : Nat) : Int) - era * 146097
        = ((eraDays year + rest : Nat) : Int) := by omega
    have small : (((eraDays year + rest : Nat) : Int) % 2 ^ 32).toNat = eraDays year + rest := by
      omega
    have fits : eraDays year + rest < UInt32.size := Nat.lt_trans inYear (by decide)
    rw [same, UInt32.ofInt, small, UInt32.toNat_ofNat_of_lt' fits]
  simp only [pcrCivilFromDays, isZ, if_pos (Int.natCast_nonneg _), isEra]
  generalize UInt32.ofInt (((146097 * era + (eraDays year + rest) : Nat) : Int) - era * 146097)
    = doe at isDoe ⊢
  have isYoe := yoe_toNat (by omega : doe.toNat < 146097)
  rw [isDoe, isYear] at isYoe
  generalize (doe - doe / 1460 + doe / 36524 - doe / 146096) / 365 = yoe at isYoe ⊢
  have before := eraDays_toNat (by omega : yoe.toNat < 400)
  rw [isYoe] at before
  have isDoy : (doe - (365 * yoe + yoe / 4 - yoe / 100)).toNat = rest := by
    rw [sub_toNat (by omega), before, isDoe, Nat.add_sub_cancel_left]
  generalize doe - (365 * yoe + yoe / 4 - yoe / 100) = doy at isDoy ⊢
  obtain ⟨isMp, isDay⟩ := month_toNat (by omega : doy.toNat < 366)
  rw [isDoy, isMonth] at isMp isDay
  rw [isDay]
  generalize (5 * doy + 2) / 153 = mp at isMp ⊢
  have wraps : (((yoe.toNat : Int) + era * 400).bmod (2 ^ 32)) = year + 400 * era := by
    have isYear := inEra.year_eq
    rw [isYoe, Int.bmod_eq_of_le (by omega) (by split at isYear <;> omega)]
    omega
  have months : (if mp < 10 then mp + 3 else mp - 9).toNat = date.month := by
    have bound : mp < 10 ↔ month < 10 := by
      rw [UInt32.lt_iff_toNat_lt, isMp]
      rfl
    rw [inEra.month_eq]
    by_cases early : month < 10
    · rw [if_pos early, if_pos (bound.mpr early), ← isMp]
      exact add_toNat
        (by rw [isMp]; exact Nat.lt_trans (Nat.add_lt_add_right month_lt 3) (by decide))
    · rw [if_neg early, if_neg fun less => early (bound.mp less), ← isMp]
      exact sub_toNat
        (by
          rw [isMp]
          exact Nat.le_of_lt
            (Nat.lt_of_not_le fun le => early (Nat.lt_of_le_of_lt le (by decide))))
  generalize (if mp < 10 then mp + 3 else mp - 9) = m at months ⊢
  have turn : (m ≤ 2) ↔ ¬ month < 10 := by
    rw [UInt32.le_iff_toNat_le, months, inEra.month_eq]
    have two : (2 : UInt32).toNat = 2 := rfl
    rw [two]
    split
    · omega
    · omega
  rw [wraps, months, inEra.year_eq]
  refine Prod.ext ?_ (Prod.ext rfl ?_)
  · by_cases early : month < 10
    · simp [turn, early]
    · simp [turn, early]
  · simp only []
    omega

theorem daysBefore_epoch : daysBefore 1970 = 719528 := by
  have closed : daysBefore 1970 + 1969 / 100 = 365 * 1969 + 1969 / 4 + 1969 / 400 + 366 :=
    daysBefore_succ 1969
  omega

variable {dt : RtcDatetime} {year : Nat}

theorem pcrFormatCentis_eq {centis : Int} (valid : dt.date.Valid)
    (late : 1 ≤ dt.year ∨ 3 ≤ dt.month) (early : dt.year < 2 ^ 31) (hour : dt.hour < 24)
    (minute : dt.minute < 60) (second : dt.second < 60)
    (same : centis / 100 = ((dt.date.number : Int) - daysBefore 1970) * 86400
      + (dt.hour : Int) * 3600 + (dt.minute : Int) * 60 + dt.second)
    : pcrFormatCentis centis
      = { year := dt.year, month := dt.month, day := dt.day, hour := dt.hour, minute := dt.minute
          second := dt.second } := by
  have isDays : pcrFloorDiv (pcrFloorDiv centis 100) 86400 = (dt.date.number : Int) - 719528 := by
    rw [pcrFloorDiv_eq _ (by decide), pcrFloorDiv_eq _ (by decide), same, daysBefore_epoch]
    omega
  have isRem : pcrFloorDiv centis 100 - ((dt.date.number : Int) - 719528) * 86400
      = ((dt.hour * 3600 + dt.minute * 60 + dt.second : Nat) : Int) := by
    rw [pcrFloorDiv_eq _ (by decide), same, daysBefore_epoch]
    omega
  rw [pcrFormatCentis]
  simp only [isDays, isRem, pcrCivilFromDays_number valid late early]
  rw [Printed.mk.injEq]
  refine ⟨rfl, rfl, rfl, ?_, ?_, ?_⟩
  · rw [Int.tdiv_eq_ediv_of_nonneg (Int.natCast_nonneg _)]
    omega
  · rw [Int.tmod_eq_emod_of_nonneg (Int.natCast_nonneg _),
      Int.tdiv_eq_ediv_of_nonneg (Int.emod_nonneg _ (by decide))]
    omega
  · rw [Int.tmod_eq_emod_of_nonneg (Int.natCast_nonneg _),
      Int.tmod_eq_emod_of_nonneg (Int.emod_nonneg _ (by decide))]
    omega

-- The recording times

theorem isofsIsLeapYear_iff : isofsIsLeapYear year = true ↔ IsLeap year := by
  rw [isofsIsLeapYear, decide_eq_true_eq, IsLeap]
  omega

theorem isofsDaysInYear_eq : isofsDaysInYear = yearLength := by
  funext year
  by_cases leap : IsLeap year
  · rw [isofsDaysInYear, yearLength, if_pos leap, if_pos (isofsIsLeapYear_iff.mpr leap)]
  · rw [isofsDaysInYear, yearLength, if_neg leap,
      if_neg fun same => leap (isofsIsLeapYear_iff.mp same)]

theorem isofsDaysInMonth_eq {month : Nat} (low : 1 ≤ month) (high : month ≤ 12)
    : isofsDaysInMonth year month = monthLength year month := by
  by_cases leap : IsLeap year
  · have same := isofsIsLeapYear_iff.mpr leap
    interval_cases month <;> simp [isofsDaysInMonth, monthLength, leap, same]
  · have other : isofsIsLeapYear year = false := by
      rw [Bool.eq_false_iff]
      exact fun same => leap (isofsIsLeapYear_iff.mp same)
    interval_cases month <;> simp [isofsDaysInMonth, monthLength, leap, other]

theorem spans_isofsDaysInMonth {count : Nat} (few : count ≤ 12)
    : spans (isofsDaysInMonth year) 1 count = spans (monthLength year) 1 count := by
  induction count with
  | zero => rfl
  | succ count ih => rw [spans, spans, ih (by omega), isofsDaysInMonth_eq (by omega) (by omega)]

theorem isofsYearDays_eq (year : Nat)
    : isofsYearDays year = (daysBefore year : Int) - daysBefore 1970 := by
  rw [isofsYearDays, isofsDaysInYear_eq]
  split
  · rename_i late
    have parts := daysBefore_add 1970 (year - 1970)
    rw [Nat.add_sub_cancel' late] at parts
    omega
  · rename_i early
    have parts := daysBefore_add year (1970 - year)
    rw [Nat.add_sub_cancel' (by omega)] at parts
    omega

/-- The bytes record the date and the time of day, at no offset. -/
structure Records (p : Nat → UInt8) (dt : RtcDatetime) : Prop where
  year : dt.year = 1900 + (p 0).toNat
  month : dt.month = (p 1).toNat
  day : dt.day = (p 2).toNat
  hour : dt.hour = (p 3).toNat
  minute : dt.minute = (p 4).toNat
  second : dt.second = (p 5).toNat
  offset : p 6 = 0

theorem Records.isofsTimeToUnix_eq {p : Nat → UInt8} (records : Records p dt) {timestamp : Int}
    : isofsTimeToUnix p = some timestamp
      ↔ (dt.date.Valid ∧ dt.hour < 24 ∧ dt.minute < 60 ∧ dt.second < 60)
        ∧ (((dt.date.number : Int) - daysBefore 1970) * 86400 + (dt.hour : Int) * 3600
          + (dt.minute : Int) * 60 + dt.second) * 100 = timestamp := by
  have zero : (p 6).toInt8.toInt = 0 := by
    rw [records.offset]
    rfl
  rw [isofsTimeToUnix]
  simp only [← records.year, ← records.month, ← records.day, ← records.hour, ← records.minute,
    ← records.second, zero]
  by_cases bad : dt.month < 1 ∨ 12 < dt.month ∨ dt.day < 1
      ∨ isofsDaysInMonth dt.year dt.month < dt.day ∨ 23 < dt.hour ∨ 59 < dt.minute ∨ 59 < dt.second
  · rw [if_pos bad]
    constructor
    · nofun
    · rintro ⟨⟨⟨low, high, first, last⟩, hour, minute, second⟩, _⟩
      simp only [RtcDatetime.date] at low high first last
      rw [isofsDaysInMonth_eq low high] at bad
      omega
  · rw [if_neg bad]
    have low : 1 ≤ dt.month := by omega
    have high : dt.month ≤ 12 := by omega
    rw [isofsDaysInMonth_eq low high] at bad
    have sound : dt.date.Valid ∧ dt.hour < 24 ∧ dt.minute < 60 ∧ dt.second < 60 := by
      refine ⟨⟨low, high, ?_, ?_⟩, by omega, by omega, by omega⟩
      · simp only [RtcDatetime.date]
        omega
      · simp only [RtcDatetime.date]
        omega
    have number : (dt.date.number : Int) - daysBefore 1970
        = isofsYearDays dt.year + (spans (isofsDaysInMonth dt.year) 1 (dt.month - 1) : Nat)
          + ((dt.day : Int) - 1) := by
      rw [isofsYearDays_eq, spans_isofsDaysInMonth (by omega)]
      simp only [Date.number, RtcDatetime.date, daysInto]
      omega
    simp only [sound, true_and, Option.some.injEq, number]
    omega

def RtcDatetime.printed (dt : RtcDatetime) : Printed :=
  { year := dt.year, month := dt.month, day := dt.day, hour := dt.hour, minute := dt.minute
    second := dt.second }

theorem RtcDatetime.Sound.pcrFormatCentis_eq (sound : dt.Sound) {timestamp : Int}
    (same : rtcTimestamp dt = timestamp / 100 * 100)
    : pcrFormatCentis timestamp = dt.printed := by
  have late := sound.year_ge
  have early := sound.year_le
  rw [rtcTimestamp, sound.rtcDays_eq] at same
  exact Time.pcrFormatCentis_eq sound.valid (.inl (by omega)) (by omega) sound.hour_lt
    sound.minute_lt sound.second_lt (by omega)

theorem RtcDatetime.Sound.exists_records (sound : dt.Sound) (early : dt.year ≤ 2155)
    : ∃ p, Records p dt := by
  have late := sound.year_ge
  have high := sound.valid.month_le
  have last := Nat.le_trans sound.valid.day_le (monthLength_le ..)
  simp only [date] at high last
  obtain ⟨hour, minute, second⟩ := And.intro sound.hour_lt
    (And.intro sound.minute_lt sound.second_lt)
  have byte {value : Nat} (small : value < 256) : value = (UInt8.ofNat value).toNat :=
    (UInt8.toNat_ofNat_of_lt' small).symm
  refine ⟨fun i => UInt8.ofNat
    ([dt.year - 1900, dt.month, dt.day, dt.hour, dt.minute, dt.second].getD i 0),
    ⟨?_, byte (by omega), byte (by omega), byte (by omega), byte (by omega), byte (by omega), rfl⟩⟩
  have years := byte (by omega : dt.year - 1900 < 256)
  simp only [List.getD_cons_zero]
  omega

theorem Records.isofsTimeToUnix_clock {p : Nat → UInt8} (records : Records p dt) (sound : dt.Sound)
    : isofsTimeToUnix p = some (rtcTimestamp dt) := by
  apply records.isofsTimeToUnix_eq.mpr
  refine ⟨⟨sound.valid, sound.hour_lt, sound.minute_lt, sound.second_lt⟩, ?_⟩
  rw [rtcTimestamp, sound.rtcDays_eq]

theorem clock_days : spans yearLength 1970 8030 = 2932897 := by
  have parts := daysBefore_add 1970 8030
  have closed : daysBefore (1970 + 8030) + 9999 / 100
      = 365 * 9999 + 9999 / 4 + 9999 / 400 + 366 := daysBefore_succ 9999
  rw [parts, daysBefore_epoch] at closed
  omega

/-- The calendars agree. For every timestamp from 1970 to the end of the year 9999 the loops that
set the clock find the date and the time of day that programs print by closed forms, and the
clock and the recording times, in the years their bytes can hold, count back to its second. What
is counted of a date and a time of day is split into them again, and recording times are printed
as they are.
-/
theorem calendars_agree
    : (∀ timestamp : Int, 0 ≤ timestamp → timestamp < 25340230080000
        → ∃ dt : RtcDatetime, rtcSplit (timestamp.toNat / 100) = some dt
          ∧ pcrFormatCentis timestamp = dt.printed
          ∧ rtcTimestamp dt = timestamp / 100 * 100
          ∧ (dt.year ≤ 2155 → ∃ p, Records p dt)
          ∧ ∀ p, Records p dt → isofsTimeToUnix p = some (timestamp / 100 * 100))
      ∧ (∀ dt : RtcDatetime, dt.Sound
        → rtcSplit ((rtcTimestamp dt).toNat / 100) = some dt
          ∧ pcrFormatCentis (rtcTimestamp dt) = dt.printed)
      ∧ ∀ p timestamp, p 6 = 0 → isofsTimeToUnix p = some timestamp
        → ∃ dt, Records p dt ∧ pcrFormatCentis timestamp = dt.printed
          ∧ (1970 ≤ dt.year → rtcSplit (timestamp.toNat / 100) = some dt) := by
  refine ⟨?_, ?_, ?_⟩
  · intro timestamp low high
    obtain ⟨dt, found⟩ := @exists_rtcSplit (timestamp.toNat / 100)
      (by rw [clock_days]; omega)
    obtain ⟨sound, same⟩ := rtcSplit_sound found
    have seconds : rtcTimestamp dt = timestamp / 100 * 100 := by omega
    refine ⟨dt, found, sound.pcrFormatCentis_eq seconds, seconds, sound.exists_records,
      fun p records => ?_⟩
    rw [records.isofsTimeToUnix_clock sound, seconds]
  · intro dt sound
    have low := sound.rtcDays_lt.1
    have whole : rtcTimestamp dt % 100 = 0 ∧ 0 ≤ rtcTimestamp dt := by
      rw [rtcTimestamp]
      omega
    exact ⟨rtcSplit_of_sound sound (by omega), sound.pcrFormatCentis_eq (by omega)⟩
  · intro p timestamp offset found
    have records : Records p
        { year := 1900 + (p 0).toNat, month := (p 1).toNat, day := (p 2).toNat
          hour := (p 3).toNat, minute := (p 4).toNat, second := (p 5).toNat } :=
      ⟨rfl, rfl, rfl, rfl, rfl, rfl, offset⟩
    generalize RtcDatetime.mk _ _ _ _ _ _ = dt at records
    obtain ⟨⟨valid, hour, minute, second⟩, same⟩ := records.isofsTimeToUnix_eq.mp found
    have last : dt.year ≤ 2155 := by
      have byte := (p 0).toNat_lt
      have year := records.year
      omega
    refine ⟨dt, records, pcrFormatCentis_eq valid (.inl ?_) (by omega) hour minute second ?_, ?_⟩
    · have year := records.year
      omega
    · omega
    · intro late
      have sound : dt.Sound := ⟨valid, late, by omega, hour, minute, second⟩
      have seconds := records.isofsTimeToUnix_clock sound
      rw [found] at seconds
      obtain rfl := Option.some.inj seconds
      have low := sound.rtcDays_lt.1
      refine rtcSplit_of_sound sound ?_
      rw [rtcTimestamp]
      omega

/-- The first second of 1970. -/
theorem calendars_agree_epoch
    : ∃ dt : RtcDatetime, rtcSplit 0 = some dt ∧ pcrFormatCentis 0 = dt.printed
      ∧ rtcTimestamp dt = 0 := by
  obtain ⟨dt, found, printed, counted, _⟩ := calendars_agree.1 0 (by decide) (by decide)
  exact ⟨dt, found, printed, counted⟩

end Panuti.Time
