import Panuti.Library.Calendar

/-! The clock of the machine, `rtc.c`: how a timestamp is put into its registers, and how one is
made of them.
-/

namespace Panuti.Time

open Panuti.Library.Calendar

/-- The registers of the clock, which hold still while they are read and written. -/
abbrev Cmos := Nat → UInt8

def RTC_SECR : Nat := 0x00
def RTC_MINR : Nat := 0x02
def RTC_HOURR : Nat := 0x04
def RTC_DAYR : Nat := 0x07
def RTC_MONR : Nat := 0x08
def RTC_YEARR : Nat := 0x09
def RTC_CENTR : Nat := 0x32

def RTC_REGB : Nat := 0x0B

def RTC_24H_S : Nat := 0x02
def RTC_BCD_S : Nat := 0x04

def RTC_PMH : Nat := 0x80

structure RtcDatetime where
  year : Nat
  second : Nat
  minute : Nat
  hour : Nat
  day : Nat
  month : Nat
deriving Repr, DecidableEq

def getCmosReg (cmos : Cmos) (reg : Nat) : Nat :=
  (cmos reg).toNat

def setCmosReg (cmos : Cmos) (reg value : Nat) : Cmos :=
  fun other => if other = reg then UInt8.ofNat value else cmos other

def toBcd (value : Nat) : Nat :=
  ((value / 10) <<< 4 ||| value % 10) % 2 ^ 8

def fromBcd (value : Nat) : Nat :=
  (value &&& 0x0F) + value / 16 * 10

/-- `read_century`; `none` is -1. -/
def readCentury (cmos : Cmos) (regb : Nat) : Option Nat :=
  let century := getCmosReg cmos RTC_CENTR
  let century := if regb &&& RTC_BCD_S = 0 then fromBcd century else century
  if century < 19 ∨ 99 < century then none else some century

def isLeapYear (year : Nat) : Bool :=
  if year % 400 = 0 then true
  else if year % 100 = 0 then false
  else if year % 4 = 0 then true
  else false

def daysInMonth (year month : Nat) : Nat :=
  match month with
  | 1 | 3 | 5 | 7 | 8 | 10 | 12 => 31
  | 4 | 6 | 9 | 11 => 30
  | 2 => if isLeapYear year then 29 else 28
  | _ => 30

/-- The days of a year, as both directions count them. -/
def daysInYear (year : Nat) : Nat :=
  if isLeapYear year then 366 else 365

/-- The hour by what the register holds, once it was decoded. -/
def readHour (regb hour : Nat) : Nat :=
  if regb &&& RTC_24H_S = 0 ∧ hour &&& RTC_PMH ≠ 0 then ((hour &&& 0x7F) + 12) % 24
  else if regb &&& RTC_24H_S = 0 then if hour = 12 then 0 else hour
  else hour

/-- The year by what its register and the one of the century hold. -/
def readYear (century year : Nat) : Nat :=
  if 19 ≤ century ∧ century ≤ 99 then century * 100 + year
  else if year < 70 then year + 2000
  else year + 1900

/-- `read_rtc`. The loop that reads until two readings are the same ends with the first two. -/
def readRtc (cmos : Cmos) : RtcDatetime :=
  let second := getCmosReg cmos RTC_SECR
  let minute := getCmosReg cmos RTC_MINR
  let hour := getCmosReg cmos RTC_HOURR
  let day := getCmosReg cmos RTC_DAYR
  let month := getCmosReg cmos RTC_MONR
  let year := getCmosReg cmos RTC_YEARR
  let regb := getCmosReg cmos RTC_REGB
  let century := getCmosReg cmos RTC_CENTR
  if regb &&& RTC_BCD_S = 0 then
    { second := fromBcd second
      minute := fromBcd minute
      hour := readHour regb (fromBcd (hour &&& 0x7F) ||| (hour &&& 0x80))
      day := fromBcd day
      month := fromBcd month
      year := readYear (fromBcd century) (fromBcd year) }
  else
    { second, minute, hour := readHour regb hour, day, month, year := readYear century year }

/-- The days that `rtc_cur_timestamp` counts up to a date. -/
def rtcDays (dt : RtcDatetime) : Int :=
  (spans daysInYear 1970 (dt.year - 1970) + spans (daysInMonth dt.year) 1 (dt.month - 1) : Nat)
    + ((dt.day : Int) - 1)

def rtcTimestamp (dt : RtcDatetime) : Int :=
  (rtcDays dt * 86400 + (dt.hour : Int) * 3600 + (dt.minute : Int) * 60 + dt.second) * 100

def rtcCurTimestamp (cmos : Cmos) : Int :=
  rtcTimestamp (readRtc cmos)

theorem daysInYear_pos (year : Nat) : 0 < daysInYear year := by
  rw [daysInYear]
  split
  · decide
  · decide

theorem daysInMonth_pos (year month : Nat) : 0 < daysInMonth year month := by
  rw [daysInMonth.eq_def]
  repeat' split
  all_goals decide

/-- The loop over the years of `rtc_set_timestamp`: the year and the days that are left in it;
`none` is -1.
-/
def yearLoop (year days : Nat) : Option (Nat × Nat) :=
  if daysInYear year ≤ days then
    if 9999 ≤ year then none else yearLoop (year + 1) (days - daysInYear year)
  else some (year, days)
termination_by days
decreasing_by
  have some := daysInYear_pos year
  omega

def monthLoop (year month days : Nat) : Nat × Nat :=
  if daysInMonth year month ≤ days then
    monthLoop year (month + 1) (days - daysInMonth year month)
  else (month, days)
termination_by days
decreasing_by
  have some := daysInMonth_pos year month
  omega

/-- The date and the time of day that `rtc_set_timestamp` finds. -/
def rtcSplit (seconds : Nat) : Option RtcDatetime := do
  let days := seconds / 86400
  let rem := seconds % 86400
  let (year, days) ← yearLoop 1970 days
  let (month, days) := monthLoop year 1 days
  return { year, month, day := days + 1, hour := rem / 3600, minute := rem % 3600 / 60
           second := rem % 3600 % 60 }

def hourValue (regb hour : Nat) : Nat :=
  let pm := regb &&& RTC_24H_S = 0 ∧ 12 ≤ hour
  let value := if regb &&& RTC_24H_S = 0 then if hour % 12 = 0 then 12 else hour % 12 else hour
  let value := if regb &&& RTC_BCD_S = 0 then toBcd value else value
  if pm then value ||| RTC_PMH else value

/-- What a register other than that of the hour is given. -/
def fieldValue (regb value : Nat) : Nat :=
  if regb &&& RTC_BCD_S = 0 then toBcd value else value

/-- The stores of `rtc_set_timestamp`. -/
def rtcStore (cmos : Cmos) (dt : RtcDatetime) : Cmos :=
  let regb := getCmosReg cmos RTC_REGB
  let held := setCmosReg cmos RTC_REGB (regb ||| 0x80)
  let held := setCmosReg held RTC_SECR (fieldValue regb dt.second)
  let held := setCmosReg held RTC_MINR (fieldValue regb dt.minute)
  let held := setCmosReg held RTC_HOURR (hourValue regb dt.hour)
  let held := setCmosReg held RTC_DAYR (fieldValue regb dt.day)
  let held := setCmosReg held RTC_MONR (fieldValue regb dt.month)
  let held := setCmosReg held RTC_YEARR (fieldValue regb (dt.year % 100))
  let held :=
    if (readCentury cmos regb).isSome then
      setCmosReg held RTC_CENTR (fieldValue regb (dt.year / 100))
    else held
  setCmosReg held RTC_REGB regb

/-- `rtc_set_timestamp`; `none` is -1. -/
def rtcSetTimestamp (cmos : Cmos) (timestamp : Int) : Option Cmos :=
  if timestamp < 0 then none
  else do
    let dt ← rtcSplit (timestamp.toNat / 100)
    if (readCentury cmos (getCmosReg cmos RTC_REGB)).isSome = false ∧ 2069 < dt.year then none
    else return rtcStore cmos dt

-- The date of a timestamp

variable {year : Nat}

theorem isLeapYear_iff : isLeapYear year = true ↔ IsLeap year := by
  simp only [isLeapYear, IsLeap]
  split
  · simp only [true_iff]
    omega
  · split
    · simp only [Bool.false_eq_true, false_iff]
      omega
    · split
      · simp only [true_iff]
        omega
      · simp only [Bool.false_eq_true, false_iff]
        omega

theorem daysInYear_eq : daysInYear = yearLength := by
  funext year
  by_cases leap : IsLeap year
  · rw [daysInYear, yearLength, if_pos leap, if_pos (isLeapYear_iff.mpr leap)]
  · rw [daysInYear, yearLength, if_neg leap, if_neg fun same => leap (isLeapYear_iff.mp same)]

theorem daysInMonth_eq {month : Nat} (low : 1 ≤ month) (high : month ≤ 12)
    : daysInMonth year month = monthLength year month := by
  by_cases leap : IsLeap year
  · have same := isLeapYear_iff.mpr leap
    interval_cases month <;> simp [daysInMonth, monthLength, leap, same]
  · have other : isLeapYear year = false := by
      rw [Bool.eq_false_iff]
      exact fun same => leap (isLeapYear_iff.mp same)
    interval_cases month <;> simp [daysInMonth, monthLength, leap, other]

theorem spans_daysInMonth {count : Nat} (few : count ≤ 12)
    : spans (daysInMonth year) 1 count = spans (monthLength year) 1 count := by
  induction count with
  | zero => rfl
  | succ count ih => rw [spans, spans, ih (by omega), daysInMonth_eq (by omega) (by omega)]

theorem yearLoop_some {days found rest : Nat} (low : year ≤ 9999)
    : yearLoop year days = some (found, rest)
      ↔ ∃ count, found = year + count ∧ found ≤ 9999 ∧ rest < daysInYear found
          ∧ days = spans daysInYear year count + rest := by
  induction year, days using yearLoop.induct with
  | case1 year days more last =>
      rw [yearLoop, if_pos more, if_pos last]
      constructor
      · nofun
      · rintro ⟨count, rfl, high, within, same⟩
        obtain rfl : count = 0 := by omega
        simp only [spans, Nat.add_zero, Nat.zero_add] at same within
        omega
  | case2 year days more early ih =>
      rw [yearLoop, if_pos more, if_neg early, ih (by omega)]
      constructor
      · rintro ⟨count, rfl, high, within, same⟩
        refine ⟨count + 1, by omega, high, within, ?_⟩
        rw [spans_succ_left]
        omega
      · rintro ⟨count, rfl, high, within, same⟩
        cases count with
        | zero =>
            simp only [spans, Nat.add_zero, Nat.zero_add] at same within
            omega
        | succ count =>
            rw [spans_succ_left] at same
            exact ⟨count, by omega, high, within, by omega⟩
  | case3 year days less =>
      rw [yearLoop, if_neg less]
      constructor
      · rintro same
        obtain ⟨rfl, rfl⟩ := Prod.mk.inj (Option.some.inj same)
        exact ⟨0, rfl, low, by omega, by rw [spans, Nat.zero_add]⟩
      · rintro ⟨count, rfl, high, within, same⟩
        cases count with
        | zero =>
            rw [spans, Nat.zero_add] at same
            rw [same]
            rfl
        | succ count =>
            rw [spans_succ_left] at same
            omega

theorem monthLoop_spec (year month days : Nat)
    : ∃ count rest, monthLoop year month days = (month + count, rest)
      ∧ rest < daysInMonth year (month + count)
      ∧ days = spans (daysInMonth year) month count + rest := by
  induction month, days using monthLoop.induct year with
  | case1 month days more ih =>
      obtain ⟨count, rest, found, within, same⟩ := ih
      refine ⟨count + 1, rest, ?_, ?_, ?_⟩
      · rw [monthLoop, if_pos more, found]
        congr 1
        omega
      · rwa [Nat.add_comm count, ← Nat.add_assoc]
      · rw [spans_succ_left]
        omega
  | case2 month days less =>
      refine ⟨0, days, ?_, by rw [Nat.add_zero]; omega, by rw [spans, Nat.zero_add]⟩
      rw [monthLoop, if_neg less]
      rfl

def RtcDatetime.date (dt : RtcDatetime) : Date :=
  { year := dt.year, month := dt.month, day := dt.day }

structure RtcDatetime.Sound (dt : RtcDatetime) : Prop where
  valid : dt.date.Valid
  year_ge : 1970 ≤ dt.year
  year_le : dt.year ≤ 9999
  hour_lt : dt.hour < 24
  minute_lt : dt.minute < 60
  second_lt : dt.second < 60

namespace RtcDatetime.Sound

variable {dt : RtcDatetime}

theorem rtcDays_eq (sound : dt.Sound) : rtcDays dt = (dt.date.number : Int) - daysBefore 1970 := by
  have low := sound.valid.month_pos
  have high := sound.valid.month_le
  have first := sound.valid.day_pos
  have late := sound.year_ge
  simp only [date] at low high first
  have years : daysBefore dt.year = daysBefore 1970 + spans yearLength 1970 (dt.year - 1970) := by
    rw [← daysBefore_add, Nat.add_sub_cancel' late]
  simp only [rtcDays, Date.number, date, daysInto, years, daysInYear_eq,
    spans_daysInMonth (by omega : dt.month - 1 ≤ 12)]
  omega

theorem rtcDays_lt (sound : dt.Sound)
    : 0 ≤ rtcDays dt ∧ rtcDays dt < (spans yearLength 1970 8030 : Nat) := by
  have inside := sound.valid.inside
  have late := sound.year_ge
  have early := sound.year_le
  have years : daysBefore (dt.year + 1) = daysBefore dt.year + yearLength dt.year := by
    rw [daysBefore_add, spans, spans, Nat.zero_add, Nat.add_zero]
  have least : daysBefore 1970 ≤ daysBefore dt.year := spans_mono late
  have most : daysBefore (dt.year + 1) ≤ daysBefore (1970 + 8030) := spans_mono (by omega)
  rw [daysBefore_add 1970] at most
  rw [sound.rtcDays_eq, Date.number]
  simp only [date] at inside ⊢
  omega

theorem rtcTimestamp_inj {other : RtcDatetime} (sound : dt.Sound) (soundToo : other.Sound)
    (same : rtcTimestamp dt = rtcTimestamp other)
    : dt = other := by
  obtain ⟨hour, minute, second⟩ := And.intro sound.hour_lt
    (And.intro sound.minute_lt sound.second_lt)
  obtain ⟨hour', minute', second'⟩ := And.intro soundToo.hour_lt
    (And.intro soundToo.minute_lt soundToo.second_lt)
  rw [rtcTimestamp, rtcTimestamp] at same
  have days : rtcDays dt = rtcDays other := by omega
  have times : dt.hour = other.hour ∧ dt.minute = other.minute ∧ dt.second = other.second := by
    omega
  rw [sound.rtcDays_eq, soundToo.rtcDays_eq] at days
  have dates := sound.valid.number_inj soundToo.valid (by omega)
  rw [date, date, Date.mk.injEq] at dates
  cases dt
  cases other
  rw [RtcDatetime.mk.injEq]
  exact ⟨dates.1, times.2.2, times.2.1, times.1, dates.2.2, dates.2.1⟩

end RtcDatetime.Sound

variable {dt : RtcDatetime}

theorem rtcSplit_sound {seconds : Nat} (found : rtcSplit seconds = some dt)
    : dt.Sound ∧ rtcTimestamp dt = (seconds : Int) * 100 := by
  obtain ⟨⟨year, days⟩, years, last⟩ := Option.bind_eq_some_iff.mp found
  obtain ⟨count, isYear, early, within, isDays⟩ := (yearLoop_some (by decide)).mp years
  obtain ⟨months, rest, isMonth, inMonth, isRest⟩ := monthLoop_spec year 1 days
  simp only [isMonth] at last
  obtain rfl := Option.some.inj last
  have few : months < 12 := by
    by_contra many
    have past : spans (daysInMonth year) 1 12 ≤ spans (daysInMonth year) 1 months :=
      spans_mono (by omega)
    rw [spans_daysInMonth (Nat.le_refl 12), spans_months] at past
    rw [daysInYear_eq] at within
    omega
  rw [daysInMonth_eq (by omega) (by omega)] at inMonth
  refine ⟨⟨⟨?_, ?_, ?_, ?_⟩, ?_, early, ?_, ?_, ?_⟩, ?_⟩
  all_goals simp only [RtcDatetime.date, rtcTimestamp, rtcDays]
  · omega
  · omega
  · omega
  · omega
  · omega
  · omega
  · omega
  · omega
  · rw [isYear, Nat.add_sub_cancel_left, ← isYear, Nat.add_sub_cancel_left]
    omega

theorem exists_rtcSplit {seconds : Nat} (early : seconds / 86400 < spans yearLength 1970 8030)
    : ∃ dt, rtcSplit seconds = some dt := by
  obtain ⟨count, few, rest, within, same⟩ := exists_span early
  have years : yearLoop 1970 (seconds / 86400) = some (1970 + count, rest) := by
    apply (yearLoop_some (by decide)).mpr
    refine ⟨count, rfl, by omega, ?_, ?_⟩
    · rwa [daysInYear_eq]
    · rwa [daysInYear_eq]
  rw [rtcSplit, years]
  exact ⟨_, rfl⟩

theorem rtcSplit_of_sound {seconds : Nat} (sound : dt.Sound)
    (same : rtcTimestamp dt = (seconds : Int) * 100)
    : rtcSplit seconds = some dt := by
  obtain ⟨low, high⟩ := sound.rtcDays_lt
  obtain ⟨hour, minute, second⟩ := And.intro sound.hour_lt
    (And.intro sound.minute_lt sound.second_lt)
  have isDays : ((seconds / 86400 : Nat) : Int) = rtcDays dt := by
    rw [rtcTimestamp] at same
    omega
  obtain ⟨other, found⟩ := @exists_rtcSplit seconds (by omega)
  obtain ⟨soundToo, sameToo⟩ := rtcSplit_sound found
  rw [found, sound.rtcTimestamp_inj soundToo (by rw [same, sameToo])]

-- Reading back what was set

theorem fromBcd_toBcd : ∀ value < 100, fromBcd (toBcd value) = value := by
  decide

theorem fieldValue_lt {regb value : Nat} (small : value < 100) : fieldValue regb value < 2 ^ 8 := by
  rw [fieldValue]
  split
  · exact Nat.mod_lt _ (by decide)
  · omega

theorem readHour_hourValue (regb : Nat) : ∀ hour < 24,
    hourValue regb hour < 2 ^ 8
      ∧ readHour regb (if regb &&& RTC_BCD_S = 0
          then fromBcd (hourValue regb hour &&& 0x7F) ||| (hourValue regb hour &&& 0x80)
          else hourValue regb hour)
        = if regb &&& RTC_24H_S = 0 ∧ hour = 12 then 0 else hour := by
  by_cases twelve : regb &&& RTC_24H_S = 0
  · by_cases bcd : regb &&& RTC_BCD_S = 0
    · simp only [hourValue, readHour, twelve, bcd, true_and, if_true]
      decide
    · simp only [hourValue, readHour, twelve, bcd, true_and, if_true, if_false]
      decide
  · by_cases bcd : regb &&& RTC_BCD_S = 0
    · simp only [hourValue, readHour, twelve, bcd, false_and, if_true, if_false]
      decide
    · simp only [hourValue, readHour, twelve, bcd, false_and, if_false]
      decide

theorem fromBcd_fieldValue {regb value : Nat} (small : value < 100)
    : (if regb &&& RTC_BCD_S = 0 then fromBcd (fieldValue regb value) else fieldValue regb value)
      = value := by
  rw [fieldValue]
  split
  · exact fromBcd_toBcd value small
  · rfl

theorem readYear_eq {century : Nat} (low : 1970 ≤ year) (high : year ≤ 9999)
    (held : century = year / 100 ∨ (century < 19 ∨ 99 < century) ∧ year ≤ 2069)
    : readYear century (year % 100) = year := by
  rw [readYear]
  split
  · omega
  · split
    · omega
    · omega

theorem getCmosReg_set (cmos : Cmos) (reg value other : Nat)
    : getCmosReg (setCmosReg cmos reg value) other
      = if other = reg then value % 2 ^ 8 else getCmosReg cmos other := by
  rw [getCmosReg, setCmosReg]
  split
  · exact UInt8.toNat_ofNat'
  · rfl

/-- What the registers hold after a date was stored. -/
theorem rtcStore_regs {cmos : Cmos} {dt : RtcDatetime} (sound : dt.Sound)
    : let regb := getCmosReg cmos RTC_REGB
      let stored := rtcStore cmos dt
      getCmosReg stored RTC_SECR = fieldValue regb dt.second
        ∧ getCmosReg stored RTC_MINR = fieldValue regb dt.minute
        ∧ getCmosReg stored RTC_HOURR = hourValue regb dt.hour
        ∧ getCmosReg stored RTC_DAYR = fieldValue regb dt.day
        ∧ getCmosReg stored RTC_MONR = fieldValue regb dt.month
        ∧ getCmosReg stored RTC_YEARR = fieldValue regb (dt.year % 100)
        ∧ getCmosReg stored RTC_REGB = regb
        ∧ getCmosReg stored RTC_CENTR
          = if (readCentury cmos regb).isSome then fieldValue regb (dt.year / 100)
            else getCmosReg cmos RTC_CENTR := by
  have inMonth := Nat.le_trans sound.valid.day_le (monthLength_le ..)
  have high := sound.valid.month_le
  have early := sound.year_le
  simp only [RtcDatetime.date] at inMonth high
  have field {value : Nat} (small : value < 100)
      : fieldValue (getCmosReg cmos RTC_REGB) value % 2 ^ 8
        = fieldValue (getCmosReg cmos RTC_REGB) value :=
    Nat.mod_eq_of_lt (fieldValue_lt small)
  have byte : getCmosReg cmos RTC_REGB % 2 ^ 8 = getCmosReg cmos RTC_REGB :=
    Nat.mod_eq_of_lt (cmos RTC_REGB).toNat_lt
  have hour : hourValue (getCmosReg cmos RTC_REGB) dt.hour % 2 ^ 8
      = hourValue (getCmosReg cmos RTC_REGB) dt.hour :=
    Nat.mod_eq_of_lt (readHour_hourValue _ dt.hour sound.hour_lt).1
  have second := field (Nat.lt_trans sound.second_lt (by decide))
  have minute := field (Nat.lt_trans sound.minute_lt (by decide))
  have day := field (by omega : dt.day < 100)
  have month := field (by omega : dt.month < 100)
  have year := field (Nat.mod_lt dt.year (by decide : 0 < 100))
  have century := field (by omega : dt.year / 100 < 100)
  simp only [rtcStore]
  cases (readCentury cmos (getCmosReg cmos RTC_REGB)).isSome with
  | false =>
      simp +decide only [getCmosReg_set, if_true, if_false, second, minute, hour, day, month, year,
        byte, and_self]
  | true =>
      simp +decide only [getCmosReg_set, if_true, if_false, second, minute, hour, day, month, year,
        century, byte, and_self]

/-- What is read back after a date was stored. -/
theorem readRtc_rtcStore {cmos : Cmos} (sound : dt.Sound)
    (known : (readCentury cmos (getCmosReg cmos RTC_REGB)).isSome = true ∨ dt.year ≤ 2069)
    : readRtc (rtcStore cmos dt)
      = { dt with
          hour := if getCmosReg cmos RTC_REGB &&& RTC_24H_S = 0 ∧ dt.hour = 12 then 0
            else dt.hour } := by
  have inMonth := Nat.le_trans sound.valid.day_le (monthLength_le ..)
  have high := sound.valid.month_le
  simp only [RtcDatetime.date] at inMonth high
  obtain ⟨isSecond, isMinute, isHour, isDay, isMonth, isYear, isRegb, isCentury⟩ :=
    @rtcStore_regs cmos dt sound
  have second := @fromBcd_fieldValue (getCmosReg cmos RTC_REGB) dt.second
    (Nat.lt_trans sound.second_lt (by decide))
  have minute := @fromBcd_fieldValue (getCmosReg cmos RTC_REGB) dt.minute
    (Nat.lt_trans sound.minute_lt (by decide))
  have day := @fromBcd_fieldValue (getCmosReg cmos RTC_REGB) dt.day (by omega)
  have month := @fromBcd_fieldValue (getCmosReg cmos RTC_REGB) dt.month (by omega)
  have year := @fromBcd_fieldValue (getCmosReg cmos RTC_REGB) (dt.year % 100)
    (Nat.mod_lt _ (by decide))
  have hour := (readHour_hourValue (getCmosReg cmos RTC_REGB) dt.hour sound.hour_lt).2
  have century : readYear (if getCmosReg cmos RTC_REGB &&& RTC_BCD_S = 0
      then fromBcd (getCmosReg (rtcStore cmos dt) RTC_CENTR)
      else getCmosReg (rtcStore cmos dt) RTC_CENTR) (dt.year % 100) = dt.year := by
    apply readYear_eq sound.year_ge sound.year_le
    rw [isCentury]
    cases usable : readCentury cmos (getCmosReg cmos RTC_REGB) with
    | some held =>
        left
        simp only [Option.isSome_some, if_true]
        exact fromBcd_fieldValue (by have := sound.year_le; omega)
    | none =>
        right
        rw [usable] at known
        refine ⟨?_, known.resolve_left nofun⟩
        simp only [Option.isSome_none, Bool.false_eq_true, if_false]
        by_contra inside
        simp only [readCentury, if_neg inside] at usable
        cases usable
  rw [readRtc]
  simp only [isSecond, isMinute, isHour, isDay, isMonth, isYear, isRegb]
  by_cases bcd : getCmosReg cmos RTC_REGB &&& RTC_BCD_S = 0
  · simp only [bcd, if_true] at second minute day month year hour century ⊢
    rw [second, minute, day, month, year, hour, century]
  · simp only [bcd, if_false] at second minute day month year hour century ⊢
    rw [second, minute, day, month, year, hour, century]

theorem rtcCurTimestamp_eq {cmos written : Cmos} {timestamp : Int}
    (accepted : rtcSetTimestamp cmos timestamp = some written)
    : rtcCurTimestamp written
      = timestamp / 100 * 100
        - if getCmosReg cmos RTC_REGB &&& RTC_24H_S = 0 ∧ timestamp / 360000 % 24 = 12
          then 4320000 else 0 := by
  rw [rtcSetTimestamp] at accepted
  split at accepted
  · cases accepted
  rename_i positive
  obtain ⟨dt, found, last⟩ := Option.bind_eq_some_iff.mp accepted
  split at last
  · cases last
  rename_i usable
  obtain rfl := Option.some.inj last
  obtain ⟨sound, seconds⟩ := rtcSplit_sound found
  have known : (readCentury cmos (getCmosReg cmos RTC_REGB)).isSome = true ∨ dt.year ≤ 2069 := by
    by_cases some : (readCentury cmos (getCmosReg cmos RTC_REGB)).isSome = true
    · exact .inl some
    · exact .inr (Nat.le_of_not_lt fun late => usable ⟨by simpa using some, late⟩)
  have low := sound.rtcDays_lt.1
  obtain ⟨hour, minute, second⟩ := And.intro sound.hour_lt
    (And.intro sound.minute_lt sound.second_lt)
  rw [rtcTimestamp] at seconds
  have isHour : (dt.hour : Int) = timestamp / 360000 % 24 := by omega
  rw [rtcCurTimestamp, readRtc_rtcStore sound known, rtcTimestamp]
  have sameDays (hour : Nat) : rtcDays { dt with hour := hour } = rtcDays dt := rfl
  simp only [sameDays]
  by_cases noon : getCmosReg cmos RTC_REGB &&& RTC_24H_S = 0 ∧ dt.hour = 12
  · rw [if_pos noon, if_pos ⟨noon.1, by omega⟩]
    omega
  · rw [if_neg noon, if_neg fun late => noon ⟨late.1, by omega⟩]
    omega

/-- Setting the clock and reading it gives the same second exactly where the registers count
twenty-four hours or the time of day is not in the hour from noon on.
-/
theorem rtcCurTimestamp_set_iff {cmos written : Cmos} {timestamp : Int}
    (accepted : rtcSetTimestamp cmos timestamp = some written)
    : rtcCurTimestamp written = timestamp / 100 * 100
      ↔ getCmosReg cmos RTC_REGB &&& RTC_24H_S ≠ 0 ∨ timestamp / 360000 % 24 ≠ 12 := by
  rw [rtcCurTimestamp_eq accepted]
  by_cases noon : getCmosReg cmos RTC_REGB &&& RTC_24H_S = 0 ∧ timestamp / 360000 % 24 = 12
  · rw [if_pos noon]
    simp only [noon.1, noon.2]
    omega
  · rw [if_neg noon]
    simp only [Int.sub_zero, true_iff]
    exact (not_and_or.mp noon)

theorem rtcCurTimestamp_set_morning
    : ∃ written, rtcSetTimestamp (fun _ => 0) 3960000 = some written
      ∧ rtcCurTimestamp written = 3960000 := by
  obtain ⟨written, accepted⟩ : ∃ written, rtcSetTimestamp (fun _ => 0) 3960000 = some written :=
    Option.isSome_iff_exists.mp (by decide +kernel)
  exact ⟨written, accepted, (rtcCurTimestamp_set_iff accepted).mpr (.inr (by decide))⟩

/-- Noon is read as midnight where the registers count twelve hours. -/
theorem rtcCurTimestamp_noon
    : ¬ ∀ cmos written timestamp, rtcSetTimestamp cmos timestamp = some written
        → rtcCurTimestamp written = timestamp / 100 * 100 := by
  intro claim
  have read : (rtcSetTimestamp (fun _ => 0) 4320000).map rtcCurTimestamp = some 0 := by
    decide +kernel
  obtain ⟨written, accepted, midnight⟩ := Option.map_eq_some_iff.mp read
  have noon := claim _ _ _ accepted
  rw [midnight] at noon
  exact absurd noon (by decide)

end Panuti.Time
