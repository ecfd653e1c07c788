/-
This file models how a `DateTime` is made from a `time_t` and turned into one, and finds
for which times this goes there and back.

The conversions between a `time_t` and the local calendar are those of the C library. They
stand here as a parameter, with the assumption that they undo each other in the years that
the text of a date has room for. The constructor does not pass its argument to
`localtime`, and so takes the time of the clock. `get` reads the minutes and the seconds of
the text at the wrong places: it finds a colon where it reads the minutes, and the last
digit of the minutes where it reads the seconds.
-/

import CommonCpp.DateTime

namespace CommonCpp

open Ctype Gregorian

/-! ### The code -/

/-- `struct tm`, up to what does not depend on these fields or is not read. -/
structure Tm where
  tm_year : ℤ
  tm_mon : ℤ
  tm_mday : ℤ
  tm_hour : ℤ
  tm_min : ℤ
  tm_sec : ℤ
  deriving DecidableEq

/-- What the C library says: the local calendar of a time, the time of a local calendar, and the
time of the clock. -/
structure Clock where
  localtime : ℤ → Tm
  mktime : Tm → ℤ
  time : ℤ

namespace Time

def set (nhour nminute nsecond : ℤ) : Time :=
  if nminute > 59 ∨ nsecond > 59 ∨ nhour > 23 then ⟨-1⟩
  else ⟨3600 * nhour + 60 * nminute + nsecond⟩

/-- The text that `put` writes into the buffer, with its null. -/
def put (time : Time) : Text :=
  let hour := ZNumber.set 2 ((time.seconds.tdiv 3600).tmod 24)
  let zhour := Number.get 2 hour
  let minute := ZNumber.set 2 ((time.seconds - 3600 * zhour).tdiv 60)
  let zminute := Number.get 2 minute
  let second := ZNumber.set 2 (time.seconds - 3600 * zhour - 60 * zminute)
  hour ++ 0x3a :: minute ++ 0x3a :: second ++ [0]

end Time

namespace DateTime

/-- The constructor from local calendar fields. -/
def ofTm (dt : Tm) : DateTime where
  toDate := Date.set (dt.tm_year + 1900) (dt.tm_mon + 1) dt.tm_mday
  toTime := Time.set dt.tm_hour dt.tm_min dt.tm_sec

/-- The constructor from a `time_t`, which it does not use. -/
def ofTime (clock : Clock) (_tm : ℤ) : DateTime :=
  ofTm (clock.localtime clock.time)

/-- `get`. The time is put into the buffer over the start of the date. -/
def get (clock : Clock) (datetime : DateTime) : ℤ :=
  let buf := datetime.toDate.put
  let nyear := Number.get 4 buf
  let nmonth := Number.get 2 (buf.drop 5)
  let nday := Number.get 2 (buf.drop 8)
  let time := datetime.toTime.put
  let buf := time ++ buf.drop time.length
  clock.mktime {
    tm_year := nyear - 1900
    tm_mon := nmonth - 1
    tm_mday := nday
    tm_hour := Number.get 2 buf
    tm_min := Number.get 2 (buf.drop 2)
    tm_sec := Number.get 2 (buf.drop 4) }

end DateTime

/-! ### The assumption -/

/-- Calendar fields within their bounds. -/
structure Tm.Valid (dt : Tm) : Prop where
  mon : 0 ≤ dt.tm_mon ∧ dt.tm_mon ≤ 11
  mday : 1 ≤ dt.tm_mday ∧ dt.tm_mday ≤
    daysIn (dt.tm_year + 1900).toNat (dt.tm_mon + 1).toNat
  hour : 0 ≤ dt.tm_hour ∧ dt.tm_hour ≤ 23
  min : 0 ≤ dt.tm_min ∧ dt.tm_min ≤ 59
  sec : 0 ≤ dt.tm_sec ∧ dt.tm_sec ≤ 59

/-- The years from 1900 to 9999. -/
def Tm.InYears (dt : Tm) : Prop := 0 ≤ dt.tm_year ∧ dt.tm_year ≤ 8099

instance : DecidablePred Tm.InYears := fun dt =>
  inferInstanceAs (Decidable (0 ≤ dt.tm_year ∧ dt.tm_year ≤ 8099))

/-- The conversions give valid fields, and undo each other in these years. -/
structure Clock.Lawful (clock : Clock) : Prop where
  valid : ∀ time, (clock.localtime time).Valid
  mktime_localtime : ∀ time, (clock.localtime time).InYears →
    clock.mktime (clock.localtime time) = time
  localtime_mktime : ∀ dt : Tm, dt.Valid → dt.InYears →
    clock.localtime (clock.mktime dt) = dt

/-! ### Fields that are put and read -/

section Fields

variable {dt : Tm}

/-- The day of calendar fields. -/
def Tm.day (dt : Tm) (valid : dt.Valid) : Day where
  year := (dt.tm_year + 1900).toNat
  month := (dt.tm_mon + 1).toNat
  day := dt.tm_mday.toNat
  month_pos := by
    have bounds := valid.mon
    omega
  month_le := by
    have bounds := valid.mon
    omega
  day_pos := by
    have bounds := valid.mday
    omega
  day_le := by
    have bounds := valid.mday
    omega

theorem Tm.Valid.date_eq (valid : dt.Valid) (era : 0 ≤ dt.tm_year + 1900) :
    Date.set (dt.tm_year + 1900) (dt.tm_mon + 1) dt.tm_mday = Date.ofDay (dt.day valid) := by
  have month := valid.mon
  have number := valid.mday
  show _ = Date.set ((dt.tm_year + 1900).toNat : ℤ) ((dt.tm_mon + 1).toNat : ℤ)
    (dt.tm_mday.toNat : ℤ)
  rw [Int.toNat_of_nonneg era, Int.toNat_of_nonneg (by omega), Int.toNat_of_nonneg (by omega)]

theorem Tm.Valid.common (valid : dt.Valid) (inYears : dt.InYears) :
    Date.Common (dt.day valid) := by
  unfold Tm.InYears at inYears
  unfold Date.Common
  show 1 ≤ (dt.tm_year + 1900).toNat ∧ (dt.tm_year + 1900).toNat ≤ 9999
  omega

theorem Tm.Valid.time_eq (valid : dt.Valid) : Time.set dt.tm_hour dt.tm_min dt.tm_sec =
    ⟨3600 * dt.tm_hour + 60 * dt.tm_min + dt.tm_sec⟩ := by
  have bounds := And.intro valid.hour (And.intro valid.min valid.sec)
  unfold Time.set
  rw [if_neg (by omega)]

/-- The text of a time of the day. -/
theorem put_time {hour minute second : ℕ} (hour_lt : hour < 24) (minute_lt : minute < 60)
    (second_lt : second < 60) : Time.put ⟨3600 * hour + 60 * minute + second⟩ =
      decimal 2 hour ++ 0x3a :: decimal 2 minute ++ 0x3a :: decimal 2 second ++ [0] := by
  have hour_ : ((3600 * hour + 60 * minute + second : ℤ).tdiv 3600).tmod 24 = hour := by
    rw [Int.tdiv_eq_ediv_of_nonneg (by omega), Int.tmod_eq_emod_of_nonneg (by omega)]
    omega
  have minute_ : (3600 * hour + 60 * minute + second - 3600 * hour : ℤ).tdiv 60 = minute := by
    rw [Int.tdiv_eq_ediv_of_nonneg (by omega)]
    omega
  have second_ : (3600 * hour + 60 * minute + second - 3600 * hour - 60 * minute : ℤ) =
      second := by omega
  have read : ∀ {value : ℕ}, value < 10 ^ 2 → Number.get 2 (decimal 2 value) = value :=
    fun small => (List.append_nil (decimal 2 _)) ▸ Number.get_decimal small [] (by decide)
  have hour_small : hour < 10 ^ 2 := by omega
  have minute_small : minute < 10 ^ 2 := by omega
  have second_small : second < 10 ^ 2 := by omega
  simp only [Time.put, hour_, ZNumber.set_eq_decimal hour_small, read hour_small, minute_,
    ZNumber.set_eq_decimal minute_small, read minute_small, second_,
    ZNumber.set_eq_decimal second_small]

/-- `get` drops the seconds, and takes the last digit of the minutes for them. -/
def Tm.misread (dt : Tm) : Tm := { dt with tm_min := 0, tm_sec := dt.tm_min % 10 }

theorem Tm.Valid.misread (valid : dt.Valid) : dt.misread.Valid where
  mon := valid.mon
  mday := valid.mday
  hour := valid.hour
  min := by
    show (0 : ℤ) ≤ 0 ∧ (0 : ℤ) ≤ 59
    decide
  sec := by
    show 0 ≤ dt.tm_min % 10 ∧ dt.tm_min % 10 ≤ 59
    omega

theorem get_ofTm (clock : Clock) (valid : dt.Valid) (inYears : dt.InYears) :
    (DateTime.ofTm dt).get clock = clock.mktime dt.misread := by
  have common := valid.common inYears
  obtain ⟨year_, month_, day_, _⟩ := Date.read_form common
  have date : (DateTime.ofTm dt).toDate.put = Date.form (dt.day valid) := by
    rw [← Date.put_ofDay common, ← valid.date_eq (by unfold Tm.InYears at inYears; omega)]
    rfl
  obtain ⟨hour, hour_⟩ := Int.eq_ofNat_of_zero_le valid.hour.1
  obtain ⟨minute, minute_⟩ := Int.eq_ofNat_of_zero_le valid.min.1
  obtain ⟨second, second_⟩ := Int.eq_ofNat_of_zero_le valid.sec.1
  have hour_lt := valid.hour.2
  have minute_lt := valid.min.2
  have second_lt := valid.sec.2
  have time : (DateTime.ofTm dt).toTime.put =
      decimal 2 hour ++ 0x3a :: decimal 2 minute ++ 0x3a :: decimal 2 second ++ [0] := by
    rw [← put_time (by omega) (by omega) (by omega), ← hour_, ← minute_, ← second_,
      ← valid.time_eq]
    rfl
  have hourRead : ∀ rest, Number.get 2 (decimal 2 hour ++ rest) = hour := fun rest =>
    Number.get_decimal (by omega) rest (by decide)
  have minuteRead : ∀ rest, Number.get 2 (0x3a :: rest) = 0 := fun rest => rfl
  have secondRead : ∀ rest, Number.get 2 (digit (minute / 10 ^ 0 % 10) :: 0x3a :: rest) =
      (minute : ℤ) % 10 := fun rest => by
    refine (Number.get_digit_cons (Nat.mod_lt _ (by decide)) _).trans ?_
    show ((minute / 10 ^ 0 % 10 : ℕ) : ℤ) = minute % 10
    rw [pow_zero, Nat.div_one]
    rfl
  have year : ((dt.day valid).year : ℤ) = dt.tm_year + 1900 := by
    refine Int.toNat_of_nonneg ?_
    unfold Tm.InYears at inYears
    omega
  have month : ((dt.day valid).month : ℤ) = dt.tm_mon + 1 :=
    Int.toNat_of_nonneg (by have bounds := valid.mon; omega)
  have day : ((dt.day valid).day : ℤ) = dt.tm_mday :=
    Int.toNat_of_nonneg (by have bounds := valid.mday; omega)
  unfold DateTime.get
  refine congrArg clock.mktime ?_
  simp only [date, time, Tm.misread, Tm.mk.injEq]
  refine ⟨?_, ?_, ?_, ?_, ?_, ?_⟩
  · rw [year_, year, add_sub_cancel_right]
  · rw [month_, month, add_sub_cancel_right]
  · rw [day_, day]
  · rw [hour_]
    exact hourRead _
  · exact minuteRead _
  · rw [minute_]
    exact secondRead _

end Fields

/-! ### There and back -/

section Lawful

variable {clock : Clock} {dt other : Tm}

/-- Fields whose conversion is the same are the same. -/
theorem Clock.Lawful.mktime_inj (lawful : clock.Lawful) (valid : dt.Valid)
    (valid' : other.Valid) (inYears : dt.InYears) (inYears' : other.InYears) :
    clock.mktime dt = clock.mktime other ↔ dt = other := by
  refine ⟨fun same => ?_, congrArg clock.mktime⟩
  rw [← lawful.localtime_mktime dt valid inYears, same,
    lawful.localtime_mktime other valid' inYears']

/-- A quotient that is cut off is within one of the fraction. -/
theorem tdiv_bounds (value : ℤ) {divisor : ℤ} (positive : 0 < divisor) :
    divisor * value.tdiv divisor < value + divisor ∧
      value - divisor < divisor * value.tdiv divisor := by
  have whole := Int.tmod_add_mul_tdiv value divisor
  have most := Int.tmod_lt_of_pos value positive
  have least := Int.lt_tmod_of_pos value positive
  constructor <;> omega

/-- No date before the year 1 has the number of a later day. -/
theorem Date.set_early {nyear nmonth nday : ℤ} (early : nyear < 1) {day : Day}
    (common : Common day) : set nyear nmonth nday ≠ ofDay day := by
  intro same
  have least : _ ≤ (ofDay day).julian := number_firstDay_le common.1
  have most : (ofDay day).julian ≤ _ := number_le_lastDay common
  rw [number_ends.1, ← same] at least
  rw [number_ends.2, ← same] at most
  unfold set at least most
  split at least
  next refused =>
    rw [if_pos refused] at most
    exact absurd most (by decide)
  next valid =>
    rw [if_neg valid] at most
    simp only [if_pos (by omega : nyear < 0)] at least
    have month := tdiv_bounds (nmonth - 14) (by decide : (0 : ℤ) < 12)
    generalize (nmonth - 14).tdiv 12 = turn at *
    have years := tdiv_bounds (1461 * (nyear - 1 + 4800 + turn)) (by decide : (0 : ℤ) < 4)
    have months := tdiv_bounds (367 * (nmonth - 2 - turn * 12)) (by decide : (0 : ℤ) < 12)
    have past := tdiv_bounds (nyear - 1 + 4900 + turn) (by decide : (0 : ℤ) < 100)
    have centuries := tdiv_bounds (3 * (nyear - 1 + 4900 + turn).tdiv 100)
      (by decide : (0 : ℤ) < 4)
    omega

/-- Fields in the years of a text are known from their date and time. -/
theorem ofTm_inj (valid : dt.Valid) (valid' : other.Valid) (inYears : other.InYears) :
    DateTime.ofTm dt = DateTime.ofTm other ↔ dt = other := by
  refine ⟨fun same => ?_, congrArg DateTime.ofTm⟩
  obtain ⟨date, time⟩ : Date.set (dt.tm_year + 1900) (dt.tm_mon + 1) dt.tm_mday =
      Date.set (other.tm_year + 1900) (other.tm_mon + 1) other.tm_mday ∧
      Time.set dt.tm_hour dt.tm_min dt.tm_sec =
        Time.set other.tm_hour other.tm_min other.tm_sec :=
    ⟨congrArg DateTime.toDate same, congrArg DateTime.toTime same⟩
  have common := valid'.common inYears
  rw [valid'.date_eq (by unfold Tm.InYears at inYears; omega)] at date
  have era : 1 ≤ dt.tm_year + 1900 := by
    by_contra early
    exact Date.set_early (not_le.mp early) common date
  rw [valid.date_eq (by omega)] at date
  have day : dt.day valid = other.day valid' :=
    Date.counts.injective (by show 1 ≤ (dt.tm_year + 1900).toNat; omega) common.1
      (congrArg Date.julian date)
  have year_ : (dt.tm_year + 1900).toNat = (other.tm_year + 1900).toNat := congrArg Day.year day
  have month_ : (dt.tm_mon + 1).toNat = (other.tm_mon + 1).toNat := congrArg Day.month day
  have day_ : dt.tm_mday.toNat = other.tm_mday.toNat := congrArg Day.day day
  rw [valid.time_eq, valid'.time_eq] at time
  have seconds := congrArg Time.seconds time
  have bounds := And.intro valid.mon (And.intro valid.mday valid'.mday)
  have bounds' := And.intro valid.hour (And.intro valid.min valid.sec)
  have bounds'' := And.intro valid'.hour (And.intro valid'.min valid'.sec)
  have month' := valid'.mon
  unfold Tm.InYears at inYears
  dsimp only at seconds
  cases dt
  cases other
  simp only [Tm.mk.injEq] at *
  omega

/-- A time is held by its `DateTime` exactly when it is that of the clock. -/
theorem ofTime_eq_iff (lawful : clock.Lawful) {time : ℤ}
    (inYears : (clock.localtime time).InYears) :
    DateTime.ofTime clock time = DateTime.ofTm (clock.localtime time) ↔ time = clock.time := by
  refine (ofTm_inj (lawful.valid _) (lawful.valid _) inYears).trans ⟨fun same => ?_, ?_⟩
  · rw [← lawful.mktime_localtime time inYears, ← same,
      lawful.mktime_localtime _ (same ▸ inYears)]
  · rintro rfl
    rfl

/-- `get` gives the time of the fields exactly when this is a full hour. -/
theorem get_ofTm_iff (lawful : clock.Lawful) (valid : dt.Valid) (inYears : dt.InYears) :
    (DateTime.ofTm dt).get clock = clock.mktime dt ↔ dt.tm_min = 0 ∧ dt.tm_sec = 0 := by
  rw [get_ofTm clock valid inYears, lawful.mktime_inj valid.misread valid inYears inYears]
  cases dt
  simp only [Tm.misread, Tm.mk.injEq, true_and]
  omega

/-- A time goes into a `DateTime` and back exactly when it is that of the clock, on a full hour; and
a `DateTime` of these years goes into a time and back exactly when it is that of the clock. What
`get` gives is the time of the fields exactly on a full hour. -/
theorem timeRoundTrip_iff (lawful : clock.Lawful) :
    (∀ time, (clock.localtime time).InYears →
      ((DateTime.ofTime clock time = DateTime.ofTm (clock.localtime time) ∧
        (DateTime.ofTime clock time).get clock = time) ↔
      time = clock.time ∧ (clock.localtime time).tm_min = 0 ∧
        (clock.localtime time).tm_sec = 0)) ∧
    (∀ time, (clock.localtime time).InYears →
      (DateTime.ofTime clock time = DateTime.ofTm (clock.localtime time) ↔ time = clock.time)) ∧
    (∀ dt : Tm, dt.Valid → dt.InYears →
      ((DateTime.ofTm dt).get clock = clock.mktime dt ↔ dt.tm_min = 0 ∧ dt.tm_sec = 0)) ∧
    ∀ dt : Tm, dt.Valid → dt.InYears →
      (DateTime.ofTime clock ((DateTime.ofTm dt).get clock) = DateTime.ofTm dt ↔
        dt = clock.localtime clock.time) := by
  refine ⟨fun time inYears => ?_, fun time inYears => ofTime_eq_iff lawful inYears,
    fun dt valid inYears => get_ofTm_iff lawful valid inYears, fun dt valid inYears => ?_⟩
  · rw [ofTime_eq_iff lawful inYears]
    refine and_congr_right fun now => ?_
    subst now
    have held := get_ofTm_iff lawful (lawful.valid clock.time) inYears
    rwa [lawful.mktime_localtime _ inYears] at held
  · exact (ofTm_inj (lawful.valid _) valid inYears).trans eq_comm

/-! ### A clock that shows universal time -/

/-- The number of the day on which times begin. -/
def epoch : ℤ := 2440588

/-- The fields of a day and of the seconds on it. -/
def civil (julian seconds : ℤ) : Tm :=
  let (year, month, day) := Date.fields julian
  ⟨year - 1900, month - 1, day, seconds / 3600, seconds / 60 % 60, seconds % 60⟩

/-- The local calendar and the times of a place that keeps universal time. Times before the year 1
or after the year 9999 are not told apart. -/
def utc (clockTime : ℤ) : Clock where
  localtime time :=
    let julian := epoch + time / c_day
    if Date.number Date.firstDay ≤ julian ∧ julian ≤ Date.number Date.lastDay then
      civil julian (time % c_day)
    else ⟨-1900, 0, 1, 0, 0, 0⟩
  mktime dt :=
    ((Date.set (dt.tm_year + 1900) (dt.tm_mon + 1) dt.tm_mday).julian - epoch) * c_day +
      (3600 * dt.tm_hour + 60 * dt.tm_min + dt.tm_sec)
  time := clockTime

theorem utc_localtime {clockTime time : ℤ} {day : Day} (common : Date.Common day)
    (number : Date.number day = epoch + time / c_day) :
    (utc clockTime).localtime time = ⟨day.year - 1900, day.month - 1, day.day,
      time % c_day / 3600, time % c_day / 60 % 60, time % c_day % 60⟩ := by
  have least : Date.number Date.firstDay ≤ Date.number day := Date.number_firstDay_le common.1
  have most : Date.number day ≤ Date.number Date.lastDay := Date.number_le_lastDay common
  show (if _ then civil (epoch + time / c_day) _ else _) = _
  rw [← number, if_pos ⟨least, most⟩, civil, Date.fields_number day common.1]

/-- A time is on a day of these years, or outside of them. -/
theorem utc_cases (clockTime time : ℤ) :
    (∃ day, Date.Common day ∧ Date.number day = epoch + time / c_day) ∨
      (utc clockTime).localtime time = ⟨-1900, 0, 1, 0, 0, 0⟩ := by
  by_cases inside : Date.number Date.firstDay ≤ epoch + time / c_day ∧
      epoch + time / c_day ≤ Date.number Date.lastDay
  · obtain ⟨day, common, date⟩ := @Date.exists_ofDay ⟨epoch + time / c_day⟩ inside.1 inside.2
    exact Or.inl ⟨day, common, congrArg Date.julian date⟩
  · exact Or.inr (if_neg inside)

theorem utc_lawful (clockTime : ℤ) : (utc clockTime).Lawful where
  valid time := by
    rcases utc_cases clockTime time with ⟨day, common, number⟩ | outside
    · rw [utc_localtime common number]
      have month := And.intro day.month_pos day.month_le
      have day_pos := day.day_pos
      have year : ((day.year : ℤ) - 1900 + 1900).toNat = day.year := by omega
      have month' : ((day.month : ℤ) - 1 + 1).toNat = day.month := by omega
      have day_le : (day.day : ℤ) ≤ daysIn ((day.year : ℤ) - 1900 + 1900).toNat
          ((day.month : ℤ) - 1 + 1).toNat := by
        rw [year, month']
        exact Int.ofNat_le.mpr day.day_le
      unfold c_day
      constructor <;> dsimp only <;> omega
    · rw [outside]
      constructor <;> decide
  mktime_localtime time inYears := by
    rcases utc_cases clockTime time with ⟨day, common, number⟩ | outside
    · rw [utc_localtime common number]
      have date : Date.set ((day.year : ℤ) - 1900 + 1900) ((day.month : ℤ) - 1 + 1) day.day =
          Date.ofDay day := by
        rw [sub_add_cancel, sub_add_cancel]
        rfl
      have julian : (Date.ofDay day).julian = epoch + time / c_day := number
      unfold utc
      dsimp only
      rw [date, julian]
      unfold c_day
      omega
    · rw [outside] at inYears
      exact absurd inYears.1 (by decide)
  localtime_mktime dt valid inYears := by
    have common := valid.common inYears
    have bounds := And.intro valid.hour (And.intro valid.min valid.sec)
    obtain ⟨seconds, seconds_⟩ : ∃ seconds, seconds =
        3600 * dt.tm_hour + 60 * dt.tm_min + dt.tm_sec := ⟨_, rfl⟩
    have mktime : (utc clockTime).mktime dt =
        (Date.number (dt.day valid) - epoch) * c_day + seconds := by
      unfold utc
      dsimp only
      rw [valid.date_eq (by unfold Tm.InYears at inYears; omega), seconds_]
      rfl
    have number : Date.number (dt.day valid) =
        epoch + (utc clockTime).mktime dt / c_day := by
      rw [mktime]
      unfold c_day
      omega
    have left : (utc clockTime).mktime dt % c_day = seconds := by
      rw [mktime]
      unfold c_day
      omega
    rw [utc_localtime common number, left]
    have year : ((dt.day valid).year : ℤ) = (dt.tm_year + 1900).toNat := rfl
    have month : ((dt.day valid).month : ℤ) = (dt.tm_mon + 1).toNat := rfl
    have day : ((dt.day valid).day : ℤ) = dt.tm_mday.toNat := rfl
    have mon := valid.mon
    have mday := valid.mday.1
    unfold Tm.InYears at inYears
    rw [year, month, day]
    cases dt
    simp only [Tm.mk.injEq] at *
    omega

/-- The first second of the year 1999. -/
def newYear : Tm := ⟨99, 0, 1, 0, 0, 0⟩

theorem newYear_valid : newYear.Valid := by
  constructor <;> decide

theorem utc_newYear (clockTime : ℤ) : (utc clockTime).localtime 915148800 = newYear := by
  let day : Day := ⟨1999, 1, 1, by decide, by decide, by decide, by decide⟩
  have number : Date.number day = epoch + 915148800 / c_day := by decide +kernel
  exact (utc_localtime (by decide) number).trans (by decide +kernel)

theorem timeRoundTrip_iff_newYear : (utc 946684740).Lawful ∧
    DateTime.ofTime (utc 946684740) 915148800 ≠ DateTime.ofTm newYear := by
  have lawful := utc_lawful 946684740
  refine ⟨lawful, fun held => ?_⟩
  have inYears : ((utc 946684740).localtime 915148800).InYears := by
    rw [utc_newYear]
    decide
  rw [← utc_newYear 946684740] at held
  exact absurd (((timeRoundTrip_iff lawful).2.1 _ inYears).mp held) (by decide)

/-- While the clock shows the last minute of a year, neither a time a year before is held, nor its
date and time. -/
theorem dateTime_takes_clock :
    ¬ (∀ clock : Clock, clock.Lawful → ∀ time, (clock.localtime time).InYears →
      DateTime.ofTime clock time = DateTime.ofTm (clock.localtime time) ∧
        (DateTime.ofTime clock time).get clock = time) ∧
    ¬ ∀ clock : Clock, clock.Lawful → ∀ dt : Tm, dt.Valid → dt.InYears →
      DateTime.ofTime clock ((DateTime.ofTm dt).get clock) = DateTime.ofTm dt := by
  have lawful := utc_lawful 946684740
  have inYears : newYear.InYears := by decide
  have lost : DateTime.ofTime (utc 946684740) 915148800 ≠
      DateTime.ofTm ((utc 946684740).localtime 915148800) := fun held =>
    absurd ((ofTime_eq_iff lawful (by rw [utc_newYear]; exact inYears)).mp held) (by decide)
  refine ⟨fun law => ?_, fun law => ?_⟩
  · exact lost (law _ lawful _ (by rw [utc_newYear]; exact inYears)).1
  · rw [utc_newYear] at lost
    exact lost (law _ lawful newYear newYear_valid inYears)

end Lawful

end CommonCpp
