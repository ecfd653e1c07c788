/-
This file models `Date`, which keeps a day as its julian number, and relates it to the
proleptic Gregorian calendar.

`set` finds the number of a day by a closed formula, and `put` finds the year, the month
and the day of a number by another, whose doubles are read as exact fractions that a
conversion to `int` cuts off. Both count years from March, and `put` takes a number apart
in the order in which `set` puts it together: the century, the year in it, the month, and
the day. A day in its century is short enough for each quotient to be found, with the
twenty-ninth of February of a leap year as the day that just fits.

All of it is right from the year 1 on, except that a text has four places for the year.
-/

import Mathlib.Data.Rat.Floor
import Mathlib.Tactic.IntervalCases
import Mathlib.Tactic.Linarith
import CommonCpp.Bytes
import CommonCpp.Gregorian
import CommonCpp.Number

namespace CommonCpp

open Bytes Ctype Gregorian

/-! ### The code -/

@[ext]
structure Date where
  julian : ℤ
  deriving DecidableEq

namespace Date

/-- The number of a date that is not valid. -/
def invalid : ℤ := 0x7fffffff

def set (nyear nmonth nday : ℤ) : Date :=
  if nmonth < 1 ∨ nmonth > 12 ∨ nday < 1 ∨ nday > 31 ∨ nyear = 0 then ⟨invalid⟩
  else
    let nyear := if nyear < 0 then nyear - 1 else nyear
    ⟨nday - 32075 +
      (1461 * (nyear + 4800 + (nmonth - 14).tdiv 12)).tdiv 4 +
      (367 * (nmonth - 2 - (nmonth - 14).tdiv 12 * 12)).tdiv 12 -
      (3 * (nyear + 4900 + (nmonth - 14).tdiv 12).tdiv 100).tdiv 4⟩

/-- The conversion of a double to `int`. -/
def int (value : ℚ) : ℤ := if 0 ≤ value then ⌊value⌋ else ⌈value⌉

/-- The year, the month and the day that `put` finds. -/
def fields (julian : ℤ) : ℤ × ℤ × ℤ :=
  let l : ℚ := julian + 68569
  let n : ℚ := int (4 * l / 146097)
  let l := l - int ((146097 * n + 3) / 4)
  let i : ℚ := int (4000 * (l + 1) / 1461001)
  let l := l - int (1461 * i / 4) + 31
  let j : ℚ := int (80 * l / 2447)
  let k := l - int (2447 * j / 80)
  let l : ℚ := int (j / 11)
  let j := j + 2 - 12 * l
  let i := 100 * (n - 49) + i + l
  (int i, int j, int k)

/-- The text that `put` writes into the buffer, with its null. -/
def put (date : Date) : Text :=
  let (nyear, nmonth, nday) := fields date.julian
  ZNumber.set 4 nyear ++ 0x2d :: ZNumber.set 2 nmonth ++ 0x2d :: ZNumber.set 2 nday ++ [0]

def year (date : Date) : ℤ := Number.get 4 date.put

def month (date : Date) : ℤ := Number.get 2 (date.put.drop 5)

def day (date : Date) : ℤ := Number.get 2 (date.put.drop 8)

def get (date : Date) : ℤ :=
  atol date.put * 10000 + atol (date.put.drop 5) * 100 + atol (date.put.drop 8)

/-- The day of the week, as an `unsigned`. -/
def dow (date : Date) : ℤ := (date.julian + 1).tmod 7 % 2 ^ 32

/-- `set(const char *, size_t)`, in a year that the clock tells. -/
def setSized (clockYear : ℤ) (str : Text) (size : ℕ) : Date :=
  let size := if size = 0 then strlen str else size
  let digitAt (place : ℕ) := (str.drop place).head?.any isdigit
  let century := clockYear.tdiv 100 * 100
  let setFrom (nyear : ℤ) (mstr dstr : ℕ) :=
    set nyear (Number.get 2 (str.drop mstr)) (Number.get 2 (str.drop dstr))
  if size = 4 then setFrom clockYear 0 2
  else if size = 5 then setFrom clockYear 0 3
  else if size = 6 then setFrom (century + Number.get 2 str) 2 4
  else if size = 8 ∧ digitAt 2 ∧ digitAt 5 then setFrom (Number.get 4 str) 4 6
  else if size = 8 then setFrom (century + Number.get 2 str) 3 6
  else if size = 10 then setFrom (Number.get 4 str) 5 8
  else ⟨invalid⟩

/-- `set` from a text whose size is not given. -/
def setText (clockYear : ℤ) (str : Text) : Date := setSized clockYear str 0

/-- `++`, `--`, `+=` and `-=`. -/
def increment (date : Date) : Date := ⟨date.julian + 1⟩

def decrement (date : Date) : Date := ⟨date.julian - 1⟩

def advance (date : Date) (val : ℤ) : Date := ⟨date.julian + val⟩

def retreat (date : Date) (val : ℤ) : Date := ⟨date.julian - val⟩

/-! ### Cutting off fractions -/

theorem int_intCast (value : ℤ) : int value = value := by
  unfold int
  split <;> simp

theorem int_div {value : ℤ} (nonneg : 0 ≤ value) (divisor : ℕ) :
    int ((value : ℚ) / divisor) = value / divisor := by
  have positive : (0 : ℚ) ≤ (value : ℚ) / divisor :=
    div_nonneg (Int.cast_nonneg nonneg) (Nat.cast_nonneg divisor)
  rw [int, if_pos positive, Rat.floor_intCast_div_natCast]

/-- The conversion of a number in whole numbers. Each quotient is one of numbers that are not
negative. -/
theorem fields_eq {julian l n l' i l'' j : ℤ} (recent : 0 ≤ l) (l_ : julian + 68569 = l)
    (n_ : 4 * l / 146097 = n) (l'_ : l - (146097 * n + 3) / 4 = l')
    (i_ : 4000 * (l' + 1) / 1461001 = i) (l''_ : l' - 1461 * i / 4 + 31 = l'')
    (j_ : 80 * l'' / 2447 = j) :
    fields julian =
      (100 * (n - 49) + i + j / 11, j + 2 - 12 * (j / 11), l'' - 2447 * j / 80) := by
  have first : int (4 * ((julian : ℚ) + 68569) / 146097) = n := by
    have step := @int_div (4 * l) (by omega) 146097
    rw [← l_] at step n_
    push_cast at step
    rw [step, ← n_]
  have second : int ((146097 * (n : ℚ) + 3) / 4) = (146097 * n + 3) / 4 := by
    have step := @int_div (146097 * n + 3) (by omega) 4
    push_cast at step
    exact step
  have third : int (4000 * ((l' : ℚ) + 1) / 1461001) = i := by
    have step := @int_div (4000 * (l' + 1)) (by omega) 1461001
    push_cast at step
    rw [step, ← i_]
  have fourth : int (1461 * (i : ℚ) / 4) = 1461 * i / 4 := by
    have step := @int_div (1461 * i) (by omega) 4
    push_cast at step
    exact step
  have fifth : int (80 * (l'' : ℚ) / 2447) = j := by
    have step := @int_div (80 * l'') (by omega) 2447
    push_cast at step
    rw [step, ← j_]
  have sixth : int (2447 * (j : ℚ) / 80) = 2447 * j / 80 := by
    have step := @int_div (2447 * j) (by omega) 80
    push_cast at step
    exact step
  have seventh : int ((j : ℚ) / 11) = j / 11 := by
    have step := @int_div j (by omega) 11
    push_cast at step
    exact step
  have inCentury : (julian : ℚ) + 68569 - ((146097 * n + 3) / 4 : ℤ) = l' := by
    rw [← l'_, ← l_]
    push_cast
    rfl
  have inYear : (l' : ℚ) - (1461 * i / 4 : ℤ) + 31 = l'' := by
    rw [← l''_]
    push_cast
    rfl
  simp only [fields, first, second, inCentury, third, fourth, inYear, fifth, sixth, seventh]
  refine Prod.ext ?_ (Prod.ext ?_ ?_)
  · rw [← int_intCast (100 * (n - 49) + i + j / 11)]
    push_cast
    rfl
  · rw [← int_intCast (j + 2 - 12 * (j / 11))]
    push_cast
    rfl
  · rw [← int_intCast (l'' - 2447 * j / 80)]
    push_cast
    rfl

/-! ### The number of a day -/

/-- The date of a day. -/
def ofDay (day : Day) : Date := set day.year day.month day.day

/-- The number of a day. -/
def number (day : Day) : ℤ := (ofDay day).julian

/-- January and February count with the year before. -/
def early (month : ℕ) : ℤ := if month ≤ 2 then 1 else 0

theorem tdiv_month {month : ℕ} (month_pos : 1 ≤ month) (month_le : month ≤ 12) :
    ((month : ℤ) - 14).tdiv 12 = -early month := by
  interval_cases month <;> rfl

/-- The days before a month, counted from the last day of February. -/
def monthDays (month : ℕ) : ℤ := 367 * (month - 2 + 12 * early month) / 12

/-- The formula of `set`, whose divisions have no negative operand from the year 1 on. -/
def formula (year month day : ℕ) : ℤ :=
  day - 32075 + 1461 * (year + 4800 - early month) / 4 + monthDays month -
    3 * ((year + 4900 - early month) / 100) / 4

/-- What `set` makes of a year, moved by one if it is negative: its divisions have no negative
operand when the year is not too early. -/
theorem set_julian_eq {year shifted : ℤ} {month day : ℕ} (some_ : year ≠ 0)
    (shifted_ : (if year < 0 then year - 1 else year) = shifted) (late : -4799 ≤ shifted)
    (month_pos : 1 ≤ month) (month_le : month ≤ 12) (started : 1 ≤ day) (inMonth : day ≤ 31) :
    (set year month day).julian =
      day - 32075 + 1461 * (shifted + 4800 - early month) / 4 + monthDays month -
        3 * ((shifted + 4900 - early month) / 100) / 4 := by
  have early_bounds : 0 ≤ early month ∧ early month ≤ 1 ∧
      0 ≤ (month : ℤ) - 2 + 12 * early month := by
    unfold early
    split <;> omega
  have valid : ¬ ((month : ℤ) < 1 ∨ (month : ℤ) > 12 ∨ (day : ℤ) < 1 ∨ (day : ℤ) > 31 ∨
      year = 0) := by omega
  have turned : (month : ℤ) - 2 - -early month * 12 = month - 2 + 12 * early month := by omega
  unfold set
  rw [if_neg valid, shifted_, tdiv_month month_pos month_le, turned]
  unfold monthDays
  dsimp only
  rw [Int.tdiv_eq_ediv_of_nonneg (by omega), Int.tdiv_eq_ediv_of_nonneg (by omega),
    Int.tdiv_eq_ediv_of_nonneg (b := 100) (by omega), Int.tdiv_eq_ediv_of_nonneg (by omega)]
  rfl

/-- The formula also gives the number of a day that its month has not. -/
theorem set_eq_formula {year month day : ℕ} (era : 1 ≤ year) (month_pos : 1 ≤ month)
    (month_le : month ≤ 12) (started : 1 ≤ day) (inMonth : day ≤ 31) :
    (set year month day).julian = formula year month day :=
  set_julian_eq (by omega) (if_neg (by omega)) (by omega) month_pos month_le started inMonth

theorem number_eq (day : Day) (era : 1 ≤ day.year) :
    number day = formula day.year day.month day.day :=
  set_eq_formula era day.month_pos day.month_le day.day_pos
    (day.day_le.trans (daysIn_bounds day.year day.month).2)

/-- A month other than February has the days that the formula gives it. -/
theorem monthDays_succ (year : ℕ) {month : ℕ} (month_pos : 1 ≤ month) (within : month + 1 ≤ 12)
    (other : month ≠ 2) :
    early (month + 1) = early month ∧
      monthDays (month + 1) = monthDays month + daysIn year month := by
  have month_le : month ≤ 11 := by omega
  interval_cases month <;> first | exact absurd rfl other | exact ⟨rfl, rfl⟩

theorem exists_quarter (value : ℤ) : ∃ quarter rest : ℤ, value = 4 * quarter + rest ∧
    (rest = 0 ∨ rest = 1 ∨ rest = 2 ∨ rest = 3) :=
  ⟨value / 4, value % 4, by omega, by omega⟩

/-- The days of a year that begins in March, before centuries are taken off. -/
theorem quarterDays (year : ℤ) : 1461 * (year + 4800) / 4 =
    1461 * (year + 4799) / 4 + if 4 ∣ year then 366 else 365 := by
  obtain ⟨quarter, rest, rfl, rfl | rfl | rfl | rfl⟩ := exists_quarter year <;> split <;> omega

/-- The days that are taken off for centuries. -/
theorem centuryDays (year : ℤ) : 3 * ((year + 4900) / 100) / 4 =
    3 * ((year + 4899) / 100) / 4 + if 100 ∣ year ∧ ¬ 400 ∣ year then 1 else 0 := by
  by_cases century : 100 ∣ year
  · obtain ⟨past, rfl⟩ := century
    have before : (100 * past + 4899) / 100 = past + 48 := by omega
    have now : (100 * past + 4900) / 100 = past + 49 := by omega
    rw [before, now]
    obtain ⟨quarter, rest, rfl, rfl | rfl | rfl | rfl⟩ := exists_quarter past <;> split <;> omega
  · have same : (year + 4899) / 100 = (year + 4900) / 100 := by omega
    rw [same, if_neg fun both => century both.1, add_zero]

/-- The days from one first of March to the next, which follow the February between them. -/
theorem yearDays (year : ℕ) :
    1461 * ((year : ℤ) + 4800) / 4 - 3 * (((year : ℤ) + 4900) / 100) / 4 =
      1461 * ((year : ℤ) + 4799) / 4 - 3 * (((year : ℤ) + 4899) / 100) / 4 + 337 +
        daysIn year 2 := by
  rw [quarterDays, centuryDays]
  by_cases leap : Leap year
  · have days : daysIn year 2 = 29 := if_pos leap
    rw [days]
    unfold Leap at leap
    split <;> split <;> omega
  · have days : daysIn year 2 = 28 := if_neg leap
    rw [days]
    unfold Leap at leap
    split <;> split <;> omega

/-! The formula counts on from a day to the day after it. -/

theorem formula_succ (year month day : ℕ) :
    formula year month (day + 1) = formula year month day + 1 := by
  unfold formula
  push_cast
  ring

/-- With March, the year of the formula begins. -/
theorem formula_march (year : ℕ) : formula year 3 1 = formula year 2 (daysIn year 2) + 1 := by
  have turn := yearDays year
  have before : (year : ℤ) + 4800 - 1 = year + 4799 ∧ (year : ℤ) + 4900 - 1 = year + 4899 := by
    constructor <;> ring
  simp only [formula, monthDays, early, Nat.reduceLeDiff, if_true, if_false, before, sub_zero]
  push_cast
  omega

theorem formula_month (year : ℕ) {month : ℕ} (month_pos : 1 ≤ month) (within : month + 1 ≤ 12)
    (other : month ≠ 2) :
    formula year (month + 1) 1 = formula year month (daysIn year month) + 1 := by
  obtain ⟨sameYear, days⟩ := monthDays_succ year month_pos within other
  unfold formula
  rw [sameYear, days]
  push_cast
  ring

theorem formula_newYear (year : ℕ) : formula (year + 1) 1 1 = formula year 12 31 + 1 := by
  have newYear : (year : ℤ) + 1 + 4800 - 1 = year + 4800 ∧
      (year : ℤ) + 1 + 4900 - 1 = year + 4900 := by constructor <;> ring
  simp only [formula, monthDays, early, Nat.reduceLeDiff, if_true, if_false, sub_zero]
  push_cast
  rw [newYear.1, newYear.2]
  omega

theorem number_next (day : Day) (era : 1 ≤ day.year) : number day.next = number day + 1 := by
  have month_pos := day.month_pos
  have month_le := day.month_le
  have day_le := day.day_le
  have later : 1 ≤ day.next.year := era.trans (Day.year_le_next day)
  rw [number_eq day era, number_eq day.next later]
  unfold Day.next
  split
  next inside => exact formula_succ day.year day.month day.day
  next beyond =>
    have last : day.day = daysIn day.year day.month := by omega
    rw [last]
    split
    next within =>
      show formula day.year (day.month + 1) 1 = formula day.year day.month _ + 1
      by_cases february : day.month = 2
      · rw [february]
        exact formula_march day.year
      · exact formula_month day.year month_pos within february
    next december =>
      have last : day.month = 12 := by omega
      show formula (day.year + 1) 1 1 = formula day.year day.month _ + 1
      rw [last]
      exact formula_newYear day.year

/-! ### The day of a number -/

/-- What the formula makes of a day in its year, for a month that has it. -/
theorem month_found {month day : ℕ} (month_pos : 1 ≤ month) (month_le : month ≤ 12)
    (day_pos : 1 ≤ day) (day_le : day ≤ daysIn 4 month) :
    80 * (day + monthDays month) / 2447 = month - 2 + 12 * early month ∧
      day + monthDays month - 2447 * (month - 2 + 12 * early month) / 80 = day ∧
      0 ≤ day - 31 + monthDays month ∧
      (day - 31 + monthDays month ≤ 364 ∨ month = 2 ∧ day = 29 ∧
        day - 31 + monthDays month = 365) := by
  unfold monthDays early
  interval_cases month <;> simp [daysIn, Leap] at day_le ⊢ <;> omega

/-- A month has no more days than it has in a leap year. -/
theorem day_le_leap (day : Day) : day.day ≤ daysIn 4 day.month := by
  refine day.day_le.trans ?_
  by_cases february : day.month = 2
  · rw [february, daysIn_february]
    split <;> decide
  · exact (daysIn_of_ne february _ _).le

/-- Only a leap year has a twenty-ninth of February. -/
theorem leap_of_day (day : Day) (month : day.month = 2) (number : day.day = 29) :
    Leap day.year := by
  by_contra common
  have bound := day.day_le
  rw [month, daysIn_february, if_neg common, number] at bound
  omega

/-- January and February are the last two months of the year of the formula. -/
theorem month_turn {month : ℕ} (month_pos : 1 ≤ month) (month_le : month ≤ 12) :
    ((month : ℤ) - 2 + 12 * early month) / 11 = early month := by
  interval_cases month <;> rfl

theorem century_eq (past : ℤ) : (146097 * past + 3) / 4 = 36525 * past - 3 * past / 4 := by
  obtain ⟨quarter, rest, rfl, rfl | rfl | rfl | rfl⟩ := exists_quarter past <;> omega

theorem fields_number (day : Day) (era : 1 ≤ day.year) :
    fields (number day) = ((day.year : ℤ), (day.month : ℤ), (day.day : ℤ)) := by
  obtain ⟨year, year_⟩ : ∃ year, year = (day.year : ℤ) + 4900 - early day.month := ⟨_, rfl⟩
  obtain ⟨n, i, split, i_pos, i_lt⟩ : ∃ n i : ℤ, year = 100 * n + i ∧ 0 ≤ i ∧ i < 100 :=
    ⟨year / 100, year % 100, by omega, by omega, by omega⟩
  have day_ : number day + 68569 =
      (146097 * n + 3) / 4 + (1461 * i / 4 + (day.day - 31 + monthDays day.month)) := by
    rw [number_eq day era, century_eq]
    have century : ((day.year : ℤ) + 4900 - early day.month) / 100 = n := by omega
    have years : 1461 * ((day.year : ℤ) + 4800 - early day.month) / 4 =
        36525 * (n - 1) + 1461 * i / 4 := by
      have shifted : (day.year : ℤ) + 4800 - early day.month = 100 * (n - 1) + i := by omega
      rw [shifted]
      omega
    unfold formula
    rw [century, years]
    ring
  obtain ⟨month_, number_, started, ended⟩ :=
    month_found day.month_pos day.month_le day.day_pos (day_le_leap day)
  obtain ⟨e, e_⟩ : ∃ e, e = (day.day : ℤ) - 31 + monthDays day.month := ⟨_, rfl⟩
  rw [← e_] at started ended day_
  have last : e ≤ 364 ∨ e = 365 ∧ i % 4 = 3 ∧ (i = 99 → 4 ∣ n) := by
    refine ended.imp_right fun leapDay => ?_
    obtain ⟨february, twentyNinth, last⟩ := leapDay
    have leap := leap_of_day day february twentyNinth
    have earlier : early 2 = 1 := rfl
    unfold Leap at leap
    rw [february, earlier] at year_
    omega
  have n_found : 4 * ((146097 * n + 3) / 4 + (1461 * i / 4 + e)) / 146097 = n := by
    have within : 1461 * i / 4 + e ≤ 36523 ∨ 1461 * i / 4 + e = 36524 ∧ 4 ∣ n := by omega
    have least : 0 ≤ 1461 * i / 4 + e := by omega
    generalize 1461 * i / 4 + e = inCentury at within least
    omega
  have i_found : 4000 * ((1461 * i / 4 + e) + 1) / 1461001 = i := by
    obtain ⟨quarter, rest, rfl, rfl | rfl | rfl | rfl⟩ := exists_quarter i <;> omega
  have e_month : (1461 * i / 4 + e) - 1461 * i / 4 + 31 = day.day + monthDays day.month := by
    omega
  have positive : 0 ≤ (146097 * n + 3) / 4 + (1461 * i / 4 + e) := by
    omega
  rw [fields_eq positive day_ n_found (by ring) i_found e_month month_, number_]
  refine Prod.ext ?_ (Prod.ext ?_ rfl)
  · show 100 * (n - 49) + i + (day.month - 2 + 12 * early day.month) / 11 = (day.year : ℤ)
    have turn : ((day.month : ℤ) - 2 + 12 * early day.month) / 11 = early day.month :=
      month_turn day.month_pos day.month_le
    omega
  · show (day.month : ℤ) - 2 + 12 * early day.month + 2 -
      12 * ((day.month - 2 + 12 * early day.month) / 11) = day.month
    rw [month_turn day.month_pos day.month_le]
    ring

/-! ### The text of a date -/

/-- A day whose year has at most four digits. -/
def Common (day : Day) : Prop := 1 ≤ day.year ∧ day.year ≤ 9999

instance : DecidablePred Common := fun day =>
  inferInstanceAs (Decidable (1 ≤ day.year ∧ day.year ≤ 9999))

/-- The text of a day. -/
def form (day : Day) : Text :=
  decimal 4 day.year ++ 0x2d :: decimal 2 day.month ++ 0x2d :: decimal 2 day.day ++ [0]

section Form

variable {day : Day}

theorem Common.fits (common : Common day) :
    day.year < 10 ^ 4 ∧ day.month < 10 ^ 2 ∧ day.day < 10 ^ 2 := by
  have month_le := day.month_le
  have day_le := day.day_le.trans (daysIn_bounds day.year day.month).2
  have year_le := common.2
  omega

theorem put_ofDay (common : Common day) : (ofDay day).put = form day := by
  obtain ⟨year_fits, month_fits, day_fits⟩ := common.fits
  have found : fields (ofDay day).julian = ((day.year : ℤ), (day.month : ℤ), (day.day : ℤ)) :=
    fields_number day common.1
  unfold put
  rw [found]
  show ZNumber.set 4 day.year ++ 0x2d :: ZNumber.set 2 day.month ++ 0x2d ::
    ZNumber.set 2 day.day ++ [0] = form day
  rw [ZNumber.set_eq_decimal year_fits, ZNumber.set_eq_decimal month_fits,
    ZNumber.set_eq_decimal day_fits]
  rfl

/-- The text of a day from its month, and from its day, on. -/
theorem drop_form (day : Day) :
    form day = decimal 4 day.year ++ 0x2d :: (decimal 2 day.month ++ 0x2d ::
      (decimal 2 day.day ++ [0])) ∧
    (form day).drop 5 = decimal 2 day.month ++ 0x2d :: (decimal 2 day.day ++ [0]) ∧
    (form day).drop 8 = decimal 2 day.day ++ [0] := ⟨rfl, rfl, rfl⟩

/-- The parts of the text of a day are read back. -/
theorem read_form (common : Common day) :
    Number.get 4 (form day) = day.year ∧ Number.get 2 ((form day).drop 5) = day.month ∧
      Number.get 2 ((form day).drop 8) = day.day ∧ atol (form day) = day.year ∧
      atol ((form day).drop 5) = day.month ∧ atol ((form day).drop 8) = day.day := by
  obtain ⟨year_fits, month_fits, day_fits⟩ := common.fits
  obtain ⟨whole, atMonth, atDay⟩ := drop_form day
  rw [atMonth, atDay, whole]
  have dash : ∀ char text, (0x2d :: text : Text).head? = some char → isdigit char = false := by
    rintro char text ⟨⟩
    rfl
  have null : ∀ char, ([0] : Text).head? = some char → isdigit char = false := by
    rintro char ⟨⟩
    rfl
  exact ⟨Number.get_decimal year_fits _ (by decide), Number.get_decimal month_fits _ (by decide),
    Number.get_decimal day_fits _ (by decide),
    atol_decimal year_fits (by decide) fun char => dash char _,
    atol_decimal month_fits (by decide) fun char => dash char _,
    atol_decimal day_fits (by decide) null⟩

/-- The size of a text is found when it is not given. -/
theorem setSized_zero (clockYear : ℤ) (str : Text) (some_ : strlen str ≠ 0) :
    setSized clockYear str 0 = setSized clockYear str (strlen str) := by
  unfold setSized
  rw [if_pos rfl, if_neg some_]

theorem zero_notMem_decimal (width value : ℕ) : 0 ∉ decimal width value := fun member =>
  ne_zero_of_isdigit (isdigit_of_mem_decimal member) rfl

/-- A day is read from its text, wherever it stands. -/
theorem form_read (common : Common day) : ∃ text, form day = text ++ [0] ∧ text.length = 10 ∧
    0 ∉ text ∧ ∀ clockYear rest, setSized clockYear (text ++ rest) 10 = ofDay day := by
  obtain ⟨year_fits, month_fits, day_fits⟩ := common.fits
  refine ⟨decimal 4 day.year ++ 0x2d :: decimal 2 day.month ++ 0x2d :: decimal 2 day.day, rfl, rfl,
    ?_, fun clockYear rest => ?_⟩
  · have dash : (0 : UInt8) ≠ 0x2d := by decide
    simp only [List.mem_append, List.mem_cons, not_or]
    exact ⟨⟨zero_notMem_decimal _ _, dash, zero_notMem_decimal _ _⟩, dash,
      zero_notMem_decimal _ _⟩
  · show set (Number.get 4 (decimal 4 day.year ++ _)) (Number.get 2 (decimal 2 day.month ++ _))
      (Number.get 2 (decimal 2 day.day ++ rest)) = _
    rw [Number.get_decimal year_fits _ (by decide), Number.get_decimal month_fits _ (by decide),
      Number.get_decimal day_fits _ (by decide)]
    rfl

/-- The text of a day is set back to its date, whatever the year of the clock. -/
theorem setText_form (clockYear : ℤ) (common : Common day) :
    setText clockYear (form day) = ofDay day := by
  obtain ⟨text, form_, length, noNull, read⟩ := form_read common
  have size : strlen (form day) = 10 := by
    rw [form_, strlen, string_append noNull, string_cons_zero, List.append_nil, length]
  rw [setText, setSized_zero _ _ (by rw [size]; decide), size, form_, read]

end Form

/-! ### Dates and days -/

/-- The first and the last day whose year has at most four digits. -/
theorem lastDay_le : 31 ≤ daysIn 9999 12 := by decide

def firstDay : Day := Day.first 1 1 (Nat.le_refl 1) (Nat.le_add_left 1 11)

def lastDay : Day :=
  ⟨9999, 12, 31, Nat.le_add_left 1 11, Nat.le_refl 12, Nat.le_add_left 1 30, lastDay_le⟩

theorem counts : Day.Counts number 1 := number_next

/-- A number from that of the first day to that of the last is the number of a day. -/
theorem exists_ofDay {date : Date} (above : number firstDay ≤ date.julian)
    (below : date.julian ≤ number lastDay) : ∃ day, Common day ∧ ofDay day = date := by
  have era : 1 ≤ firstDay.year ∧ 1 ≤ lastDay.year := by decide
  obtain ⟨day, same, least, most⟩ := counts.exists_day era.1 above below era.2
  exact ⟨day, ⟨least, most⟩, Date.ext same⟩

theorem parts_ofDay {day : Day} (common : Common day) :
    (ofDay day).year = day.year ∧ (ofDay day).month = day.month ∧ (ofDay day).day = day.day ∧
      (ofDay day).get = day.year * 10000 + day.month * 100 + day.day := by
  obtain ⟨year_, month_, day_, yearText, monthText, dayText⟩ := read_form common
  unfold year month Date.day get
  rw [put_ofDay common]
  exact ⟨year_, month_, day_, by rw [yearText, monthText, dayText]⟩

/-- A day so many days later has the date that is so many days later. -/
theorem ofDay_iterate_next {day : Day} (era : 1 ≤ day.year) (more : ℕ) :
    ofDay (Day.next^[more] day) = (ofDay day).advance more :=
  Date.ext (counts.iterate_next more era)

/-- The numbers of the days are between those of the first and the last. -/
theorem number_firstDay_le {day : Day} (era : 1 ≤ day.year) : number firstDay ≤ number day := by
  refine counts.le (by decide) fun earlier => ?_
  have start : firstDay.year = 1 ∧ firstDay.month = 1 ∧ firstDay.day = 1 := ⟨rfl, rfl, rfl⟩
  have bounds := And.intro day.month_pos day.day_pos
  unfold Day.Before at earlier
  omega

theorem number_le_lastDay {day : Day} (common : Common day) : number day ≤ number lastDay := by
  refine counts.le common.1 fun later => ?_
  have final : lastDay.year = 9999 ∧ lastDay.month = 12 ∧ lastDay.day = 31 := ⟨rfl, rfl, rfl⟩
  have bounds := And.intro day.month_le (day.day_le.trans (daysIn_bounds _ _).2)
  have year_le := common.2
  unfold Day.Before at later
  omega

theorem number_ends : number firstDay = 1721426 ∧ number lastDay = 5373484 :=
  ⟨by decide, by decide⟩

theorem dow_ofDay {day : Day} (era : 1 ≤ day.year) : (ofDay day).dow = (number day + 1) % 7 := by
  have positive := number_firstDay_le era
  rw [number_ends.1] at positive
  show (number day + 1).tmod 7 % 2 ^ 32 = _
  rw [Int.tmod_eq_emod_of_nonneg (by omega)]
  omega

/-- Dates are days of the calendar: `set` numbers the days one by one in their order, `put` and
what reads it give a day back, every number is set from what is put, and the operators go on and
back by days, which also the day of the week does. -/
structure Calendrical : Prop where
  increasing : ∀ day other, Common day → Common other → day.Before other →
    (ofDay day).julian < (ofDay other).julian
  successive : ∀ day, Common day → (ofDay day.next).julian = (ofDay day).julian + 1
  put : ∀ day, Common day → (ofDay day).put = form day
  parts : ∀ day, Common day → (ofDay day).year = day.year ∧ (ofDay day).month = day.month ∧
    (ofDay day).day = day.day ∧ (ofDay day).get = day.year * 10000 + day.month * 100 + day.day
  back : ∀ date : Date, (ofDay firstDay).julian ≤ date.julian →
    date.julian ≤ (ofDay lastDay).julian → set date.year date.month date.day = date ∧
      ∀ clockYear, setText clockYear date.put = date
  steps : ∀ day, Common day →
    (ofDay day).increment = ofDay day.next ∧ (ofDay day.next).decrement = ofDay day
  moves : ∀ day more, Common day → let later := Day.next^[more] day
    (ofDay day).advance more = ofDay later ∧ (ofDay day).retreat (-more) = ofDay later ∧
      (ofDay later).retreat more = ofDay day ∧ (ofDay later).advance (-more) = ofDay day
  week : ∀ day, Common day → 0 ≤ (ofDay day).dow ∧ (ofDay day).dow < 7 ∧
    (ofDay day.next).dow = ((ofDay day).dow + 1) % 7

/-- Dates are days of the calendar from the year 1 to the year 9999. -/
theorem date_calendrical : Calendrical where
  increasing day other common _ before := counts.lt common.1 before
  successive day common := number_next day common.1
  put day common := put_ofDay common
  parts day common := parts_ofDay common
  back date above below := by
    obtain ⟨day, common, rfl⟩ := exists_ofDay above below
    obtain ⟨year_, month_, day_, _⟩ := parts_ofDay common
    rw [year_, month_, day_]
    refine ⟨rfl, fun clockYear => ?_⟩
    rw [put_ofDay common, setText_form clockYear common]
  steps day common := by
    have next_ : (ofDay day.next).julian = (ofDay day).julian + 1 := number_next day common.1
    refine ⟨Date.ext next_.symm, Date.ext ?_⟩
    show (ofDay day.next).julian - 1 = _
    rw [next_, add_sub_cancel_right]
  moves day more common := by
    have later := ofDay_iterate_next common.1 more
    refine ⟨later.symm, ?_, ?_, ?_⟩
    · rw [later]
      exact Date.ext (sub_neg_eq_add _ _)
    · rw [later]
      exact Date.ext (add_sub_cancel_right _ _)
    · rw [later]
      exact Date.ext (add_neg_cancel_right _ _)
  week day common := by
    have later : 1 ≤ day.next.year := common.1.trans (Day.year_le_next day)
    rw [dow_ofDay common.1, dow_ofDay later, number_next day common.1]
    omega

example : (ofDay ⟨2003, 1, 6, by decide, by decide, by decide, by decide⟩).dow = 1 := by decide

end Date

end CommonCpp
