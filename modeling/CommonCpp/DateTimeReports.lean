/-
This file settles which texts that are not those of a date and a time are reported, by a `DateTime`
that is not valid.

A text is told from its length. One that has another length leaves the time of the clock, which is
valid. In one that has the length of a layout, a number is read from each field, and the numbers
are compared with their bounds. A field is read up to the first character that is no digit, and a
sign before it counts; what is between the fields is not looked at. So a text with a letter for a
digit is not reported as long as the numbers are within their bounds, and neither is a negative
hour, or the thirty-first of February.

The clock shows valid fields and a year of the years 1 to 9999.
-/

import CommonCpp.DateTimeText

namespace CommonCpp

open Bytes Ctype Gregorian

/-! ### The code -/

namespace Time

def hour (time : Time) : ℤ := if time.seconds = -1 then -1 else time.seconds.tdiv 3600

def minute (time : Time) : ℤ :=
  if time.seconds = -1 then -1 else (time.seconds.tdiv 60).tmod 60

def second (time : Time) : ℤ := if time.seconds = -1 then -1 else time.seconds.tmod 60

end Time

/-! ### The layouts -/

/-- The numbers of a date and a time. -/
@[ext]
structure Numbers where
  year : ℤ
  month : ℤ
  day : ℤ
  hour : ℤ
  minute : ℤ
  second : ℤ

/-- How many characters of a text are those of its year, and where the fields of the other numbers
start. -/
structure Layout where
  year : ℕ
  month : ℕ
  day : ℕ
  hour : ℕ
  minute : ℕ
  second : Option ℕ
  deriving DecidableEq

namespace Layout

/-- The layout of a text, by its length. -/
def ofText (t : Text) : Option Layout :=
  if t.length = 11 then some ⟨0, 0, 3, 6, 9, none⟩
  else if t.length = 14 then
    some (if Date.Digits t then ⟨4, 4, 6, 9, 12, none⟩ else ⟨2, 3, 6, 9, 12, none⟩)
  else if t.length = 17 then
    some (if Date.Digits t then ⟨4, 4, 6, 9, 12, some 15⟩ else ⟨2, 3, 6, 9, 12, some 15⟩)
  else if t.length = 19 then some ⟨4, 5, 8, 11, 14, some 17⟩
  else none

variable (layout : Layout)

/-- Where the digits stand. -/
def places : List ℕ :=
  List.range layout.year ++ [layout.month, layout.month + 1, layout.day, layout.day + 1,
    layout.hour, layout.hour + 1, layout.minute, layout.minute + 1] ++
    layout.second.elim [] fun second => [second, second + 1]

/-- The numbers that are read from the fields. The clock tells the year when there is none, and the
century of one with two characters. -/
def numbers (clockYear : ℤ) (read : ℕ → Text → ℤ) (t : Text) : Numbers where
  year :=
    if layout.year = 0 then clockYear
    else if layout.year = 2 then clockYear.tdiv 100 * 100 + read 2 t
    else read 4 t
  month := read 2 (t.drop layout.month)
  day := read 2 (t.drop layout.day)
  hour := read 2 (t.drop layout.hour)
  minute := read 2 (t.drop layout.minute)
  second := layout.second.elim 0 fun second => read 2 (t.drop second)

/-- All of the places have digits. -/
def Filled (t : Text) : Prop := ∀ place ∈ layout.places, isdigit (t.getD place 0) = true

/-- The number that the digits of a field stand for. -/
def value (size : ℕ) (t : Text) : ℤ :=
  (t.take size).foldl (fun number char => number * 10 + (char.toNat - 0x30)) 0

/-- The numbers that the text shows in its digits. -/
def shown (clockYear : ℤ) (t : Text) : Numbers := layout.numbers clockYear value t

end Layout

/-- Month, day, hour, minute and second are within their bounds. -/
structure Numbers.InRange (numbers : Numbers) : Prop where
  month : 1 ≤ numbers.month ∧ numbers.month ≤ 12
  day : 1 ≤ numbers.day ∧ numbers.day ≤ 31
  hour : 0 ≤ numbers.hour ∧ numbers.hour ≤ 23
  minute : 0 ≤ numbers.minute ∧ numbers.minute ≤ 59
  second : 0 ≤ numbers.second ∧ numbers.second ≤ 59

/-- The numbers that a value holds. -/
def DateTime.numbers (datetime : DateTime) : Numbers where
  year := datetime.toDate.year
  month := datetime.toDate.month
  day := datetime.toDate.day
  hour := datetime.toTime.hour
  minute := datetime.toTime.minute
  second := datetime.toTime.second

/-- A text is reported unless it has a layout, digits in its places, numbers within their bounds,
and the value holds them. -/
def DateTime.Reports (clock : Clock) (a_str : Text) : Prop :=
  let datetime := ofText clock a_str 0
  let clockYear := (clock.localtime clock.time).tm_year + 1900
  datetime.IsValid → ∃ layout, Layout.ofText (string a_str) = some layout ∧
    layout.Filled (string a_str) ∧ (layout.shown clockYear (string a_str)).InRange ∧
    datetime.numbers = layout.shown clockYear (string a_str)

/-- The numbers are refused: one of them is beyond the bounds that the code compares with, or the
seconds are those of a time that is not valid. -/
def Numbers.Refused (numbers : Numbers) : Prop :=
  (numbers.month < 1 ∨ numbers.month > 12 ∨ numbers.day < 1 ∨ numbers.day > 31 ∨
    numbers.year = 0) ∨
  (numbers.minute > 59 ∨ numbers.second > 59 ∨ numbers.hour > 23) ∨
  3600 * numbers.hour + 60 * numbers.minute + numbers.second = -1

instance (numbers : Numbers) : Decidable numbers.Refused :=
  inferInstanceAs (Decidable ((_ ∨ _ ∨ _ ∨ _ ∨ _) ∨ (_ ∨ _ ∨ _) ∨ _))

/-- The month has the day. -/
def Numbers.HasDay (numbers : Numbers) : Prop :=
  numbers.day ≤ daysIn numbers.year.toNat numbers.month.toNat

/-! ### What is made of the numbers -/

namespace Numbers

variable {numbers : Numbers}

/-- The value that is set from numbers. -/
def make (numbers : Numbers) : DateTime :=
  ⟨Date.set numbers.year numbers.month numbers.day,
    Time.set numbers.hour numbers.minute numbers.second⟩

/-- The number of a date in these years is far from that of one that is not valid. -/
theorem set_valid_iff {year month day : ℤ} (least : -1000 ≤ year) (most : year ≤ 9999) :
    (Date.set year month day).IsValid ↔
      ¬ (month < 1 ∨ month > 12 ∨ day < 1 ∨ day > 31 ∨ year = 0) := by
  unfold Date.IsValid Date.set
  split
  next refused => exact iff_of_false (not_not.mpr rfl) (not_not.mpr refused)
  next accepted =>
    refine iff_of_true ?_ accepted
    obtain ⟨shifted, shifted_⟩ : ∃ shifted, shifted = if year < 0 then year - 1 else year :=
      ⟨_, rfl⟩
    have bounds : -1001 ≤ shifted ∧ shifted ≤ 9999 := by
      rw [shifted_]
      split <;> omega
    dsimp only
    rw [← shifted_]
    have turn := tdiv_bounds (month - 14) (by decide : (0 : ℤ) < 12)
    generalize (month - 14).tdiv 12 = turns at *
    have years := tdiv_bounds (1461 * (shifted + 4800 + turns)) (by decide : (0 : ℤ) < 4)
    have months := tdiv_bounds (367 * (month - 2 - turns * 12)) (by decide : (0 : ℤ) < 12)
    have past := tdiv_bounds (shifted + 4900 + turns) (by decide : (0 : ℤ) < 100)
    have centuries := tdiv_bounds (3 * (shifted + 4900 + turns).tdiv 100)
      (by decide : (0 : ℤ) < 4)
    unfold Date.invalid
    omega

theorem time_valid_iff {hour minute second : ℤ} : (Time.set hour minute second).IsValid ↔
    ¬ ((minute > 59 ∨ second > 59 ∨ hour > 23) ∨ 3600 * hour + 60 * minute + second = -1) := by
  unfold Time.IsValid Time.set
  split
  next refused => exact iff_of_false (not_not.mpr rfl) (not_not.mpr (Or.inl refused))
  next accepted => exact not_congr (or_iff_right accepted).symm

theorem make_valid_iff (least : -1000 ≤ numbers.year) (most : numbers.year ≤ 9999) :
    numbers.make.IsValid ↔ ¬ numbers.Refused := by
  unfold Refused
  rw [not_or]
  exact and_congr (set_valid_iff least most) time_valid_iff

end Numbers

/-! ### A text with a layout -/

/-- What is read before the null of a text is read from the text. -/
theorem read_text {size place : ℕ} {t : Text} (some_ : 0 < size)
    (within : place + size ≤ t.length) :
    Number.get size ((t ++ [0]).drop place) = Number.get size (t.drop place) := by
  have read := Number.get_drop_take within some_ (t ++ [0])
  rwa [List.take_left, eq_comm] at read

theorem Time.setText_five (str : Text) (place : ℕ) : setText (str.drop place) 5 =
    set (Number.get 2 (str.drop place)) (Number.get 2 (str.drop (place + 3))) 0 := by
  rw [← List.drop_drop]
  rfl

theorem Time.setText_eight (str : Text) (place : ℕ) : setText (str.drop place) 8 =
    set (Number.get 2 (str.drop place)) (Number.get 2 (str.drop (place + 3)))
      (Number.get 2 (str.drop (place + 6))) := by
  rw [← List.drop_drop, ← List.drop_drop]
  rfl

theorem digits_text {t : Text} (within : 6 ≤ t.length) :
    Date.Digits (t ++ [0]) ↔ Date.Digits t := by
  unfold Date.Digits
  rw [List.drop_append_of_le_length (by omega), List.drop_append_of_le_length (by omega),
    List.head?_append_of_ne_nil _ (List.ne_nil_of_length_pos (by rw [List.length_drop]; omega)),
    List.head?_append_of_ne_nil _ (List.ne_nil_of_length_pos (by rw [List.length_drop]; omega))]

/-- A date is read from eight characters. -/
theorem Date.setSized_eight_text (clockYear : ℤ) {t : Text} (within : 8 ≤ t.length) :
    setSized clockYear (t ++ [0]) 8 =
      if Digits t then
        set (Number.get 4 t) (Number.get 2 (t.drop 4)) (Number.get 2 (t.drop 6))
      else
        set (clockYear.tdiv 100 * 100 + Number.get 2 t) (Number.get 2 (t.drop 3))
          (Number.get 2 (t.drop 6)) := by
  have four := @read_text 4 0 t (by decide) (by omega)
  have two := @read_text 2 0 t (by decide) (by omega)
  rw [List.drop_zero, List.drop_zero] at four two
  rw [setSized_eight, four, two, read_text (by decide) (by omega), read_text (by decide) (by omega),
    read_text (by decide) (by omega)]
  exact if_congr (digits_text (by omega)) rfl rfl

/-- What is made of a text with a layout is made of the numbers in its fields. -/
theorem ofText_of_layout (clock : Clock) {a_str : Text} {layout : Layout}
    (layout_ : Layout.ofText (string a_str) = some layout) :
    DateTime.ofText clock a_str 0 =
      (layout.numbers ((clock.localtime clock.time).tm_year + 1900) Number.get
        (string a_str)).make := by
  have read := DateTime.ofText_eq clock a_str
  dsimp only at read
  rw [read, strlen]
  clear read
  generalize string a_str = t at layout_ ⊢
  generalize (clock.localtime clock.time).tm_year + 1900 = clockYear
  unfold Layout.ofText at layout_
  have field : ∀ place, place + 2 ≤ t.length →
      Number.get 2 ((t ++ [0]).drop place) = Number.get 2 (t.drop place) :=
    fun place within => read_text (by decide) within
  by_cases eleven : t.length = 11
  · rw [if_pos eleven] at layout_ ⊢
    cases layout_
    have date : Date.setSized clockYear (t ++ [0]) 5 = Date.set clockYear
        (Number.get 2 ((t ++ [0]).drop 0)) (Number.get 2 ((t ++ [0]).drop 3)) := rfl
    rw [date, Time.setText_five, field 0 (by omega), field 3 (by omega), field 6 (by omega),
      field 9 (by omega)]
    rfl
  rw [if_neg eleven] at layout_ ⊢
  by_cases fourteen : t.length = 14
  · rw [if_pos fourteen] at layout_ ⊢
    cases layout_
    rw [Date.setSized_eight_text _ (by omega), Time.setText_five, field 9 (by omega),
      field 12 (by omega)]
    by_cases digits : Date.Digits t
    · rw [if_pos digits, if_pos digits]
      rfl
    · rw [if_neg digits, if_neg digits]
      rfl
  rw [if_neg fourteen] at layout_ ⊢
  by_cases seventeen : t.length = 17
  · rw [if_pos seventeen] at layout_ ⊢
    cases layout_
    rw [Date.setSized_eight_text _ (by omega), Time.setText_eight, field 9 (by omega),
      field 12 (by omega), field 15 (by omega)]
    by_cases digits : Date.Digits t
    · rw [if_pos digits, if_pos digits]
      rfl
    · rw [if_neg digits, if_neg digits]
      rfl
  rw [if_neg seventeen] at layout_ ⊢
  by_cases nineteen : t.length = 19
  · rw [if_pos nineteen] at layout_ ⊢
    cases layout_
    have date : Date.setSized clockYear (t ++ [0]) 10 = Date.set (Number.get 4 ((t ++ [0]).drop 0))
        (Number.get 2 ((t ++ [0]).drop 5)) (Number.get 2 ((t ++ [0]).drop 8)) := rfl
    rw [date, Time.setText_eight, read_text (by decide) (by omega), field 5 (by omega),
      field 8 (by omega), field 11 (by omega), field 14 (by omega), field 17 (by omega)]
    rfl
  · rw [if_neg nineteen] at layout_
    cases layout_

/-- What is made of a text without a layout is the time of the clock. -/
theorem ofText_of_none (clock : Clock) {a_str : Text}
    (none_ : Layout.ofText (string a_str) = none) :
    DateTime.ofText clock a_str 0 = DateTime.ofTm (clock.localtime clock.time) := by
  have read := DateTime.ofText_eq clock a_str
  dsimp only at read
  rw [read, strlen]
  clear read
  generalize string a_str = t at none_ ⊢
  unfold Layout.ofText at none_
  split at none_
  next => cases none_
  next eleven =>
    split at none_
    next => cases none_
    next fourteen =>
      split at none_
      next => cases none_
      next seventeen =>
        split at none_
        next => cases none_
        next nineteen =>
          rw [if_neg eleven, if_neg fourteen, if_neg seventeen, if_neg nineteen]

/-! ### Fields of digits -/

/-- Digits are read to their end. -/
theorem getLoop_digits {size : ℕ} {t : Text} (digits : ∀ char ∈ t.take size, isdigit char = true)
    (ret : ℤ) : Number.getLoop size t ret =
      (t.take size).foldl (fun (number : ℤ) char => number * 10 + (char.toNat - 0x30)) ret := by
  induction size generalizing t ret with
  | zero => rfl
  | succ size inductionHypothesis =>
    cases t with
    | nil => rfl
    | cons char t =>
      rw [List.take_succ_cons] at digits ⊢
      rw [Number.getLoop, if_pos (digits char List.mem_cons_self), List.foldl_cons]
      exact inductionHypothesis (fun char member => digits char (List.mem_cons_of_mem _ member)) _

/-- What is read from a field of digits is the number that it shows. -/
theorem get_digits {size : ℕ} {t : Text} (some_ : 0 < size)
    (digits : ∀ char ∈ t.take size, isdigit char = true) :
    Number.get size t = Layout.value size t := by
  have unsigned : ¬ Number.Signed t := by
    obtain ⟨size, rfl⟩ := Nat.exists_eq_succ_of_ne_zero some_.ne'
    cases t with
    | nil => rintro (head | head) <;> cases head
    | cons char t =>
      have digit_ := digits char List.mem_cons_self
      rintro (head | head)
      · cases head
        exact absurd digit_ (by decide)
      · cases head
        exact absurd digit_ (by decide)
  rw [Number.get_unsigned unsigned, getLoop_digits digits]
  rfl

/-- The number that a field of digits shows is not negative. -/
theorem value_nonneg {size : ℕ} {t : Text} (digits : ∀ char ∈ t.take size, isdigit char = true) :
    0 ≤ Layout.value size t := by
  have bounds := Number.getLoop_bounds size t le_rfl
  rw [getLoop_digits digits] at bounds
  exact bounds.1

/-- The characters of a field are those at its places. -/
theorem digits_of_places {place size : ℕ} {t : Text}
    (digits : ∀ k < size, isdigit (t.getD (place + k) 0) = true) :
    ∀ char ∈ (t.drop place).take size, isdigit char = true := by
  intro char member
  obtain ⟨k, inside, rfl⟩ := List.mem_iff_getElem.mp member
  rw [List.length_take, List.length_drop] at inside
  have digit_ := digits k (by omega)
  rw [List.getElem_take, List.getElem_drop]
  rwa [List.getD_eq_getElem?_getD, List.getElem?_eq_getElem (by omega)] at digit_

namespace Layout

variable {layout : Layout} {clockYear : ℤ} {t : Text}

theorem year_cases (layout_ : ofText t = some layout) :
    layout.year = 0 ∨ layout.year = 2 ∨ layout.year = 4 := by
  unfold ofText at layout_
  repeat' split at layout_
  all_goals cases layout_ <;> decide

/-- The digits of a field of two characters. -/
theorem Filled.pair (filled : layout.Filled t) {place : ℕ} (first : place ∈ layout.places)
    (second : place + 1 ∈ layout.places) :
    ∀ char ∈ (t.drop place).take 2, isdigit char = true :=
  digits_of_places fun k less => by
    rcases Nat.le_one_iff_eq_zero_or_eq_one.mp (Nat.le_of_lt_succ less) with rfl | rfl
    · exact filled place first
    · exact filled (place + 1) second

/-- The digits of the year. -/
theorem Filled.start (filled : layout.Filled t) :
    ∀ char ∈ t.take layout.year, isdigit char = true := by
  have digits := @digits_of_places 0 layout.year t fun k less => by
    rw [Nat.zero_add]
    refine filled k (List.mem_append_left _ (List.mem_append_left _ ?_))
    exact List.mem_range.mpr less
  rwa [List.drop_zero] at digits

theorem Filled.second (filled : layout.Filled t) {place : ℕ}
    (second_ : layout.second = some place) :
    ∀ char ∈ (t.drop place).take 2, isdigit char = true := by
  refine filled.pair ?_ ?_
  · exact List.mem_append_right _ (by rw [second_]; exact List.mem_cons_self)
  · exact List.mem_append_right _ (by
      rw [second_]
      exact List.mem_cons_of_mem _ List.mem_cons_self)

/-- The fields that every layout has are of digits. -/
theorem Filled.fields (filled : layout.Filled t) :
    (∀ char ∈ (t.drop layout.month).take 2, isdigit char = true) ∧
    (∀ char ∈ (t.drop layout.day).take 2, isdigit char = true) ∧
    (∀ char ∈ (t.drop layout.hour).take 2, isdigit char = true) ∧
    ∀ char ∈ (t.drop layout.minute).take 2, isdigit char = true := by
  refine ⟨filled.pair ?_ ?_, filled.pair ?_ ?_, filled.pair ?_ ?_, filled.pair ?_ ?_⟩ <;>
    exact List.mem_append_left _ (List.mem_append_right _ (by simp))

/-- In a text with its digits, the numbers that are read are those that it shows. -/
theorem Filled.numbers_eq (filled : layout.Filled t) (layout_ : ofText t = some layout) :
    layout.numbers clockYear Number.get t = layout.shown clockYear t := by
  obtain ⟨month, day, hour, minute⟩ := filled.fields
  have year := filled.start
  refine Numbers.ext ?_ (get_digits (by decide) month) (get_digits (by decide) day)
    (get_digits (by decide) hour) (get_digits (by decide) minute) ?_
  · show ite _ _ _ = ite _ _ _
    rcases year_cases layout_ with none_ | two | four
    · rw [if_pos none_, if_pos none_]
    · rw [two] at year ⊢
      rw [get_digits (by decide) year]
      rfl
    · rw [four] at year ⊢
      rw [get_digits (by decide) year]
      rfl
  · show Option.elim _ _ _ = Option.elim _ _ _
    cases second_ : layout.second with
    | none => rfl
    | some place => exact get_digits (by decide) (filled.second second_)

/-- The numbers that a text shows in its digits are not negative. -/
theorem Filled.nonneg (filled : layout.Filled t) (layout_ : ofText t = some layout)
    (era : 0 ≤ clockYear) :
    0 ≤ (layout.shown clockYear t).year ∧ 0 ≤ (layout.shown clockYear t).hour ∧
      0 ≤ (layout.shown clockYear t).minute ∧ 0 ≤ (layout.shown clockYear t).second := by
  obtain ⟨-, -, hour, minute⟩ := filled.fields
  have year := filled.start
  refine ⟨?_, value_nonneg hour, value_nonneg minute, ?_⟩
  · show 0 ≤ ite _ _ _
    rcases year_cases layout_ with none_ | two | four
    · rwa [if_pos none_]
    · rw [two] at year ⊢
      have shown_ := value_nonneg year
      rw [if_neg (by decide), if_pos rfl, Int.tdiv_eq_ediv_of_nonneg era]
      omega
    · rw [four] at year ⊢
      exact value_nonneg year
  · show 0 ≤ Option.elim _ _ _
    cases second_ : layout.second with
    | none => exact le_rfl
    | some place => exact value_nonneg (filled.second second_)

/-- The year that is read has at most four digits. -/
theorem year_bounds (layout : Layout) (t : Text) (era : 1 ≤ clockYear ∧ clockYear ≤ 9999) :
    -1000 ≤ (layout.numbers clockYear Number.get t).year ∧
      (layout.numbers clockYear Number.get t).year ≤ 9999 := by
  have short : -10 ^ 1 < Number.get 2 t ∧ Number.get 2 t < 10 ^ 2 := Number.get_bounds 1 t
  have long : -10 ^ 3 < Number.get 4 t ∧ Number.get 4 t < 10 ^ 4 := Number.get_bounds 3 t
  show -1000 ≤ ite _ _ _ ∧ ite _ _ _ ≤ 9999
  rw [Int.tdiv_eq_ediv_of_nonneg (by omega)]
  split
  · omega
  · split <;> omega

end Layout

/-! ### The value that is made -/

/-- Days that a month has not are counted on from its first. -/
theorem Date.set_julian {year month day : ℕ} (year_pos : 1 ≤ year) (month_pos : 1 ≤ month)
    (month_le : month ≤ 12) (day_pos : 1 ≤ day) (day_le : day ≤ 31) :
    (set year month day).julian = number (Day.first year month month_pos month_le) + (day - 1) := by
  rw [set_eq_formula year_pos month_pos month_le day_pos day_le, number_eq _ year_pos]
  show formula year month day = formula year month 1 + (day - 1)
  unfold formula
  push_cast
  ring

/-- Numbers within their bounds make a day of these years, which may be in the month after. -/
theorem Date.exists_ofDay_set {year month day : ℕ} (era : 1 ≤ year ∧ year ≤ 9999)
    (month_pos : 1 ≤ month) (month_le : month ≤ 12) (day_pos : 1 ≤ day) (day_le : day ≤ 31) :
    ∃ found, Common found ∧ ofDay found = set year month day := by
  by_cases inside : day ≤ daysIn year month
  · exact ⟨⟨year, month, day, month_pos, month_le, day_pos, inside⟩, era, rfl⟩
  have first := set_julian era.1 month_pos month_le day_pos day_le
  have above : number firstDay ≤ number (Day.first year month month_pos month_le) :=
    number_firstDay_le era.1
  have short : month ≤ 11 := by
    by_contra december
    have last : month = 12 := by omega
    rw [last] at inside
    exact inside day_le
  -- The month is not later than the last November.
  have below : number (Day.first year month month_pos month_le) ≤
      number (Day.first 9999 11 (by decide) (by decide)) := by
    refine counts.le era.1 fun later => ?_
    have fields_ : (Day.first year month month_pos month_le).year = year ∧
        (Day.first year month month_pos month_le).month = month ∧
        (Day.first year month month_pos month_le).day = 1 := ⟨rfl, rfl, rfl⟩
    have november : (Day.first 9999 11 (by decide) (by decide)).year = 9999 ∧
        (Day.first 9999 11 (by decide) (by decide)).month = 11 ∧
        (Day.first 9999 11 (by decide) (by decide)).day = 1 := ⟨rfl, rfl, rfl⟩
    unfold Day.Before at later
    omega
  have ends : number (Day.first 9999 11 (by decide) (by decide)) + 30 ≤ number lastDay := by decide
  exact exists_ofDay (by omega) (by omega)

/-- A time of the day holds the numbers that it is made of. -/
theorem Time.parts_set {hour minute second : ℤ} (hourRange : 0 ≤ hour ∧ hour ≤ 23)
    (minuteRange : 0 ≤ minute ∧ minute ≤ 59) (secondRange : 0 ≤ second ∧ second ≤ 59) :
    (set hour minute second).hour = hour ∧ (set hour minute second).minute = minute ∧
      (set hour minute second).second = second := by
  have accepted : ¬ (minute > 59 ∨ second > 59 ∨ hour > 23) := by omega
  have some_ : ¬ 3600 * hour + 60 * minute + second = -1 := by omega
  have positive : 0 ≤ 3600 * hour + 60 * minute + second := by omega
  rw [set, if_neg accepted]
  unfold Time.hour Time.minute Time.second
  dsimp only
  rw [if_neg some_, if_neg some_, if_neg some_, Int.tdiv_eq_ediv_of_nonneg positive,
    Int.tdiv_eq_ediv_of_nonneg positive, Int.tmod_eq_emod_of_nonneg positive,
    Int.tmod_eq_emod_of_nonneg (by omega)]
  omega

namespace Numbers

variable {numbers : Numbers}

/-- A value holds the numbers that it is made of exactly when the month has the day. -/
theorem make_numbers_iff (era : 1 ≤ numbers.year ∧ numbers.year ≤ 9999)
    (inRange : numbers.InRange) : numbers.make.numbers = numbers ↔ numbers.HasDay := by
  obtain ⟨year, month, day, hour, minute, second⟩ := numbers
  obtain ⟨monthRange, dayRange, hourRange, minuteRange, secondRange⟩ := inRange
  dsimp only at era monthRange dayRange hourRange minuteRange secondRange
  obtain ⟨hour_, minute_, second_⟩ := Time.parts_set hourRange minuteRange secondRange
  obtain ⟨year, rfl⟩ := Int.eq_ofNat_of_zero_le (by omega : 0 ≤ year)
  obtain ⟨month, rfl⟩ := Int.eq_ofNat_of_zero_le (by omega : 0 ≤ month)
  obtain ⟨day, rfl⟩ := Int.eq_ofNat_of_zero_le (by omega : 0 ≤ day)
  obtain ⟨found, common, found_⟩ := @Date.exists_ofDay_set year month day (by omega) (by omega)
    (by omega) (by omega) (by omega)
  obtain ⟨yearFound, monthFound, dayFound, -⟩ := Date.parts_ofDay common
  have held : (make ⟨year, month, day, hour, minute, second⟩).numbers =
      ⟨found.year, found.month, found.day, hour, minute, second⟩ := by
    show (⟨(Date.set year month day).year, (Date.set year month day).month,
      (Date.set year month day).day, (Time.set hour minute second).hour,
      (Time.set hour minute second).minute, (Time.set hour minute second).second⟩ : Numbers) = _
    rw [hour_, minute_, second_, ← found_, yearFound, monthFound, dayFound]
  rw [held, HasDay]
  constructor
  · intro same
    have dayIn := found.day_le
    have yearSame : (found.year : ℤ) = year := congrArg Numbers.year same
    have monthSame : (found.month : ℤ) = month := congrArg Numbers.month same
    have daySame : (found.day : ℤ) = day := congrArg Numbers.day same
    rw [Nat.cast_inj.mp yearSame, Nat.cast_inj.mp monthSame, Nat.cast_inj.mp daySame] at dayIn
    exact Nat.cast_le.mpr dayIn
  · intro inside
    have inside_ : day ≤ daysIn year month := Nat.cast_le.mp inside
    have same : found = ⟨year, month, day, by omega, by omega, by omega, inside_⟩ :=
      Date.counts.injective common.1 (by show 1 ≤ year; omega) (congrArg Date.julian found_)
    rw [same]

end Numbers

/-! ### Reports -/

/-- The clock shows valid fields, and a year of four digits. -/
structure Clock.Current (clock : Clock) : Prop where
  valid : (clock.localtime clock.time).Valid
  era : 1 ≤ (clock.localtime clock.time).tm_year + 1900 ∧
    (clock.localtime clock.time).tm_year + 1900 ≤ 9999

/-- The time of the clock is valid. -/
theorem Clock.Current.isValid {clock : Clock} (current : clock.Current) :
    (DateTime.ofTm (clock.localtime clock.time)).IsValid := by
  have era := current.era
  have month := current.valid.mon
  have day := current.valid.mday
  have days := (daysIn_bounds ((clock.localtime clock.time).tm_year + 1900).toNat
    ((clock.localtime clock.time).tm_mon + 1).toNat).2
  have hour := current.valid.hour
  have minute := current.valid.min
  have second := current.valid.sec
  refine ⟨(Numbers.set_valid_iff (by omega) era.2).mpr (by omega),
    Numbers.time_valid_iff.mpr (by omega)⟩

/-- A text is reported as it should be exactly when it has a layout, and its numbers are refused, or
its places have digits and its month has its day. -/
theorem DateTime.reports_iff {clock : Clock} (current : clock.Current) (a_str : Text) :
    Reports clock a_str ↔ ∃ layout, Layout.ofText (string a_str) = some layout ∧
      let clockYear := (clock.localtime clock.time).tm_year + 1900
      ((layout.numbers clockYear Number.get (string a_str)).Refused ∨
        layout.Filled (string a_str) ∧ (layout.shown clockYear (string a_str)).HasDay) := by
  unfold Reports
  dsimp only
  cases layout_ : Layout.ofText (string a_str) with
  | none =>
    rw [ofText_of_none clock layout_]
    refine iff_of_false (fun reports => ?_) (by rintro ⟨layout, ⟨⟩, _⟩)
    obtain ⟨layout, none_, -⟩ := reports current.isValid
    cases none_
  | some layout =>
    have era := current.era
    obtain ⟨least, most⟩ := layout.year_bounds (string a_str) era
    rw [ofText_of_layout clock layout_, Numbers.make_valid_iff least most]
    generalize (clock.localtime clock.time).tm_year + 1900 = clockYear at era least most ⊢
    generalize string a_str = t at layout_ least most ⊢
    by_cases refused : (layout.numbers clockYear Number.get t).Refused
    · exact iff_of_true (fun accepted => absurd refused accepted) ⟨layout, rfl, Or.inl refused⟩
    -- What is accepted in a text of digits is within all bounds.
    have holds : layout.Filled t → (layout.shown clockYear t).InRange ∧
        ((layout.numbers clockYear Number.get t).make.numbers = layout.shown clockYear t ↔
          (layout.shown clockYear t).HasDay) := by
      intro filled
      obtain ⟨yearPos, hourPos, minutePos, secondPos⟩ :=
        filled.nonneg layout_ (zero_le_one.trans era.1)
      have accepted := refused
      rw [filled.numbers_eq layout_] at accepted most ⊢
      unfold Numbers.Refused at accepted
      have inRange : (layout.shown clockYear t).InRange := by
        constructor <;> omega
      exact ⟨inRange, Numbers.make_numbers_iff (by omega) inRange⟩
    constructor
    · intro reports
      obtain ⟨_, ⟨⟩, filled, -, held⟩ := reports refused
      exact ⟨layout, rfl, Or.inr ⟨filled, (holds filled).2.mp held⟩⟩
    · rintro ⟨_, ⟨⟩, refused_ | ⟨filled, hasDay⟩⟩ -
      · exact absurd refused_ refused
      · exact ⟨layout, rfl, filled, (holds filled).1, (holds filled).2.mpr hasDay⟩

theorem utc_current : (utc 0).Current :=
  ⟨(utc_lawful 0).valid 0, by decide +kernel⟩

/-- The first midnight of the year 2000, as a text of nineteen characters. -/
theorem DateTime.reports_iff_midnight : Reports (utc 0)
    [0x32, 0x30, 0x30, 0x30, 0x2d, 0x30, 0x31, 0x2d, 0x30, 0x31, 0x20, 0x30, 0x30, 0x3a, 0x30, 0x30,
      0x3a, 0x30, 0x30, 0] :=
  (reports_iff utc_current _).mpr ⟨⟨4, 5, 8, 11, 14, some 17⟩, by decide, Or.inr ⟨by
    unfold Layout.Filled
    decide, by
    unfold Numbers.HasDay
    decide⟩⟩

/-- The text `noon` is not reported. -/
theorem DateTime.noon_not_reported : ¬ Reports (utc 0) [0x6e, 0x6f, 0x6f, 0x6e, 0] := by
  intro reports
  obtain ⟨layout, none_, -⟩ := reports (by decide +kernel)
  have missing : Layout.ofText (string [0x6e, 0x6f, 0x6f, 0x6e, 0]) = none := by decide
  rw [missing] at none_
  cases none_

end CommonCpp
