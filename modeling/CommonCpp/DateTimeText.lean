/-
This file models the texts of dates and times, and settles which of them are read back to what
they were put from.

The text of a date has a field for each of its numbers, and so has that of a time. A date of the
years 1 to 9999 fills its fields with digits, and is read back, with the dashes in its text and
without them. A time of the day does so too. But `set` refuses large hours, minutes and seconds
only, and none that are negative, so that a time may be a negative number of seconds. The numbers
in its text are then negative as well, and a field of two characters has one for the sign.

Where a `DateTime` is made from a text that has not one of the lengths, the constructors of its
bases have set it to the time of the clock.
-/

import CommonCpp.LocalTime
import CommonCpp.NumberFields

namespace CommonCpp

open Bytes Ctype Gregorian

/-! ### The code -/

namespace Date

def IsValid (date : Date) : Prop := date.julian ≠ invalid

instance (date : Date) : Decidable date.IsValid := inferInstanceAs (Decidable (_ ≠ _))

end Date

namespace Time

/-- `set(const char *, size_t)`. -/
def setText (str : Text) (size : ℕ) : Time :=
  let size := if size = 0 then strlen str else size
  if size = 5 then set (Number.get 2 str) (Number.get 2 (str.drop 3)) 0
  else if size = 8 then
    let sec := Number.get 2 (str.drop 6)
    set (Number.get 2 str) (Number.get 2 (str.drop 3)) sec
  else ⟨-1⟩

def IsValid (time : Time) : Prop := time.seconds ≠ -1

instance (time : Time) : Decidable time.IsValid := inferInstanceAs (Decidable (_ ≠ _))

end Time

/-- `strncpy`, into a memory of this size. -/
def strncpy (src : Text) (size : ℕ) : Text :=
  let copied := (string src).take size
  copied ++ List.replicate (size - copied.length) 0

namespace DateTime

/-- The constructor from a text. -/
def ofText (clock : Clock) (a_str : Text) (size : ℕ) : DateTime :=
  let size := if size = 0 then strlen a_str else size
  let str := strncpy a_str size ++ [0]
  let dt := clock.localtime clock.time
  let clockYear := dt.tm_year + 1900
  if size = 11 then ⟨Date.setSized clockYear str 5, Time.setText (str.drop 6) 5⟩
  else if size = 14 then ⟨Date.setSized clockYear str 8, Time.setText (str.drop 9) 5⟩
  else if size = 17 then ⟨Date.setSized clockYear str 8, Time.setText (str.drop 9) 8⟩
  else if size = 19 then ⟨Date.setSized clockYear str 10, Time.setText (str.drop 11) 8⟩
  else ofTm dt

def IsValid (datetime : DateTime) : Prop := datetime.toDate.IsValid ∧ datetime.toTime.IsValid

instance (datetime : DateTime) : Decidable datetime.IsValid := inferInstanceAs (Decidable (_ ∧ _))

/-- The text that `put` writes into the buffer, with its null. -/
def put (datetime : DateTime) : Text := datetime.toDate.put.set 10 0x20 ++ datetime.toTime.put

end DateTime

/-! ### What a number is read from -/

namespace Number

theorem getLoop_take {size more : ℕ} (within : size ≤ more) (text : Text) (ret : ℤ) :
    getLoop size (text.take more) ret = getLoop size text ret := by
  induction size generalizing more text ret with
  | zero => rw [getLoop, getLoop]
  | succ size inductionHypothesis =>
    obtain ⟨more, rfl⟩ := Nat.exists_eq_add_of_le' within
    cases text with
    | nil => rw [List.take_nil]
    | cons char text =>
      rw [← Nat.add_assoc, List.take_succ_cons, getLoop, getLoop]
      split
      · exact inductionHypothesis (Nat.le_add_left _ _) text _
      · rfl

/-- A number is read from its field only. -/
theorem get_take {size more : ℕ} (within : size ≤ more) (some_ : 0 < size) (text : Text) :
    get size (text.take more) = get size text := by
  obtain ⟨more, rfl⟩ : ∃ rest, more = rest + 1 := ⟨more - 1, by omega⟩
  have tails : (text.take (more + 1)).tail = text.tail.take more := by
    cases text with
    | nil => rw [List.take_nil, List.tail_nil, List.take_nil]
    | cons => rfl
  have heads : (text.take (more + 1)).head? = text.head? := by
    cases text <;> rfl
  rw [get, get, heads, tails, getLoop_take (by omega), getLoop_take within]

theorem get_append {size : ℕ} {field : Text} (some_ : 0 < size) (full : field.length = size)
    (rest : Text) : get size (field ++ rest) = get size field := by
  rw [← get_take le_rfl some_ (field ++ rest), List.take_left' full]

/-- A number is read from its field in a part of a text. -/
theorem get_drop_take {size place more : ℕ} (within : place + size ≤ more) (some_ : 0 < size)
    (text : Text) : get size ((text.take more).drop place) = get size (text.drop place) := by
  rw [List.drop_take]
  exact get_take (by omega) some_ _

theorem getLoop_bounds (size : ℕ) (text : Text) {ret : ℤ} (positive : 0 ≤ ret) :
    0 ≤ getLoop size text ret ∧ getLoop size text ret < (ret + 1) * 10 ^ size := by
  induction size generalizing text ret with
  | zero =>
    rw [getLoop]
    omega
  | succ size inductionHypothesis =>
    have power : (0 : ℤ) < 10 ^ size := by positivity
    have longer : ret < (ret + 1) * 10 ^ (size + 1) := by
      rw [pow_succ]
      nlinarith
    cases text with
    | nil =>
      rw [getLoop]
      exact ⟨positive, longer⟩
    | cons char text =>
      rw [getLoop]
      split
      next digit_ =>
        have bounds := (isdigit_iff char).mp digit_
        obtain ⟨least, most⟩ := @inductionHypothesis text (ret * 10 + (char.toNat - 0x30))
          (by omega)
        refine ⟨least, most.trans_le ?_⟩
        rw [pow_succ]
        have step : ret * 10 + (char.toNat - 0x30) + 1 ≤ (ret + 1) * 10 := by omega
        nlinarith
      next => exact ⟨positive, longer⟩

/-- A number of a field is less than the power of ten, and has one digit less behind a minus. -/
theorem get_bounds (size : ℕ) (text : Text) :
    -10 ^ size < get (size + 1) text ∧ get (size + 1) text < 10 ^ (size + 1) := by
  have power : (0 : ℤ) < 10 ^ size := by positivity
  have short := getLoop_bounds size text.tail le_rfl
  have whole := getLoop_bounds (size + 1) text le_rfl
  rw [zero_add, one_mul] at short whole
  rw [pow_succ] at whole ⊢
  unfold get
  rw [Nat.add_sub_cancel]
  split
  next => constructor <;> linarith [short.1, short.2]
  next =>
    split
    next => constructor <;> linarith [short.1, short.2]
    next => constructor <;> linarith [whole.1, whole.2]

end Number

namespace ZNumber

theorem length_setLoop (exp : ℕ) (value : ℤ) : (setLoop exp value).length = exp := by
  induction exp generalizing value with
  | zero => rfl
  | succ exp inductionHypothesis => rw [setLoop, List.length_cons, inductionHypothesis]

/-- A number fills its field. -/
theorem length_set (size : ℕ) (value : ℤ) : (set (size + 1) value).length = size + 1 := by
  unfold set
  split
  · rw [List.length_cons, length_setLoop]
    rfl
  · exact length_setLoop _ _

/-- A field of two characters holds numbers of two digits, and negative ones of one. -/
theorem get_set {value : ℤ} (least : -9 ≤ value) (most : value ≤ 99) :
    Number.get 2 (set 2 value) = value ∧ 0 ∉ set 2 value := by
  have noNull : ∀ {width value : ℕ}, 0 ∉ decimal width value := fun member =>
    ne_zero_of_isdigit (isdigit_of_mem_decimal member) rfl
  by_cases negative : value < 0
  · obtain ⟨n, rfl⟩ : ∃ n : ℕ, value = -n := ⟨value.natAbs, by omega⟩
    have small : n < 10 ^ 1 := by omega
    have written : set 2 (-n) = 0x2d :: decimal 1 n := by
      rw [set, if_pos negative, neg_neg, setLoop_eq small]
    have read := Number.getLoop_decimal small [] 0
    rw [List.append_nil, zero_mul, zero_add] at read
    rw [written, Number.get_of_minus, read]
    refine ⟨rfl, fun member => ?_⟩
    rcases List.mem_cons.mp member with dash | null
    · exact absurd dash (by decide)
    · exact noNull null
  · obtain ⟨n, rfl⟩ := Int.eq_ofNat_of_zero_le (not_lt.mp negative)
    have small : n < 10 ^ 2 := by omega
    have written : set 2 n = decimal 2 n := set_eq_decimal small
    have read := Number.get_decimal small [] (by decide)
    rw [List.append_nil] at read
    show Number.get 2 (set 2 n) = n ∧ 0 ∉ set 2 n
    rw [written]
    exact ⟨read, noNull⟩

/-- A negative number is not read as a positive one. -/
theorem get_set_nonpos {value : ℤ} (negative : value < 0) : Number.get 2 (set 2 value) ≤ 0 := by
  rw [set, if_pos negative, Number.get_of_minus]
  have bounds := Number.getLoop_bounds 1 (setLoop 1 (-value)) le_rfl
  exact neg_nonpos.mpr bounds.1

end ZNumber

/-! ### The text of a time -/

namespace Time

/-- The hours, minutes and seconds of a time fit in their fields: it is a time of the day, or a
negative one with no more than nine of each. -/
def InParts (time : Time) : Prop :=
  -9 ≤ time.seconds.tdiv 3600 ∧ time.seconds.tdiv 3600 ≤ 23 ∧
    -9 ≤ (time.seconds.tdiv 60).tmod 60 ∧ -9 ≤ time.seconds.tmod 60

instance (time : Time) : Decidable time.InParts :=
  inferInstanceAs (Decidable (_ ≤ _ ∧ _ ≤ _ ∧ _ ≤ _ ∧ _ ≤ _))

/-- The quotients of a time, by whether it is negative. -/
theorem tdiv_cases (seconds : ℤ) :
    0 ≤ seconds ∧ seconds.tdiv 3600 = seconds / 3600 ∧ seconds.tdiv 60 = seconds / 60 ∧
        seconds.tmod 60 = seconds % 60 ∧
        (seconds.tdiv 3600).tmod 24 = seconds / 3600 % 24 ∧
        (seconds.tdiv 60).tmod 60 = seconds / 60 % 60 ∨
      ∃ n : ℕ, 0 < n ∧ seconds = -n ∧ seconds.tdiv 3600 = -(n / 3600) ∧
        seconds.tdiv 60 = -(n / 60) ∧ seconds.tmod 60 = -(n % 60) ∧
        (seconds.tdiv 3600).tmod 24 = -(n / 3600 % 24) ∧
        (seconds.tdiv 60).tmod 60 = -(n / 60 % 60) := by
  by_cases negative : seconds < 0
  · obtain ⟨n, rfl⟩ : ∃ n : ℕ, seconds = -n := ⟨seconds.natAbs, by omega⟩
    refine Or.inr ⟨n, by omega, rfl, ?_⟩
    rw [Int.neg_tdiv, Int.neg_tdiv, Int.neg_tmod, Int.neg_tmod, Int.neg_tmod,
      Int.tdiv_eq_ediv_of_nonneg (by omega), Int.tdiv_eq_ediv_of_nonneg (by omega),
      Int.tmod_eq_emod_of_nonneg (by omega), Int.tmod_eq_emod_of_nonneg (by omega),
      Int.tmod_eq_emod_of_nonneg (by omega)]
    exact ⟨rfl, rfl, rfl, rfl, rfl⟩
  · have positive : 0 ≤ seconds := not_lt.mp negative
    refine Or.inl ⟨positive, ?_⟩
    rw [Int.tdiv_eq_ediv_of_nonneg positive, Int.tdiv_eq_ediv_of_nonneg positive,
      Int.tmod_eq_emod_of_nonneg positive, Int.tmod_eq_emod_of_nonneg (by omega),
      Int.tmod_eq_emod_of_nonneg (by omega)]
    exact ⟨rfl, rfl, rfl, rfl, rfl⟩

/-- A quotient by a number, by whether what is divided is negative. -/
theorem tdiv_sixty (value : ℤ) :
    0 ≤ value ∧ value.tdiv 60 = value / 60 ∨ value < 0 ∧ value.tdiv 60 = -(-value / 60) := by
  by_cases negative : value < 0
  · refine Or.inr ⟨negative, ?_⟩
    rw [← neg_neg value, Int.neg_tdiv, Int.tdiv_eq_ediv_of_nonneg (by omega), neg_neg]
  · exact Or.inl ⟨not_lt.mp negative, Int.tdiv_eq_ediv_of_nonneg (not_lt.mp negative)⟩

/-- What is read of a number that is put into two characters. -/
structure Heard (value read : ℤ) : Prop where
  least : -9 ≤ read
  most : read ≤ 99
  same : -9 ≤ value → value ≤ 99 → read = value
  nonpos : value < 0 → read ≤ 0

theorem heard (value : ℤ) : Heard value (Number.get 2 (ZNumber.set 2 value)) := by
  have bounds : -10 ^ 1 < Number.get 2 (ZNumber.set 2 value) ∧
      Number.get 2 (ZNumber.set 2 value) < 10 ^ 2 := Number.get_bounds 1 (ZNumber.set 2 value)
  exact ⟨by omega, by omega, fun least most => (ZNumber.get_set least most).1,
    ZNumber.get_set_nonpos⟩

/-- A field of two characters that a number is put into. -/
structure Field (value : ℤ) (field : Text) : Prop where
  length : field.length = 2
  heard : Heard value (Number.get 2 field)
  noNull : -9 ≤ value → value ≤ 99 → 0 ∉ field

theorem field (value : ℤ) : Field value (ZNumber.set 2 value) :=
  ⟨ZNumber.length_set 1 value, heard value, fun least most => (ZNumber.get_set least most).2⟩

/-- The numbers that are read of a time are its parts when these fit. -/
theorem inParts_of_heard {seconds zhour zminute zsecond : ℤ}
    (hour : Heard ((seconds.tdiv 3600).tmod 24) zhour)
    (minute : Heard ((seconds - 3600 * zhour).tdiv 60) zminute)
    (second : Heard (seconds - 3600 * zhour - 60 * zminute) zsecond)
    (whole : 3600 * zhour + 60 * zminute + zsecond = seconds) : InParts ⟨seconds⟩ := by
  obtain ⟨hourLeast, hourMost, hourSame, hourNonpos⟩ := hour
  obtain ⟨minuteLeast, minuteMost, minuteSame, minuteNonpos⟩ := minute
  obtain ⟨secondLeast, secondMost, -, -⟩ := second
  unfold InParts
  dsimp only
  rcases tdiv_cases seconds with
    ⟨positive, hours, minutes, left, ofDay, ofHour⟩ |
    ⟨n, some_, rfl, hours, minutes, left, ofDay, ofHour⟩
  · rw [ofDay] at hourSame
    have read : zhour = seconds / 3600 % 24 := hourSame (by omega) (by omega)
    rw [hours, left, ofHour]
    have inDay : seconds < 86400 := by
      by_contra later
      obtain ⟨-, quotient⟩ | ⟨before, -⟩ := tdiv_sixty (seconds - 3600 * zhour)
      · omega
      · omega
    omega
  · rw [ofDay] at hourSame hourNonpos
    rw [hours, left, ofHour]
    have hourNonpos_ : zhour ≤ 0 := by
      by_cases none_ : n / 3600 % 24 = 0
      · have zero : zhour = -(n / 3600 % 24 : ℕ) := hourSame (by omega) (by omega)
        omega
      · exact hourNonpos (by omega)
    -- What the hours leave is negative as well, and has no more than nine minutes.
    obtain ⟨k, behind⟩ : ∃ k : ℕ, -(n : ℤ) - 3600 * zhour = -k := by
      refine ⟨(n + 3600 * zhour).toNat, ?_⟩
      by_cases digit_ : n / 3600 % 24 ≤ 9
      · have same : zhour = -(n / 3600 % 24 : ℕ) := hourSame (by omega) (by omega)
        omega
      · omega
    have quotient : (-(k : ℤ)).tdiv 60 = -(k / 60) := by
      rw [Int.neg_tdiv, Int.tdiv_eq_ediv_of_nonneg (by omega)]
    rw [behind, quotient] at minuteSame
    have fewMinutes : k / 60 ≤ 9 := by
      by_contra many
      omega
    have minute_ : zminute = -(k / 60 : ℕ) := minuteSame (by omega) (by omega)
    have fewHours : n / 3600 % 24 ≤ 9 := by
      by_contra many
      omega
    have hour_ : zhour = -(n / 3600 % 24 : ℕ) := hourSame (by omega) (by omega)
    have inDay : n < 86400 := by
      by_contra later
      omega
    omega

/-- The text of a time has three fields. -/
theorem put_fields (time : Time) : ∃ hour minute second,
    Field ((time.seconds.tdiv 3600).tmod 24) hour ∧
    Field ((time.seconds - 3600 * Number.get 2 hour).tdiv 60) minute ∧
    Field (time.seconds - 3600 * Number.get 2 hour - 60 * Number.get 2 minute) second ∧
    time.put = (hour ++ 0x3a :: minute ++ 0x3a :: second) ++ [0] :=
  ⟨_, _, _, field _, field _, field _, rfl⟩

/-- A text with three fields is read from them. -/
theorem setText_fields {hour minute second : Text} (hour_ : hour.length = 2)
    (minute_ : minute.length = 2) (second_ : second.length = 2) (rest : Text) :
    setText ((hour ++ 0x3a :: minute ++ 0x3a :: second) ++ rest) 8 =
      set (Number.get 2 hour) (Number.get 2 minute) (Number.get 2 second) := by
  have whole : (hour ++ 0x3a :: minute ++ 0x3a :: second) ++ rest =
      hour ++ 0x3a :: (minute ++ 0x3a :: (second ++ rest)) := by simp
  have atMinute : (hour ++ 0x3a :: (minute ++ 0x3a :: (second ++ rest))).drop 3 =
      minute ++ 0x3a :: (second ++ rest) := by
    rw [List.append_cons, List.drop_left' (by rw [List.length_append, hour_]; rfl)]
  have atSecond : (hour ++ 0x3a :: (minute ++ 0x3a :: (second ++ rest))).drop 6 =
      second ++ rest := by
    have twice := List.drop_drop (i := 3) (j := 3)
      (l := hour ++ 0x3a :: (minute ++ 0x3a :: (second ++ rest)))
    rw [← twice, atMinute, List.append_cons,
      List.drop_left' (by rw [List.length_append, minute_]; rfl)]
  unfold setText
  rw [whole, atMinute, atSecond]
  rw [Number.get_append (by decide) hour_, Number.get_append (by decide) minute_,
    Number.get_append (by decide) second_]
  rfl

variable {time : Time}

/-- A time whose parts fit is read from its text, wherever it stands. -/
theorem InParts.read (inParts : time.InParts) : ∃ text, time.put = text ++ [0] ∧
    text.length = 8 ∧ 0 ∉ text ∧ ∀ rest, setText (text ++ rest) 8 = time := by
  obtain ⟨hour, minute, second, hour_, minute_, second_, put_⟩ := put_fields time
  obtain ⟨least, most, leastMinute, leastSecond⟩ := inParts
  have fits : -9 ≤ (time.seconds.tdiv 3600).tmod 24 ∧ (time.seconds.tdiv 3600).tmod 24 ≤ 23 ∧
      (time.seconds - 3600 * (time.seconds.tdiv 3600).tmod 24).tdiv 60 =
        (time.seconds.tdiv 60).tmod 60 ∧
      time.seconds - 3600 * (time.seconds.tdiv 3600).tmod 24 - 60 * (time.seconds.tdiv 60).tmod 60 =
        time.seconds.tmod 60 ∧
      (time.seconds.tdiv 60).tmod 60 ≤ 59 ∧ time.seconds.tmod 60 ≤ 59 := by
    rcases tdiv_cases time.seconds with
      ⟨positive, hours, minutes, left, ofDay, ofHour⟩ |
      ⟨n, some_, seconds_, hours, minutes, left, ofDay, ofHour⟩
    · rw [hours] at least most
      rw [ofDay, ofHour, left, Int.tdiv_eq_ediv_of_nonneg (by omega)]
      omega
    · have behind : time.seconds - 3600 * -((n : ℤ) / 3600 % 24) = -(n % 3600 : ℕ) := by
        rw [hours] at least
        omega
      rw [ofDay, ofHour, left, behind, Int.neg_tdiv, Int.tdiv_eq_ediv_of_nonneg (by omega)]
      rw [hours] at least
      omega
  obtain ⟨leastHour, mostHour, minutes, seconds, mostMinute, mostSecond⟩ := fits
  have zhour := hour_.heard.same leastHour (by omega)
  rw [zhour, minutes] at minute_
  have zminute := minute_.heard.same leastMinute (by omega)
  rw [zhour, zminute, seconds] at second_
  have zsecond := second_.heard.same leastSecond (by omega)
  refine ⟨_, put_, ?_, ?_, fun rest => ?_⟩
  · simp [hour_.length, minute_.length, second_.length]
  · have colon : (0 : UInt8) ≠ 0x3a := by decide
    simp only [List.mem_append, List.mem_cons, not_or]
    exact ⟨⟨hour_.noNull leastHour (by omega), colon, minute_.noNull leastMinute (by omega)⟩,
      colon, second_.noNull leastSecond (by omega)⟩
  · rw [setText_fields hour_.length minute_.length second_.length, zhour, zminute, zsecond, set,
      if_neg (by omega)]
    refine Time.ext ?_
    dsimp only
    omega

/-- A time that is read from its text has parts that fit. -/
theorem inParts_of_setText (back : setText time.put 8 = time) : time.InParts := by
  obtain ⟨hour, minute, second, hour_, minute_, second_, put_⟩ := put_fields time
  rw [put_, setText_fields hour_.length minute_.length second_.length, set] at back
  split at back
  next =>
    rw [← back]
    decide
  next => exact inParts_of_heard hour_.heard minute_.heard second_.heard (congrArg seconds back)

/-- The size of a text is found when it is not given. -/
theorem setText_zero (str : Text) (some_ : strlen str ≠ 0) :
    setText str 0 = setText str (strlen str) := by
  unfold setText
  rw [if_pos rfl, if_neg some_]

end Time

/-! ### The text of a date -/

namespace Date

/-- Whether eight characters are digits, or three fields, is told by the third and the sixth. -/
def Digits (str : Text) : Prop :=
  (str.drop 2).head?.any isdigit = true ∧ (str.drop 5).head?.any isdigit = true

instance (str : Text) : Decidable (Digits str) := inferInstanceAs (Decidable (_ ∧ _))

theorem setSized_eight (clockYear : ℤ) (str : Text) : setSized clockYear str 8 =
    if Digits str then
      set (Number.get 4 str) (Number.get 2 (str.drop 4)) (Number.get 2 (str.drop 6))
    else
      set (clockYear.tdiv 100 * 100 + Number.get 2 str) (Number.get 2 (str.drop 3))
        (Number.get 2 (str.drop 6)) := by
  by_cases digits : Digits str
  · rw [if_pos digits]
    exact if_pos ⟨rfl, digits⟩
  · rw [if_neg digits]
    exact if_neg fun both => digits both.2

variable {day : Day}

/-- The text of a date without its dashes. -/
def compact (date : Date) : Text := date.put.filter (· ≠ 0x2d)

/-- The text without its dashes is the digits of the day. -/
theorem compact_ofDay (common : Common day) : (ofDay day).compact =
    (decimal 4 day.year ++ decimal 2 day.month ++ decimal 2 day.day) ++ [0] := by
  have digits : ∀ width value, (decimal width value).filter (· ≠ 0x2d) = decimal width value := by
    intro width value
    refine List.filter_eq_self.mpr fun char member => decide_eq_true fun dash => ?_
    have digit_ := isdigit_of_mem_decimal member
    rw [dash] at digit_
    exact absurd digit_ (by decide)
  have dash : ∀ text : Text, (0x2d :: text).filter (· ≠ 0x2d) = text.filter (· ≠ 0x2d) := fun _ =>
    List.filter_cons_of_neg (by decide)
  rw [compact, put_ofDay common, form, List.filter_append, List.filter_append, List.filter_append,
    dash, dash, digits, digits, digits]
  rfl

/-- A day is read from its digits. -/
theorem compact_read (common : Common day) : ∃ text, (ofDay day).compact = text ++ [0] ∧
    text.length = 8 ∧ 0 ∉ text ∧
      ∀ clockYear rest, setSized clockYear (text ++ rest) 8 = ofDay day := by
  obtain ⟨year_fits, month_fits, day_fits⟩ := common.fits
  refine ⟨_, compact_ofDay common, rfl, ?_, fun clockYear rest => ?_⟩
  · simp only [List.mem_append, not_or]
    exact ⟨⟨zero_notMem_decimal _ _, zero_notMem_decimal _ _⟩, zero_notMem_decimal _ _⟩
  · have digits :
        Digits ((decimal 4 day.year ++ decimal 2 day.month ++ decimal 2 day.day) ++ rest) :=
      ⟨isdigit_digit (Nat.mod_lt _ (by decide)), isdigit_digit (Nat.mod_lt _ (by decide))⟩
    rw [setSized_eight, if_pos digits]
    show set (Number.get 4 (decimal 4 day.year ++ _)) (Number.get 2 (decimal 2 day.month ++ _))
      (Number.get 2 (decimal 2 day.day ++ rest)) = _
    rw [Number.get_decimal year_fits _ (by decide), Number.get_decimal month_fits _ (by decide),
      Number.get_decimal day_fits _ (by decide)]
    rfl

end Date

/-! ### Reading back -/

namespace DateTime

/-- The text of a date and a time is read back, by the constructor, and by the `set` of each. -/
structure ReadBack (clock : Clock) (datetime : DateTime) : Prop where
  length : strlen datetime.put = 19
  back : ofText clock datetime.put 0 = datetime
  date : ∀ clockYear, Date.setSized clockYear datetime.toDate.put 0 = datetime.toDate
  compact : ∀ clockYear, Date.setSized clockYear datetime.toDate.compact 0 = datetime.toDate
  time : Time.setText datetime.toTime.put 0 = datetime.toTime
  again : (ofText clock datetime.put 0).put = datetime.put

theorem strlen_text {text : Text} (noNull : 0 ∉ text) : strlen (text ++ [0]) = text.length := by
  rw [strlen, string_append noNull, string_cons_zero, List.append_nil]

/-- A text whose size is not given is copied as it is. -/
theorem ofText_eq (clock : Clock) (a_str : Text) :
    let str := string a_str ++ [0]
    let dt := clock.localtime clock.time
    let clockYear := dt.tm_year + 1900
    ofText clock a_str 0 =
      if strlen a_str = 11 then ⟨Date.setSized clockYear str 5, Time.setText (str.drop 6) 5⟩
      else if strlen a_str = 14 then ⟨Date.setSized clockYear str 8, Time.setText (str.drop 9) 5⟩
      else if strlen a_str = 17 then ⟨Date.setSized clockYear str 8, Time.setText (str.drop 9) 8⟩
      else if strlen a_str = 19 then
        ⟨Date.setSized clockYear str 10, Time.setText (str.drop 11) 8⟩
      else ofTm dt := by
  have copied : strncpy a_str (strlen a_str) = string a_str := by
    rw [strncpy, strlen, List.take_length, Nat.sub_self, List.replicate_zero, List.append_nil]
  unfold ofText
  dsimp only
  rw [if_pos rfl, copied]

/-- A text of a date and of a time, with a character between them, is read from both. -/
theorem ofText_text (clock : Clock) {date time : Text} (sep : UInt8) (date_ : date.length = 10)
    (time_ : time.length = 8) (noNull : 0 ∉ date ++ sep :: time) :
    ofText clock (date ++ sep :: time ++ [0]) 0 =
      ⟨Date.setSized ((clock.localtime clock.time).tm_year + 1900)
          (date ++ (sep :: time ++ [0])) 10, Time.setText (time ++ [0]) 8⟩ := by
  have size : strlen (date ++ sep :: time ++ [0]) = 19 := by
    rw [strlen_text noNull, List.length_append, date_, List.length_cons, time_]
  have text : string (date ++ sep :: time ++ [0]) = date ++ sep :: time := by
    rw [string_append noNull, string_cons_zero, List.append_nil]
  have behind : (date ++ sep :: time ++ [0]).drop 11 = time ++ [0] := by
    rw [List.append_assoc, List.cons_append, List.append_cons,
      List.drop_left' (by rw [List.length_append, date_]; rfl)]
  have read := ofText_eq clock (date ++ sep :: time ++ [0])
  dsimp only at read
  rw [read, size, text, behind, List.append_assoc]
  rfl

variable {datetime : DateTime}

/-- A date of these years is read back with its time exactly when the parts of the time fit in
their fields. -/
theorem readBack_iff (clock : Clock) (above : Date.number Date.firstDay ≤ datetime.julian)
    (below : datetime.julian ≤ Date.number Date.lastDay) :
    ReadBack clock datetime ↔ datetime.toTime.InParts := by
  obtain ⟨day, common, ofDay_⟩ := Date.exists_ofDay above below
  obtain ⟨date, form_, date_, dateNoNull, dateRead⟩ := Date.form_read common
  have put_ : datetime.toDate.put = date ++ [0] := by rw [← ofDay_, Date.put_ofDay common, form_]
  have whole : datetime.put = date ++ 0x20 :: datetime.toTime.put := by
    rw [put, put_, ← date_, List.set_append_right _ _ le_rfl, Nat.sub_self, List.append_assoc]
    rfl
  constructor
  · intro readBack
    refine Time.inParts_of_setText ?_
    have size := readBack.length
    have noNull : 0 ∉ date ++ [0x20] := by
      rw [List.mem_append, List.mem_singleton, not_or]
      exact ⟨dateNoNull, by decide⟩
    rw [whole, List.append_cons, strlen, string_append noNull, List.length_append,
      List.length_append, date_, List.length_singleton] at size
    have sizeTime : strlen datetime.toTime.put = 8 := by
      rw [strlen]
      omega
    have back := readBack.time
    rwa [Time.setText_zero _ (by rw [sizeTime]; decide), sizeTime] at back
  · intro inParts
    obtain ⟨time, time_, length, noNull, read⟩ := inParts.read
    rw [time_, ← List.cons_append, ← List.append_assoc] at whole
    have noNull_ : 0 ∉ date ++ 0x20 :: time := by
      have space : (0 : UInt8) ≠ 0x20 := by decide
      simp only [List.mem_append, List.mem_cons, not_or]
      exact ⟨dateNoNull, space, noNull⟩
    have back : ofText clock datetime.put 0 = datetime := by
      rw [whole, ofText_text clock 0x20 date_ length noNull_, dateRead, read, ofDay_]
    have sizeDate : strlen (date ++ [0]) = 10 := (strlen_text dateNoNull).trans date_
    have sizeTime : strlen (time ++ [0]) = 8 := (strlen_text noNull).trans length
    obtain ⟨digits, compact_, size, digitsNoNull, digitsRead⟩ := Date.compact_read common
    have sizeDigits : strlen (digits ++ [0]) = 8 := (strlen_text digitsNoNull).trans size
    refine ⟨?_, back, fun clockYear => ?_, fun clockYear => ?_, ?_, by rw [back]⟩
    · rw [whole, strlen_text noNull_, List.length_append, date_, List.length_cons, length]
    · rw [put_, Date.setSized_zero _ _ (by rw [sizeDate]; decide), sizeDate, dateRead, ofDay_]
    · rw [← ofDay_, compact_, Date.setSized_zero _ _ (by rw [sizeDigits]; decide), sizeDigits,
        digitsRead]
    · rw [time_, Time.setText_zero _ (by rw [sizeTime]; decide), sizeTime, read]

/-- A valid date and time of these years is read back. -/
theorem readBack_of_inDay (clock : Clock) (above : Date.number Date.firstDay ≤ datetime.julian)
    (below : datetime.julian ≤ Date.number Date.lastDay) (inDay : datetime.toTime.InDay) :
    ReadBack clock datetime := by
  refine (readBack_iff clock above below).mpr ?_
  unfold Time.InDay c_day at inDay
  unfold Time.InParts
  rw [Int.tdiv_eq_ediv_of_nonneg inDay.1, Int.tdiv_eq_ediv_of_nonneg inDay.1,
    Int.tmod_eq_emod_of_nonneg inDay.1, Int.tmod_eq_emod_of_nonneg (by omega)]
  omega

/-- The texts of the first midnight of a year. -/
theorem readBack_of_inDay_midnight : ReadBack (utc 0) ⟨⟨2451545⟩, ⟨0⟩⟩ :=
  @readBack_of_inDay ⟨⟨2451545⟩, ⟨0⟩⟩ (utc 0) (by decide) (by decide) (by decide)

end DateTime

end CommonCpp
