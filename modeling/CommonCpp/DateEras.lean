/-
This file settles what `Date` makes of the years before the common era.

There is no year 0: the year before the year 1 is the year -1. So a negative year is one that the
calendar counts as the next. `set` moves it, to close the gap between the eras, but by one down and
not up, and `put` does not move the year it finds. So the year that is read back is always the one
before. The months and days are those of a year that is two off: it is no leap year where the year
that is meant is one, and the gap between the eras is two years wide and not closed.

The calendar has the same days in the year 400 years later. The years before the common era are
therefore counted from the year -1201 on: the year 1200 is -1, and the year 1201 is the year 1.
-/

import CommonCpp.DateTimeText

namespace CommonCpp

open Bytes Ctype Gregorian

namespace Date

/-! ### The years -/

/-- The year of a day, where years are counted from -1201 on and there is no year 0. -/
def eraYear (year : ℕ) : ℤ := if year ≤ 1200 then year - 1201 else year - 1200

/-- The date of a day. -/
def ofEra (day : Day) : Date := set (eraYear day.year) day.month day.day

/-- The days of the years -999 to -1. -/
def Bce (day : Day) : Prop := 202 ≤ day.year ∧ day.year ≤ 1200

instance : DecidablePred Bce := fun day =>
  inferInstanceAs (Decidable (202 ≤ day.year ∧ day.year ≤ 1200))

/-- Year, month and day are read back, and the day after has the next number. -/
structure Held (day : Day) : Prop where
  sameYear : (ofEra day).year = eraYear day.year
  sameMonth : (ofEra day).month = day.month
  sameDay : (ofEra day).day = day.day
  successive : (ofEra day.next).julian = (ofEra day).julian + 1

/-! ### Years that are two off -/

/-- The number that is set is that of a day of the year two before, so many years earlier. -/
theorem set_julian_bce {year month day : ℕ} (least : 200 ≤ year) (most : year ≤ 1198)
    (month_pos : 1 ≤ month) (month_le : month ≤ 12) (day_pos : 1 ≤ day) (day_le : day ≤ 31) :
    (set (eraYear (year + 2)) month day).julian = formula year month day - 3 * 146097 := by
  have era : eraYear (year + 2) = year - 1199 := by
    rw [eraYear, if_pos (by omega)]
    push_cast
    ring
  have before : (if (year : ℤ) - 1199 < 0 then (year : ℤ) - 1199 - 1 else year - 1199) =
      year - 1200 := by
    rw [if_pos (by omega)]
    ring
  rw [era, set_julian_eq (by omega) before (by omega) month_pos month_le day_pos day_le]
  have centuries : ((year : ℤ) - 1200 + 4900 - early month) / 100 =
      (year + 4900 - early month) / 100 - 12 := by omega
  have quarters : 1461 * ((year : ℤ) - 1200 + 4800 - early month) / 4 =
      1461 * (year + 4800 - early month) / 4 - 438300 := by omega
  unfold formula
  rw [centuries, quarters]
  omega

/-- In 400 years the fields of a number come again. -/
theorem fields_add {julian : ℤ} (recent : 0 ≤ julian + 68569) :
    fields (julian + 146097) = ((fields julian).1 + 400, (fields julian).2) := by
  have earlier := fields_eq recent rfl rfl rfl rfl rfl rfl
  have turn : 4 * (julian + 68569 + 146097) / 146097 = 4 * (julian + 68569) / 146097 + 4 := by
    omega
  have left : julian + 68569 + 146097 -
      (146097 * (4 * (julian + 68569) / 146097 + 4) + 3) / 4 =
      julian + 68569 - (146097 * (4 * (julian + 68569) / 146097) + 3) / 4 := by
    omega
  have later := @fields_eq (julian + 146097) _ _ _ _ _ _ (by omega)
    (add_right_comm julian 146097 68569) turn left rfl rfl rfl
  rw [later, earlier]
  refine Prod.ext ?_ rfl
  dsimp only
  ring

theorem ofEra_julian {day : Day} (bce : Bce day) :
    (ofEra day).julian = formula (day.year - 2) day.month day.day - 3 * 146097 := by
  obtain ⟨first, last⟩ := bce
  have year_ : day.year = day.year - 2 + 2 := by omega
  have set_ := @set_julian_bce (day.year - 2) day.month day.day (by omega) (by omega)
    day.month_pos day.month_le day.day_pos (day.day_le.trans (daysIn_bounds _ _).2)
  rwa [← year_] at set_

/-- The same day two years before: of the twenty-ninth of February, it is the day after it. -/
theorem exists_two_before {day : Day} (bce : Bce day) : ∃ found : Day,
    found.year + 2 = day.year ∧ number found = (ofEra day).julian + 3 * 146097 ∧
      (found.month = day.month ∧ found.day = day.day ↔ ¬ (day.month = 2 ∧ day.day = 29)) := by
  obtain ⟨year, year_⟩ := Nat.exists_eq_add_of_le' (le_trans (by decide : 2 ≤ 202) bce.1)
  have least : 200 ≤ year := by
    have first := bce.1
    omega
  have formula_ : formula year day.month day.day = (ofEra day).julian + 3 * 146097 := by
    rw [ofEra_julian bce, year_, Nat.add_sub_cancel]
    ring
  by_cases leapDay : day.month = 2 ∧ day.day = 29
  · have leap := leap_of_day day leapDay.1 leapDay.2
    have common : ¬ Leap year := by
      rw [year_] at leap
      unfold Leap at leap ⊢
      omega
    have march : number (Day.first year 3 (by decide) (by decide)) = formula year 2 29 := by
      have days : daysIn year 2 = 28 := if_neg common
      rw [number_eq _ (le_trans (by decide) least), formula_succ, ← days]
      exact formula_march year
    refine ⟨Day.first year 3 (by decide) (by decide), year_.symm, ?_, ?_⟩
    · rw [march, ← formula_, leapDay.1, leapDay.2]
    · refine iff_of_false (fun same => ?_) (not_not.mpr leapDay)
      have three : 3 = day.month := same.1
      omega
  · have inside : day.day ≤ daysIn year day.month := by
      have day_le := day.day_le
      by_cases february : day.month = 2
      · rw [february, daysIn_february] at day_le ⊢
        split at day_le <;> split <;> omega
      · rwa [daysIn_of_ne february year day.year]
    refine ⟨⟨year, day.month, day.day, day.month_pos, day.month_le, day.day_pos, inside⟩,
      year_.symm, ?_, iff_of_true ⟨rfl, rfl⟩ leapDay⟩
    rw [number_eq _ (le_trans (by decide) least), ← formula_]

/-! ### What is put -/

/-- The parts of a date are read from the fields of its number. -/
theorem parts_of_fields {date : Date} {year : ℤ} {month day : ℕ}
    (fields_ : fields date.julian = (year, (month : ℤ), (day : ℤ))) (month_lt : month < 10 ^ 2)
    (day_lt : day < 10 ^ 2) :
    date.year = Number.get 4 (ZNumber.set 4 year) ∧ date.month = month ∧ date.day = day := by
  have length : (ZNumber.set 4 year).length = 4 := ZNumber.length_set 3 year
  have put_ : date.put = ZNumber.set 4 year ++ (0x2d :: (decimal 2 month ++ 0x2d ::
      (decimal 2 day ++ [0]))) := by
    unfold put
    rw [fields_]
    dsimp only
    rw [ZNumber.set_eq_decimal month_lt, ZNumber.set_eq_decimal day_lt]
    simp
  have atMonth : date.put.drop 5 = decimal 2 month ++ 0x2d :: (decimal 2 day ++ [0]) := by
    rw [put_, List.append_cons, List.drop_left' (by rw [List.length_append, length]; rfl)]
  have atDay : date.put.drop 8 = decimal 2 day ++ [0] := by
    have twice := List.drop_drop (i := 3) (j := 5) (l := date.put)
    rw [← twice, atMonth]
    rfl
  refine ⟨?_, ?_, ?_⟩
  · rw [Date.year, put_, Number.get_append (by decide) length]
  · rw [Date.month, atMonth, Number.get_decimal month_lt _ (by decide)]
  · rw [Date.day, atDay, Number.get_decimal day_lt _ (by decide)]

/-- Behind its sign, a year has three digits. -/
theorem get_negative {year : ℕ} (most : year ≤ 1000) :
    Number.get 4 (ZNumber.set 4 (-year)) = if year = 1000 then 0 else -(year : ℤ) := by
  rcases Nat.eq_zero_or_pos year with rfl | positive
  · rfl
  by_cases last : year = 1000
  · rw [last, if_pos rfl]
    decide
  · have small : year < 10 ^ 3 := by omega
    have negative : -(year : ℤ) < 0 := by omega
    have read := Number.getLoop_decimal small [] 0
    rw [List.append_nil, zero_mul, zero_add] at read
    rw [if_neg last, ZNumber.set, if_pos negative, neg_neg, ZNumber.setLoop_eq small,
      Number.get_of_minus, read]

/-- The year that is read back is the year before, and the year -1000 is read as none. Months and
days are read back but for the twenty-ninth of February. -/
theorem read_bce {day : Day} (bce : Bce day) :
    (ofEra day).year = (if day.year = 202 then 0 else eraYear day.year - 1) ∧
      ((ofEra day).month = day.month ∧ (ofEra day).day = day.day ↔
        ¬ (day.month = 2 ∧ day.day = 29)) := by
  obtain ⟨found, year_, number_, same⟩ := exists_two_before bce
  obtain ⟨first, last⟩ := bce
  have recent : 1 ≤ found.year := by omega
  have later := number_firstDay_le recent
  rw [number_ends.1, number_] at later
  have fields_ := fields_number found recent
  have split : number found = (ofEra day).julian + 146097 + 146097 + 146097 := by
    rw [number_]
    ring
  rw [split, fields_add (by omega), fields_add (by omega), fields_add (by omega)] at fields_
  have year : fields (ofEra day).julian =
      (-((1200 - found.year : ℕ) : ℤ), (found.month : ℤ), (found.day : ℤ)) := by
    have rest : (fields (ofEra day).julian).2 = ((found.month : ℤ), (found.day : ℤ)) :=
      congrArg Prod.snd fields_
    refine Prod.ext ?_ rest
    have shifted : (fields (ofEra day).julian).1 + 400 + 400 + 400 = found.year :=
      congrArg Prod.fst fields_
    dsimp only
    omega
  have month_le := found.month_le
  have day_le := found.day_le.trans (daysIn_bounds _ _).2
  obtain ⟨yearRead, monthRead, dayRead⟩ := parts_of_fields year (by omega) (by omega)
  rw [yearRead, monthRead, dayRead, Nat.cast_inj, Nat.cast_inj, get_negative (by omega)]
  refine ⟨?_, same⟩
  have era : eraYear day.year = day.year - 1201 := if_pos last
  rw [era]
  split <;> split <;> omega

/-! ### The day after -/

/-- A day whose number is not followed by that of the day after it: a twenty-ninth of February, one
of the twenty-eighth when only the year two before has one, and the last before the era. -/
def Skips (day : Day) : Prop :=
  day.month = 2 ∧ day.day = 29 ∨
  (day.month = 2 ∧ day.day = 28 ∧ ¬ Leap day.year ∧ Leap (day.year - 2)) ∨
  (day.year = 1200 ∧ day.month = 12 ∧ day.day = 31)

instance (day : Day) : Decidable (Skips day) :=
  inferInstanceAs (Decidable (_ ∧ _ ∨ (_ ∧ _ ∧ ¬ _ ∧ _) ∨ (_ ∧ _ ∧ _)))

/-- March follows the last day of February, in the years of the formula. -/
theorem february_step (year day : ℕ) (shift : ℤ) :
    formula year (2 + 1) 1 - shift = formula year 2 day - shift + 1 ↔ daysIn year 2 = day := by
  have march : formula year (2 + 1) 1 = formula year 2 (daysIn year 2) + 1 := formula_march year
  have days : formula year 2 (daysIn year 2) - formula year 2 day = daysIn year 2 - day := by
    unfold formula
    ring
  rw [march, ← @Nat.cast_inj ℤ]
  constructor <;> intro same <;> linarith

/-- A day that is not the last of its month skips none. -/
theorem not_skips_of_lt {day : Day} (inside : day.day < daysIn day.year day.month) :
    ¬ Skips day := by
  have feb := daysIn_february day.year
  rintro (⟨february, leapDay⟩ | ⟨february, lastDay_, common, -⟩ | ⟨-, december, lastDay_⟩)
  · rw [february, leapDay] at inside
    split at feb <;> omega
  · rw [february, lastDay_, feb, if_neg common] at inside
    omega
  · rw [december, lastDay_] at inside
    exact absurd inside (by show ¬ 31 < 31; decide)

/-- The February of the formula is that of two years before: its last day is the last of February
where no day is skipped. -/
theorem daysIn_two_before {day : Day} (bce : Bce day) (february : day.month = 2)
    (last_ : day.day = daysIn day.year 2) : daysIn (day.year - 2) 2 = day.day ↔ ¬ Skips day := by
  have feb_ := daysIn_february (day.year - 2)
  rw [daysIn_february day.year] at last_
  unfold Skips
  rw [february]
  by_cases leap : Leap day.year
  · have common : ¬ Leap (day.year - 2) := by
      obtain ⟨first, last⟩ := bce
      unfold Leap at leap ⊢
      omega
    rw [if_pos leap] at last_
    rw [if_neg common] at feb_
    exact iff_of_false (by omega) (not_not.mpr (Or.inl ⟨rfl, last_⟩))
  · rw [if_neg leap] at last_
    by_cases leap_ : Leap (day.year - 2)
    · rw [if_pos leap_] at feb_
      exact iff_of_false (by omega) (not_not.mpr (Or.inr (Or.inl ⟨rfl, last_, leap, leap_⟩)))
    · rw [if_neg leap_] at feb_
      refine iff_of_true (by omega) ?_
      rintro (⟨-, leapDay⟩ | ⟨-, -, -, both⟩ | ⟨-, december, -⟩)
      · omega
      · exact leap_ both
      · exact absurd december (by decide)

/-- The first of the next year has the next number, but in the year of the era. -/
theorem successive_newYear {day : Day} (bce : Bce day) (december : day.month = 12)
    (lastDay_ : day.day = 31) :
    (ofEra (Day.first (day.year + 1) 1 le_rfl (by decide))).julian = (ofEra day).julian + 1 ↔
      ¬ Skips day := by
  have here := ofEra_julian bce
  obtain ⟨first, last⟩ := bce
  by_cases era : day.year = 1200
  · refine iff_of_false ?_ (not_not.mpr (Or.inr (Or.inr ⟨era, december, lastDay_⟩)))
    have after : (ofEra (Day.first (day.year + 1) 1 le_rfl (by decide))).julian = 1721426 := by
      show (set (eraYear (day.year + 1)) (1 : ℕ) (1 : ℕ)).julian = 1721426
      rw [era]
      decide
    have there : formula (day.year - 2) day.month day.day = 2158985 := by
      rw [era, december, lastDay_]
      decide
    rw [after, here, there]
    decide
  · have bce_ : Bce (Day.first (day.year + 1) 1 le_rfl (by decide)) := by
      show 202 ≤ day.year + 1 ∧ day.year + 1 ≤ 1200
      omega
    have after := ofEra_julian bce_
    have later : day.year + 1 - 2 = day.year - 2 + 1 := by omega
    refine iff_of_true ?_ ?_
    · rw [after, here]
      show formula (day.year + 1 - 2) 1 1 - _ = _
      rw [later, formula_newYear, december, lastDay_]
      ring
    · rintro (⟨february, -⟩ | ⟨february, -⟩ | ⟨both, -⟩)
      · omega
      · omega
      · exact era both

theorem successive_iff {day : Day} (bce : Bce day) :
    (ofEra day.next).julian = (ofEra day).julian + 1 ↔ ¬ Skips day := by
  have here := ofEra_julian bce
  have day_le := day.day_le
  unfold Day.next
  split
  next inside =>
    have after := ofEra_julian (show Bce { day with
      day := day.day + 1
      day_pos := Nat.le_add_left _ _
      day_le := inside } from bce)
    refine iff_of_true ?_ (not_skips_of_lt inside)
    rw [after, here]
    show formula (day.year - 2) day.month (day.day + 1) - _ = _
    rw [formula_succ]
    ring
  next beyond =>
    have last_ : day.day = daysIn day.year day.month := by omega
    split
    next within =>
      have after := ofEra_julian (show Bce (Day.first day.year (day.month + 1)
        (Nat.le_add_left _ _) within) from bce)
      rw [after, here]
      show formula (day.year - 2) (day.month + 1) 1 - _ = _ ↔ _
      by_cases february : day.month = 2
      · rw [february] at last_ ⊢
        rw [february_step]
        exact daysIn_two_before bce february last_
      · have same := daysIn_of_ne february day.year (day.year - 2)
        refine iff_of_true ?_ ?_
        · rw [last_, same, formula_month (day.year - 2) day.month_pos within february]
          ring
        · rintro (⟨both, -⟩ | ⟨both, -⟩ | ⟨-, december, -⟩)
          · exact february both
          · exact february both
          · omega
    next beyond_ =>
      have month_le := day.month_le
      have december : day.month = 12 := by omega
      rw [december] at last_
      exact successive_newYear bce december last_

/-! ### No date is held -/

/-- No date of the years -999 to -1 is held: its year is not. Its month and its day are but for a
twenty-ninth of February, and its number is followed by that of the day after but where days are
skipped. -/
theorem bce_not_held {day : Day} (bce : Bce day) :
    ¬ Held day ∧
      (ofEra day).year = (if day.year = 202 then 0 else eraYear day.year - 1) ∧
      ((ofEra day).month = day.month ∧ (ofEra day).day = day.day ↔
        ¬ (day.month = 2 ∧ day.day = 29)) ∧
      ((ofEra day.next).julian = (ofEra day).julian + 1 ↔ ¬ Skips day) := by
  obtain ⟨year, parts⟩ := read_bce bce
  refine ⟨fun held => ?_, year, parts, successive_iff bce⟩
  have same := held.sameYear
  have era : eraYear day.year = day.year - 1201 := if_pos bce.2
  rw [year, era] at same
  obtain ⟨first, last⟩ := bce
  split at same <;> omega

/-- The fifteenth of March of the year -44. -/
theorem bce_not_held_ides :
    ¬ Held ⟨1157, 3, 15, by decide, by decide, by decide, by decide⟩ :=
  (@bce_not_held ⟨1157, 3, 15, by decide, by decide, by decide, by decide⟩ (by decide)).1

/-- The year of `Date(-44, 3, 15)` is read as -45, and the day after `Date(-1, 12, 31)` is not
`Date(1, 1, 1)`. -/
theorem era_not_closed : (set (-44) 3 15).year = -45 ∧
    (set (-1) 12 31).increment ≠ set 1 1 1 := by
  decide +kernel

end Date

end CommonCpp
