/-
This file gives the proleptic Gregorian calendar: its days, the day after a day, and
the two rules by which a numbering of the days is known from single steps.

Going on from a day reaches every later day. So a numbering that counts one up from
each day to the next tells the days apart and keeps their order, and a day so many
numbers further on is the day reached after so many days.
-/

import Mathlib.Algebra.Order.Ring.Int
import Mathlib.Logic.Function.Iterate
import Mathlib.Tactic.Common

namespace Gregorian

def Leap (year : ℕ) : Prop := 4 ∣ year ∧ (¬ 100 ∣ year ∨ 400 ∣ year)

instance : DecidablePred Leap := fun year =>
  inferInstanceAs (Decidable (4 ∣ year ∧ (¬ 100 ∣ year ∨ 400 ∣ year)))

/-- The days of a month. -/
def daysIn (year : ℕ) : ℕ → ℕ
  | 2 => if Leap year then 29 else 28
  | 4 | 6 | 9 | 11 => 30
  | _ => 31

/-- A day of the calendar. -/
structure Day where
  year : ℕ
  month : ℕ
  day : ℕ
  month_pos : 1 ≤ month
  month_le : month ≤ 12
  day_pos : 1 ≤ day
  day_le : day ≤ daysIn year month
  deriving DecidableEq

theorem daysIn_bounds (year month : ℕ) : 28 ≤ daysIn year month ∧ daysIn year month ≤ 31 := by
  unfold daysIn
  split <;> try split
  all_goals omega

theorem daysIn_february (year : ℕ) : daysIn year 2 = if Leap year then 29 else 28 := rfl

/-- A month other than February has the same days in every year. -/
theorem daysIn_of_ne {month : ℕ} (other : month ≠ 2) (year year' : ℕ) :
    daysIn year month = daysIn year' month := by
  unfold daysIn
  split
  · exact absurd rfl other
  all_goals rfl

namespace Day

/-- The first day of a month. -/
def first (year month : ℕ) (month_pos : 1 ≤ month) (month_le : month ≤ 12) : Day where
  year := year
  month := month
  day := 1
  month_pos := month_pos
  month_le := month_le
  day_pos := le_rfl
  day_le := le_trans (by decide) (daysIn_bounds year month).1

/-- The day after a day. -/
def next (day : Day) : Day :=
  if inside : day.day + 1 ≤ daysIn day.year day.month then
    { day with day := day.day + 1, day_pos := Nat.le_add_left _ _, day_le := inside }
  else if within : day.month + 1 ≤ 12 then
    first day.year (day.month + 1) (Nat.le_add_left _ _) within
  else first (day.year + 1) 1 le_rfl (by decide)

/-- The order of the days. -/
def Before (day other : Day) : Prop :=
  day.year < other.year ∨ day.year = other.year ∧
    (day.month < other.month ∨ day.month = other.month ∧ day.day < other.day)

instance (day other : Day) : Decidable (Before day other) :=
  inferInstanceAs (Decidable (_ ∨ _ ∧ (_ ∨ _ ∧ _)))

/-- A day is known by its year, month and day. -/
theorem ext_fields {day other : Day} (year : day.year = other.year)
    (month : day.month = other.month) (number : day.day = other.day) : day = other := by
  cases day
  cases other
  cases year
  cases month
  cases number
  rfl

theorem before_or_eq_or_before (day other : Day) :
    day.Before other ∨ day = other ∨ other.Before day := by
  have same : day.year = other.year → day.month = other.month → day.day = other.day →
      day = other := ext_fields
  by_cases equal : day = other
  · exact Or.inr (Or.inl equal)
  · unfold Before
    have differ : ¬ (day.year = other.year ∧ day.month = other.month ∧ day.day = other.day) :=
      fun fields => equal (same fields.1 fields.2.1 fields.2.2)
    omega

/-! ### Going on day by day -/

/-- A later day of the same month is reached. -/
theorem iterate_next_of_month (more : ℕ) (day other : Day) (year : day.year = other.year)
    (month : day.month = other.month) (later : day.day + more = other.day) :
    next^[more] day = other := by
  induction more generalizing day with
  | zero => exact ext_fields year month later
  | succ more inductionHypothesis =>
    have bound := other.day_le
    have inside : day.day + 1 ≤ daysIn day.year day.month := by
      rw [year, month]
      omega
    rw [Function.iterate_succ_apply]
    refine inductionHypothesis _ ?_ ?_ ?_ <;> rw [next, dif_pos inside]
    · exact year
    · exact month
    · show day.day + 1 + more = other.day
      omega

/-- The first day of the month after that of a day. -/
def nextMonth (day : Day) : Day :=
  if within : day.month + 1 ≤ 12 then
    first day.year (day.month + 1) (Nat.le_add_left _ _) within
  else first (day.year + 1) 1 le_rfl (by decide)

/-- The first day of the next month is reached. -/
theorem exists_iterate_next_nextMonth (day : Day) :
    ∃ more, next^[more + 1] day = nextMonth day := by
  let last : Day := { day with
    day := daysIn day.year day.month
    day_pos := le_trans (by decide) (daysIn_bounds _ _).1
    day_le := le_rfl }
  obtain ⟨more, later⟩ := Nat.exists_eq_add_of_le day.day_le
  refine ⟨more, ?_⟩
  rw [Function.iterate_succ_apply', iterate_next_of_month more day last rfl rfl later.symm]
  have beyond : ¬ last.day + 1 ≤ daysIn last.year last.month := Nat.not_succ_le_self _
  rw [next, dif_neg beyond]
  rfl

/-- How many months a day is into the calendar. -/
def months (day : Day) : ℕ := day.year * 12 + day.month

theorem months_nextMonth (day : Day) : (nextMonth day).months = day.months + 1 := by
  have bound := day.month_le
  unfold nextMonth
  split
  next => rfl
  next beyond =>
    show (day.year + 1) * 12 + 1 = day.year * 12 + day.month + 1
    omega

/-- The first day of the next month is before no day of that month or earlier. -/
theorem not_before_nextMonth (day other : Day) (reached : (nextMonth day).months ≤ other.months) :
    ¬ other.Before (nextMonth day) := by
  have bounds : (1 ≤ other.month ∧ other.month ≤ 12) ∧ 1 ≤ other.day :=
    ⟨⟨other.month_pos, other.month_le⟩, other.day_pos⟩
  have first : (nextMonth day).day = 1 := by
    unfold nextMonth
    split <;> rfl
  have bounds' : 1 ≤ (nextMonth day).month ∧ (nextMonth day).month ≤ 12 :=
    ⟨(nextMonth day).month_pos, (nextMonth day).month_le⟩
  unfold months at reached
  unfold Before
  omega

/-- Every later day is reached by going on from a day. -/
theorem exists_iterate_next {day other : Day} (before : day.Before other) :
    ∃ more, next^[more + 1] day = other := by
  -- by induction on how many months later the other day is
  have bounds : day.month ≤ 12 ∧ 1 ≤ other.month := ⟨day.month_le, other.month_pos⟩
  obtain ⟨gap, sum⟩ : ∃ gap, day.months + gap = other.months := by
    have ordered : day.months ≤ other.months := by
      unfold Before at before
      unfold months
      omega
    exact ⟨other.months - day.months, Nat.add_sub_cancel' ordered⟩
  clear bounds
  induction gap generalizing day with
  | zero =>
    have bounds : (1 ≤ day.month ∧ day.month ≤ 12) ∧ 1 ≤ other.month ∧ other.month ≤ 12 :=
      ⟨⟨day.month_pos, day.month_le⟩, other.month_pos, other.month_le⟩
    unfold months at sum
    unfold Before at before
    refine ⟨other.day - day.day - 1, ?_⟩
    refine iterate_next_of_month _ day other ?_ ?_ ?_ <;> omega
  | succ gap inductionHypothesis =>
    obtain ⟨more, reached⟩ := exists_iterate_next_nextMonth day
    have sum' : (nextMonth day).months + gap = other.months := by
      rw [months_nextMonth, ← sum, Nat.add_assoc, Nat.add_comm 1]
    rcases before_or_eq_or_before (nextMonth day) other with further | there | back
    · obtain ⟨rest, reached'⟩ := inductionHypothesis further sum'
      refine ⟨rest + 1 + more, ?_⟩
      rw [Nat.add_assoc, Function.iterate_add_apply, reached, reached']
    · exact ⟨more, reached.trans there⟩
    · -- the first day of a month is before no day of the same month
      exact absurd back (not_before_nextMonth day other (sum' ▸ Nat.le_add_right _ _))

/-! ### Numberings -/

section Numbering

variable {number : Day → ℤ} {least : ℕ}

/-- The numbers go up by one from each day to the next, from a year on. -/
def Counts (number : Day → ℤ) (least : ℕ) : Prop :=
  ∀ day : Day, least ≤ day.year → number (next day) = number day + 1

theorem year_le_next (day : Day) : day.year ≤ (next day).year := by
  unfold next
  split
  · exact le_rfl
  · split
    · exact le_rfl
    · exact Nat.le_succ _

theorem year_le_iterate_next (more : ℕ) (day : Day) : day.year ≤ (next^[more] day).year := by
  induction more generalizing day with
  | zero => exact le_rfl
  | succ more inductionHypothesis =>
    exact (year_le_next day).trans (inductionHypothesis (next day))

/-- The day reached after so many days has a number that is so much greater. -/
theorem Counts.iterate_next (counts : Counts number least) (more : ℕ) {day : Day}
    (recent : least ≤ day.year) : number (next^[more] day) = number day + more := by
  induction more generalizing day with
  | zero => exact (add_zero _).symm
  | succ more inductionHypothesis =>
    rw [Function.iterate_succ_apply, inductionHypothesis (recent.trans (year_le_next day)),
      counts day recent]
    omega

/-- A later day has a greater number. -/
theorem Counts.lt (counts : Counts number least) {day other : Day} (recent : least ≤ day.year)
    (before : day.Before other) : number day < number other := by
  obtain ⟨more, rfl⟩ := exists_iterate_next before
  rw [counts.iterate_next _ recent]
  omega

/-- Days with one number are the same day. -/
theorem Counts.injective (counts : Counts number least) {day other : Day}
    (recent : least ≤ day.year) (recent' : least ≤ other.year) (same : number day = number other) :
    day = other := by
  rcases before_or_eq_or_before day other with before | equal | after
  · exact absurd same (counts.lt recent before).ne
  · exact equal
  · exact absurd same.symm (counts.lt recent' after).ne

/-- A day that is not before another has no smaller number. -/
theorem Counts.le (counts : Counts number least) {day other : Day} (recent : least ≤ day.year)
    (ordered : ¬ other.Before day) : number day ≤ number other := by
  rcases before_or_eq_or_before day other with before | rfl | after
  · exact (counts.lt recent before).le
  · exact le_rfl
  · exact absurd after ordered

/-- Every number from that of a day on, up to that of another, is the number of a day between
them. -/
theorem Counts.exists_day (counts : Counts number least) {day other : Day}
    (recent : least ≤ day.year) {value : ℤ} (above : number day ≤ value)
    (below : value ≤ number other) (recent' : least ≤ other.year) :
    ∃ between : Day, number between = value ∧ day.year ≤ between.year ∧
      between.year ≤ other.year := by
  obtain ⟨more, rfl⟩ := Int.le.dest above
  have later : day.year ≤ (next^[more] day).year := year_le_iterate_next more day
  have reached : number (next^[more] day) = number day + more := counts.iterate_next more recent
  refine ⟨next^[more] day, reached, later, ?_⟩
  by_contra beyond
  have after : other.Before (next^[more] day) := Or.inl (not_le.mp beyond)
  exact absurd (counts.lt recent' after) (not_lt.mpr (reached.le.trans below))

end Numbering

end Day

end Gregorian
