/-
This file models the arithmetic of `Time` and `DateTime`, and finds when it is that of
seconds.

`update` carries whole days out of the seconds by a division that cuts off, and makes
what is left positive. A negative number of seconds that is not a whole number of days
therefore loses its sign: a second before midnight becomes a second after it, on the
same day. Every law below fails exactly when one side takes that turn and the other
does not take the same one.
-/

import CommonCpp.Date

namespace CommonCpp

/-! ### The code -/

@[ext]
structure Time where
  seconds : ℤ
  deriving DecidableEq

@[ext]
structure DateTime extends Date, Time
  deriving DecidableEq

/-- The seconds of a day. -/
def c_day : ℤ := 86400

namespace Time

def update (time : Time) : Time := ⟨|time.seconds.tmod c_day|⟩

/-- `+` and `-`, which also are `+=` and `-=` on a copy. -/
def advance (time : Time) (val : ℤ) : Time := update ⟨time.seconds + val⟩

def retreat (time : Time) (val : ℤ) : Time := update ⟨time.seconds - val⟩

/-- The seconds of a time of the day. -/
def InDay (time : Time) : Prop := 0 ≤ time.seconds ∧ time.seconds < c_day

instance (time : Time) : Decidable time.InDay :=
  inferInstanceAs (Decidable (0 ≤ time.seconds ∧ time.seconds < c_day))

end Time

namespace DateTime

def update (datetime : DateTime) : DateTime where
  julian := datetime.julian + datetime.seconds.tdiv c_day
  seconds := (Time.update datetime.toTime).seconds

/-- `+` and `-` of a number of seconds. -/
def advance (datetime : DateTime) (value : ℤ) : DateTime :=
  update { datetime with seconds := datetime.seconds + value }

def retreat (datetime : DateTime) (value : ℤ) : DateTime :=
  update { datetime with seconds := datetime.seconds - value }

/-- `-` of two dates. -/
def difference (datetime dt : DateTime) : ℤ :=
  (datetime.julian - dt.julian) * c_day + (datetime.seconds - dt.seconds)

/-- `<`. -/
def Less (datetime d : DateTime) : Prop :=
  if datetime.julian ≠ d.julian then datetime.julian < d.julian else datetime.seconds < d.seconds

instance (datetime d : DateTime) : Decidable (Less datetime d) :=
  inferInstanceAs (Decidable (ite _ _ _))

end DateTime

/-! ### Division that cuts off -/

/-- Seconds are carried rightly when they are not negative, or make whole days. -/
def Carried (seconds : ℤ) : Prop := 0 ≤ seconds ∨ c_day ∣ seconds

instance : DecidablePred Carried := fun seconds =>
  inferInstanceAs (Decidable (0 ≤ seconds ∨ c_day ∣ seconds))

theorem carried_iff (seconds : ℤ) : Carried seconds ↔ 0 ≤ seconds ∨ 86400 ∣ seconds := Iff.rfl

theorem tdiv_day (seconds : ℤ) :
    seconds.tdiv c_day = if Carried seconds then seconds / 86400 else seconds / 86400 + 1 := by
  show seconds.tdiv 86400 = _
  by_cases positive : 0 ≤ seconds
  · rw [if_pos ((carried_iff _).mpr (Or.inl positive)), Int.tdiv_eq_ediv_of_nonneg positive]
  · have flipped : seconds.tdiv 86400 = -(-seconds / 86400) := by
      rw [← Int.tdiv_eq_ediv_of_nonneg (by omega), Int.neg_tdiv, neg_neg]
    rw [flipped]
    split <;> rw [carried_iff] at * <;> omega

theorem abs_tmod_day (seconds : ℤ) : |seconds.tmod c_day| =
    if Carried seconds then seconds % 86400 else 86400 - seconds % 86400 := by
  show |seconds.tmod 86400| = _
  by_cases positive : 0 ≤ seconds
  · rw [if_pos ((carried_iff _).mpr (Or.inl positive)), Int.tmod_eq_emod_of_nonneg positive]
    exact abs_of_nonneg (Int.emod_nonneg _ (by decide))
  · have flipped : |seconds.tmod 86400| = -seconds % 86400 := by
      rw [← abs_neg, ← Int.neg_tmod, Int.tmod_eq_emod_of_nonneg (by omega)]
      exact abs_of_nonneg (Int.emod_nonneg _ (by decide))
    rw [flipped]
    split <;> rw [carried_iff] at * <;> omega

section Laws

variable {datetime : DateTime} {time : Time}

theorem Time.inDay_update (time : Time) : time.update.InDay := by
  unfold InDay update
  simp only [abs_tmod_day, carried_iff]
  unfold c_day
  split <;> omega

/-- The seconds after a moment are those that were added. -/
theorem DateTime.difference_advance_iff (datetime : DateTime) (n : ℤ) :
    (datetime.advance n).difference datetime = n ↔ Carried (datetime.seconds + n) := by
  unfold difference advance update Time.update
  simp only [tdiv_day, abs_tmod_day, carried_iff]
  unfold c_day
  split <;> omega

/-- Adding twice is adding the sum when what is carried on the way makes no difference. -/
theorem DateTime.advance_advance_iff (datetime : DateTime) (n m : ℤ) :
    (datetime.advance n).advance m = datetime.advance (n + m) ↔
      if Carried (datetime.seconds + n) then
        (Carried (datetime.seconds + n + m) ↔ Carried ((datetime.seconds + n) % c_day + m))
      else c_day ∣ m ∧ 0 ≤ m ∧ datetime.seconds + n + m < 0 := by
  rw [DateTime.ext_iff]
  unfold advance update Time.update
  simp only [tdiv_day, abs_tmod_day, ← add_assoc]
  generalize datetime.seconds + n = x
  by_cases carried : Carried x
  · simp only [if_pos carried]
    have days : (x + m) / 86400 = x / 86400 + (x % 86400 + m) / 86400 := by omega
    have rest : (x + m) % 86400 = (x % 86400 + m) % 86400 := by omega
    rw [days, rest]
    unfold c_day
    by_cases first : Carried (x % 86400 + m) <;> by_cases second : Carried (x + m) <;>
      simp only [first, second, if_true, if_false, iff_true, iff_false, and_true,
        not_true_eq_false]
    all_goals
      simp only [carried_iff] at first second
      omega
  · simp only [if_neg carried]
    unfold c_day
    by_cases first : Carried (86400 - x % 86400 + m) <;> by_cases second : Carried (x + m) <;>
      simp only [first, second, if_true, if_false]
    all_goals
      simp only [carried_iff] at carried first second
      omega

theorem DateTime.retreat_advance_iff (valid : datetime.InDay) (n : ℤ) :
    (datetime.advance n).retreat n = datetime ↔ Carried (datetime.seconds + n) ∧
      (datetime.seconds + n < c_day ∨ datetime.seconds = 0) := by
  rw [DateTime.ext_iff]
  unfold advance retreat update Time.update
  simp only [tdiv_day, abs_tmod_day, carried_iff]
  unfold Time.InDay at valid
  unfold c_day at *
  split <;> split <;> omega

/-- A moment is before a later one, unless the later one comes out before it, or an earlier one
after it. -/
theorem DateTime.less_advance_iff (valid : datetime.InDay) (n : ℤ) :
    (datetime.Less (datetime.advance n) ↔ 0 < n) ↔
      datetime.seconds + n ≤ -c_day ∨ -datetime.seconds ≤ datetime.seconds + n := by
  unfold Less advance update Time.update
  simp only [tdiv_day, abs_tmod_day, carried_iff]
  unfold Time.InDay at valid
  unfold c_day at *
  split <;> split <;> omega

theorem Time.seconds_advance_iff (time : Time) (n : ℤ) :
    (time.advance n).seconds = (time.seconds + n) % c_day ↔
      0 ≤ time.seconds + n ∨ c_day / 2 ∣ time.seconds + n := by
  unfold advance update
  simp only [abs_tmod_day, carried_iff]
  unfold c_day
  split <;> omega

theorem Time.retreat_advance_iff (valid : time.InDay) (n : ℤ) :
    (time.advance n).retreat n = time ↔ if 0 ≤ time.seconds + n then
      time.seconds + n < c_day ∨ c_day / 2 ∣ time.seconds
      else c_day / 2 ∣ time.seconds + n := by
  rw [Time.ext_iff]
  unfold advance retreat update
  simp only [abs_tmod_day, carried_iff]
  unfold InDay at valid
  unfold c_day at *
  obtain ⟨days, days_⟩ : ∃ days, days = (time.seconds + n) / 86400 := ⟨_, rfl⟩
  by_cases positive : 0 ≤ time.seconds + n
  · have back : (time.seconds + n) % 86400 - n = time.seconds - 86400 * days := by omega
    rw [if_pos positive, if_pos (Or.inl positive), back]
    split <;> omega
  · rw [if_neg positive]
    split
    next whole =>
      have back : (time.seconds + n) % 86400 - n = time.seconds - 86400 * days := by omega
      rw [back]
      split <;> omega
    next odd =>
      split <;> omega

/-- Each law of the arithmetic of seconds holds exactly when what is carried on its two sides comes
out the same. The seconds stay those of a day in any case. -/
theorem dateTime_arithmetic_iff (valid : datetime.InDay) (valid' : time.InDay) (n m : ℤ) :
    ((datetime.advance n).InDay ∧
      ((datetime.advance n).difference datetime = n ↔ Carried (datetime.seconds + n)) ∧
      ((datetime.advance n).advance m = datetime.advance (n + m) ↔
        if Carried (datetime.seconds + n) then
          (Carried (datetime.seconds + n + m) ↔ Carried ((datetime.seconds + n) % c_day + m))
        else c_day ∣ m ∧ 0 ≤ m ∧ datetime.seconds + n + m < 0) ∧
      ((datetime.advance n).retreat n = datetime ↔ Carried (datetime.seconds + n) ∧
        (datetime.seconds + n < c_day ∨ datetime.seconds = 0)) ∧
      ((datetime.Less (datetime.advance n) ↔ 0 < n) ↔
        datetime.seconds + n ≤ -c_day ∨ -datetime.seconds ≤ datetime.seconds + n)) ∧
    (time.advance n).InDay ∧
    ((time.advance n).seconds = (time.seconds + n) % c_day ↔
      0 ≤ time.seconds + n ∨ c_day / 2 ∣ time.seconds + n) ∧
    ((time.advance n).retreat n = time ↔ if 0 ≤ time.seconds + n then
      time.seconds + n < c_day ∨ c_day / 2 ∣ time.seconds
      else c_day / 2 ∣ time.seconds + n) :=
  ⟨⟨Time.inDay_update _, datetime.difference_advance_iff n, datetime.advance_advance_iff n m,
    DateTime.retreat_advance_iff valid n, DateTime.less_advance_iff valid n⟩,
    Time.inDay_update _, time.seconds_advance_iff n, Time.retreat_advance_iff valid' n⟩

/-- Midnight of a day, and a second back and on. -/
def midnight : DateTime := ⟨⟨2452699⟩, ⟨0⟩⟩

theorem dateTime_arithmetic_iff_midnight :
    midnight.InDay ∧ ¬ Carried (midnight.seconds + -1) ∧
      (midnight.advance (-1)).difference midnight ≠ -1 :=
  have valid : midnight.InDay := by decide
  have lost : ¬ Carried (midnight.seconds + -1) := by decide
  ⟨valid, lost, fun same =>
    lost ((dateTime_arithmetic_iff valid valid (-1) 1).1.2.1.mp same)⟩

/-- A second before midnight comes out as a second after it. -/
theorem dateTime_loses_sign : ¬ ∀ (datetime : DateTime) (n : ℤ), datetime.InDay →
    (datetime.advance n).difference datetime = n :=
  fun law => absurd (law midnight (-1) (by decide)) (by decide)

end Laws

end CommonCpp
