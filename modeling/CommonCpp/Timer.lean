/-
This file settles whether a timer that is moved by milliseconds moves by them.

`Timer` keeps its deadline as seconds and a part of a second, in the `timespec` or the `timeval` of
the build. Its operators move the two fields apart, and `adj` normalises them. It carries whole
seconds out of the part. It does not borrow one for a part below zero: it drops the sign. So `+=` is
exact, and `-=` leaves the deadline late by twice what it had to borrow, if it had to.

A timer whose fields are both zero is not active, and is set to the clock before it moves. What the
clock reads is part of a call. The seconds are integers: a `time_t` that overflows has no meaning.
-/

import Mathlib.Tactic.Linarith
import Mathlib.Tactic.LinearCombination
import Mathlib.Tactic.Ring

namespace CommonCpp

namespace Timer

/-! ### The code -/

/-- The structure a build keeps a time in. -/
inductive Build where
  | timespec
  | timeval

/-- The units of the part of a second that make a second. -/
def Build.second : Build → ℤ
  | timespec => 1000000000
  | timeval => 1000000

/-- The units of the part of a second that make a millisecond. -/
def Build.millisecond : Build → ℤ
  | timespec => 1000000
  | timeval => 1000

/-- A `timespec` or a `timeval`: the part of a second is `tv_nsec` or `tv_usec`. -/
structure Time where
  sec : ℤ
  part : ℤ
  deriving DecidableEq

variable (build : Build)

def adj (ts : Time) : Time :=
  let sec := if ts.part ≥ build.second then ts.sec + ts.part.tdiv build.second else ts.sec
  let part := ts.part.tmod build.second
  ⟨sec, if part < 0 then -part else part⟩

/-- What the clock reads: a normalised time, not before the clock's own epoch. -/
structure Reading where
  time : Time
  sec_nonneg : 0 ≤ time.sec
  part_nonneg : 0 ≤ time.part
  part_lt : time.part < build.second

end Timer

/-- A timer: the time it expires at, and whether that was updated since the last look. -/
structure Timer where
  timer : Timer.Time
  updated : Bool
  deriving DecidableEq

namespace Timer

variable (build : Build)

def isActive (t : Timer) : Bool := ¬ (t.timer.sec = 0 ∧ t.timer.part = 0)

def set (now : Reading build) : Timer := ⟨now.time, true⟩

/-- What both operators do first. -/
def started (now : Reading build) (t : Timer) : Timer := if t.isActive then t else set build now

/-- `operator+=` of a timeout. -/
def add (now : Reading build) (t : Timer) (timeout : ℕ) : Timer :=
  let t := started build now t
  ⟨adj build ⟨t.timer.sec + (timeout / 1000 : ℕ),
    t.timer.part + (timeout % 1000 : ℕ) * build.millisecond⟩, true⟩

/-- `operator-=` of a timeout. It does not note that the timer was updated. -/
def sub (now : Reading build) (t : Timer) (timeout : ℕ) : Timer :=
  let t := started build now t
  ⟨adj build ⟨t.timer.sec - (timeout / 1000 : ℕ),
    t.timer.part - (timeout % 1000 : ℕ) * build.millisecond⟩, t.updated⟩

/-- A call that moves a timer, with what the clock reads at it. -/
inductive Call where
  | add (now : Reading build) (timeout : ℕ)
  | sub (now : Reading build) (timeout : ℕ)

def Call.run {build : Build} (t : Timer) : Call build → Timer
  | .add now timeout => Timer.add build now t timeout
  | .sub now timeout => Timer.sub build now t timeout

/-! ### Deadlines -/

/-- The fields are normalised: the part is less than a second. -/
def Normalised (time : Time) : Prop := 0 ≤ time.part ∧ time.part < build.second

/-- The time in units of the part of a second. -/
def deadline (time : Time) : ℤ := time.sec * build.second + time.part

/-- The units in a timeout, which counts milliseconds. -/
def units (timeout : ℕ) : ℤ := timeout * build.millisecond

/-- What of a timeout moves the part of a second. -/
def remainder (timeout : ℕ) : ℤ := (timeout % 1000 : ℕ) * build.millisecond

theorem second_eq : build.second = 1000 * build.millisecond := by
  cases build <;> rfl

theorem millisecond_pos : 0 < build.millisecond := by
  cases build <;> decide

theorem second_pos : 0 < build.second := by
  cases build <;> decide

theorem remainder_nonneg (timeout : ℕ) : 0 ≤ remainder build timeout :=
  Int.mul_nonneg (Int.natCast_nonneg _) (millisecond_pos build).le

theorem remainder_lt (timeout : ℕ) : remainder build timeout < build.second := by
  have below : timeout % 1000 < 1000 := Nat.mod_lt _ (by decide)
  rw [second_eq]
  exact Int.mul_lt_mul_of_pos_right (by exact_mod_cast below) (millisecond_pos build)

theorem units_eq (timeout : ℕ) :
    units build timeout = (timeout / 1000 : ℕ) * build.second + remainder build timeout := by
  have split : (timeout : ℤ) = 1000 * (timeout / 1000 : ℕ) + (timeout % 1000 : ℕ) := by
    exact_mod_cast (Nat.div_add_mod timeout 1000).symm
  rw [units, remainder, second_eq]
  linear_combination split * build.millisecond

variable {build}

theorem Normalised.sec_eq {time : Time} (normal : Normalised build time) :
    time.sec = deadline build time / build.second := by
  rw [deadline, add_comm, Int.add_mul_ediv_right _ _ (second_pos build).ne',
    Int.ediv_eq_zero_of_lt normal.1 normal.2, zero_add]

theorem Normalised.part_eq {time : Time} (normal : Normalised build time) :
    time.part = deadline build time % build.second := by
  rw [deadline, add_comm, Int.add_mul_emod_self_right, Int.emod_eq_of_lt normal.1 normal.2]

/-- Normalised times are told apart by their deadlines. -/
theorem Normalised.deadline_injective {first second : Time} (normal : Normalised build first)
    (normal' : Normalised build second) :
    deadline build first = deadline build second ↔ first = second := by
  constructor
  · intro equal
    have secs : first.sec = second.sec := by
      rw [normal.sec_eq, normal'.sec_eq, equal]
    have parts : first.part = second.part := by
      rw [normal.part_eq, normal'.part_eq, equal]
    cases first
    cases second
    cases secs
    cases parts
    rfl
  · intro equal
    rw [equal]

theorem Reading.normalised (now : Reading build) : Normalised build now.time :=
  ⟨now.part_nonneg, now.part_lt⟩

theorem Reading.deadline_nonneg (now : Reading build) : 0 ≤ deadline build now.time :=
  Int.add_nonneg (Int.mul_nonneg now.sec_nonneg (second_pos build).le) now.part_nonneg

theorem isActive_iff (t : Timer) : t.isActive = true ↔ t.timer ≠ ⟨0, 0⟩ := by
  obtain ⟨⟨sec, part⟩, updated⟩ := t
  simp only [isActive, decide_eq_true_eq, ne_eq, Time.mk.injEq]

/-! ### What normalising does -/

/-- The whole seconds of a part are carried. -/
theorem adj_carry {ts : Time} (nonneg : 0 ≤ ts.part) :
    deadline build (adj build ts) = deadline build ts ∧ Normalised build (adj build ts) := by
  have positive := second_pos build
  have kept := Int.tmod_nonneg build.second nonneg
  have partEq : (adj build ts).part = ts.part.tmod build.second := if_neg kept.not_gt
  refine ⟨?_, partEq ▸ kept, partEq ▸ Int.tmod_lt_of_pos _ positive⟩
  rw [deadline, deadline, partEq]
  by_cases carries : ts.part ≥ build.second
  · have secEq : (adj build ts).sec = ts.sec + ts.part.tdiv build.second := if_pos carries
    rw [secEq]
    linear_combination Int.mul_tdiv_add_tmod ts.part build.second
  · have secEq : (adj build ts).sec = ts.sec := if_neg carries
    rw [secEq, Int.tmod_eq_of_lt nonneg (not_le.mp carries)]

/-- A part below zero loses its sign, and no second is borrowed for it. -/
theorem adj_borrow {ts : Time} (neg : ts.part < 0) (above : -build.second < ts.part) :
    deadline build (adj build ts) = deadline build ts + 2 * -ts.part ∧
      Normalised build (adj build ts) := by
  have positive := second_pos build
  have whole : ts.part.tmod build.second = ts.part := by
    rw [← neg_neg ts.part, Int.neg_tmod, Int.tmod_eq_of_lt (by linarith) (by linarith)]
  have partEq : (adj build ts).part = -ts.part := by
    show (if ts.part.tmod build.second < 0 then -ts.part.tmod build.second
      else ts.part.tmod build.second) = -ts.part
    rw [whole, if_pos neg]
  have secEq : (adj build ts).sec = ts.sec := if_neg (by linarith)
  refine ⟨?_, partEq ▸ by linarith, partEq ▸ by linarith⟩
  rw [deadline, deadline, partEq, secEq]
  ring

/-! ### What a call does -/

/-- By how much a timer that had to be set to the clock first has been moved. -/
theorem deadline_started (now : Reading build) (t : Timer) :
    deadline build (started build now t).timer =
      deadline build t.timer + if t.isActive then 0 else deadline build now.time := by
  unfold started
  split
  · rw [add_zero]
  · next inactive =>
    have zero : t.timer = ⟨0, 0⟩ := by
      by_contra different
      exact inactive ((isActive_iff t).mpr different)
    rw [zero]
    show deadline build now.time = 0 * build.second + 0 + deadline build now.time
    ring

theorem Normalised.started {t : Timer} (normal : Normalised build t.timer) (now : Reading build) :
    Normalised build (started build now t).timer := by
  unfold Timer.started
  split
  · exact normal
  · exact now.normalised

/-- `+=` moves what it starts from by the timeout. -/
theorem add_spec (now : Reading build) {t : Timer} (normal : Normalised build t.timer)
    (timeout : ℕ) :
    deadline build (add build now t timeout).timer =
        deadline build (started build now t).timer + units build timeout ∧
      Normalised build (add build now t timeout).timer := by
  obtain ⟨nonneg, below⟩ := normal.started now
  have remainderNonneg := remainder_nonneg build timeout
  have remainderLt := remainder_lt build timeout
  obtain ⟨moved, normal'⟩ := @adj_carry build
    ⟨(started build now t).timer.sec + (timeout / 1000 : ℕ),
      (started build now t).timer.part + remainder build timeout⟩
    (by show 0 ≤ _ + _; linarith)
  refine ⟨moved.trans ?_, normal'⟩
  rw [units_eq, deadline, deadline]
  ring

/-- What `-=` would have to borrow. -/
def lacking (build : Build) (t : Timer) (timeout : ℕ) : ℤ :=
  max 0 (remainder build timeout - t.timer.part)

/-- `-=` moves what it starts from back by the timeout, and forth by twice what it lacks. -/
theorem sub_spec (now : Reading build) {t : Timer} (normal : Normalised build t.timer)
    (timeout : ℕ) :
    deadline build (sub build now t timeout).timer =
        deadline build (started build now t).timer - units build timeout +
          2 * lacking build (started build now t) timeout ∧
      Normalised build (sub build now t timeout).timer := by
  obtain ⟨nonneg, below⟩ := normal.started now
  have remainderNonneg := remainder_nonneg build timeout
  have remainderLt := remainder_lt build timeout
  let moved : Time := ⟨(started build now t).timer.sec - (timeout / 1000 : ℕ),
    (started build now t).timer.part - remainder build timeout⟩
  have movedEq : deadline build moved =
      deadline build (started build now t).timer - units build timeout := by
    rw [units_eq, deadline, deadline]
    ring
  show deadline build (adj build moved) = _ ∧ Normalised build (adj build moved)
  by_cases enough : remainder build timeout ≤ (started build now t).timer.part
  · have none : lacking build (started build now t) timeout = 0 :=
      max_eq_left (by linarith)
    obtain ⟨exactly, normal'⟩ := @adj_carry build moved
      (by show 0 ≤ _ - _; linarith)
    exact ⟨by rw [exactly, movedEq, none]; ring, normal'⟩
  · have some : lacking build (started build now t) timeout = -moved.part :=
      (max_eq_right (by linarith)).trans (neg_sub _ _).symm
    obtain ⟨late, normal'⟩ := @adj_borrow build moved
      (by show _ - _ < 0; linarith) (by show _ < _ - _; linarith)
    exact ⟨by rw [late, movedEq, some], normal'⟩

/-! ### Exactness -/

/-- What a call asks for. -/
def Call.amount : Call build → ℤ
  | .add _ timeout => units build timeout
  | .sub _ timeout => -units build timeout

/-- The call finds the timer active, or a clock that reads zero, and a `-=` finds the part of a
second it takes away. -/
def Call.Fits (t : Timer) : Call build → Prop
  | .add now _ => t.isActive ∨ now.time = ⟨0, 0⟩
  | .sub now timeout =>
    (t.isActive ∨ now.time = ⟨0, 0⟩) ∧ remainder build timeout ≤ t.timer.part

/-- The timer after some calls. -/
def after (t : Timer) (calls : List (Call build)) : Timer := calls.foldl Call.run t

/-- Each of the calls fits the timer it is made on. -/
def Fit : Timer → List (Call build) → Prop
  | _, [] => True
  | t, call :: rest => call.Fits t ∧ Fit (call.run t) rest

theorem Reading.deadline_eq_zero (now : Reading build) :
    deadline build now.time = 0 ↔ now.time = ⟨0, 0⟩ := by
  have zero : Normalised build ⟨0, 0⟩ := ⟨le_rfl, second_pos build⟩
  rw [← now.normalised.deadline_injective zero]
  simp only [deadline, zero_mul, add_zero]

/-- A timer stays where it is before it moves when it is active, or when the clock reads zero. -/
theorem deadline_started_eq (now : Reading build) (t : Timer) :
    deadline build (started build now t).timer = deadline build t.timer ↔
      t.isActive ∨ now.time = ⟨0, 0⟩ := by
  rw [deadline_started]
  by_cases active : t.isActive
  · simp only [active, if_true, add_zero, true_or]
  · rw [if_neg active, add_eq_left, now.deadline_eq_zero]
    simp only [active, Bool.false_eq_true, false_or]

theorem deadline_started_ge (now : Reading build) (t : Timer) :
    deadline build t.timer ≤ deadline build (started build now t).timer := by
  rw [deadline_started]
  split
  · rw [add_zero]
  · linarith [now.deadline_nonneg]

theorem lacking_nonneg (t : Timer) (timeout : ℕ) : 0 ≤ lacking build t timeout := le_max_left _ _

theorem lacking_eq_zero (t : Timer) (timeout : ℕ) :
    lacking build t timeout = 0 ↔ remainder build timeout ≤ t.timer.part := by
  rw [lacking, max_eq_left_iff, sub_nonpos]

/-- A timer that is where it was has the fields it had. -/
theorem started_part (now : Reading build) {t : Timer} (stays : t.isActive ∨ now.time = ⟨0, 0⟩) :
    (started build now t).timer.part = t.timer.part := by
  unfold started
  split
  · rfl
  · next inactive =>
    have zero : t.timer = ⟨0, 0⟩ := by
      by_contra different
      exact inactive ((isActive_iff t).mpr different)
    rw [zero]
    show now.time.part = 0
    rw [stays.resolve_left inactive]

/-- A call never leaves the deadline before the one it asks for, and leaves it there when it
fits. -/
theorem Call.run_spec (call : Call build) {t : Timer} (normal : Normalised build t.timer) :
    Normalised build (call.run t).timer ∧
      deadline build t.timer + call.amount ≤ deadline build (call.run t).timer ∧
      (deadline build (call.run t).timer = deadline build t.timer + call.amount ↔
        call.Fits t) := by
  cases call with
  | add now timeout =>
    obtain ⟨moved, normal'⟩ := add_spec now normal timeout
    have notBefore := deadline_started_ge now t
    refine ⟨normal', ?_, ?_⟩
    · show _ + units build timeout ≤ deadline build (Timer.add build now t timeout).timer
      linarith
    · show deadline build (Timer.add build now t timeout).timer = _ + units build timeout ↔ _
      rw [moved, add_left_inj]
      exact deadline_started_eq now t
  | sub now timeout =>
    obtain ⟨moved, normal'⟩ := sub_spec now normal timeout
    have notBefore := deadline_started_ge now t
    have lacks := @lacking_nonneg build (started build now t) timeout
    refine ⟨normal', ?_, ?_⟩
    · show _ + -units build timeout ≤ deadline build (Timer.sub build now t timeout).timer
      linarith
    · show deadline build (Timer.sub build now t timeout).timer = _ + -units build timeout ↔ _
      rw [moved]
      constructor
      · intro exactly
        have stays := (deadline_started_eq now t).mp (by linarith)
        refine ⟨stays, ?_⟩
        rw [← started_part now stays, ← lacking_eq_zero]
        linarith
      · rintro ⟨stays, enough⟩
        have zero : lacking build (started build now t) timeout = 0 := by
          rw [lacking_eq_zero, started_part now stays]
          exact enough
        rw [zero, (deadline_started_eq now t).mpr stays]
        ring

/-- Some calls never leave the deadline before the one they ask for, and leave it there exactly
when each of them fits. -/
theorem after_spec (calls : List (Call build)) {t : Timer} (normal : Normalised build t.timer) :
    Normalised build (after t calls).timer ∧
      deadline build t.timer + (calls.map Call.amount).sum ≤
        deadline build (after t calls).timer ∧
      (deadline build (after t calls).timer =
        deadline build t.timer + (calls.map Call.amount).sum ↔ Fit t calls) := by
  induction calls generalizing t with
  | nil => exact ⟨normal, (add_zero _).le, iff_of_true (add_zero _).symm trivial⟩
  | cons call rest inductionHypothesis =>
    obtain ⟨normal', notBefore, exactly⟩ := call.run_spec normal
    obtain ⟨restNormal, restNotBefore, restExactly⟩ := inductionHypothesis normal'
    rw [List.map_cons, List.sum_cons]
    refine ⟨restNormal, ?_, ?_⟩
    · show _ ≤ deadline build (after (call.run t) rest).timer
      linarith
    · show deadline build (after (call.run t) rest).timer = _ ↔ _ ∧ Fit (call.run t) rest
      rw [← exactly, ← restExactly]
      -- Neither part of the list can make up for what the other is late by.
      constructor
      · intro whole
        exact ⟨by linarith, by linarith⟩
      · rintro ⟨first, others⟩
        linarith

/-- Where a normalised part and a remainder make no second, the remainder is there to be taken
away again; where they make one, it is not. -/
theorem remainder_le_sum {time moved : Time} (normal : Normalised build time)
    (normal' : Normalised build moved) (timeout : ℕ)
    (sum : deadline build moved = deadline build time + units build timeout) :
    remainder build timeout ≤ moved.part ↔
      time.part + remainder build timeout < build.second := by
  obtain ⟨nonneg, below⟩ := normal
  have remainderNonneg := remainder_nonneg build timeout
  have remainderLt := remainder_lt build timeout
  have whole : deadline build time + units build timeout =
      time.part + remainder build timeout +
        (time.sec + (timeout / 1000 : ℕ)) * build.second := by
    rw [units_eq, deadline]
    ring
  rw [normal'.part_eq, sum, whole, Int.add_mul_emod_self_right]
  by_cases carries : time.part + remainder build timeout < build.second
  · rw [Int.emod_eq_of_lt (by linarith) carries]
    exact iff_of_true (by linarith) carries
  · have left : (time.part + remainder build timeout) % build.second =
        time.part + remainder build timeout - build.second := by
      rw [← Int.sub_emod_right, Int.emod_eq_of_lt (by linarith) (by linarith)]
    rw [left]
    exact iff_of_false (by linarith) carries

theorem Normalised.isActive_iff {t : Timer} (normal : Normalised build t.timer) :
    t.isActive = true ↔ deadline build t.timer ≠ 0 := by
  have zero : Normalised build ⟨0, 0⟩ := ⟨le_rfl, second_pos build⟩
  have none : deadline build ⟨0, 0⟩ = 0 := (add_zero _).trans (zero_mul _)
  rw [Timer.isActive_iff, not_iff_not, ← normal.deadline_injective zero, none]

/-- What was added can be taken back when no second was carried for it, and when the timer did not
come to stand at zero. -/
theorem sub_add_timer (now now' : Reading build) {t : Timer} (active : t.isActive)
    (normal : Normalised build t.timer) (timeout : ℕ) :
    (sub build now' (add build now t timeout) timeout).timer = t.timer ↔
      t.timer.part + remainder build timeout < build.second ∧
        (deadline build t.timer + units build timeout ≠ 0 ∨ now'.time = ⟨0, 0⟩) := by
  have addNormal : Normalised build (add build now t timeout).timer :=
    ((Call.add now timeout).run_spec normal).1
  obtain ⟨subNormal, -, subExact⟩ := (Call.sub now' timeout).run_spec addNormal
  have moved : deadline build (add build now t timeout).timer =
      deadline build t.timer + units build timeout :=
    ((Call.add now timeout).run_spec normal).2.2.mpr (.inl active)
  have back : deadline build (add build now t timeout).timer + -units build timeout =
      deadline build t.timer := by
    rw [moved]
    ring
  have taken : deadline build (sub build now' (add build now t timeout) timeout).timer =
      deadline build t.timer ↔ (Call.sub now' timeout).Fits (add build now t timeout) :=
    (Eq.congr_right back).symm.trans subExact
  refine (subNormal.deadline_injective normal).symm.trans (taken.trans ?_)
  show ((add build now t timeout).isActive ∨ now'.time = ⟨0, 0⟩) ∧ _ ≤ _ ↔ _
  rw [addNormal.isActive_iff, remainder_le_sum normal addNormal timeout moved, and_comm, moved]

/-- `+=` is exact for every active timer. `-=` is exact when the milliseconds it takes beside whole
seconds are there to take, and `+=` can be taken back when it did not carry; any calls are exact
when each of them is. -/
theorem timeouts_move_exactly (t : Timer) (active : t.isActive)
    (normal : Normalised build t.timer) (a b : ℕ) (now now' : Reading build)
    (calls : List (Call build)) :
    (deadline build (add build now t a).timer = deadline build t.timer + units build a ∧
        Normalised build (add build now t a).timer) ∧
      (deadline build (sub build now t b).timer = deadline build t.timer - units build b ↔
          remainder build b ≤ t.timer.part) ∧
      Normalised build (sub build now t b).timer ∧
      ((sub build now' (add build now t a) a).timer = t.timer ↔
        t.timer.part + remainder build a < build.second ∧
          (deadline build t.timer + units build a ≠ 0 ∨ now'.time = ⟨0, 0⟩)) ∧
      (deadline build (after t calls).timer =
        deadline build t.timer + (calls.map Call.amount).sum ↔ Fit t calls) ∧
      Normalised build (after t calls).timer := by
  obtain ⟨addNormal, -, addExact⟩ := (Call.add now a).run_spec normal
  obtain ⟨subNormal, -, subExact⟩ := (Call.sub now b).run_spec normal
  obtain ⟨afterNormal, -, afterExact⟩ := after_spec calls normal
  refine ⟨⟨addExact.mpr (.inl active), addNormal⟩, ?_, subNormal,
    sub_add_timer now now' active normal a, afterExact, afterNormal⟩
  rw [sub_eq_add_neg]
  refine subExact.trans ?_
  show (t.isActive ∨ now.time = ⟨0, 0⟩) ∧ remainder build b ≤ t.timer.part ↔ _
  exact and_iff_right (.inl active)

/-- A clock that has not run yet. -/
def noTime : Reading .timespec := ⟨⟨0, 0⟩, le_rfl, le_rfl, by decide⟩

theorem timeouts_move_exactly_ten :
    Fit ⟨⟨10, 5000000⟩, true⟩ [Call.sub noTime 5, .add noTime 1500, .sub noTime 2000] ↔
      deadline .timespec
          (after ⟨⟨10, 5000000⟩, true⟩
            [Call.sub noTime 5, .add noTime 1500, .sub noTime 2000]).timer =
        deadline .timespec ⟨10, 5000000⟩ +
          ([Call.sub noTime 5, .add noTime 1500, .sub noTime 2000].map Call.amount).sum :=
  (timeouts_move_exactly ⟨⟨10, 5000000⟩, true⟩ (by decide) ⟨by decide, by decide⟩ 1 1 noTime noTime
    [.sub noTime 5, .add noTime 1500, .sub noTime 2000]).2.2.2.2.1.symm

/-- One millisecond before ten seconds is 9.999 seconds, and not 10.001 seconds. -/
theorem sub_late :
    sub .timespec noTime ⟨⟨10, 0⟩, true⟩ 1 = ⟨⟨10, 1000000⟩, true⟩ ∧
      ¬ (deadline .timespec (sub .timespec noTime ⟨⟨10, 0⟩, true⟩ 1).timer =
        deadline .timespec ⟨10, 0⟩ - units .timespec 1) := by
  constructor <;> decide

end Timer

end CommonCpp
