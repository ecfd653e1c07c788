/-
This file models `Semaphore` and finds when it keeps to its limit.

`used` always counts the completed waits that have not been released. The timed
`wait` looks at `used` again after each wake-up, in a loop; the untimed one looks
once, before it sleeps, and takes a slot when it wakes whatever `used` says by
then. A thread that arrives between a release and the sleeper it woke, or a
spurious wake-up, therefore takes `used` past the limit. The runs that stay
within it are exactly those in which every thread that resumes in the untimed
`wait` finds a free slot.

The counters are natural numbers.
-/

import CommonCpp.Monitor

namespace CommonCpp

open Concurrency Concurrency.Monitor

namespace Semaphore

/-! ### The code -/

structure Fields where
  count : Nat
  waits : Nat
  used : Nat
  deriving DecidableEq

/-- `wait()`, `wait(timeout)` and `release()`. -/
inductive Call
  | wait
  | waitTimed
  | release
  deriving DecidableEq

inductive Frame
  | wait
  | waitTimed
  deriving DecidableEq

/-- The end of `wait()`. -/
def waitExit (fields : Fields) : Section Fields Unit Frame :=
  ⟨if fields.count ≠ 0 then { fields with used := fields.used + 1 } else fields, .none,
    .leave true⟩

/-- `wait()`, which tests the limit once. -/
def wait (fields : Fields) : Section Fields Unit Frame :=
  if fields.used ≥ fields.count then
    ⟨{ fields with waits := fields.waits + 1 }, .none, .sleep .wait⟩
  else waitExit fields

/-- The end of `wait(timeout)`. -/
def waitTimedExit (fields : Fields) (result : Bool) : Section Fields Unit Frame :=
  ⟨if result = true ∧ fields.count ≠ 0 then { fields with used := fields.used + 1 } else fields,
    .none, .leave result⟩

/-- `wait(timeout)` from its loop test on. -/
def waitTimed (fields : Fields) (result : Bool) : Section Fields Unit Frame :=
  if fields.used ≥ fields.count ∧ result = true then
    ⟨{ fields with waits := fields.waits + 1 }, .none, .sleep .waitTimed⟩
  else waitTimedExit fields result

/-- `release()`. -/
def release (fields : Fields) : Section Fields Unit Frame :=
  ⟨if fields.used ≠ 0 then { fields with used := fields.used - 1 } else fields,
    if fields.waits ≠ 0 then
      if fields.count ≠ 0 then .signal () else .broadcast ()
    else .none,
    .leave true⟩

/-- The sections of a semaphore's calls. A wait that ends decrements `waits`; the timed one then
leaves its loop if the limit is zero, and goes back to the loop test otherwise. -/
def resume (frame : Frame) (flag : Bool) (fields : Fields) : Section Fields Unit Frame :=
  let fields := { fields with waits := fields.waits - 1 }
  match frame with
  | .wait => waitExit fields
  | .waitTimed => if fields.count = 0 then waitTimedExit fields flag else waitTimed fields flag

/-- The calls of `Semaphore`. What a thread holds is the number of its successful waits it has
not released; it releases only after one. -/
def monitor (Thread : Type) : Monitor Thread Fields Call Unit Frame Nat where
  enter _ call fields :=
    match call with
    | .wait => wait fields
    | .waitTimed => waitTimed fields true
    | .release => release fields
  resume _ frame flag fields := resume frame flag fields
  call
    | .wait => .wait
    | .waitTimed => .waitTimed
  queue _ := ()
  timed
    | .wait => false
    | .waitTimed => true
  spurious := true
  inside _ := false
  may holds
    | .release => holds ≠ 0
    | _ => true
  book call result holds :=
    match call with
    | .release => holds - 1
    | _ => if result then holds + 1 else holds

/-- The state of a `Semaphore` and of the threads that use it. -/
abbrev State (Thread : Type) := Monitor.State Thread Fields Frame Nat

/-- The runs of `Semaphore(limit, avail)`, which asserts `avail <= limit`. `Semaphore(limit)` is
the case in which every slot is available. -/
def machine (Thread : Type) [DecidableEq Thread] [Fintype Thread] (limit avail : Nat) :
    Machine (State Thread) (Action Thread Call) :=
  (monitor Thread).machine (fun fields => avail ≤ limit ∧ fields = ⟨limit, 0, limit - avail⟩) 0

/-! ### The limit -/

section Limit

variable {Thread : Type} [DecidableEq Thread] [Fintype Thread] {limit avail : Nat}

/-- The slots in use are those locked in advance and one for each successful wait that has not
been released, and they do not exceed the limit. -/
def WithinLimit (limit avail : Nat) (state : State Thread) : Prop :=
  state.fields.used = (limit - avail) + ∑ thread, (state.threads thread).holds ∧
    state.fields.used ≤ state.fields.count

/-- A thread that resumes in the untimed `wait` finds a free slot. -/
def ResumesBelowLimit (state : State Thread) : Action Thread Call → Prop
  | .resume thread _ =>
    (state.threads thread).place.frame = some .wait → state.fields.used < state.fields.count
  | _ => True

def unitWeight : Option Frame → Nat → Nat := fun _ holds => holds

/-- What every step preserves, whether or not it keeps to the limit. -/
structure Invariant (limit avail : Nat) (state : State Thread) : Prop where
  count : state.fields.count = limit
  used : state.fields.used = (limit - avail) + tally unitWeight state.threads

theorem invariant_init {state : State Thread}
    (initial : (machine Thread limit avail).Init state) : Invariant limit avail state := by
  obtain ⟨fields, ⟨_, rfl⟩, rfl⟩ := initial
  constructor <;> simp [State.initial, tally, unitWeight]

/-- How a section changes `used`: by the change in what the running thread holds. -/
structure Balanced (source : State Thread) (thread : Thread) (call : Call)
    (passage : Section Fields Unit Frame) : Prop where
  count : passage.fields.count = source.fields.count
  used : passage.fields.used + (source.threads thread).holds = source.fields.used +
    (settleLocal (monitor Thread) call (source.threads thread).holds passage.next).holds

variable {source target : State Thread} {thread : Thread} {call : Call}
  {passage : Section Fields Unit Frame}

theorem Invariant.ran (holds : Invariant limit avail source)
    (ran : Ran (monitor Thread) source thread call passage target)
    (balanced : Balanced source thread call passage) : Invariant limit avail target := by
  have changed : tally unitWeight target.threads + (source.threads thread).holds =
      tally unitWeight source.threads + (target.threads thread).holds :=
    ran.tally_add unitWeight
  have used := balanced.used
  rw [← ran.own] at used
  constructor
  · rw [ran.fields, balanced.count, holds.count]
  · rw [ran.fields]
    have before := holds.used
    omega

omit [DecidableEq Thread] in
theorem enter_balanced (positive : 0 < limit) (holds : Invariant limit avail source)
    (allowed : (monitor Thread).may (source.threads thread).holds call = true) :
    Balanced source thread call ((monitor Thread).enter thread call source.fields) := by
  have count := holds.count
  have nonzero : source.fields.count ≠ 0 := by omega
  cases call with
  | wait =>
    by_cases full : source.fields.used ≥ source.fields.count <;>
      constructor <;> simp [monitor, wait, waitExit, full, nonzero, settleLocal]
    omega
  | waitTimed =>
    by_cases full : source.fields.used ≥ source.fields.count <;>
      constructor <;> simp [monitor, waitTimed, waitTimedExit, full, nonzero, settleLocal]
    omega
  | release =>
    have held : (source.threads thread).holds ≠ 0 := by simpa [monitor] using allowed
    have bounded : (source.threads thread).holds ≤ tally unitWeight source.threads :=
      le_tally unitWeight source.threads thread
    have used := holds.used
    have taken : source.fields.used ≠ 0 := by omega
    constructor <;> simp [monitor, release, taken, settleLocal]
    omega

omit [DecidableEq Thread] in
theorem resume_balanced (positive : 0 < limit) (holds : Invariant limit avail source)
    (frame : Frame) (flag : Bool) :
    Balanced source thread ((monitor Thread).call frame)
      ((monitor Thread).resume thread frame flag source.fields) := by
  have count := holds.count
  have nonzero : source.fields.count ≠ 0 := by omega
  cases frame with
  | wait =>
    constructor <;> simp [monitor, resume, waitExit, nonzero, settleLocal]
    omega
  | waitTimed =>
    cases flag with
    | false =>
      constructor <;> simp [monitor, resume, waitTimed, waitTimedExit, nonzero, settleLocal]
    | true =>
      by_cases full : source.fields.used ≥ source.fields.count <;>
        constructor <;>
        simp [monitor, resume, waitTimed, waitTimedExit, full, nonzero, settleLocal]
      omega

theorem invariant_step (positive : 0 < limit) (source : State Thread)
    (action : Action Thread Call) (target : State Thread)
    (holds : Invariant limit avail source)
    (stepped : (machine Thread limit avail).step source action = some target) :
    Invariant limit avail target := by
  refine preserved_of_sections ?_ ?_ ?_ source action target holds stepped
  · intro source thread call target holds idle allowed owner ran
    exact holds.ran ran (enter_balanced positive holds allowed)
  · intro source thread frame flag target holds free waitOver ran
    exact holds.ran ran (resume_balanced positive holds frame flag)
  · intro source thread target holds stirred
    constructor
    · rw [stirred.fields, holds.count]
    · rw [stirred.fields, stirred.tally_eq, holds.used]

omit [DecidableEq Thread] [Fintype Thread] in
/-- The first section of a call takes a slot only below the limit. -/
theorem enter_le_count (call : Call) (bounded : source.fields.used ≤ source.fields.count) :
    ((monitor Thread).enter thread call source.fields).fields.used ≤
      ((monitor Thread).enter thread call source.fields).fields.count := by
  cases call with
  | wait =>
    by_cases full : source.fields.used ≥ source.fields.count
    · simpa [monitor, wait, full] using bounded
    · simp only [monitor, wait, full, if_false, waitExit]
      split
      · exact Nat.lt_of_not_le full
      · exact bounded
  | waitTimed =>
    by_cases full : source.fields.used ≥ source.fields.count
    · simpa [monitor, waitTimed, full] using bounded
    · simp only [monitor, waitTimed, full, false_and, if_false, waitTimedExit]
      split
      · exact Nat.lt_of_not_le full
      · exact bounded
  | release =>
    simp only [monitor, release]
    split
    · exact (Nat.sub_le _ _).trans bounded
    · exact bounded

/-- The section after a wait takes a slot only below the limit, if it does so in the untimed
`wait`. -/
theorem resume_le_count {fields : Fields} {frame : Frame} {flag : Bool}
    (positive : 0 < fields.count) (bounded : fields.used ≤ fields.count)
    (below : frame = .wait → fields.used < fields.count) :
    (resume frame flag fields).fields.used ≤ (resume frame flag fields).fields.count := by
  have nonzero : fields.count ≠ 0 := by omega
  cases frame with
  | wait =>
    simp only [resume, waitExit, nonzero, ne_eq, not_false_eq_true, if_true]
    exact below rfl
  | waitTimed =>
    simp only [resume, nonzero, if_false]
    by_cases full : fields.used ≥ fields.count ∧ flag = true
    · simpa only [waitTimed, full.1, full.2, and_self, if_true] using bounded
    · simp only [waitTimed, full, if_false, waitTimedExit]
      split
      next granted =>
        have room : ¬ fields.used ≥ fields.count := fun atLimit => full ⟨atLimit, granted.1⟩
        exact Nat.lt_of_not_le room
      next => exact bounded

theorem le_count_step (positive : 0 < limit) (action : Action Thread Call)
    (holds : Invariant limit avail source)
    (bounded : source.fields.used ≤ source.fields.count)
    (below : ResumesBelowLimit source action)
    (stepped : (machine Thread limit avail).step source action = some target) :
    target.fields.used ≤ target.fields.count := by
  cases action with
  | enter thread call chosen =>
    obtain ⟨_, _, _, ran⟩ := step_enter stepped
    rw [ran.fields]
    exact enter_le_count call bounded
  | resume thread chosen =>
    obtain ⟨_, frame, flag, waitOver, ran⟩ := step_resume stepped
    rw [ran.fields]
    refine resume_le_count (by rw [holds.count]; exact positive) bounded fun untimed => ?_
    subst untimed
    exact below waitOver.frame_eq
  | spurious thread => rw [(step_spurious stepped).fields]; exact bounded
  | timeout thread => rw [(step_timeout stepped).fields]; exact bounded

/-- A thread that resumes in the untimed `wait` at the limit takes `used` past it. -/
theorem exceeded_of_not_resumesBelowLimit (positive : 0 < limit) (action : Action Thread Call)
    (holds : Invariant limit avail source) (above : ¬ ResumesBelowLimit source action)
    (stepped : (machine Thread limit avail).step source action = some target) :
    ¬ target.fields.used ≤ target.fields.count := by
  cases action with
  | resume thread chosen =>
    simp only [ResumesBelowLimit] at above
    push Not at above
    obtain ⟨untimed, full⟩ := above
    obtain ⟨_, frame, flag, waitOver, ran⟩ := step_resume stepped
    rw [waitOver.frame_eq] at untimed
    cases untimed
    have nonzero : source.fields.count ≠ 0 := by
      rw [holds.count]
      exact Nat.pos_iff_ne_zero.mp positive
    rw [ran.fields]
    simp only [monitor, resume, waitExit, nonzero, ne_eq, not_false_eq_true, if_true]
    omega
  | _ => exact absurd trivial above

/-- A run of a `Semaphore` keeps to its limit exactly when every thread that resumes in the
untimed `wait` finds a free slot. -/
theorem semaphore_withinLimit_iff (positive : 0 < limit)
    {moves : List (Move (State Thread) (Action Thread Call))} {state : State Thread}
    (run : (machine Thread limit avail).Run moves state) :
    Machine.Throughout (WithinLimit limit avail) moves state ↔
      Machine.Meets ResumesBelowLimit moves := by
  refine run.throughout_iff_meets
    (fun state => Invariant limit avail state ∧ state.fields.used ≤ state.fields.count)
    ?_ ?_ ?_ ?_
  · intro state initial
    refine ⟨invariant_init initial, ?_⟩
    obtain ⟨fields, ⟨_, rfl⟩, rfl⟩ := initial
    exact Nat.sub_le limit avail
  · rintro source action target ⟨holds, bounded⟩ below stepped
    exact ⟨invariant_step positive source action target holds stepped,
      le_count_step positive action holds bounded below stepped⟩
  · rintro state ⟨holds, bounded⟩
    exact ⟨holds.used, bounded⟩
  · rintro source action target ⟨holds, _⟩ above stepped ⟨_, bounded⟩
    exact exceeded_of_not_resumesBelowLimit positive action holds above stepped bounded

end Limit

/-- One slot, taken, waited for, released to the sleeper and taken by it. -/
theorem semaphore_withinLimit_iff_handover :
    ∃ moves, ∃ state : State (Fin 2), (machine (Fin 2) 1 1).Run moves state ∧
      (state.threads 1).holds = 1 ∧ Machine.Throughout (WithinLimit 1 1) moves state := by
  let start : State (Fin 2) := .initial ⟨1, 0, 0⟩ 0
  have initial : (machine (Fin 2) 1 1).Init start := ⟨_, ⟨le_rfl, rfl⟩, rfl⟩
  have run := (((Machine.Run.start initial).take (.enter 0 .wait none) (by decide)).take
    (.enter 1 .wait none) (by decide)).take (.enter 0 .release (some 1)) (by decide)
  refine ⟨_, _, run.take (.resume 1 none) (by decide), by decide, ?_⟩
  rw [semaphore_withinLimit_iff (by decide) (run.take (.resume 1 none) (by decide))]
  refine Machine.meets_cons.mpr ⟨fun _ => by decide, ?_⟩
  exact Machine.meets_cons.mpr ⟨trivial, Machine.meets_cons.mpr ⟨trivial,
    Machine.meets_cons.mpr ⟨trivial, by simp [Machine.Meets]⟩⟩⟩

/-- One slot is taken, a second thread sleeps for it in the untimed `wait`, the slot is released
to the sleeper, and a third thread takes it before the sleeper resumes: two threads hold the one
slot. -/
theorem semaphore_exceeds_limit :
    ∃ moves, ∃ state : State (Fin 3), (machine (Fin 3) 1 1).Run moves state ∧
      state.fields.used = 2 ∧ state.fields.count = 1 ∧
      ¬ Machine.Throughout (WithinLimit 1 1) moves state := by
  let start : State (Fin 3) := .initial ⟨1, 0, 0⟩ 0
  have initial : (machine (Fin 3) 1 1).Init start := ⟨_, ⟨le_rfl, rfl⟩, rfl⟩
  let played := (machine (Fin 3) 1 1).play start
    [.enter 0 .wait none, .enter 1 .wait none, .enter 0 .release (some 1),
      .enter 2 .waitTimed none, .resume 1 none]
  obtain ⟨moves, run⟩ : (machine (Fin 3) 1 1).Reachable (played.get (by decide)) :=
    Machine.reachable_get initial _
  refine ⟨moves, _, run, by decide, by decide, fun throughout => ?_⟩
  exact absurd throughout.1.2 (by decide)

end Semaphore

end CommonCpp
