/-
This file gives the machine of a monitor: an object whose fields are guarded by
one mutex and whose calls may wait on condition variables.

The code of a monitor is the sequential text of its critical sections. A call
runs a section when it begins, and one more each time a wait of it ends; a
section reads and writes the fields, may signal or broadcast a condition, and
ends by returning, by returning with the mutex still locked, or by going to
sleep. Everything else is the scheduler's: which thread runs next, which
sleeper a signal chooses, when a timed wait expires, whether a sleeper wakes
without a signal. The machine below leaves all of that open.

A thread's bookkeeping of what it holds is kept beside its place in the code and
moves only by the value a call returns. Quantities summed over the threads are
tallies of the suspended call and the holds; a wake-up, a spurious one or a
timeout never changes a tally, so a step changes it by what the running thread
alone contributes.
-/

import Mathlib.Algebra.BigOperators.Group.Finset.Basic
import Mathlib.Algebra.BigOperators.Group.Finset.Piecewise
import Mathlib.Algebra.Order.BigOperators.Group.Finset
import Mathlib.Data.Fintype.Basic
import CommonCpp.Machine

namespace Concurrency

/-! ### Threads -/

/-- Where a thread is. A suspended call is asleep on a condition, or has been taken off it by a
wake-up or by the expiry of its timeout and still has to reacquire the mutex. -/
inductive Place (Frame : Type)
  | idle
  | asleep (frame : Frame)
  | woken (frame : Frame)
  | expired (frame : Frame)
  deriving DecidableEq

namespace Place

variable {Frame : Type}

/-- The suspended call, if there is one. -/
def frame : Place Frame → Option Frame
  | idle => none
  | asleep frame => some frame
  | woken frame => some frame
  | expired frame => some frame

/-- A wake-up takes a sleeper off its condition. -/
def wake : Place Frame → Place Frame
  | asleep frame => woken frame
  | other => other

/-- The thread sleeps in a call of the given kind. -/
def Sleeps (kind : Frame → Prop) : Place Frame → Prop
  | asleep frame => kind frame
  | _ => False

instance (kind : Frame → Prop) [DecidablePred kind] :
    (place : Place Frame) → Decidable (place.Sleeps kind)
  | idle => inferInstanceAs (Decidable False)
  | asleep frame => inferInstanceAs (Decidable (kind frame))
  | woken _ => inferInstanceAs (Decidable False)
  | expired _ => inferInstanceAs (Decidable False)

@[simp] theorem frame_idle : (idle : Place Frame).frame = none := rfl

@[simp] theorem frame_asleep (frame : Frame) : (asleep frame).frame = some frame := rfl

@[simp] theorem frame_woken (frame : Frame) : (woken frame).frame = some frame := rfl

@[simp] theorem frame_expired (frame : Frame) : (expired frame).frame = some frame := rfl

theorem sleeps_iff {kind : Frame → Prop} {place : Place Frame} :
    place.Sleeps kind ↔ ∃ frame, place = asleep frame ∧ kind frame := by
  cases place with
  | asleep frame =>
    constructor
    · intro sleeps
      exact ⟨frame, rfl, sleeps⟩
    · rintro ⟨_, equal, sleeps⟩
      cases equal
      exact sleeps
  | _ => simp [Sleeps]

end Place

/-- A thread: where it is, and what the calls it made have left it holding. -/
structure Local (Frame Holds : Type) where
  place : Place Frame
  holds : Holds

/-- The thread at another place, with the same holds. -/
def Local.moveTo {Frame Holds : Type} (thread : Local Frame Holds) (place : Place Frame) :
    Local Frame Holds :=
  { thread with place := place }

/-! ### The code of a monitor -/

/-- What a section does to the sleepers of a condition. -/
inductive Wake (Queue : Type)
  | none
  | signal (queue : Queue)
  | broadcast (queue : Queue)

/-- How a section ends: the call returns and the mutex is unlocked, the call returns with the
mutex still locked, or the thread goes to sleep, which unlocks the mutex. -/
inductive Next (Frame : Type)
  | leave (result : Bool)
  | keep (result : Bool)
  | sleep (frame : Frame)

/-- The value a section returns, if it ends the call. -/
def Next.result {Frame : Type} : Next Frame → Option Bool
  | .leave result => some result
  | .keep result => some result
  | .sleep _ => none

/-- What running one critical section gives. -/
structure Section (Fields Queue Frame : Type) where
  fields : Fields
  wake : Wake Queue
  next : Next Frame

/-- The code of a monitor, with the discipline its callers keep. -/
structure Monitor (Thread Fields Call Queue Frame Holds : Type) where
  /-- The section a call runs first. -/
  enter : Thread → Call → Fields → Section Fields Queue Frame
  /-- The section a suspended call runs when its wait is over. The flag is what the wait
  returned: `false` when it timed out. -/
  resume : Thread → Frame → Bool → Fields → Section Fields Queue Frame
  /-- The call a suspended frame belongs to. -/
  call : Frame → Call
  /-- The condition a suspended frame waits on. -/
  queue : Frame → Queue
  /-- The wait of this frame has a timeout. -/
  timed : Frame → Bool
  /-- Waits of this monitor may end without a signal. -/
  spurious : Bool
  /-- The call is made with the mutex already locked by the caller. -/
  inside : Call → Bool
  /-- The calls a thread with these holds may make. -/
  may : Holds → Call → Bool
  /-- What a thread holds after the call has returned the given value. -/
  book : Call → Bool → Holds → Holds

/-- A state of the machine: the fields, the thread that returned with the mutex locked, and the
threads. -/
structure Monitor.State (Thread Fields Frame Holds : Type) where
  fields : Fields
  owner : Option Thread
  threads : Thread → Local Frame Holds

/-- The state before any call: an unlocked mutex and idle threads that hold nothing. -/
def Monitor.State.initial {Thread Fields Frame Holds : Type} (fields : Fields)
    (nothing : Holds) : Monitor.State Thread Fields Frame Holds :=
  ⟨fields, none, fun _ => ⟨.idle, nothing⟩⟩

/-- The scheduler's choices. A thread begins a call, or goes on with one whose wait is over; the
chosen thread is the sleeper a signal takes. A sleeper wakes spuriously, or its timeout
expires. -/
inductive Monitor.Action (Thread Call : Type)
  | enter (thread : Thread) (call : Call) (chosen : Option Thread)
  | resume (thread : Thread) (chosen : Option Thread)
  | spurious (thread : Thread)
  | timeout (thread : Thread)

namespace Monitor

variable {Thread Fields Call Queue Frame Holds : Type}

/-! ### Tallies over the threads -/

section Tally

variable [Fintype Thread]

/-- The sum over the threads of a weight that reads the suspended call and the holds. -/
def tally (weight : Option Frame → Holds → Nat) (threads : Thread → Local Frame Holds) : Nat :=
  ∑ thread, weight (threads thread).place.frame (threads thread).holds

/-- The weight that counts the threads suspended in a call of the given kind. -/
def suspended (kind : Frame → Bool) : Option Frame → Holds → Nat
  | none, _ => 0
  | some frame, _ => if kind frame then 1 else 0

@[simp] theorem suspended_none (kind : Frame → Bool) (holds : Holds) :
    suspended kind none holds = 0 := rfl

@[simp] theorem suspended_some (kind : Frame → Bool) (frame : Frame) (holds : Holds) :
    suspended kind (some frame) holds = if kind frame then 1 else 0 := rfl

/-- The number of threads suspended in a call of the given kind. -/
def headcount (kind : Frame → Bool) (threads : Thread → Local Frame Holds) : Nat :=
  (Finset.univ.filter fun thread => (threads thread).place.frame.any kind).card

theorem headcount_eq_tally (kind : Frame → Bool) (threads : Thread → Local Frame Holds) :
    headcount kind threads = tally (suspended kind) threads := by
  unfold headcount
  rw [Finset.card_filter]
  refine Finset.sum_congr rfl fun thread _ => ?_
  cases (threads thread).place.frame <;> rfl

/-- Of the threads suspended in a call of the given kind, those other than a given one are fewer
than all threads. -/
theorem tally_suspended_lt (kind : Frame → Bool) (threads : Thread → Local Frame Holds)
    (thread : Thread) :
    tally (suspended kind) threads <
      Fintype.card Thread +
        suspended kind (threads thread).place.frame (threads thread).holds := by
  classical
  have split := Finset.add_sum_erase Finset.univ
    (fun other => suspended kind (threads other).place.frame (threads other).holds)
    (Finset.mem_univ thread)
  have others : ∑ other ∈ Finset.univ.erase thread,
      suspended kind (threads other).place.frame (threads other).holds ≤
        (Finset.univ.erase thread).card := by
    rw [Finset.card_eq_sum_ones]
    refine Finset.sum_le_sum fun other _ => ?_
    cases (threads other).place.frame with
    | none => exact Nat.zero_le 1
    | some frame =>
      rw [suspended_some]
      split <;> decide
  rw [Finset.card_erase_of_mem (Finset.mem_univ thread), Finset.card_univ] at others
  have threads_pos : 0 < Fintype.card Thread := Fintype.card_pos_iff.mpr ⟨thread⟩
  rw [tally, ← split]
  omega

variable {weight : Option Frame → Holds → Nat} {threads after : Thread → Local Frame Holds}

/-- A sum over the threads changes by what one thread contributes when the others contribute the
same. -/
theorem sum_add_of_others [DecidableEq Thread] (before after : Thread → Nat) (thread : Thread)
    (others : ∀ other, other ≠ thread → after other = before other) :
    ∑ other, after other + before thread = ∑ other, before other + after thread := by
  have rest : ∑ other ∈ Finset.univ.erase thread, after other =
      ∑ other ∈ Finset.univ.erase thread, before other :=
    Finset.sum_congr rfl fun other member => others other (Finset.ne_of_mem_erase member)
  have splitAfter := Finset.add_sum_erase Finset.univ after (Finset.mem_univ thread)
  have splitBefore := Finset.add_sum_erase Finset.univ before (Finset.mem_univ thread)
  rw [← splitAfter, ← splitBefore, rest]
  omega

/-- A tally changes by what one thread contributes when the others keep their suspended call and
their holds. -/
theorem tally_add_of_others [DecidableEq Thread] (thread : Thread)
    (frames : ∀ other, other ≠ thread →
      (after other).place.frame = (threads other).place.frame)
    (holds : ∀ other, other ≠ thread → (after other).holds = (threads other).holds) :
    tally weight after + weight (threads thread).place.frame (threads thread).holds =
      tally weight threads + weight (after thread).place.frame (after thread).holds := by
  have others : ∀ other, other ≠ thread →
      weight (after other).place.frame (after other).holds =
        weight (threads other).place.frame (threads other).holds := by
    intro other different
    rw [frames other different, holds other different]
  exact sum_add_of_others _ _ thread others

theorem le_tally (weight : Option Frame → Holds → Nat) (threads : Thread → Local Frame Holds)
    (thread : Thread) :
    weight (threads thread).place.frame (threads thread).holds ≤ tally weight threads :=
  Finset.single_le_sum
    (f := fun other => weight (threads other).place.frame (threads other).holds)
    (fun _ _ => Nat.zero_le _) (Finset.mem_univ thread)

theorem tally_eq_zero_iff :
    tally weight threads = 0 ↔
      ∀ thread, weight (threads thread).place.frame (threads thread).holds = 0 := by
  simp only [tally, Finset.sum_eq_zero_iff, Finset.mem_univ, forall_const]

theorem exists_of_tally_pos (positive : 0 < tally weight threads) :
    ∃ thread, 0 < weight (threads thread).place.frame (threads thread).holds := by
  by_contra none
  push Not at none
  have zero : tally weight threads = 0 :=
    tally_eq_zero_iff.mpr fun thread => Nat.le_zero.mp (none thread)
  omega

/-- When one thread alone weighs anything, the tally is its weight. -/
theorem tally_eq_of_alone {thread : Thread}
    (alone : ∀ other, other ≠ thread →
      weight (threads other).place.frame (threads other).holds = 0) :
    tally weight threads = weight (threads thread).place.frame (threads thread).holds :=
  Finset.sum_eq_single thread (fun other _ different => alone other different)
    fun absent => absurd (Finset.mem_univ thread) absent

end Tally

/-! ### The end of a wait -/

/-- The wait of a suspended call is over: a wake-up ended it, or its timeout. The flag is what
the wait returns. -/
def WaitOver (place : Place Frame) (frame : Frame) : Bool → Prop
  | true => place = .woken frame
  | false => place = .expired frame

theorem WaitOver.frame_eq {place : Place Frame} {frame : Frame} {flag : Bool}
    (waitOver : WaitOver place frame flag) : place.frame = some frame := by
  cases flag <;> rw [waitOver] <;> rfl

theorem WaitOver.not_asleep {place : Place Frame} {frame : Frame} {flag : Bool}
    (waitOver : WaitOver place frame flag) (other : Frame) : place ≠ .asleep other := by
  cases flag <;> rw [waitOver] <;> intro equal <;> cases equal

/-- A sleeper has left its condition without a signal: by a spurious wake-up, or because its
timeout expired. Nothing else has changed. -/
structure Stirred (monitor : Monitor Thread Fields Call Queue Frame Holds)
    (source : State Thread Fields Frame Holds) (thread : Thread)
    (target : State Thread Fields Frame Holds) : Prop where
  fields : target.fields = source.fields
  owner : target.owner = source.owner
  holds : (target.threads thread).holds = (source.threads thread).holds
  place : ∃ frame, (source.threads thread).place = .asleep frame ∧
    ((monitor.spurious = true ∧ (target.threads thread).place = .woken frame) ∨
      (monitor.timed frame = true ∧ (target.threads thread).place = .expired frame))
  others : ∀ other, other ≠ thread → target.threads other = source.threads other

namespace Stirred

variable {monitor : Monitor Thread Fields Call Queue Frame Holds}
  {source target : State Thread Fields Frame Holds} {thread : Thread}

theorem frame_eq (stirred : Stirred monitor source thread target) (other : Thread) :
    (target.threads other).place.frame = (source.threads other).place.frame := by
  by_cases same : other = thread
  · subst same
    obtain ⟨frame, before, ⟨_, after⟩ | ⟨_, after⟩⟩ := stirred.place <;>
      rw [before, after] <;> rfl
  · rw [stirred.others other same]

theorem holds_eq (stirred : Stirred monitor source thread target) (other : Thread) :
    (target.threads other).holds = (source.threads other).holds := by
  by_cases same : other = thread
  · rw [same, stirred.holds]
  · rw [stirred.others other same]

/-- Leaving a condition without a signal changes no tally. -/
theorem tally_eq [Fintype Thread] (stirred : Stirred monitor source thread target)
    (weight : Option Frame → Holds → Nat) :
    tally weight target.threads = tally weight source.threads := by
  refine Finset.sum_congr rfl fun other _ => ?_
  rw [stirred.frame_eq, stirred.holds_eq]

/-- A thread asleep after a sleeper has left its condition slept there before. -/
theorem asleep_before (stirred : Stirred monitor source thread target) {other : Thread}
    {frame : Frame} (asleep : (target.threads other).place = .asleep frame) :
    (source.threads other).place = .asleep frame := by
  by_cases same : other = thread
  · subst same
    obtain ⟨frame', before, ⟨_, after⟩ | ⟨_, after⟩⟩ := stirred.place <;>
      rw [after] at asleep <;> cases asleep
  · rwa [stirred.others other same] at asleep

/-- A thread that was off its condition has not moved. -/
theorem unmoved (stirred : Stirred monitor source thread target) {other : Thread}
    (awake : ∀ frame, (source.threads other).place ≠ .asleep frame) :
    target.threads other = source.threads other := by
  refine stirred.others other fun same => ?_
  obtain ⟨frame, before, _⟩ := stirred.place
  rw [← same] at before
  exact awake frame before

end Stirred

/-! ### The machine -/

/-- The mutex as a call of the thread must find it. -/
def mutexFor (monitor : Monitor Thread Fields Call Queue Frame Holds) (thread : Thread)
    (call : Call) : Option Thread :=
  if monitor.inside call then some thread else none

/-- The state with one thread moved to another place. -/
def State.stir [DecidableEq Thread] (state : State Thread Fields Frame Holds) (thread : Thread)
    (place : Place Frame) : State Thread Fields Frame Holds :=
  { state with
    threads := Function.update state.threads thread ((state.threads thread).moveTo place) }

@[simp] theorem State.stir_self [DecidableEq Thread] (state : State Thread Fields Frame Holds)
    (thread : Thread) (place : Place Frame) :
    (state.stir thread place).threads thread = (state.threads thread).moveTo place :=
  Function.update_self _ _ _

variable [DecidableEq Thread] [Fintype Thread] [DecidableEq Queue]

/-- The sleepers after a wake-up. A signal takes the chosen sleeper, and none only when nobody
sleeps on the condition; a broadcast takes all of them. -/
def rouse (queueOf : Frame → Queue) (wake : Wake Queue) (chosen : Option Thread)
    (threads : Thread → Local Frame Holds) : Option (Thread → Local Frame Holds) :=
  match wake, chosen with
  | .none, _ => some threads
  | .signal queue, some thread =>
    if (threads thread).place.Sleeps fun frame => queueOf frame = queue then
      some (Function.update threads thread
        ((threads thread).moveTo (threads thread).place.wake))
    else none
  | .signal queue, none =>
    if ∀ thread, ¬ (threads thread).place.Sleeps fun frame => queueOf frame = queue then
      some threads
    else none
  | .broadcast queue, _ =>
    some fun thread =>
      if (threads thread).place.Sleeps fun frame => queueOf frame = queue then
        (threads thread).moveTo (threads thread).place.wake
      else threads thread

/-- The thread that ran a section, after it. -/
def settleLocal (monitor : Monitor Thread Fields Call Queue Frame Holds) (call : Call)
    (holds : Holds) : Next Frame → Local Frame Holds
  | .leave result => ⟨.idle, monitor.book call result holds⟩
  | .keep result => ⟨.idle, monitor.book call result holds⟩
  | .sleep frame => ⟨.asleep frame, holds⟩

/-- The owner of the mutex after a section. -/
def settleOwner (thread : Thread) : Next Frame → Option Thread
  | .keep _ => some thread
  | _ => none

/-- The state after a thread has run a section. -/
def settle (monitor : Monitor Thread Fields Call Queue Frame Holds)
    (state : State Thread Fields Frame Holds) (thread : Thread) (call : Call)
    (passage : Section Fields Queue Frame) (chosen : Option Thread) :
    Option (State Thread Fields Frame Holds) :=
  (rouse monitor.queue passage.wake chosen state.threads).map fun threads =>
    { fields := passage.fields
      owner := settleOwner thread passage.next
      threads := Function.update threads thread
        (settleLocal monitor call (state.threads thread).holds passage.next) }

/-- One step of the machine. -/
def step (monitor : Monitor Thread Fields Call Queue Frame Holds)
    (state : State Thread Fields Frame Holds) :
    Action Thread Call → Option (State Thread Fields Frame Holds)
  | .enter thread call chosen =>
    match (state.threads thread).place with
    | .idle =>
      if monitor.may (state.threads thread).holds call = true ∧
          state.owner = monitor.mutexFor thread call then
        monitor.settle state thread call (monitor.enter thread call state.fields) chosen
      else none
    | _ => none
  | .resume thread chosen =>
    if state.owner = none then
      match (state.threads thread).place with
      | .woken frame =>
        monitor.settle state thread (monitor.call frame)
          (monitor.resume thread frame true state.fields) chosen
      | .expired frame =>
        monitor.settle state thread (monitor.call frame)
          (monitor.resume thread frame false state.fields) chosen
      | _ => none
    else none
  | .spurious thread =>
    match (state.threads thread).place with
    | .asleep frame =>
      if monitor.spurious then some (state.stir thread (.woken frame)) else none
    | _ => none
  | .timeout thread =>
    match (state.threads thread).place with
    | .asleep frame =>
      if monitor.timed frame then some (state.stir thread (.expired frame)) else none
    | _ => none

/-- The call that a step ends, with its thread and the value it returns. -/
def outcome (monitor : Monitor Thread Fields Call Queue Frame Holds)
    (state : State Thread Fields Frame Holds) :
    Action Thread Call → Option (Thread × Call × Bool)
  | .enter thread call _ =>
    (monitor.enter thread call state.fields).next.result.map fun result =>
      (thread, call, result)
  | .resume thread _ =>
    match (state.threads thread).place with
    | .woken frame =>
      (monitor.resume thread frame true state.fields).next.result.map fun result =>
        (thread, monitor.call frame, result)
    | .expired frame =>
      (monitor.resume thread frame false state.fields).next.result.map fun result =>
        (thread, monitor.call frame, result)
    | _ => none
  | _ => none

omit [DecidableEq Thread] [Fintype Thread] [DecidableEq Queue] in
theorem outcome_resume {monitor : Monitor Thread Fields Call Queue Frame Holds}
    {state : State Thread Fields Frame Holds} {thread : Thread} {frame : Frame} {flag : Bool}
    (waitOver : WaitOver (state.threads thread).place frame flag) (chosen : Option Thread) :
    monitor.outcome state (.resume thread chosen) =
      (monitor.resume thread frame flag state.fields).next.result.map fun result =>
        (thread, monitor.call frame, result) := by
  cases flag <;> simp only [outcome] <;> rw [waitOver]

/-- The condition on the steps that asks something of the state, the thread and its call whenever
a section runs. -/
def Before (monitor : Monitor Thread Fields Call Queue Frame Holds)
    (condition : State Thread Fields Frame Holds → Thread → Call → Prop)
    (state : State Thread Fields Frame Holds) : Action Thread Call → Prop
  | .enter thread call _ => condition state thread call
  | .resume thread _ => ∀ frame ∈ (state.threads thread).place.frame,
    condition state thread (monitor.call frame)
  | _ => True

omit [DecidableEq Thread] [Fintype Thread] [DecidableEq Queue] in
instance (monitor : Monitor Thread Fields Call Queue Frame Holds)
    (condition : State Thread Fields Frame Holds → Thread → Call → Prop)
    [∀ state thread call, Decidable (condition state thread call)]
    (state : State Thread Fields Frame Holds) :
    (action : Action Thread Call) → Decidable (monitor.Before condition state action)
  | .enter thread call _ => inferInstanceAs (Decidable (condition state thread call))
  | .resume thread _ => inferInstanceAs (Decidable (∀ frame ∈ (state.threads thread).place.frame,
      condition state thread (monitor.call frame)))
  | .spurious _ => inferInstanceAs (Decidable True)
  | .timeout _ => inferInstanceAs (Decidable True)

/-- The machine of a monitor, started with fresh fields. -/
def machine (monitor : Monitor Thread Fields Call Queue Frame Holds) (fresh : Fields → Prop)
    (nothing : Holds) : Machine (State Thread Fields Frame Holds) (Action Thread Call) where
  Init state := ∃ fields, fresh fields ∧ state = .initial fields nothing
  step := monitor.step

/-! ### What a wake-up leaves unchanged -/

section Rouse

variable {queueOf : Frame → Queue} {wake : Wake Queue} {chosen : Option Thread}
  {threads after : Thread → Local Frame Holds}

/-- A wake-up touches only sleepers, and moves them no further than off their condition. -/
theorem rouse_eq_or_wake (roused : rouse queueOf wake chosen threads = some after)
    (thread : Thread) :
    after thread = threads thread ∨
      after thread = (threads thread).moveTo (threads thread).place.wake := by
  unfold rouse at roused
  split at roused
  next =>
    cases roused
    exact Or.inl rfl
  next target =>
    split at roused
    · cases roused
      by_cases same : thread = target
      · subst same
        exact Or.inr (Function.update_self _ _ _)
      · exact Or.inl (Function.update_of_ne same _ _)
    · cases roused
  next =>
    split at roused
    · cases roused
      exact Or.inl rfl
    · cases roused
  next =>
    cases roused
    dsimp only
    split
    · exact Or.inr rfl
    · exact Or.inl rfl

/-- A thread after a wake-up: it has not moved, or it slept and has been woken. -/
theorem rouse_cases (roused : rouse queueOf wake chosen threads = some after) (thread : Thread) :
    after thread = threads thread ∨
      ∃ frame, (threads thread).place = .asleep frame ∧
        after thread = (threads thread).moveTo (.woken frame) := by
  rcases rouse_eq_or_wake roused thread with same | moved
  · exact Or.inl same
  · cases place : (threads thread).place with
    | asleep frame =>
      rw [place] at moved
      exact Or.inr ⟨frame, rfl, moved⟩
    | _ =>
      left
      rw [moved]
      cases current : threads thread
      rw [current] at place
      cases place
      rfl

theorem rouse_frame (roused : rouse queueOf wake chosen threads = some after)
    (thread : Thread) : (after thread).place.frame = (threads thread).place.frame := by
  rcases rouse_cases roused thread with same | ⟨frame, asleep, moved⟩
  · rw [same]
  · rw [moved, asleep]
    rfl

theorem rouse_holds (roused : rouse queueOf wake chosen threads = some after)
    (thread : Thread) : (after thread).holds = (threads thread).holds := by
  rcases rouse_cases roused thread with same | ⟨frame, _, moved⟩
  · rw [same]
  · rw [moved]
    rfl

/-- A signal with a sleeper on its condition wakes one. -/
theorem rouse_signal {queue : Queue}
    (roused : rouse queueOf (.signal queue) chosen threads = some after)
    (sleeper : ∃ thread frame, (threads thread).place = .asleep frame ∧
      queueOf frame = queue) :
    ∃ thread frame, (threads thread).place = .asleep frame ∧ queueOf frame = queue ∧
      (after thread).place = .woken frame := by
  cases chosen with
  | none =>
    obtain ⟨thread, frame, asleep, queued⟩ := sleeper
    simp only [rouse] at roused
    rw [if_neg fun nobody => nobody thread (Place.sleeps_iff.mpr ⟨frame, asleep, queued⟩)]
      at roused
    cases roused
  | some thread =>
    simp only [rouse] at roused
    split at roused
    next sleeps =>
      obtain ⟨frame, asleep, queued⟩ := Place.sleeps_iff.mp sleeps
      cases roused
      refine ⟨thread, frame, asleep, queued, ?_⟩
      rw [Function.update_self, asleep]
      rfl
    next => cases roused

/-- A broadcast leaves nobody asleep on its condition. -/
theorem rouse_broadcast {queue : Queue}
    (roused : rouse queueOf (.broadcast queue) chosen threads = some after) {thread : Thread}
    {frame : Frame} (asleep : (after thread).place = .asleep frame) :
    queueOf frame ≠ queue := by
  simp only [rouse, Option.some_inj] at roused
  subst roused
  dsimp only at asleep
  split at asleep
  next sleeps =>
    obtain ⟨other, before, _⟩ := Place.sleeps_iff.mp sleeps
    rw [before] at asleep
    cases asleep
  next awake =>
    intro queued
    exact awake (Place.sleeps_iff.mpr ⟨frame, asleep, queued⟩)

end Rouse

/-! ### What a step can do -/

section Steps

variable {monitor : Monitor Thread Fields Call Queue Frame Holds}
  {source target : State Thread Fields Frame Holds}

/-- A thread has run a section of a call. The fields, the mutex and the thread itself are as the
section left them; the other threads are as its wake-up left them. -/
structure Ran (monitor : Monitor Thread Fields Call Queue Frame Holds)
    (source : State Thread Fields Frame Holds) (thread : Thread) (call : Call)
    (passage : Section Fields Queue Frame) (target : State Thread Fields Frame Holds) :
    Prop where
  fields : target.fields = passage.fields
  owner : target.owner = settleOwner thread passage.next
  own : target.threads thread =
    settleLocal monitor call (source.threads thread).holds passage.next
  roused : ∃ chosen threads, rouse monitor.queue passage.wake chosen source.threads =
    some threads ∧ ∀ other, other ≠ thread → target.threads other = threads other

theorem ran_of_settle {thread : Thread} {call : Call} {passage : Section Fields Queue Frame}
    {chosen : Option Thread}
    (settled : monitor.settle source thread call passage chosen = some target) :
    Ran monitor source thread call passage target := by
  unfold settle at settled
  obtain ⟨threads, roused, rfl⟩ := Option.map_eq_some_iff.mp settled
  exact ⟨rfl, rfl, Function.update_self _ _ _,
    chosen, threads, roused, fun other different => Function.update_of_ne different _ _⟩

namespace Ran

variable {thread : Thread} {call : Call} {passage : Section Fields Queue Frame}

/-- A thread other than the running one has not moved, or slept and has been woken. -/
theorem other_cases (ran : Ran monitor source thread call passage target) {other : Thread}
    (different : other ≠ thread) :
    target.threads other = source.threads other ∨
      ∃ frame, (source.threads other).place = .asleep frame ∧
        target.threads other = (source.threads other).moveTo (.woken frame) := by
  obtain ⟨chosen, threads, roused, others⟩ := ran.roused
  rw [others other different]
  exact rouse_cases roused other

theorem frame_other (ran : Ran monitor source thread call passage target) {other : Thread}
    (different : other ≠ thread) :
    (target.threads other).place.frame = (source.threads other).place.frame := by
  obtain ⟨chosen, threads, roused, others⟩ := ran.roused
  rw [others other different, rouse_frame roused]

theorem holds_other (ran : Ran monitor source thread call passage target) {other : Thread}
    (different : other ≠ thread) :
    (target.threads other).holds = (source.threads other).holds := by
  obtain ⟨chosen, threads, roused, others⟩ := ran.roused
  rw [others other different, rouse_holds roused]

/-- Running a section changes a tally by what the running thread contributes. -/
theorem tally_add (ran : Ran monitor source thread call passage target)
    (weight : Option Frame → Holds → Nat) :
    tally weight target.threads +
        weight (source.threads thread).place.frame (source.threads thread).holds =
      tally weight source.threads +
        weight (target.threads thread).place.frame (target.threads thread).holds :=
  tally_add_of_others thread (fun _ different => ran.frame_other different)
    fun _ different => ran.holds_other different

/-- A counter that was a tally stays one when the section balances it with what the running
thread contributes before and after. -/
theorem counted (ran : Ran monitor source thread call passage target)
    {weight : Option Frame → Holds → Nat} {before after : Nat}
    (exact_ : before = tally weight source.threads)
    (balanced : after +
        weight (source.threads thread).place.frame (source.threads thread).holds =
      before + weight (target.threads thread).place.frame (target.threads thread).holds) :
    after = tally weight target.threads := by
  have changed := ran.tally_add weight
  omega

/-- A thread other than the running one that is asleep afterwards slept there before. -/
theorem asleep_other (ran : Ran monitor source thread call passage target) {other : Thread}
    (different : other ≠ thread) {frame : Frame}
    (asleep : (target.threads other).place = .asleep frame) :
    (source.threads other).place = .asleep frame := by
  rcases ran.other_cases different with same | ⟨frame', _, moved⟩
  · rwa [same] at asleep
  · rw [moved] at asleep
    cases asleep

/-- A thread other than the running one that was off its condition has not moved. -/
theorem unmoved (ran : Ran monitor source thread call passage target) {other : Thread}
    (different : other ≠ thread)
    (awake : ∀ frame, (source.threads other).place ≠ .asleep frame) :
    target.threads other = source.threads other := by
  rcases ran.other_cases different with same | ⟨frame, asleep, _⟩
  · exact same
  · exact absurd asleep (awake frame)

/-- A thread woken before a section of another is still woken after it. -/
theorem woken_other (ran : Ran monitor source thread call passage target) {other : Thread}
    (different : other ≠ thread) {frame : Frame}
    (woken : (source.threads other).place = .woken frame) :
    (target.threads other).place = .woken frame := by
  rw [ran.unmoved different fun frame asleep => by rw [woken] at asleep; cases asleep]
  exact woken

/-- A section that wakes nobody leaves the other threads alone. -/
theorem eq_other (ran : Ran monitor source thread call passage target)
    (quiet : passage.wake = .none) {other : Thread} (different : other ≠ thread) :
    target.threads other = source.threads other := by
  obtain ⟨chosen, threads, roused, others⟩ := ran.roused
  rw [quiet] at roused
  cases chosen <;> cases roused <;> exact others other different

/-- A section that signals a condition on which another thread sleeps has woken one. -/
theorem exists_woken (ran : Ran monitor source thread call passage target) {queue : Queue}
    (signals : passage.wake = .signal queue)
    (awake : ∀ frame, (source.threads thread).place ≠ .asleep frame)
    (sleeper : ∃ other frame, (source.threads other).place = .asleep frame ∧
      monitor.queue frame = queue) :
    ∃ other frame, other ≠ thread ∧ (source.threads other).place = .asleep frame ∧
      monitor.queue frame = queue ∧ (target.threads other).place = .woken frame := by
  obtain ⟨chosen, threads, roused, others⟩ := ran.roused
  rw [signals] at roused
  obtain ⟨other, frame, asleep, queued, woken⟩ := rouse_signal roused sleeper
  have different : other ≠ thread := by
    intro same
    rw [same] at asleep
    exact awake frame asleep
  exact ⟨other, frame, different, asleep, queued, by rw [others other different]; exact woken⟩

/-- A section that broadcasts a condition leaves no other thread asleep on it. -/
theorem not_asleep_of_broadcast (ran : Ran monitor source thread call passage target)
    {queue : Queue} (broadcasts : passage.wake = .broadcast queue) {other : Thread}
    (different : other ≠ thread) {frame : Frame}
    (asleep : (target.threads other).place = .asleep frame) : monitor.queue frame ≠ queue := by
  obtain ⟨chosen, threads, roused, others⟩ := ran.roused
  rw [broadcasts] at roused
  rw [others other different] at asleep
  exact rouse_broadcast roused asleep

/-- The mutex and the holds that say a thread has returned with it locked keep agreeing when the
running thread's do. -/
theorem owner_iff (ran : Ran monitor source thread call passage target) (locked : Holds → Prop)
    (agreed : ∀ other, locked (source.threads other).holds ↔ source.owner = some other)
    (access : source.owner = none ∨ source.owner = some thread)
    (own : locked (target.threads thread).holds ↔ target.owner = some thread) (other : Thread) :
    locked (target.threads other).holds ↔ target.owner = some other := by
  by_cases same : other = thread
  · rw [same]
    exact own
  · have settled : target.owner ≠ some other := by
      rw [ran.owner]
      cases passage.next <;> simp [settleOwner, Ne.symm same]
    rw [ran.holds_other same, agreed other]
    rcases access with free | mine
    · simp [free, settled]
    · simp [mine, settled, Ne.symm same]

/-- A thread books what its call returned, if it has returned. -/
theorem own_holds (ran : Ran monitor source thread call passage target) :
    (target.threads thread).holds =
      passage.next.result.elim (source.threads thread).holds
        fun result => monitor.book call result (source.threads thread).holds := by
  rw [ran.own]
  cases passage.next <;> rfl

theorem own_idle_iff (ran : Ran monitor source thread call passage target) :
    (target.threads thread).place = .idle ↔ passage.next.result ≠ none := by
  rw [ran.own]
  cases passage.next <;> simp [settleLocal, Next.result]

/-- After its section a thread is idle or asleep. -/
theorem own_place (ran : Ran monitor source thread call passage target) :
    (target.threads thread).place = .idle ∨
      ∃ frame, (target.threads thread).place = .asleep frame := by
  rw [ran.own]
  cases passage.next with
  | leave result => exact Or.inl rfl
  | keep result => exact Or.inl rfl
  | sleep frame => exact Or.inr ⟨frame, rfl⟩

end Ran

theorem step_enter {thread : Thread} {call : Call} {chosen : Option Thread}
    (stepped : monitor.step source (.enter thread call chosen) = some target) :
    (source.threads thread).place = .idle ∧
      monitor.may (source.threads thread).holds call = true ∧
      source.owner = monitor.mutexFor thread call ∧
      Ran monitor source thread call (monitor.enter thread call source.fields) target := by
  simp only [step] at stepped
  split at stepped
  next idle =>
    split at stepped
    next allowed => exact ⟨idle, allowed.1, allowed.2, ran_of_settle stepped⟩
    next => cases stepped
  next => cases stepped

theorem step_resume {thread : Thread} {chosen : Option Thread}
    (stepped : monitor.step source (.resume thread chosen) = some target) :
    source.owner = none ∧ ∃ frame flag, WaitOver (source.threads thread).place frame flag ∧
      Ran monitor source thread (monitor.call frame)
        (monitor.resume thread frame flag source.fields) target := by
  simp only [step] at stepped
  split at stepped
  next free =>
    refine ⟨free, ?_⟩
    split at stepped
    next frame woken => exact ⟨frame, true, woken, ran_of_settle stepped⟩
    next frame expired => exact ⟨frame, false, expired, ran_of_settle stepped⟩
    next => cases stepped
  next => cases stepped

theorem step_spurious {thread : Thread}
    (stepped : monitor.step source (.spurious thread) = some target) :
    Stirred monitor source thread target := by
  simp only [step] at stepped
  split at stepped
  next frame asleep =>
    split at stepped
    next allowed =>
      cases stepped
      refine ⟨rfl, rfl, ?_, ⟨frame, asleep, Or.inl ⟨allowed, ?_⟩⟩,
        fun other different => Function.update_of_ne different _ _⟩ <;>
        rw [State.stir_self] <;> rfl
    next => cases stepped
  next => cases stepped

theorem step_timeout {thread : Thread}
    (stepped : monitor.step source (.timeout thread) = some target) :
    Stirred monitor source thread target := by
  simp only [step] at stepped
  split at stepped
  next frame asleep =>
    split at stepped
    next allowed =>
      cases stepped
      refine ⟨rfl, rfl, ?_, ⟨frame, asleep, Or.inr ⟨allowed, ?_⟩⟩,
        fun other different => Function.update_of_ne different _ _⟩ <;>
        rw [State.stir_self] <;> rfl
    next => cases stepped
  next => cases stepped

/-- The invariance rule of a monitor: every step that meets a condition before its section leads
from one property to another when the first section of a call does, the section after a wait, and
a sleeper that leaves its condition without a signal. -/
theorem preserved_before {before after : State Thread Fields Frame Holds → Prop}
    {condition : State Thread Fields Frame Holds → Thread → Call → Prop}
    (entered : ∀ source thread call target, before source →
      condition source thread call → (source.threads thread).place = .idle →
      monitor.may (source.threads thread).holds call = true →
      source.owner = monitor.mutexFor thread call →
      Ran monitor source thread call (monitor.enter thread call source.fields) target →
      after target)
    (resumed : ∀ source thread frame flag target, before source →
      condition source thread (monitor.call frame) → source.owner = none →
      WaitOver (source.threads thread).place frame flag →
      Ran monitor source thread (monitor.call frame)
        (monitor.resume thread frame flag source.fields) target →
      after target)
    (stirred : ∀ source thread target, before source →
      Stirred monitor source thread target → after target)
    (source : State Thread Fields Frame Holds) (action : Action Thread Call)
    (target : State Thread Fields Frame Holds) (holds : before source)
    (met : monitor.Before condition source action)
    (stepped : monitor.step source action = some target) : after target := by
  cases action with
  | enter thread call chosen =>
    obtain ⟨idle, allowed, owner, ran⟩ := step_enter stepped
    exact entered source thread call target holds met idle allowed owner ran
  | resume thread chosen =>
    obtain ⟨free, frame, flag, waitOver, ran⟩ := step_resume stepped
    exact resumed source thread frame flag target holds (met frame waitOver.frame_eq) free waitOver
      ran
  | spurious thread => exact stirred source thread target holds (step_spurious stepped)
  | timeout thread => exact stirred source thread target holds (step_timeout stepped)

omit [DecidableEq Thread] [Fintype Thread] [DecidableEq Queue] in
theorem before_true (source : State Thread Fields Frame Holds) (action : Action Thread Call) :
    monitor.Before (fun _ _ _ => True) source action := by
  cases action with
  | resume thread chosen => exact fun _ _ => trivial
  | _ => trivial

omit [DecidableEq Thread] [Fintype Thread] [DecidableEq Queue] in
theorem before_imp {condition weaker : State Thread Fields Frame Holds → Thread → Call → Prop}
    (implies : ∀ thread call, condition source thread call → weaker source thread call)
    {action : Action Thread Call} (met : monitor.Before condition source action) :
    monitor.Before weaker source action := by
  cases action with
  | enter thread call chosen => exact implies thread call met
  | resume thread chosen => exact fun frame suspended => implies _ _ (met frame suspended)
  | _ => trivial

/-- The invariance rule without a condition. -/
theorem preserved_of_sections {invariant : State Thread Fields Frame Holds → Prop}
    (entered : ∀ source thread call target, invariant source →
      (source.threads thread).place = .idle →
      monitor.may (source.threads thread).holds call = true →
      source.owner = monitor.mutexFor thread call →
      Ran monitor source thread call (monitor.enter thread call source.fields) target →
      invariant target)
    (resumed : ∀ source thread frame flag target, invariant source → source.owner = none →
      WaitOver (source.threads thread).place frame flag →
      Ran monitor source thread (monitor.call frame)
        (monitor.resume thread frame flag source.fields) target →
      invariant target)
    (stirred : ∀ source thread target, invariant source →
      Stirred monitor source thread target → invariant target)
    (source : State Thread Fields Frame Holds) (action : Action Thread Call)
    (target : State Thread Fields Frame Holds) (holds : invariant source)
    (stepped : monitor.step source action = some target) : invariant target :=
  preserved_before
    (fun source thread call target holds _ => entered source thread call target holds)
    (fun source thread frame flag target holds _ => resumed source thread frame flag target holds)
    stirred source action target holds (before_true source action) stepped

/-- Only a wait with a timeout expires. -/
def Timely (monitor : Monitor Thread Fields Call Queue Frame Holds)
    (state : State Thread Fields Frame Holds) : Prop :=
  ∀ thread frame, (state.threads thread).place = .expired frame → monitor.timed frame = true

theorem Timely.ran {thread : Thread} {call : Call} {passage : Section Fields Queue Frame}
    (timely : Timely monitor source)
    (ran : Ran monitor source thread call passage target) : Timely monitor target := by
  intro other frame expired
  by_cases same : other = thread
  · rw [same] at expired
    rcases ran.own_place with idle | ⟨frame', asleep⟩
    · rw [idle] at expired
      cases expired
    · rw [asleep] at expired
      cases expired
  · rcases ran.other_cases same with equal | ⟨frame', _, moved⟩
    · rw [equal] at expired
      exact timely other frame expired
    · rw [moved] at expired
      cases expired

omit [Fintype Thread] [DecidableEq Queue] in
theorem Timely.stirred {thread : Thread} (timely : Timely monitor source)
    (stirred : Stirred monitor source thread target) : Timely monitor target := by
  intro other frame expired
  by_cases same : other = thread
  · subst same
    obtain ⟨frame', _, ⟨_, woken⟩ | ⟨timed, after⟩⟩ := stirred.place
    · rw [woken] at expired
      cases expired
    · rw [after] at expired
      cases expired
      exact timed
  · rw [stirred.others other same] at expired
    exact timely other frame expired

end Steps

end Monitor

end Concurrency
