/-
This file models `RecursiveMutex` and finds when its timed lock is sound.

The untimed `lock` lets a thread in when the mutex is free or already its own.
The timed one repeats that loop, but decides its result afterwards from `lockers`
alone: it reports success only when it found the mutex free, and it increments
`lockers` whatever it reports. The owner that locks again with a timeout is told
that it failed, and so is a thread whose wait expired, and either way the mutex
is one level deeper than its holders know. A run agrees with its callers exactly
when every timed lock ends with the mutex free and the owner does not go deeper
than `lockers`, which wraps like `unsigned`, can count.
-/

import CommonCpp.Counter
import CommonCpp.Monitor

namespace CommonCpp

open Concurrency Concurrency.Monitor Counter

namespace RecursiveMutex

/-! ### The code -/

/-- The fields of a `RecursiveMutex`. `locker` is not initialised by the constructor. -/
structure Fields (Thread : Type) where
  waiting : Nat
  lockers : Nat
  locker : Thread
  deriving DecidableEq

/-- `lock()`, `lock(timeout)` and `release()`. -/
inductive Call
  | lock
  | lockTimed
  | release
  deriving DecidableEq

inductive Frame
  | lock
  | lockTimed
  deriving DecidableEq

section Code

variable {Thread : Type} [DecidableEq Thread]

/-- `lock(timeout)` after its loop. -/
def lockTimedExit (fields : Fields Thread) (self : Thread) :
    Section (Fields Thread) Unit Frame :=
  if fields.lockers = 0 then
    ⟨{ fields with locker := self, lockers := raise fields.lockers 1 }, .none, .leave true⟩
  else
    ⟨{ fields with lockers := raise fields.lockers 1 }, .none, .leave false⟩

/-- `lock(timeout)` from its loop test on. -/
def lockTimed (fields : Fields Thread) (self : Thread) (result : Bool) :
    Section (Fields Thread) Unit Frame :=
  if result = true ∧ fields.lockers ≠ 0 then
    if fields.locker = self then lockTimedExit fields self
    else ⟨{ fields with waiting := raise fields.waiting 1 }, .none, .sleep .lockTimed⟩
  else lockTimedExit fields self

/-- `lock()` after its loop. -/
def lockExit (fields : Fields Thread) (self : Thread) : Section (Fields Thread) Unit Frame :=
  ⟨{ fields with
      locker := if fields.lockers = 0 then self else fields.locker
      lockers := raise fields.lockers 1 }, .none, .leave true⟩

/-- `lock()` from its loop test on. -/
def lock (fields : Fields Thread) (self : Thread) : Section (Fields Thread) Unit Frame :=
  if fields.lockers ≠ 0 then
    if fields.locker = self then lockExit fields self
    else ⟨{ fields with waiting := raise fields.waiting 1 }, .none, .sleep .lock⟩
  else lockExit fields self

/-- `release()`. -/
def release (fields : Fields Thread) : Section (Fields Thread) Unit Frame :=
  let fields := { fields with lockers := lower fields.lockers 1 }
  ⟨fields, if fields.lockers = 0 ∧ fields.waiting ≠ 0 then .signal () else .none, .leave true⟩

/-- The calls of `RecursiveMutex`. What a thread holds is its depth; a timed lock deepens it
exactly when it returns true, and a thread releases only what it holds. -/
def monitor (Thread : Type) [DecidableEq Thread] :
    Monitor Thread (Fields Thread) Call Unit Frame Nat where
  enter thread call fields :=
    match call with
    | .lock => lock fields thread
    | .lockTimed => lockTimed fields thread true
    | .release => release fields
  resume thread frame flag fields :=
    let fields := { fields with waiting := lower fields.waiting 1 }
    match frame with
    | .lock => lock fields thread
    | .lockTimed => lockTimed fields thread flag
  call
    | .lock => .lock
    | .lockTimed => .lockTimed
  queue _ := ()
  timed
    | .lock => false
    | .lockTimed => true
  spurious := true
  inside _ := false
  may depth
    | .release => depth ≠ 0
    | _ => true
  book call result depth :=
    match call with
    | .release => depth - 1
    | _ => if result then depth + 1 else depth

end Code

/-- The state of a `RecursiveMutex` and of the threads that use it. -/
abbrev State (Thread : Type) := Monitor.State Thread (Fields Thread) Frame Nat

/-- The runs of a `RecursiveMutex` from its constructor on. -/
def machine (Thread : Type) [DecidableEq Thread] [Fintype Thread] :
    Machine (State Thread) (Action Thread Call) :=
  (monitor Thread).machine (fun fields => fields.waiting = 0 ∧ fields.lockers = 0) 0

/-! ### Agreement of the counter with the holders -/

section Agreement

variable {Thread : Type} [DecidableEq Thread] [Fintype Thread]

/-- `lockers` is the depth of the thread that holds the mutex, which is alone and named by
`locker`, and zero when nobody does. -/
def Agrees (state : State Thread) : Prop :=
  (∀ thread, 0 < (state.threads thread).holds →
    state.fields.lockers = (state.threads thread).holds ∧ state.fields.locker = thread ∧
      ∀ other, 0 < (state.threads other).holds → other = thread) ∧
  ((∀ thread, (state.threads thread).holds = 0) → state.fields.lockers = 0)

/-- A timed lock that returns does so with true exactly when the counters have the caller one
level deeper afterwards, and with false only when it has changed neither of them. -/
def TellsTrue (move : Move (State Thread) (Action Thread Call)) : Prop :=
  ∀ thread result,
    (monitor Thread).outcome move.source move.action = some (thread, .lockTimed, result) →
    (result = true ↔ move.target.fields.locker = thread ∧
      move.target.fields.lockers = (move.source.threads thread).holds + 1) ∧
    (result = false → move.target.fields.lockers = move.source.fields.lockers ∧
      move.target.fields.locker = move.source.fields.locker)

/-- The step does not end a timed lock on a mutex that is locked: the owner does not begin one,
and one whose wait expired finds the mutex free. The owner that goes deeper finds room in
`lockers`. -/
def EndsFree (state : State Thread) : Action Thread Call → Prop
  | .enter thread .lock _ =>
    state.fields.lockers ≠ 0 → state.fields.locker = thread → state.fields.lockers + 1 < 2 ^ 32
  | .enter thread .lockTimed _ => state.fields.lockers = 0 ∨ state.fields.locker ≠ thread
  | .resume thread _ =>
    (state.threads thread).place = .expired .lockTimed → state.fields.lockers = 0
  | _ => True

def depthWeight : Option Frame → Nat → Nat := fun _ depth => depth

/-- What every step that ends timed locks free preserves. -/
structure Invariant (state : State Thread) : Prop where
  lockers : state.fields.lockers = tally depthWeight state.threads
  named : ∀ thread, (state.threads thread).holds ≠ 0 → state.fields.locker = thread
  waiters : ∀ thread, (state.threads thread).place.frame ≠ none →
    (state.threads thread).holds = 0

theorem invariant_init {state : State Thread} (initial : (machine Thread).Init state) :
    Invariant state := by
  obtain ⟨fields, ⟨_, lockers⟩, rfl⟩ := initial
  constructor <;> simp [State.initial, tally, depthWeight, lockers]

omit [DecidableEq Thread] in
theorem Invariant.agrees {state : State Thread} (holds : Invariant state) : Agrees state := by
  refine ⟨fun thread deep => ?_, fun none => ?_⟩
  · have named := holds.named thread (Nat.pos_iff_ne_zero.mp deep)
    have alone : ∀ other, 0 < (state.threads other).holds → other = thread := by
      intro other others
      rw [← named, ← holds.named other (Nat.pos_iff_ne_zero.mp others)]
    refine ⟨?_, named, alone⟩
    rw [holds.lockers]
    refine tally_eq_of_alone fun other different => ?_
    by_contra deeper
    exact different (alone other (Nat.pos_iff_ne_zero.mpr deeper))
  · rw [holds.lockers]
    exact tally_eq_zero_iff.mpr none

omit [DecidableEq Thread] in
/-- A locked mutex has a holder, and it is the one named. -/
theorem Invariant.holds_of_locked {state : State Thread} (holds : Invariant state)
    (locked : state.fields.lockers ≠ 0) :
    (state.threads state.fields.locker).holds ≠ 0 := by
  rw [holds.lockers] at locked
  obtain ⟨thread, deep⟩ := exists_of_tally_pos (Nat.pos_iff_ne_zero.mpr locked)
  have depth : (state.threads thread).holds ≠ 0 := Nat.pos_iff_ne_zero.mp deep
  rw [holds.named thread depth]
  exact depth

variable {source target : State Thread} {thread : Thread} {fields : Fields Thread} {call : Call}
  {passage : Section (Fields Thread) Unit Frame}

/-- A section keeps the invariant when it balances `lockers` with the running thread's depth,
names the thread if that is where the depth is, and puts it to sleep only without holds. -/
theorem Invariant.ran (holds : Invariant source)
    (ran : Ran (monitor Thread) source thread call passage target)
    (lockers : target.fields.lockers + (source.threads thread).holds =
      source.fields.lockers + (target.threads thread).holds)
    (own : (target.threads thread).holds ≠ 0 → target.fields.locker = thread)
    (others : target.fields.locker = source.fields.locker ∨
      ∀ other, other ≠ thread → (source.threads other).holds = 0)
    (waits : (target.threads thread).place.frame ≠ none →
      (target.threads thread).holds = 0) :
    Invariant target := by
  refine ⟨ran.counted holds.lockers lockers, fun other deep => ?_, fun other suspended => ?_⟩
  · by_cases same : other = thread
    · rw [same] at deep ⊢
      exact own deep
    · rw [ran.holds_other same] at deep
      rcases others with kept | alone
      · rw [kept]
        exact holds.named other deep
      · exact absurd (alone other same) deep
  · by_cases same : other = thread
    · rw [same] at suspended ⊢
      exact waits suspended
    · rw [ran.frame_other same] at suspended
      rw [ran.holds_other same]
      exact holds.waiters other suspended

omit [DecidableEq Thread] in
/-- While the mutex is free nobody holds it. -/
theorem Invariant.free (holds : Invariant source) (unlocked : source.fields.lockers = 0)
    (thread : Thread) : (source.threads thread).holds = 0 := by
  rw [holds.lockers] at unlocked
  exact tally_eq_zero_iff.mp unlocked thread

/-- A section that takes the mutex, free or the thread's own, keeps the invariant. -/
theorem Invariant.taken (holds : Invariant source)
    (ran : Ran (monitor Thread) source thread call
      ⟨{ fields with locker := thread, lockers := raise fields.lockers 1 }, .none, .leave true⟩
      target)
    (lockers : fields.lockers = source.fields.lockers)
    (locker : fields.locker = source.fields.locker)
    (open_ : fields.lockers = 0 ∨ fields.locker = thread) (room : fields.lockers + 1 < 2 ^ 32)
    (deepens : (monitor Thread).book call true (source.threads thread).holds =
      (source.threads thread).holds + 1) : Invariant target := by
  have own := ran.own
  have after := ran.fields
  simp only [settleLocal, deepens] at own
  refine holds.ran ran ?_ ?_ ?_ ?_
  · simp only [after, own, raise_of_lt room]
    omega
  · simp [after]
  · rcases open_ with free | mine
    · exact Or.inr fun other _ => holds.free (lockers ▸ free) other
    · exact Or.inl (by rw [after, ← locker, mine])
  · simp [own]

/-- A section that puts to sleep a thread that finds the mutex another's keeps the invariant. -/
theorem Invariant.slept (holds : Invariant source) {frame : Frame}
    (ran : Ran (monitor Thread) source thread call
      ⟨{ fields with waiting := raise fields.waiting 1 }, .none, .sleep frame⟩ target)
    (lockers : fields.lockers = source.fields.lockers)
    (locker : fields.locker = source.fields.locker) (others : fields.locker ≠ thread) :
    Invariant target := by
  have own := ran.own
  have after := ran.fields
  simp only [settleLocal] at own
  have empty : (source.threads thread).holds = 0 := by
    by_contra deep
    exact others (locker.trans (holds.named thread deep))
  refine holds.ran ran ?_ ?_ (Or.inl ?_) ?_
  · simp only [after, own, lockers]
  · simp [own, empty]
  · rw [after, ← locker]
  · simp [own, empty]

/-- A section of `lock()` keeps the invariant. -/
theorem Invariant.lock (holds : Invariant source)
    (ran : Ran (monitor Thread) source thread .lock (lock fields thread) target)
    (lockers : fields.lockers = source.fields.lockers)
    (locker : fields.locker = source.fields.locker)
    (room : fields.lockers ≠ 0 → fields.locker = thread → fields.lockers + 1 < 2 ^ 32) :
    Invariant target := by
  by_cases free : fields.lockers = 0
  · have passage : RecursiveMutex.lock fields thread =
        ⟨{ fields with locker := thread, lockers := raise fields.lockers 1 }, .none,
          .leave true⟩ := by
      simp [RecursiveMutex.lock, lockExit, free]
    rw [passage] at ran
    exact holds.taken ran lockers locker (Or.inl free) (by simp [free]) rfl
  · by_cases mine : fields.locker = thread
    · have passage : RecursiveMutex.lock fields thread =
          ⟨{ fields with locker := thread, lockers := raise fields.lockers 1 }, .none,
            .leave true⟩ := by
        simp [RecursiveMutex.lock, lockExit, free, mine]
      rw [passage] at ran
      exact holds.taken ran lockers locker (Or.inr mine) (room free mine) rfl
    · have passage : RecursiveMutex.lock fields thread =
          ⟨{ fields with waiting := raise fields.waiting 1 }, .none, .sleep .lock⟩ := by
        simp [RecursiveMutex.lock, free, mine]
      rw [passage] at ran
      exact holds.slept ran lockers locker mine

/-- A section of `lock(timeout)` that ends, ends on a free mutex: it keeps the invariant, and
returns true if it returns. -/
theorem Invariant.lockTimed (holds : Invariant source) {result : Bool}
    (ran : Ran (monitor Thread) source thread .lockTimed (lockTimed fields thread result) target)
    (lockers : fields.lockers = source.fields.lockers)
    (locker : fields.locker = source.fields.locker)
    (free : fields.lockers = 0 ∨ result = true ∧ fields.locker ≠ thread) :
    Invariant target ∧ ∀ returned,
      (RecursiveMutex.lockTimed fields thread result).next.result = some returned →
      returned = true ∧ target.fields.locker = thread ∧
        target.fields.lockers = (source.threads thread).holds + 1 := by
  by_cases unlocked : fields.lockers = 0
  · have passage : RecursiveMutex.lockTimed fields thread result =
        ⟨{ fields with locker := thread, lockers := raise fields.lockers 1 }, .none,
          .leave true⟩ := by
      simp [RecursiveMutex.lockTimed, lockTimedExit, unlocked]
    rw [passage] at ran ⊢
    refine ⟨holds.taken ran lockers locker (Or.inl unlocked) (by simp [unlocked]) rfl,
      fun returned ended => ?_⟩
    have empty := holds.free (lockers ▸ unlocked) thread
    rw [ran.fields, empty]
    exact ⟨(Option.some_inj.mp ended).symm, rfl, by simp [unlocked, raise]⟩
  · obtain ⟨rfl, others⟩ := free.resolve_left unlocked
    have passage : RecursiveMutex.lockTimed fields thread true =
        ⟨{ fields with waiting := raise fields.waiting 1 }, .none, .sleep .lockTimed⟩ := by
      simp [RecursiveMutex.lockTimed, unlocked, others]
    rw [passage] at ran ⊢
    exact ⟨holds.slept ran lockers locker others, fun returned ended => by cases ended⟩

/-- `release()` keeps the invariant. -/
theorem Invariant.release (holds : Invariant source)
    (held : (source.threads thread).holds ≠ 0)
    (ran : Ran (monitor Thread) source thread .release (release source.fields) target) :
    Invariant target := by
  have own := ran.own
  have after := ran.fields
  simp only [RecursiveMutex.release, settleLocal, monitor] at own after
  have bounded : (source.threads thread).holds ≤ source.fields.lockers := by
    rw [holds.lockers]
    exact le_tally depthWeight source.threads thread
  refine holds.ran ran ?_ ?_ (Or.inl ?_) ?_
  · simp only [after, own]
    rw [lower_of_le (by omega)]
    omega
  · intro _
    rw [after]
    exact holds.named thread held
  · rw [after]
  · simp [own]

theorem Invariant.stirred (holds : Invariant source)
    (stirred : Stirred (monitor Thread) source thread target) : Invariant target := by
  refine ⟨?_, fun other deep => ?_, fun other suspended => ?_⟩
  · rw [stirred.fields, stirred.tally_eq, holds.lockers]
  · rw [stirred.holds_eq] at deep
    rw [stirred.fields]
    exact holds.named other deep
  · rw [stirred.frame_eq] at suspended
    rw [stirred.holds_eq]
    exact holds.waiters other suspended

omit [DecidableEq Thread] in
/-- A suspended thread is not the one named by a locked mutex. -/
theorem Invariant.waits_for_other (holds : Invariant source) {frame : Frame} {flag : Bool}
    (waitOver : WaitOver (source.threads thread).place frame flag)
    (locked : source.fields.lockers ≠ 0) : source.fields.locker ≠ thread := by
  rintro rfl
  refine holds.holds_of_locked locked (holds.waiters _ ?_)
  rw [waitOver.frame_eq]
  simp

/-- A step that ends timed locks free keeps the invariant and tells its callers the truth. -/
theorem invariant_step (action : Action Thread Call) (holds : Invariant source)
    (free : EndsFree source action)
    (stepped : (machine Thread).step source action = some target) :
    Invariant target ∧ TellsTrue ⟨source, action, target⟩ := by
  cases action with
  | enter thread call chosen =>
    obtain ⟨idle, allowed, _, ran⟩ := step_enter stepped
    cases call with
    | lock =>
      refine ⟨holds.lock ran rfl rfl free, fun other result ended => ?_⟩
      simp [outcome] at ended
    | lockTimed =>
      obtain ⟨kept, returns⟩ := holds.lockTimed ran rfl rfl
        (free.imp_right fun others => ⟨rfl, others⟩)
      refine ⟨kept, fun other result ended => ?_⟩
      obtain ⟨returned, ends, equal⟩ := Option.map_eq_some_iff.mp ended
      cases equal
      obtain ⟨rfl, locker, lockers⟩ := returns _ ends
      exact ⟨⟨fun _ => ⟨locker, lockers⟩, fun _ => rfl⟩, by simp⟩
    | release =>
      refine ⟨holds.release (by simpa [monitor] using allowed) ran,
        fun other result ended => ?_⟩
      simp [outcome] at ended
  | resume thread chosen =>
    obtain ⟨_, frame, flag, waitOver, ran⟩ := step_resume stepped
    cases frame with
    | lock =>
      refine ⟨holds.lock ran rfl rfl fun locked mine =>
        absurd mine (holds.waits_for_other waitOver locked), fun other result ended => ?_⟩
      rw [outcome_resume waitOver] at ended
      simp [monitor] at ended
    | lockTimed =>
      have ends : source.fields.lockers = 0 ∨ flag = true ∧ source.fields.locker ≠ thread := by
        by_cases unlocked : source.fields.lockers = 0
        · exact Or.inl unlocked
        · cases flag with
          | true => exact Or.inr ⟨rfl, holds.waits_for_other waitOver unlocked⟩
          | false => exact absurd (free waitOver) unlocked
      obtain ⟨kept, returns⟩ := holds.lockTimed ran rfl rfl ends
      refine ⟨kept, fun other result ended => ?_⟩
      rw [outcome_resume waitOver] at ended
      obtain ⟨returned, ends, equal⟩ := Option.map_eq_some_iff.mp ended
      cases equal
      obtain ⟨rfl, locker, lockers⟩ := returns _ ends
      exact ⟨⟨fun _ => ⟨locker, lockers⟩, fun _ => rfl⟩, by simp⟩
  | spurious thread =>
    exact ⟨holds.stirred (step_spurious stepped), fun _ _ ended => by cases ended⟩
  | timeout thread =>
    exact ⟨holds.stirred (step_timeout stepped), fun _ _ ended => by cases ended⟩

/-- A timed lock that ends on a locked mutex leaves `lockers` above the holder's depth. -/
theorem not_agrees_of_denied (holds : Invariant source)
    (ran : Ran (monitor Thread) source thread .lockTimed passage target)
    (deeper : passage.fields.lockers = raise source.fields.lockers 1)
    (denied : passage.next = .leave false) (locked : source.fields.lockers ≠ 0) :
    ¬ Agrees target := by
  have deep := holds.holds_of_locked locked
  have before := (holds.agrees.1 _ (Nat.pos_iff_ne_zero.mpr deep)).1
  have kept : (target.threads source.fields.locker).holds =
      (source.threads source.fields.locker).holds := by
    by_cases same : source.fields.locker = thread
    · rw [same, ran.own, denied]
      rfl
    · exact ran.holds_other same
  intro agrees
  have after := (agrees.1 source.fields.locker (by rw [kept]; omega)).1
  rw [ran.fields, kept, ← before, deeper] at after
  exact raise_one_ne _ after

/-- An owner that goes deeper than `lockers` can count leaves it below its depth. -/
theorem not_agrees_of_deep (holds : Invariant source) (locked : source.fields.lockers ≠ 0)
    (mine : source.fields.locker = thread) (full : ¬ source.fields.lockers + 1 < 2 ^ 32)
    (ran : Ran (monitor Thread) source thread .lock (RecursiveMutex.lock source.fields thread)
      target) : ¬ Agrees target := by
  have before := (holds.agrees.1 _ (Nat.pos_iff_ne_zero.mpr (holds.holds_of_locked locked))).1
  have passage : RecursiveMutex.lock source.fields thread =
      ⟨{ source.fields with locker := thread, lockers := raise source.fields.lockers 1 }, .none,
        .leave true⟩ := by
    simp [RecursiveMutex.lock, lockExit, locked, mine]
  rw [passage] at ran
  have own := ran.own
  simp only [settleLocal, monitor] at own
  rw [mine] at before
  intro agrees
  have after := (agrees.1 thread (by simp [own])).1
  rw [ran.fields, own] at after
  have lt := raise_lt source.fields.lockers 1
  simp only [if_true] at after
  omega

theorem not_agrees_of_not_endsFree (action : Action Thread Call) (holds : Invariant source)
    (locked : ¬ EndsFree source action)
    (stepped : (machine Thread).step source action = some target) : ¬ Agrees target := by
  cases action with
  | enter thread call chosen =>
    cases call with
    | lock =>
      obtain ⟨held, locked⟩ := Classical.not_imp.mp locked
      obtain ⟨mine, full⟩ := Classical.not_imp.mp locked
      obtain ⟨_, _, _, ran⟩ := step_enter stepped
      exact not_agrees_of_deep holds held mine full ran
    | lockTimed =>
      simp only [EndsFree] at locked
      push Not at locked
      obtain ⟨_, _, _, ran⟩ := step_enter stepped
      have passage : (monitor Thread).enter thread .lockTimed source.fields =
          ⟨{ source.fields with lockers := raise source.fields.lockers 1 }, .none,
            .leave false⟩ := by
        simp [monitor, RecursiveMutex.lockTimed, lockTimedExit, locked.1, locked.2]
      rw [passage] at ran
      exact not_agrees_of_denied holds ran rfl rfl locked.1
    | release => exact absurd trivial locked
  | resume thread chosen =>
    simp only [EndsFree] at locked
    push Not at locked
    obtain ⟨expired, unfree⟩ := locked
    obtain ⟨_, frame, flag, waitOver, ran⟩ := step_resume stepped
    cases flag with
    | true =>
      rw [waitOver] at expired
      cases expired
    | false =>
      rw [waitOver] at expired
      cases expired
      have passage : (monitor Thread).resume thread .lockTimed false source.fields =
          ⟨{ source.fields with
              waiting := lower source.fields.waiting 1
              lockers := raise source.fields.lockers 1 }, .none, .leave false⟩ := by
        simp [monitor, RecursiveMutex.lockTimed, lockTimedExit, unfree]
      rw [passage] at ran
      exact not_agrees_of_denied holds ran rfl rfl unfree
  | _ => exact absurd trivial locked

/-- In a run of a `RecursiveMutex` the counter agrees with the holders, and every timed lock tells
its caller the truth, exactly when every timed lock ends with the mutex free and the owner finds
room in `lockers`. -/
theorem recursiveMutex_agrees_iff {moves : List (Move (State Thread) (Action Thread Call))}
    {state : State Thread} (run : (machine Thread).Run moves state) :
    (Machine.Throughout Agrees moves state ∧ ∀ move ∈ moves, TellsTrue move) ↔
      Machine.Meets EndsFree moves := by
  refine run.sound_throughout_iff_meets Invariant (fun _ => invariant_init) ?_
    (fun _ holds => holds.agrees) ?_
  · intro source action target holds free stepped
    exact invariant_step action holds free stepped
  · intro source action target holds locked stepped agrees
    exact absurd agrees (not_agrees_of_not_endsFree action holds locked stepped)

end Agreement

/-- A thread that waits with a timeout, and gets the mutex when the owner has released it at both
levels. -/
theorem recursiveMutex_agrees_iff_handover :
    ∃ moves, ∃ state : State (Fin 2), (machine (Fin 2)).Run moves state ∧
      (state.threads 1).holds = 1 ∧
      Machine.Throughout Agrees moves state ∧ ∀ move ∈ moves, TellsTrue move := by
  let start : State (Fin 2) := .initial ⟨0, 0, 1⟩ 0
  have initial : (machine (Fin 2)).Init start := ⟨_, ⟨rfl, rfl⟩, rfl⟩
  have run := (((((Machine.Run.start initial).take (.enter 0 .lock none) (by decide)).take
    (.enter 0 .lock none) (by decide)).take (.enter 1 .lockTimed none) (by decide)).take
    (.enter 0 .release none) (by decide)).take (.enter 0 .release (some 1)) (by decide)
  refine ⟨_, _, run.take (.resume 1 none) (by decide), by decide,
    (recursiveMutex_agrees_iff (run.take (.resume 1 none) (by decide))).mpr ?_⟩
  refine Machine.meets_cons.mpr ⟨fun _ => by decide, Machine.meets_cons.mpr ⟨trivial,
    Machine.meets_cons.mpr ⟨trivial, Machine.meets_cons.mpr ⟨Or.inr (by decide), ?_⟩⟩⟩⟩
  exact Machine.meets_cons.mpr ⟨fun _ _ => by decide, Machine.meets_cons.mpr
    ⟨fun locked => absurd rfl locked, by simp [Machine.Meets]⟩⟩

/-- The owner locks again with a timeout: it is told false, and `lockers` is two. -/
theorem recursiveMutex_denies_owner :
    ∃ moves, ∃ source target : State (Fin 2), (machine (Fin 2)).Run moves source ∧
      (machine (Fin 2)).step source (.enter 0 .lockTimed none) = some target ∧
      source.fields.lockers = 1 ∧ source.fields.locker = 0 ∧
      (monitor (Fin 2)).outcome source (.enter 0 .lockTimed none) =
        some (0, .lockTimed, false) ∧
      target.fields.lockers = 2 ∧ (target.threads 0).holds = 1 ∧ ¬ Agrees target ∧
      ¬ TellsTrue ⟨source, .enter 0 .lockTimed none, target⟩ := by
  let start : State (Fin 2) := .initial ⟨0, 0, 1⟩ 0
  have initial : (machine (Fin 2)).Init start := ⟨_, ⟨rfl, rfl⟩, rfl⟩
  have run := (Machine.Run.start initial).take (.enter 0 .lock none) (by decide)
  refine ⟨_, _, _, run, (Option.some_get (by decide)).symm, by decide, by decide, by decide,
    by decide, by decide, fun agrees => ?_, fun tells => ?_⟩
  · exact absurd (agrees.1 0 (by decide)).1 (by decide)
  · exact absurd ((tells 0 false (by decide)).2 rfl).1 (by decide)

end RecursiveMutex

end CommonCpp
