/-
This file models `Barrier` and finds when it is a rendezvous.

A barrier releases its waiters when `waits` has reached `count`. Five entry
points change one or the other, and two of them leave the pair out of step. A
timed `wait` that expires returns without taking itself out of `waits`, so the
barrier later opens one thread short. `dec` lowers `count` without looking at
`waits`, as `set` and `inc` do, so the threads already gathered are not let go.
The runs that avoid both are exactly the runs in which `waits` counts the
threads blocked, stays below `count`, and no thread is released before `count`
threads have gathered.

The model adds to the source's fields the number of times the barrier has
opened. A suspended thread remembers the number it came in at, its generation;
nothing else reads either. `count` and `waits` wrap like `unsigned`: an `inc` that
brings `count` back to zero opens the barrier.
-/

import CommonCpp.Counter
import CommonCpp.Monitor

namespace CommonCpp

open Concurrency Concurrency.Monitor Counter

namespace Barrier

/-! ### The code -/

/-- The fields of a `Barrier`, with the number of times it has opened. -/
structure Fields where
  count : Nat
  waits : Nat
  generation : Nat
  deriving DecidableEq

/-- `wait()` and `wait(timeout)`, told apart by the flag; `set`, `inc` and `dec`. -/
inductive Call
  | wait (timed : Bool)
  | set (limit : Nat)
  | inc
  | dec
  deriving DecidableEq

/-- A suspended `wait`, with the generation it belongs to. -/
structure Frame where
  timed : Bool
  generation : Nat
  deriving DecidableEq

/-- Release everybody who waits. -/
def open_ (fields : Fields) : Fields :=
  { fields with waits := 0, generation := fields.generation + 1 }

/-- Both forms of `wait`, up to the condition wait. -/
def wait (fields : Fields) (timed : Bool) : Section Fields Unit Frame :=
  if fields.count = 0 then ⟨fields, .none, .leave true⟩
  else
    let fields := { fields with waits := raise fields.waits 1 }
    if fields.waits ≥ fields.count then ⟨open_ fields, .broadcast (), .leave true⟩
    else ⟨fields, .none, .sleep ⟨timed, fields.generation⟩⟩

/-- Open if the waiters are as many as required: the test `set` and `inc` end with. -/
def openIfReached (fields : Fields) : Section Fields Unit Frame :=
  if fields.count ≤ fields.waits then ⟨open_ fields, .broadcast (), .leave true⟩
  else ⟨fields, .none, .leave true⟩

/-- `set`. -/
def set (fields : Fields) (limit : Nat) : Section Fields Unit Frame :=
  openIfReached { fields with count := limit }

/-- `inc`. -/
def inc (fields : Fields) : Section Fields Unit Frame :=
  openIfReached { fields with count := raise fields.count 1 }

/-- `dec`, which does not look at `waits`. -/
def dec (fields : Fields) : Section Fields Unit Frame :=
  ⟨if fields.count ≠ 0 then { fields with count := lower fields.count 1 } else fields, .none,
    .leave true⟩

/-- The calls of `Barrier`. A wait that ends returns what the condition wait returned and touches
no field. `set` asserts that the limit, an `unsigned`, is positive. No spurious wake-ups. -/
def monitor (Thread : Type) : Monitor Thread Fields Call Unit Frame Unit where
  enter _ call fields :=
    match call with
    | .wait timed => wait fields timed
    | .set limit => set fields limit
    | .inc => inc fields
    | .dec => dec fields
  resume _ _ flag fields := ⟨fields, .none, .leave flag⟩
  call frame := .wait frame.timed
  queue _ := ()
  timed frame := frame.timed
  spurious := false
  inside _ := false
  may _
    | .set limit => 0 < limit ∧ limit < 2 ^ 32
    | _ => true
  book _ _ _ := ()

/-- The state of a `Barrier` and of the threads that use it. -/
abbrev State (Thread : Type) := Monitor.State Thread Fields Frame Unit

/-- The runs of `Barrier(limit)`. -/
def machine (Thread : Type) [DecidableEq Thread] [Fintype Thread] (limit : Nat) :
    Machine (State Thread) (Action Thread Call) :=
  (monitor Thread).machine (fun fields => limit < 2 ^ 32 ∧ fields = ⟨limit, 0, 0⟩) ()

/-! ### The rendezvous -/

section Rendezvous

variable {Thread : Type} [DecidableEq Thread] [Fintype Thread] {limit : Nat}

/-- The threads that are blocked in the given generation. -/
def ofGeneration (generation : Nat) (frame : Frame) : Bool :=
  frame.generation = generation

/-- The number of threads blocked in the present generation: asleep, or with a wait that has
expired but not yet returned. -/
def blocked (state : State Thread) : Nat :=
  headcount (ofGeneration state.fields.generation) state.threads

/-- `waits` counts the threads blocked in the present generation, which is that of everybody
asleep, and is below a positive `count`. -/
def InStep (state : State Thread) : Prop :=
  state.fields.waits = blocked state ∧
    (∀ thread frame, (state.threads thread).place = .asleep frame →
      frame.generation = state.fields.generation) ∧
    (0 < state.fields.count → state.fields.waits < state.fields.count)

/-- The thread that arrives at the barrier with this step, if one does. -/
def arriving : Action Thread Call → Nat
  | .enter _ (.wait _) _ => 1
  | _ => 0

/-- The step releases a thread: it wakes a sleeper, or lets an arriving thread pass. -/
def Releases (move : Move (State Thread) (Action Thread Call)) : Prop :=
  (∃ thread frame, (move.source.threads thread).place = .asleep frame ∧
    (move.target.threads thread).place = .woken frame) ∨
  ∃ thread timed chosen, move.action = .enter thread (.wait timed) chosen ∧
    (move.target.threads thread).place = .idle

/-- A step that releases a thread has at least `count` threads of its generation gathered: those
blocked and the one that arrives. -/
def Gathered (move : Move (State Thread) (Action Thread Call)) : Prop :=
  Releases move → move.target.fields.count ≤ blocked move.source + arriving move.action

/-- The step neither takes an expired thread out of a generation that is still waiting, nor
lowers a positive `count` to the number of waiters. -/
def KeepsStep (state : State Thread) : Action Thread Call → Prop
  | .resume thread _ =>
    ∀ frame, (state.threads thread).place = .expired frame →
      frame.generation ≠ state.fields.generation
  | .enter _ .dec _ => 1 < state.fields.count → state.fields.waits < state.fields.count - 1
  | _ => True

/-- What every step that keeps in step preserves. -/
structure Invariant (state : State Thread) : Prop where
  waits : state.fields.waits = tally (suspended (ofGeneration state.fields.generation))
    state.threads
  asleep : ∀ thread frame, (state.threads thread).place = .asleep frame →
    frame.generation = state.fields.generation
  woken : ∀ thread frame, (state.threads thread).place = .woken frame →
    frame.generation < state.fields.generation
  expired : ∀ thread frame, (state.threads thread).place = .expired frame →
    frame.generation ≤ state.fields.generation
  below : state.fields.waits = 0 ∨ state.fields.waits < state.fields.count
  bounded : state.fields.count < 2 ^ 32

theorem invariant_init {state : State Thread} (initial : (machine Thread limit).Init state) :
    Invariant state := by
  obtain ⟨fields, ⟨bounded, rfl⟩, rfl⟩ := initial
  exact ⟨by simp [State.initial, tally], by simp [State.initial], by simp [State.initial],
    by simp [State.initial], Or.inl rfl, bounded⟩

omit [DecidableEq Thread] in
theorem Invariant.inStep {state : State Thread} (holds : Invariant state) : InStep state := by
  refine ⟨?_, holds.asleep, fun positive => ?_⟩
  · rw [blocked, headcount_eq_tally]
    exact holds.waits
  · rcases holds.below with zero | below <;> omega

variable {source target : State Thread} {thread : Thread} {call : Call}
  {passage : Section Fields Unit Frame}

omit [DecidableEq Thread] in
/-- Nobody is suspended in a generation after the present one. -/
theorem Invariant.generation_le (holds : Invariant source) {frame : Frame}
    (suspended : (source.threads thread).place.frame = some frame) :
    frame.generation ≤ source.fields.generation := by
  cases place : (source.threads thread).place with
  | idle => rw [place] at suspended; cases suspended
  | asleep frame' =>
    rw [place] at suspended
    cases suspended
    exact (holds.asleep thread frame place).le
  | woken frame' =>
    rw [place] at suspended
    cases suspended
    exact (holds.woken thread frame place).le
  | expired frame' =>
    rw [place] at suspended
    cases suspended
    exact holds.expired thread frame place

/-- Opening the barrier keeps the invariant: nobody is left asleep, and nobody belongs to the new
generation yet. -/
theorem Invariant.opened (holds : Invariant source)
    (ran : Ran (monitor Thread) source thread call passage target)
    (waits : target.fields.waits = 0)
    (generation : target.fields.generation = source.fields.generation + 1)
    (broadcasts : passage.wake = .broadcast ())
    (own : (target.threads thread).place = .idle) (bounded : target.fields.count < 2 ^ 32) :
    Invariant target := by
  have behind : ∀ other frame, (target.threads other).place.frame = some frame →
      frame.generation ≤ source.fields.generation := by
    intro other frame suspended
    by_cases same : other = thread
    · rw [same, own] at suspended
      cases suspended
    · rw [ran.frame_other same] at suspended
      exact holds.generation_le suspended
  constructor
  · rw [waits, eq_comm, tally_eq_zero_iff]
    intro other
    cases suspended : (target.threads other).place.frame with
    | none => rfl
    | some frame =>
      have earlier := behind other frame suspended
      simp only [suspended_some, ofGeneration, generation, decide_eq_true_eq]
      rw [if_neg (by omega)]
  · intro other frame asleep
    by_cases same : other = thread
    · rw [same, own] at asleep
      cases asleep
    · exact absurd rfl (ran.not_asleep_of_broadcast broadcasts same asleep)
  · intro other frame woken
    have earlier := behind other frame (by rw [woken]; rfl)
    omega
  · intro other frame expired
    have earlier := behind other frame (by rw [expired]; rfl)
    omega
  · exact Or.inl waits
  · exact bounded

/-- A section that leaves the barrier shut and wakes nobody keeps the invariant when it balances
`waits` with the running thread. -/
theorem Invariant.shut (holds : Invariant source)
    (ran : Ran (monitor Thread) source thread call passage target)
    (generation : target.fields.generation = source.fields.generation)
    (quiet : passage.wake = .none)
    (waits : target.fields.waits +
        suspended (ofGeneration source.fields.generation) (source.threads thread).place.frame
          (source.threads thread).holds =
      source.fields.waits +
        suspended (ofGeneration source.fields.generation) (target.threads thread).place.frame
          (target.threads thread).holds)
    (own : ∀ frame, (target.threads thread).place = .asleep frame →
      frame.generation = source.fields.generation)
    (below : target.fields.waits = 0 ∨ target.fields.waits < target.fields.count)
    (bounded : target.fields.count < 2 ^ 32) : Invariant target := by
  have others : ∀ other, other ≠ thread → target.threads other = source.threads other :=
    fun other different => ran.eq_other quiet different
  have still : ∀ frame, (target.threads thread).place ≠ .woken frame ∧
      (target.threads thread).place ≠ .expired frame := by
    intro frame
    rcases ran.own_place with idle | ⟨frame', asleep⟩
    · simp [idle]
    · simp [asleep]
  refine ⟨?_, ?_, ?_, ?_, below, bounded⟩
  · rw [generation]
    exact ran.counted holds.waits waits
  · intro other frame asleep
    rw [generation]
    by_cases same : other = thread
    · exact own frame (same ▸ asleep)
    · rw [others other same] at asleep
      exact holds.asleep other frame asleep
  · intro other frame woken
    rw [generation]
    by_cases same : other = thread
    · exact absurd (same ▸ woken) (still frame).1
    · rw [others other same] at woken
      exact holds.woken other frame woken
  · intro other frame expired
    rw [generation]
    by_cases same : other = thread
    · exact absurd (same ▸ expired) (still frame).2
    · rw [others other same] at expired
      exact holds.expired other frame expired

/-- A section that leaves the barrier shut releases nobody who sleeps. -/
theorem not_woken_of_quiet (ran : Ran (monitor Thread) source thread call passage target)
    (quiet : passage.wake = .none)
    (awake : ∀ frame, (source.threads thread).place ≠ .asleep frame) :
    ¬ ∃ other frame, (source.threads other).place = .asleep frame ∧
      (target.threads other).place = .woken frame := by
  rintro ⟨other, frame, asleep, woken⟩
  by_cases same : other = thread
  · exact awake frame (same ▸ asleep)
  · rw [ran.eq_other quiet same, asleep] at woken
    cases woken

/-- `wait` keeps the invariant, and opens only for `count` gathered threads. -/
theorem Invariant.wait (holds : Invariant source) {timed : Bool} {chosen : Option Thread}
    (idle : (source.threads thread).place = .idle)
    (ran : Ran (monitor Thread) source thread (.wait timed) (wait source.fields timed) target) :
    Invariant target ∧ Gathered ⟨source, .enter thread (.wait timed) chosen, target⟩ := by
  have own := ran.own
  have after := ran.fields
  have present : source.fields.waits = blocked source := holds.inStep.1
  by_cases zero : source.fields.count = 0
  · have passage : Barrier.wait source.fields timed = ⟨source.fields, .none, .leave true⟩ := by
      simp [Barrier.wait, zero]
    rw [passage] at ran own after
    simp only [settleLocal] at own
    refine ⟨holds.shut ran ?_ rfl ?_ ?_ ?_ ?_, fun _ => ?_⟩
    · rw [after]
    · simp [own, idle, after]
    · simp [own]
    · rw [after]
      exact holds.below
    · rw [after]
      exact holds.bounded
    · simp [after, zero]
  · have raised : raise source.fields.waits 1 = source.fields.waits + 1 := by
      have bounded := holds.bounded
      rcases holds.below with none | below <;> exact raise_of_lt (by omega)
    by_cases reached : source.fields.waits + 1 ≥ source.fields.count
    · have passage : Barrier.wait source.fields timed =
          ⟨open_ { source.fields with waits := source.fields.waits + 1 }, .broadcast (),
            .leave true⟩ := by
        simp [Barrier.wait, zero, raised, reached]
      rw [passage] at ran own after
      simp only [settleLocal] at own
      refine ⟨holds.opened ran ?_ ?_ rfl ?_ ?_, fun _ => ?_⟩
      · rw [after]
        rfl
      · rw [after]
        rfl
      · rw [own]
      · rw [after]
        exact holds.bounded
      · rw [after, ← present]
        exact reached
    · have passage : Barrier.wait source.fields timed =
          ⟨{ source.fields with waits := source.fields.waits + 1 }, .none,
            .sleep ⟨timed, source.fields.generation⟩⟩ := by
        simp [Barrier.wait, zero, raised, reached]
      rw [passage] at ran own after
      simp only [settleLocal] at own
      refine ⟨holds.shut ran ?_ rfl ?_ ?_ ?_ ?_, ?_⟩
      · rw [after]
      · simp [own, idle, after, ofGeneration]
      · intro frame asleep
        rw [own] at asleep
        cases asleep
        rfl
      · rw [after]
        exact Or.inr (Nat.lt_of_not_le reached)
      · rw [after]
        exact holds.bounded
      · rintro (woken | ⟨_, _, _, entered, passed⟩)
        · exact absurd woken (not_woken_of_quiet ran rfl (by simp [idle]))
        · cases entered
          rw [own] at passed
          cases passed

/-- The test that ends `set` and `inc` keeps the invariant, and opens only for `count` gathered
threads. -/
theorem Invariant.openIfReached (holds : Invariant source) {count : Nat}
    (bounded : count < 2 ^ 32) {chosen : Option Thread}
    (idle : (source.threads thread).place = .idle)
    (arrives : ∀ timed, call ≠ .wait timed)
    (ran : Ran (monitor Thread) source thread call
      (openIfReached { source.fields with count := count }) target) :
    Invariant target ∧ Gathered ⟨source, .enter thread call chosen, target⟩ := by
  have own := ran.own
  have after := ran.fields
  have present : source.fields.waits = blocked source := holds.inStep.1
  by_cases reached : count ≤ source.fields.waits
  · have passage : Barrier.openIfReached { source.fields with count := count } =
        ⟨open_ { source.fields with count := count }, .broadcast (), .leave true⟩ := by
      simp [Barrier.openIfReached, reached]
    rw [passage] at ran own after
    simp only [settleLocal] at own
    refine ⟨holds.opened ran ?_ ?_ rfl ?_ ?_, fun _ => ?_⟩
    · rw [after]
      rfl
    · rw [after]
      rfl
    · rw [own]
    · rw [after]
      exact bounded
    · rw [after, ← present]
      exact reached.trans (Nat.le_add_right _ _)
  · have passage : Barrier.openIfReached { source.fields with count := count } =
        ⟨{ source.fields with count := count }, .none, .leave true⟩ := by
      simp [Barrier.openIfReached, reached]
    rw [passage] at ran own after
    simp only [settleLocal] at own
    refine ⟨holds.shut ran ?_ rfl ?_ ?_ ?_ ?_, ?_⟩
    · rw [after]
    · simp [own, idle, after]
    · simp [own]
    · rw [after]
      exact Or.inr (Nat.lt_of_not_le reached)
    · rw [after]
      exact bounded
    · rintro (woken | ⟨_, timed, _, entered, _⟩)
      · exact absurd woken (not_woken_of_quiet ran rfl (by simp [idle]))
      · cases entered
        exact absurd rfl (arrives timed)

/-- `dec` keeps the invariant when it leaves `count` above the waiters. -/
theorem Invariant.dec (holds : Invariant source) {chosen : Option Thread}
    (idle : (source.threads thread).place = .idle)
    (keeps : KeepsStep source (.enter thread .dec chosen))
    (ran : Ran (monitor Thread) source thread .dec (dec source.fields) target) :
    Invariant target ∧ Gathered ⟨source, .enter thread .dec chosen, target⟩ := by
  have own := ran.own
  have after := ran.fields
  simp only [Barrier.dec, settleLocal] at own after
  have waits : target.fields.waits = source.fields.waits ∧
      target.fields.count = source.fields.count - 1 ∧
      target.fields.generation = source.fields.generation := by
    rw [after]
    split
    · exact ⟨rfl, lower_of_le (by omega), rfl⟩
    · exact ⟨rfl, by omega, rfl⟩
  refine ⟨holds.shut ran waits.2.2 rfl ?_ ?_ ?_ ?_, ?_⟩
  · rw [waits.1]
    simp [own, idle]
  · simp [own]
  · rw [waits.1, waits.2.1]
    have below := holds.below
    by_cases several : 1 < source.fields.count
    · exact Or.inr (keeps several)
    · omega
  · rw [waits.2.1]
    exact Nat.lt_of_le_of_lt (Nat.sub_le _ _) holds.bounded
  · rintro (woken | ⟨_, _, _, entered, _⟩)
    · exact absurd woken (not_woken_of_quiet ran rfl (by simp [idle]))
    · cases entered

/-- A wait that returns keeps the invariant when its generation is over. -/
theorem Invariant.resume (holds : Invariant source) {frame : Frame} {flag : Bool}
    {chosen : Option Thread} (waitOver : WaitOver (source.threads thread).place frame flag)
    (left : frame.generation ≠ source.fields.generation)
    (ran : Ran (monitor Thread) source thread (.wait frame.timed)
      ⟨source.fields, .none, .leave flag⟩ target) :
    Invariant target ∧ Gathered ⟨source, .resume thread chosen, target⟩ := by
  have own := ran.own
  have after := ran.fields
  simp only [settleLocal] at own after
  refine ⟨holds.shut ran ?_ rfl ?_ ?_ ?_ ?_, ?_⟩
  · rw [after]
  · rw [waitOver.frame_eq]
    simp [own, after, ofGeneration, left]
  · simp [own]
  · rw [after]
    exact holds.below
  · rw [after]
    exact holds.bounded
  · rintro (woken | ⟨_, _, _, entered, _⟩)
    · exact absurd woken (not_woken_of_quiet ran rfl waitOver.not_asleep)
    · cases entered

/-- An expiring wait keeps the invariant and releases nobody. -/
theorem Invariant.stirred (holds : Invariant source)
    (stirred : Stirred (monitor Thread) source thread target) :
    Invariant target ∧ ∀ other frame, (source.threads other).place = .asleep frame →
      (target.threads other).place ≠ .woken frame := by
  obtain ⟨frame, before, ⟨spurious, _⟩ | ⟨_, after⟩⟩ := stirred.place
  · cases spurious
  refine ⟨⟨?_, ?_, ?_, ?_, ?_, ?_⟩, ?_⟩
  · rw [stirred.fields, stirred.tally_eq, holds.waits]
  · intro other frame' asleep
    rw [stirred.fields]
    exact holds.asleep other frame' (stirred.asleep_before asleep)
  · intro other frame' woken
    rw [stirred.fields]
    by_cases same : other = thread
    · rw [same, after] at woken
      cases woken
    · rw [stirred.others other same] at woken
      exact holds.woken other frame' woken
  · intro other frame' expired
    rw [stirred.fields]
    have suspended : (source.threads other).place.frame = some frame' := by
      rw [← stirred.frame_eq, expired]
      rfl
    exact holds.generation_le suspended
  · rw [stirred.fields]
    exact holds.below
  · rw [stirred.fields]
    exact holds.bounded
  · intro other frame' asleep woken
    by_cases same : other = thread
    · rw [same, after] at woken
      cases woken
    · rw [stirred.others other same, asleep] at woken
      cases woken

theorem invariant_step (action : Action Thread Call) (holds : Invariant source)
    (keeps : KeepsStep source action)
    (stepped : (machine Thread limit).step source action = some target) :
    Invariant target ∧ Gathered ⟨source, action, target⟩ := by
  cases action with
  | enter thread call chosen =>
    obtain ⟨idle, allowed, _, ran⟩ := step_enter stepped
    cases call with
    | wait timed => exact holds.wait idle ran
    | set limit =>
      have bounded : limit < 2 ^ 32 := (of_decide_eq_true allowed).2
      exact holds.openIfReached bounded idle (by simp) ran
    | inc => exact holds.openIfReached (raise_lt _ _) idle (by simp) ran
    | dec => exact holds.dec idle keeps ran
  | resume thread chosen =>
    obtain ⟨_, frame, flag, waitOver, ran⟩ := step_resume stepped
    refine holds.resume waitOver ?_ ran
    cases flag with
    | true => exact (holds.woken thread frame waitOver).ne
    | false => exact keeps frame waitOver
  | spurious thread =>
    obtain ⟨kept, unreleased⟩ := holds.stirred (step_spurious stepped)
    refine ⟨kept, ?_⟩
    rintro (⟨other, frame, asleep, woken⟩ | ⟨_, _, _, entered, _⟩)
    · exact absurd woken (unreleased other frame asleep)
    · cases entered
  | timeout thread =>
    obtain ⟨kept, unreleased⟩ := holds.stirred (step_timeout stepped)
    refine ⟨kept, ?_⟩
    rintro (⟨other, frame, asleep, woken⟩ | ⟨_, _, _, entered, _⟩)
    · exact absurd woken (unreleased other frame asleep)
    · cases entered

/-- A step that does not keep in step puts `waits` out of step at once. -/
theorem not_inStep_of_not_keepsStep (action : Action Thread Call) (holds : Invariant source)
    (breaks : ¬ KeepsStep source action)
    (stepped : (machine Thread limit).step source action = some target) : ¬ InStep target := by
  cases action with
  | enter thread call chosen =>
    cases call with
    | dec =>
      simp only [KeepsStep] at breaks
      push Not at breaks
      obtain ⟨several, reached⟩ := breaks
      obtain ⟨_, _, _, ran⟩ := step_enter stepped
      have after : target.fields = { source.fields with count := source.fields.count - 1 } := by
        rw [ran.fields]
        simp only [monitor, Barrier.dec, if_pos (show source.fields.count ≠ 0 by omega),
          lower_of_le several.le]
      rintro ⟨_, _, below⟩
      rw [after] at below
      have bounded := below (Nat.sub_pos_of_lt several)
      dsimp only at bounded
      omega
    | _ => exact absurd trivial breaks
  | resume thread chosen =>
    simp only [KeepsStep] at breaks
    push Not at breaks
    obtain ⟨frame, expired, present⟩ := breaks
    obtain ⟨_, frame', flag, waitOver, ran⟩ := step_resume stepped
    have same : frame' = frame := by
      have suspended := waitOver.frame_eq
      rw [expired] at suspended
      exact (Option.some_inj.mp suspended).symm
    subst same
    have after : target.fields = source.fields := ran.fields
    have changed := ran.tally_add (suspended (ofGeneration source.fields.generation))
    rw [waitOver.frame_eq, ran.own] at changed
    simp only [suspended_some, ofGeneration, present, decide_true, if_true, monitor, settleLocal,
      Place.frame_idle, suspended_none] at changed
    rintro ⟨waits, _, _⟩
    rw [blocked, headcount_eq_tally, after, holds.waits] at waits
    omega
  | _ => exact absurd trivial breaks

/-- A run of a `Barrier` stays in step, and releases threads only when enough have gathered,
exactly when no expired thread leaves a generation that is still waiting and no `dec` lowers a
positive `count` to the number of waiters. -/
theorem barrier_rendezvous_iff {moves : List (Move (State Thread) (Action Thread Call))}
    {state : State Thread} (run : (machine Thread limit).Run moves state) :
    (Machine.Throughout InStep moves state ∧ ∀ move ∈ moves, Gathered move) ↔
      Machine.Meets KeepsStep moves := by
  refine run.sound_throughout_iff_meets Invariant (fun _ => invariant_init) ?_
    (fun _ holds => holds.inStep) ?_
  · intro source action target holds keeps stepped
    exact invariant_step action holds keeps stepped
  · intro source action target holds breaks stepped inStep
    exact absurd inStep (not_inStep_of_not_keepsStep action holds breaks stepped)

end Rendezvous

/-- Two threads meet at a barrier of two. -/
theorem barrier_rendezvous_iff_two :
    ∃ moves, ∃ state : State (Fin 2), (machine (Fin 2) 2).Run moves state ∧
      (state.threads 0).place = .woken ⟨false, 0⟩ ∧ (state.threads 1).place = .idle ∧
      Machine.Throughout InStep moves state ∧ ∀ move ∈ moves, Gathered move := by
  let start : State (Fin 2) := .initial ⟨2, 0, 0⟩ ()
  have initial : (machine (Fin 2) 2).Init start := ⟨_, ⟨by decide, rfl⟩, rfl⟩
  have run := ((Machine.Run.start initial).take (.enter 0 (.wait false) none) (by decide)).take
    (.enter 1 (.wait true) none) (by decide)
  refine ⟨_, _, run, by decide, by decide, (barrier_rendezvous_iff run).mpr ?_⟩
  exact Machine.meets_cons.mpr ⟨trivial,
    Machine.meets_cons.mpr ⟨trivial, by simp [Machine.Meets]⟩⟩

/-- At a barrier of two, the first thread's timed wait expires and returns. It has left but is
still counted, and the second thread passes the barrier alone. -/
theorem barrier_passed_alone :
    ∃ moves, ∃ source target : State (Fin 2), (machine (Fin 2) 2).Run moves source ∧
      source.fields.waits = 1 ∧ blocked source = 0 ∧
      (machine (Fin 2) 2).step source (.enter 1 (.wait false) none) = some target ∧
      (target.threads 1).place = .idle ∧ ¬ Machine.Throughout InStep moves source ∧
      ¬ Gathered ⟨source, .enter 1 (.wait false) none, target⟩ := by
  let start : State (Fin 2) := .initial ⟨2, 0, 0⟩ ()
  have initial : (machine (Fin 2) 2).Init start := ⟨_, ⟨by decide, rfl⟩, rfl⟩
  let played := (machine (Fin 2) 2).play start
    [.enter 0 (.wait true) none, .timeout 0, .resume 0 none]
  obtain ⟨moves, run⟩ : (machine (Fin 2) 2).Reachable (played.get (by decide)) :=
    Machine.reachable_get initial _
  let step := (machine (Fin 2) 2).step (played.get (by decide)) (.enter 1 (.wait false) none)
  have passed : ((step.get (by decide)).threads 1).place = .idle := by decide
  refine ⟨moves, _, step.get (by decide), run, by decide, by decide, (Option.some_get _).symm,
    passed, fun throughout => ?_, fun gathered => ?_⟩
  · exact absurd throughout.1.1 (by decide)
  · exact absurd (gathered (Or.inr ⟨1, false, none, rfl, passed⟩)) (by decide)

end Barrier

end CommonCpp
