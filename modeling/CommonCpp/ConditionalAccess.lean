/-
This file models `ConditionalAccess`, the scheduler of shared access under brief
exclusive sections, and proves that it strands nobody.

`modify` returns with the internal mutex locked and `commit` unlocks it, so an
exclusive section is a stretch of time in which no other thread runs. Shared
holders are counted in `sharing`; a modifier sleeps on `cond` while there are
any, a reader sleeps on `bcast` while a modifier is pending. Each release path
wakes one kind of sleeper only, and the invariant says why that is enough: with
the mutex free, readers sleep only behind a pending modifier, and a pending
modifier that nothing holds up has already been woken.

The counters wrap like the `unsigned` they are. With 2^32 shared holds `sharing`
is zero, and a modifier is let in beside them; so the runs that are meant here
are those whose counters have room. The assertions on `max_sharing`, which is
zero unless `limit_sharing` was called, only end a run early and are left out.
-/

import CommonCpp.Counter
import CommonCpp.Monitor

namespace CommonCpp

open Concurrency Concurrency.Monitor Counter

namespace ConditionalAccess

/-! ### The code -/

/-- The two condition variables: `cond` of the base class, and `bcast`. -/
inductive Queue
  | cond
  | bcast
  deriving DecidableEq

/-- The counters of a `ConditionalAccess`. -/
structure Fields where
  pending : Nat
  waiting : Nat
  sharing : Nat
  deriving DecidableEq

inductive Call
  | modify
  | commit
  | access
  | release
  deriving DecidableEq

/-- The calls that wait. -/
inductive Frame
  | modify
  | access
  deriving DecidableEq

/-- What a thread holds: its shared holds, and whether it is between `modify` and `commit`. -/
structure Holds where
  shared : Nat
  exclusive : Bool
  deriving DecidableEq

/-- `modify` from its loop test on, with the mutex locked. It returns without unlocking. -/
def modify (fields : Fields) : Section Fields Queue Frame :=
  if fields.sharing ≠ 0 then
    ⟨{ fields with pending := raise fields.pending 1 }, .none, .sleep .modify⟩
  else
    ⟨fields, .none, .keep true⟩

theorem modify_of_unshared {fields : Fields} (unshared : fields.sharing = 0) :
    modify fields = ⟨fields, .none, .keep true⟩ := by
  simp [modify, unshared]

theorem modify_of_shared {fields : Fields} (shared : fields.sharing ≠ 0) :
    modify fields =
      ⟨{ fields with pending := raise fields.pending 1 }, .none, .sleep .modify⟩ := by
  simp [modify, shared]

/-- `commit`, entered with the mutex locked by `modify`. -/
def commit (fields : Fields) : Section Fields Queue Frame :=
  ⟨fields,
    if fields.pending ≠ 0 then .signal .cond
    else if fields.waiting ≠ 0 then .broadcast .bcast
    else .none,
    .leave true⟩

/-- `access` from its loop test on. -/
def access (fields : Fields) : Section Fields Queue Frame :=
  if fields.pending ≠ 0 then
    ⟨{ fields with waiting := raise fields.waiting 1 }, .none, .sleep .access⟩
  else
    ⟨{ fields with sharing := raise fields.sharing 1 }, .none, .leave true⟩

theorem access_of_pending {fields : Fields} (pending : fields.pending ≠ 0) :
    access fields =
      ⟨{ fields with waiting := raise fields.waiting 1 }, .none, .sleep .access⟩ := by
  simp [access, pending]

theorem access_of_clear {fields : Fields} (clear : fields.pending = 0) :
    access fields =
      ⟨{ fields with sharing := raise fields.sharing 1 }, .none, .leave true⟩ := by
  simp [access, clear]

/-- `release`: one shared hold less, and the sleepers this lets through. -/
def release (fields : Fields) : Section Fields Queue Frame :=
  let fields := { fields with sharing := lower fields.sharing 1 }
  ⟨fields,
    if fields.pending ≠ 0 ∧ fields.sharing = 0 then .signal .cond
    else if fields.waiting ≠ 0 ∧ fields.pending = 0 then .broadcast .bcast
    else .none,
    .leave true⟩

/-- The calls of `ConditionalAccess`. A thread commits and releases only what it holds. A wait
that ends decrements the counter it incremented and goes back to the loop test. -/
def monitor (Thread : Type) : Monitor Thread Fields Call Queue Frame Holds where
  enter _ call fields :=
    match call with
    | .modify => modify fields
    | .commit => commit fields
    | .access => access fields
    | .release => release fields
  resume _ frame _ fields :=
    match frame with
    | .modify => modify { fields with pending := lower fields.pending 1 }
    | .access => access { fields with waiting := lower fields.waiting 1 }
  call
    | .modify => .modify
    | .access => .access
  queue
    | .modify => .cond
    | .access => .bcast
  timed _ := false
  spurious := true
  inside
    | .commit => true
    | _ => false
  may holds
    | .commit => holds.exclusive
    | .release => holds.shared ≠ 0
    | _ => true
  book call _ holds :=
    match call with
    | .modify => { holds with exclusive := true }
    | .commit => { holds with exclusive := false }
    | .access => { holds with shared := holds.shared + 1 }
    | .release => { holds with shared := holds.shared - 1 }

/-- The state of a `ConditionalAccess` and of the threads that use it. -/
abbrev State (Thread : Type) := Monitor.State Thread Fields Frame Holds

/-- The runs of a `ConditionalAccess` from its constructor on. -/
def machine (Thread : Type) [DecidableEq Thread] [Fintype Thread] :
    Machine (State Thread) (Action Thread Call) :=
  (monitor Thread).machine (fun fields => fields = ⟨0, 0, 0⟩) ⟨0, false⟩

/-- A call that is let in finds room in `sharing` for its hold. -/
def Room {Thread : Type} (state : State Thread) (_ : Thread) : Call → Prop
  | .access => state.fields.pending = 0 → state.fields.sharing + 1 < 2 ^ 32
  | _ => True

instance {Thread : Type} (state : State Thread) (self : Thread) :
    (call : Call) → Decidable (Room state self call)
  | .access => inferInstanceAs (Decidable (_ → _))
  | .modify | .commit | .release => inferInstanceAs (Decidable True)

/-- The frames inside the wait of `modify`. -/
def Frame.modifying : Frame → Bool
  | .modify => true
  | .access => false

/-- The frames inside the wait of `access`. -/
def Frame.accessing : Frame → Bool
  | .modify => false
  | .access => true

/-! ### The invariant -/

section Invariant

variable {Thread : Type} [DecidableEq Thread] [Fintype Thread]

/-- The weight of a thread in `sharing`. -/
def sharedWeight : Option Frame → Holds → Nat := fun _ holds => holds.shared

/-- The three counters count what they are meant to. -/
structure Counts (state : State Thread) : Prop where
  sharing : state.fields.sharing = tally sharedWeight state.threads
  pending : state.fields.pending = tally (suspended Frame.modifying) state.threads
  waiting : state.fields.waiting = tally (suspended Frame.accessing) state.threads

/-- What every step of a `ConditionalAccess` preserves. -/
structure Invariant (state : State Thread) : Prop where
  timely : Timely (monitor Thread) state
  counts : Counts state
  owner : ∀ thread, (state.threads thread).holds.exclusive = true ↔ state.owner = some thread
  alone : state.owner ≠ none → state.fields.sharing = 0
  calm : state.owner = none → state.fields.pending = 0 →
    ∀ thread, (state.threads thread).place ≠ .asleep .access
  served : state.owner = none → state.fields.pending ≠ 0 → state.fields.sharing = 0 →
    ∃ thread, (state.threads thread).place = .woken .modify

theorem invariant_init {state : State Thread} (initial : (machine Thread).Init state) :
    Invariant state := by
  obtain ⟨fields, rfl, rfl⟩ := initial
  refine ⟨?_, ⟨?_, ?_, ?_⟩, ?_, ?_, ?_, ?_⟩ <;>
    simp [State.initial, Timely, tally, sharedWeight]

/-- The fields a section starts from: the source's, less what the running thread contributes as
a sleeper. -/
structure Start (source : State Thread) (thread : Thread) (fields : Fields) : Prop where
  sharing : fields.sharing = source.fields.sharing
  pending : fields.pending +
    suspended Frame.modifying (source.threads thread).place.frame
      (source.threads thread).holds = source.fields.pending
  waiting : fields.waiting +
    suspended Frame.accessing (source.threads thread).place.frame
      (source.threads thread).holds = source.fields.waiting

variable {source target : State Thread} {thread : Thread} {fields : Fields} {call : Call}
  {passage : Section Fields Queue Frame}

/-- The counters stay right when the section adds to each what the running thread contributes
afterwards. -/
theorem Counts.ran (counts : Counts source) (start : Start source thread fields)
    (ran : Ran (monitor Thread) source thread call passage target)
    (sharing : passage.fields.sharing + (source.threads thread).holds.shared =
      fields.sharing + (target.threads thread).holds.shared)
    (pending : passage.fields.pending = fields.pending +
      suspended Frame.modifying (target.threads thread).place.frame
        (target.threads thread).holds)
    (waiting : passage.fields.waiting = fields.waiting +
      suspended Frame.accessing (target.threads thread).place.frame
        (target.threads thread).holds) :
    Counts target := by
  rw [start.sharing] at sharing
  have startPending := start.pending
  have startWaiting := start.waiting
  constructor
  · rw [ran.fields]
    exact ran.counted counts.sharing sharing
  · rw [ran.fields]
    exact ran.counted counts.pending (by omega)
  · rw [ran.fields]
    exact ran.counted counts.waiting (by omega)

omit [DecidableEq Thread] in
/-- The threads that sleep besides the running one can be counted, and one more. -/
theorem Start.counted (start : Start source thread fields) (counts : Counts source)
    (few : Fintype.card Thread < 2 ^ 32) :
    raise fields.pending 1 = fields.pending + 1 ∧ raise fields.waiting 1 = fields.waiting + 1 := by
  have pending := tally_suspended_lt Frame.modifying source.threads thread
  have waiting := tally_suspended_lt Frame.accessing source.threads thread
  have startPending := start.pending
  have startWaiting := start.waiting
  rw [← counts.pending] at pending
  rw [← counts.waiting] at waiting
  exact ⟨raise_of_lt (by omega), raise_of_lt (by omega)⟩

omit [DecidableEq Thread] in
/-- While the mutex is free nobody is in an exclusive section. -/
theorem Invariant.not_exclusive (holds : Invariant source) (free : source.owner = none)
    (other : Thread) : (source.threads other).holds.exclusive = false := by
  have owner := holds.owner other
  rw [free] at owner
  simpa using owner

/-- A section that signals `cond` while a modifier other than the running thread is pending
leaves one woken: the sleeper it chose, or one that was woken before. -/
theorem Invariant.exists_woken (holds : Invariant source)
    (awake : ∀ frame, (source.threads thread).place ≠ .asleep frame)
    (ran : Ran (monitor Thread) source thread call passage target)
    (signals : passage.wake = .signal .cond)
    (pending : ∃ other, other ≠ thread ∧
      (source.threads other).place.frame = some .modify) :
    ∃ other, (target.threads other).place = .woken .modify := by
  by_cases sleeper : ∃ other, (source.threads other).place = .asleep .modify
  · obtain ⟨other, asleep⟩ := sleeper
    obtain ⟨other, frame, _, _, queued, woken⟩ :=
      ran.exists_woken signals awake ⟨other, .modify, asleep, rfl⟩
    cases frame with
    | modify => exact ⟨other, woken⟩
    | access => cases queued
  · obtain ⟨other, different, frame⟩ := pending
    refine ⟨other, ?_⟩
    have placed : (source.threads other).place = .woken .modify := by
      cases place : (source.threads other).place with
      | idle => rw [place] at frame; cases frame
      | asleep frame' =>
        rw [place] at frame
        cases frame
        exact absurd ⟨other, place⟩ sleeper
      | woken frame' =>
        rw [place] at frame
        cases frame
        rfl
      | expired frame' => cases holds.timely other frame' place
    rw [ran.unmoved different fun frame asleep => by rw [placed] at asleep; cases asleep]
    exact placed

/-- A section of `modify` keeps the invariant. -/
theorem Invariant.modify (holds : Invariant source) (few : Fintype.card Thread < 2 ^ 32)
    (free : source.owner = none) (start : Start source thread fields)
    (ran : Ran (monitor Thread) source thread .modify (modify fields) target) :
    Invariant target := by
  have own := ran.own
  have owner := ran.owner
  have after := ran.fields
  have idle := holds.not_exclusive free thread
  by_cases shared : fields.sharing = 0
  · rw [modify_of_unshared shared] at ran own owner after
    simp only [settleLocal, settleOwner, monitor] at own owner
    refine ⟨holds.timely.ran ran, holds.counts.ran start ran ?_ ?_ ?_,
      ran.owner_iff (fun own => own.exclusive = true) holds.owner (Or.inl free) ?_, ?_, ?_, ?_⟩
    · simp [own]
    · simp [own]
    · simp [own]
    · simp [own, owner]
    · simp [after, shared]
    · simp [owner]
    · simp [owner]
  · rw [modify_of_shared shared, (start.counted holds.counts few).1] at ran own owner after
    simp only [settleLocal, settleOwner] at own owner
    refine ⟨holds.timely.ran ran, holds.counts.ran start ran ?_ ?_ ?_,
      ran.owner_iff (fun own => own.exclusive = true) holds.owner (Or.inl free) ?_, ?_, ?_, ?_⟩
    · simp [own]
    · simp [own, Frame.modifying]
    · simp [own, Frame.accessing]
    · simp [own, owner, idle]
    · simp [owner]
    · simp [after]
    · simp [after, shared]

/-- A section of `access` keeps the invariant. -/
theorem Invariant.access (holds : Invariant source) (few : Fintype.card Thread < 2 ^ 32)
    (free : source.owner = none)
    (start : Start source thread fields)
    (room : fields.pending = 0 → fields.sharing + 1 < 2 ^ 32)
    (stays : fields.pending = source.fields.pending)
    (other : (source.threads thread).place ≠ .woken .modify)
    (ran : Ran (monitor Thread) source thread .access (access fields) target) :
    Invariant target := by
  have own := ran.own
  have owner := ran.owner
  have after := ran.fields
  have idle := holds.not_exclusive free thread
  by_cases clear : fields.pending = 0
  · rw [access_of_clear clear, raise_of_lt (room clear)] at ran own owner after
    simp only [settleLocal, settleOwner, monitor] at own owner
    refine ⟨holds.timely.ran ran, holds.counts.ran start ran ?_ ?_ ?_,
      ran.owner_iff (fun own => own.exclusive = true) holds.owner (Or.inl free) ?_, ?_, ?_, ?_⟩
    · simp [own]
      omega
    · simp [own]
    · simp [own]
    · simp [own, owner, idle]
    · simp [owner]
    · intro _ _ sleeper asleep
      by_cases same : sleeper = thread
      · rw [same, own] at asleep
        cases asleep
      · exact holds.calm free (stays ▸ clear) sleeper (ran.asleep_other same asleep)
    · simp [after]
  · rw [access_of_pending clear, (start.counted holds.counts few).2] at ran own owner after
    simp only [settleLocal, settleOwner] at own owner
    refine ⟨holds.timely.ran ran, holds.counts.ran start ran ?_ ?_ ?_,
      ran.owner_iff (fun own => own.exclusive = true) holds.owner (Or.inl free) ?_, ?_, ?_, ?_⟩
    · simp [own]
    · simp [own, Frame.modifying]
    · simp [own, Frame.accessing]
    · simp [own, owner, idle]
    · simp [owner]
    · simp [after, clear]
    · intro _ pending unshared
      rw [after] at pending unshared
      obtain ⟨modifier, woken⟩ :=
        holds.served free (stays ▸ pending) (start.sharing ▸ unshared)
      refine ⟨modifier, ran.woken_other ?_ woken⟩
      rintro rfl
      exact other woken

omit [DecidableEq Thread] in
/-- The pending modifiers of a state in which the thread itself is idle. -/
theorem Invariant.exists_pending (holds : Invariant source)
    (idle : (source.threads thread).place = .idle) (pending : source.fields.pending ≠ 0) :
    ∃ other, other ≠ thread ∧ (source.threads other).place.frame = some .modify := by
  rw [holds.counts.pending] at pending
  obtain ⟨other, weighs⟩ := exists_of_tally_pos (Nat.pos_of_ne_zero pending)
  refine ⟨other, ?_, ?_⟩
  · rintro rfl
    rw [idle] at weighs
    simp at weighs
  · cases frame : (source.threads other).place.frame with
    | none => simp [frame] at weighs
    | some waiting =>
      cases waiting with
      | modify => rfl
      | access => simp [frame, Frame.modifying] at weighs

omit [DecidableEq Thread] [Fintype Thread] in
/-- An idle thread's section starts from the fields as they are. -/
theorem start_of_idle (idle : (source.threads thread).place = .idle) :
    Start source thread source.fields := by
  refine ⟨rfl, ?_, ?_⟩ <;> simp [idle]

/-- `commit` keeps the invariant: it wakes a modifier if one is pending, and otherwise all
readers. -/
theorem Invariant.commit (holds : Invariant source)
    (idle : (source.threads thread).place = .idle) (mine : source.owner = some thread)
    (ran : Ran (monitor Thread) source thread .commit (commit source.fields) target) :
    Invariant target := by
  have own := ran.own
  have owner := ran.owner
  have after := ran.fields
  simp only [ConditionalAccess.commit, settleLocal, settleOwner, monitor] at own owner after
  have unshared := holds.alone (by simp [mine])
  refine ⟨holds.timely.ran ran, holds.counts.ran (start_of_idle idle) ran ?_ ?_ ?_,
    ran.owner_iff (fun own => own.exclusive = true) holds.owner (Or.inr mine) ?_, ?_, ?_, ?_⟩
  · simp [own, ConditionalAccess.commit]
  · simp [own, ConditionalAccess.commit]
  · simp [own, ConditionalAccess.commit]
  · simp [own, owner]
  · simp [owner]
  · intro _ clear sleeper asleep
    rw [after] at clear
    by_cases same : sleeper = thread
    · rw [same, own] at asleep
      cases asleep
    · have before := ran.asleep_other same asleep
      have waiting : source.fields.waiting ≠ 0 := by
        rw [holds.counts.waiting]
        have weighs := le_tally (suspended Frame.accessing) source.threads sleeper
        simp [before, Frame.accessing] at weighs
        omega
      have broadcasts : (ConditionalAccess.commit source.fields).wake = .broadcast .bcast := by
        simp [ConditionalAccess.commit, clear, waiting]
      exact ran.not_asleep_of_broadcast broadcasts same asleep rfl
  · intro _ pending _
    rw [after] at pending
    exact holds.exists_woken (by simp [idle]) ran (by simp [ConditionalAccess.commit, pending])
      (holds.exists_pending idle pending)

/-- `release` keeps the invariant: the last shared hold lets a pending modifier through. -/
theorem Invariant.release (holds : Invariant source)
    (idle : (source.threads thread).place = .idle) (free : source.owner = none)
    (held : (source.threads thread).holds.shared ≠ 0)
    (ran : Ran (monitor Thread) source thread .release (release source.fields) target) :
    Invariant target := by
  have own := ran.own
  have owner := ran.owner
  have after := ran.fields
  have exclusive := holds.not_exclusive free thread
  have shared : (source.threads thread).holds.shared ≤ source.fields.sharing := by
    rw [holds.counts.sharing]
    exact le_tally sharedWeight source.threads thread
  have lowered := lower_of_le (Nat.one_le_iff_ne_zero.mpr held |>.trans shared)
  simp only [ConditionalAccess.release, settleLocal, settleOwner, monitor, lowered]
    at own owner after
  refine ⟨holds.timely.ran ran, holds.counts.ran (start_of_idle idle) ran ?_ ?_ ?_,
    ran.owner_iff (fun own => own.exclusive = true) holds.owner (Or.inl free) ?_, ?_, ?_, ?_⟩
  · simp [own, ConditionalAccess.release]
    omega
  · simp [own, ConditionalAccess.release]
  · simp [own, ConditionalAccess.release]
  · simp [own, owner, exclusive]
  · simp [owner]
  · intro _ clear sleeper asleep
    rw [after] at clear
    by_cases same : sleeper = thread
    · rw [same, own] at asleep
      cases asleep
    · exact holds.calm free clear sleeper (ran.asleep_other same asleep)
  · intro _ pending unshared
    rw [after] at pending unshared
    exact holds.exists_woken (by simp [idle]) ran
      (by simp [ConditionalAccess.release, pending] at unshared ⊢; omega)
      (holds.exists_pending idle pending)

/-- A sleeper that leaves its condition without a signal keeps the invariant. -/
theorem Invariant.stirred (holds : Invariant source)
    (stirred : Stirred (monitor Thread) source thread target) : Invariant target := by
  refine ⟨holds.timely.stirred stirred, ⟨?_, ?_, ?_⟩, ?_, ?_, ?_, ?_⟩
  · rw [stirred.fields, stirred.tally_eq, holds.counts.sharing]
  · rw [stirred.fields, stirred.tally_eq, holds.counts.pending]
  · rw [stirred.fields, stirred.tally_eq, holds.counts.waiting]
  · intro other
    rw [stirred.holds_eq, stirred.owner]
    exact holds.owner other
  · rw [stirred.owner, stirred.fields]
    exact holds.alone
  · rw [stirred.owner, stirred.fields]
    intro free clear sleeper asleep
    exact holds.calm free clear sleeper (stirred.asleep_before asleep)
  · rw [stirred.owner, stirred.fields]
    intro free pending unshared
    obtain ⟨modifier, woken⟩ := holds.served free pending unshared
    refine ⟨modifier, ?_⟩
    rw [stirred.unmoved fun frame asleep => by rw [woken] at asleep; cases asleep]
    exact woken

omit [DecidableEq Thread] in
/-- A suspended call's section starts from the fields less its own share of the counters. -/
theorem start_of_modify (holds : Invariant source) {flag : Bool}
    (waitOver : WaitOver (source.threads thread).place .modify flag) :
    Start source thread { source.fields with pending := lower source.fields.pending 1 } := by
  have weighs := le_tally (suspended Frame.modifying) source.threads thread
  rw [← holds.counts.pending, waitOver.frame_eq] at weighs
  simp only [suspended_some, Frame.modifying, if_true] at weighs
  rw [lower_of_le weighs]
  refine ⟨rfl, ?_, ?_⟩
  · rw [waitOver.frame_eq]
    simp only [suspended_some, Frame.modifying, if_true]
    omega
  · rw [waitOver.frame_eq]
    simp [Frame.accessing]

omit [DecidableEq Thread] in
theorem start_of_access (holds : Invariant source) {flag : Bool}
    (waitOver : WaitOver (source.threads thread).place .access flag) :
    Start source thread { source.fields with waiting := lower source.fields.waiting 1 } := by
  have weighs := le_tally (suspended Frame.accessing) source.threads thread
  rw [← holds.counts.waiting, waitOver.frame_eq] at weighs
  simp only [suspended_some, Frame.accessing, if_true] at weighs
  rw [lower_of_le weighs]
  refine ⟨rfl, ?_, ?_⟩
  · rw [waitOver.frame_eq]
    simp [Frame.modifying]
  · rw [waitOver.frame_eq]
    simp only [suspended_some, Frame.accessing, if_true]
    omega

theorem invariant_step (few : Fintype.card Thread < 2 ^ 32) (source : State Thread)
    (action : Action Thread Call) (target : State Thread) (holds : Invariant source)
    (room : (monitor Thread).Before Room source action)
    (stepped : (machine Thread).step source action = some target) : Invariant target := by
  refine preserved_before ?_ ?_ ?_ source action target holds room stepped
  · intro source thread call target holds room idle allowed owner ran
    cases call with
    | modify => exact holds.modify few owner (start_of_idle idle) ran
    | commit => exact holds.commit idle owner ran
    | access => exact holds.access few owner (start_of_idle idle) room rfl (by simp [idle]) ran
    | release => exact holds.release idle owner (by simpa [monitor] using allowed) ran
  · intro source thread frame flag target holds room free waitOver ran
    cases frame with
    | modify => exact holds.modify few free (start_of_modify holds waitOver) ran
    | access =>
      refine holds.access few free (start_of_access holds waitOver) room rfl (fun woken => ?_) ran
      have frame := waitOver.frame_eq
      rw [woken] at frame
      cases frame
  · intro source thread target holds stirred
    exact holds.stirred stirred

/-- An exclusive section excludes shared holds, the three counters are exact, and with the mutex
free no reader sleeps unless a modifier is pending, and a pending modifier that no shared hold
keeps out has been woken. -/
structure Scheduled (state : State Thread) : Prop where
  exclusive : ∀ thread, (state.threads thread).holds.exclusive = true → state.fields.sharing = 0
  sharing : state.fields.sharing = ∑ thread, (state.threads thread).holds.shared
  pending : state.fields.pending = headcount Frame.modifying state.threads
  waiting : state.fields.waiting = headcount Frame.accessing state.threads
  calm : state.owner = none → state.fields.pending = 0 →
    ∀ thread, (state.threads thread).place ≠ .asleep .access
  served : state.owner = none → 0 < state.fields.pending → state.fields.sharing = 0 →
    ∃ thread, (state.threads thread).place = .woken .modify

/-- A `ConditionalAccess` for fewer than 2^32 threads is scheduled wherever a run leads whose
shared holds have room. -/
theorem conditionalAccess_scheduled (few : Fintype.card Thread < 2 ^ 32)
    {moves : List (Move (State Thread) (Action Thread Call))} {state : State Thread}
    (run : (machine Thread).Run moves state)
    (room : Machine.Meets ((monitor Thread).Before Room) moves) : Scheduled state := by
  have holds : Invariant state :=
    run.invariant_of_meets (fun _ => invariant_init) (invariant_step few) room
  refine ⟨fun thread exclusive => ?_, holds.counts.sharing, ?_, ?_, holds.calm,
    fun free pending unshared => ?_⟩
  · exact holds.alone (by simp [(holds.owner thread).mp exclusive])
  · rw [headcount_eq_tally, holds.counts.pending]
  · rw [headcount_eq_tally, holds.counts.waiting]
  · exact holds.served free (Nat.pos_iff_ne_zero.mp pending) unshared

end Invariant

/-- A reader, a modifier that has to wait for it, and the reader's release: the modifier is left
pending with nothing in its way, and has been woken. -/
theorem conditionalAccess_scheduled_woken :
    ∃ state : State (Fin 2), (machine (Fin 2)).Reachable state ∧ 0 < state.fields.pending ∧
      ∃ thread, (state.threads thread).place = .woken .modify := by
  have initial : (machine (Fin 2)).Init (.initial ⟨0, 0, 0⟩ ⟨0, false⟩) := ⟨_, rfl, rfl⟩
  have run := (((Machine.Run.start initial).take (.enter 0 .access none)
    (by decide)).take (.enter 1 .modify none) (by decide)).take (.enter 0 .release (some 1))
    (by decide)
  have scheduled := conditionalAccess_scheduled (by decide) run (by decide)
  exact ⟨_, ⟨_, run⟩, by decide, scheduled.served (by decide) (by decide) (by decide)⟩

/-- One of two threads has so many shared holds. -/
def shared (self : Fin 2) (count : Nat) : State (Fin 2) :=
  ⟨⟨0, 0, count % 2 ^ 32⟩, none, fun thread => ⟨.idle, ⟨if thread = self then count else 0, false⟩⟩⟩

theorem step_shared (count : Nat) :
    (machine (Fin 2)).step (shared 0 count) (.enter 0 .access none) =
      some (shared 0 (count + 1)) := by
  have others : Function.update (shared 0 count).threads 0 ⟨.idle, ⟨count + 1, false⟩⟩ =
      (shared 0 (count + 1)).threads :=
    funext fun
      | 0 => rfl
      | 1 => rfl
  have counted : raise (count % 2 ^ 32) 1 = (count + 1) % 2 ^ 32 := Nat.mod_add_mod _ _ _
  show some (⟨⟨0, 0, raise (count % 2 ^ 32) 1⟩, none,
    Function.update (shared 0 count).threads 0 ⟨.idle, ⟨count + 1, false⟩⟩⟩ : State (Fin 2)) = _
  rw [others, counted]
  rfl

/-- With 2^32 shared holds `sharing` is zero, and `modify` lets another thread in beside them. -/
theorem conditionalAccess_wraps :
    ∃ state target : State (Fin 2), (machine (Fin 2)).Reachable state ∧
      (state.threads 0).holds.shared = 2 ^ 32 ∧ state.fields.sharing = 0 ∧
      (machine (Fin 2)).step state (.enter 1 .modify none) = some target ∧
      (target.threads 0).holds.shared = 2 ^ 32 ∧ (target.threads 1).holds.exclusive = true ∧
      ¬ Scheduled target := by
  have initial : (machine (Fin 2)).Init (shared 0 0) := ⟨_, rfl, congrArg _ (funext fun
    | 0 => rfl
    | 1 => rfl)⟩
  have reachable := Machine.reachable_of_repeated ⟨[], .start initial⟩
    fun count => (Machine.play_one _ _).trans (step_shared count)
  refine ⟨shared 0 (2 ^ 32), _, reachable _, rfl, rfl, rfl, rfl, rfl, fun scheduled => ?_⟩
  exact absurd scheduled.sharing (by decide)

end ConditionalAccess

end CommonCpp
