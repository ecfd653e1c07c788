/-
This file models `RWLock`, the timed read/write lock built on `ConditionalAccess`,
and settles what it guarantees.

Exclusion holds as long as the counters of the holds have room. The loop of
`modify` lets a thread in when nobody holds the lock or when the thread is the
writer already; the loop of `access` lets one in when there is no writer and no
pending one. The counters are therefore exact, and `release`, which has to tell
from the counters alone which kind of hold it ends, always guesses right. A
writer that enters 2^32 times takes `writers` to zero, and lets others in.

Wake-ups hold up to one gap. A writer is never left asleep on a free lock. A
reader is, when a timed `modify` gives up as the last pending writer after the
lock has already become free: the release before it signalled the writers, found
none of them asleep, and the writer that leaves wakes nobody. The runs without
such a step are exactly the runs that never strand a reader.

The assertions on `max_sharing` are left out as they are for `ConditionalAccess`.
-/

import CommonCpp.ConditionalAccess

namespace CommonCpp

open Concurrency Concurrency.Monitor Counter

namespace RWLock

open ConditionalAccess (Queue)

/-! ### The code -/

/-- What the code distinguishes of a `timeout_t`: `Timer::inf`, zero, and the rest. -/
inductive Timeout
  | inf
  | zero
  | finite
  deriving DecidableEq

/-- The fields of a `RWLock`. `writeid` is not initialised by the constructor. -/
structure Fields (Thread : Type) extends ConditionalAccess.Fields where
  writers : Nat
  writeid : Thread
  deriving DecidableEq

/-- The kinds of hold. `release` is not told which one it ends. -/
inductive Kind
  | read
  | write
  deriving DecidableEq

inductive Call
  | modify (timeout : Timeout)
  | access (timeout : Timeout)
  | release (kind : Kind)
  deriving DecidableEq

inductive Frame
  | modify (timeout : Timeout)
  | access (timeout : Timeout)
  deriving DecidableEq

/-- What a thread holds: its read holds, and the depth to which it has entered as writer. -/
structure Holds where
  reads : Nat
  writes : Nat
  deriving DecidableEq

section Code

variable {Thread : Type} [DecidableEq Thread]

/-- `modify` after its loop. -/
def modifyExit (fields : Fields Thread) (self : Thread) (rtn : Bool) :
    Section (Fields Thread) Queue Frame :=
  if rtn then
    ⟨{ fields with
        writeid := if fields.writers = 0 then self else fields.writeid
        writers := raise fields.writers 1 }, .none, .leave true⟩
  else
    ⟨fields, .none, .leave false⟩

/-- `modify` from its loop test on. With a zero timeout `pending` is incremented and decremented
again before the loop ends with `rtn` false. -/
def modify (fields : Fields Thread) (self : Thread) (timeout : Timeout) (rtn : Bool) :
    Section (Fields Thread) Queue Frame :=
  if (fields.writers ≠ 0 ∨ fields.sharing ≠ 0) ∧ rtn = true then
    if fields.writers ≠ 0 ∧ fields.writeid = self then modifyExit fields self rtn
    else
      match timeout with
      | .zero => modifyExit fields self false
      | timeout =>
        ⟨{ fields with pending := raise fields.pending 1 }, .none, .sleep (.modify timeout)⟩
  else modifyExit fields self rtn

/-- `access` after its loop. -/
def accessExit (fields : Fields Thread) (rtn : Bool) : Section (Fields Thread) Queue Frame :=
  if rtn then
    ⟨{ fields with sharing := raise fields.sharing 1 }, .none, .leave true⟩
  else
    ⟨fields, .none, .leave false⟩

/-- `access` from its loop test on. -/
def access (fields : Fields Thread) (timeout : Timeout) (rtn : Bool) :
    Section (Fields Thread) Queue Frame :=
  if (fields.writers ≠ 0 ∨ fields.pending ≠ 0) ∧ rtn = true then
    match timeout with
    | .zero => accessExit fields false
    | timeout =>
      ⟨{ fields with waiting := raise fields.waiting 1 }, .none, .sleep (.access timeout)⟩
  else accessExit fields rtn

/-- `release`, which ends a write hold when there is a writer and a read hold otherwise. -/
def release (fields : Fields Thread) : Section (Fields Thread) Queue Frame :=
  if fields.writers ≠ 0 then
    let fields := { fields with writers := lower fields.writers 1 }
    ⟨fields,
      if fields.pending ≠ 0 ∧ fields.writers = 0 then .signal .cond
      else if fields.waiting ≠ 0 ∧ fields.writers = 0 then .broadcast .bcast
      else .none,
      .leave true⟩
  else if fields.sharing ≠ 0 then
    let fields := { fields with sharing := lower fields.sharing 1 }
    ⟨fields,
      if fields.pending ≠ 0 ∧ fields.sharing = 0 then .signal .cond
      else if fields.waiting ≠ 0 ∧ fields.pending = 0 then .broadcast .bcast
      else .none,
      .leave true⟩
  else
    ⟨fields, .none, .leave true⟩

/-- The calls of `RWLock`. A thread releases only what it holds. A wait that ends decrements the
counter it incremented, sets `rtn` to what the wait returned, and goes back to the loop test. -/
def monitor (Thread : Type) [DecidableEq Thread] :
    Monitor Thread (Fields Thread) Call Queue Frame Holds where
  enter thread call fields :=
    match call with
    | .modify timeout => modify fields thread timeout true
    | .access timeout => access fields timeout true
    | .release _ => release fields
  resume thread frame flag fields :=
    match frame with
    | .modify timeout =>
      modify { fields with pending := lower fields.pending 1 } thread timeout flag
    | .access timeout => access { fields with waiting := lower fields.waiting 1 } timeout flag
  call
    | .modify timeout => .modify timeout
    | .access timeout => .access timeout
  queue
    | .modify _ => .cond
    | .access _ => .bcast
  timed
    | .modify timeout => timeout = .finite
    | .access timeout => timeout = .finite
  spurious := true
  inside _ := false
  may holds
    | .release .read => holds.reads ≠ 0
    | .release .write => holds.writes ≠ 0
    | _ => true
  book call result holds :=
    match call, result with
    | .modify _, true => { holds with writes := holds.writes + 1 }
    | .access _, true => { holds with reads := holds.reads + 1 }
    | .release .read, _ => { holds with reads := holds.reads - 1 }
    | .release .write, _ => { holds with writes := holds.writes - 1 }
    | _, false => holds

end Code

/-- The state of a `RWLock` and of the threads that use it. -/
abbrev State (Thread : Type) := Monitor.State Thread (Fields Thread) Frame Holds

/-- A newly constructed lock. -/
def Fresh {Thread : Type} (fields : Fields Thread) : Prop :=
  fields.pending = 0 ∧ fields.waiting = 0 ∧ fields.sharing = 0 ∧ fields.writers = 0

/-- The runs of a `RWLock` from its constructor on. -/
def machine (Thread : Type) [DecidableEq Thread] [Fintype Thread] :
    Machine (State Thread) (Action Thread Call) :=
  (monitor Thread).machine Fresh ⟨0, 0⟩

/-- A call that is let in finds room in the counter of its hold. -/
def Room {Thread : Type} (state : State Thread) (self : Thread) : Call → Prop
  | .modify _ => state.fields.writeid = self → state.fields.writers + 1 < 2 ^ 32
  | .access _ =>
    state.fields.writers = 0 → state.fields.pending = 0 → state.fields.sharing + 1 < 2 ^ 32
  | .release _ => True

instance {Thread : Type} [DecidableEq Thread] (state : State Thread) (self : Thread) :
    (call : Call) → Decidable (Room state self call)
  | .modify _ | .access _ => inferInstanceAs (Decidable (_ → _))
  | .release _ => inferInstanceAs (Decidable True)

/-- The frames inside the wait of `modify`. -/
def Frame.modifying : Frame → Bool
  | .modify _ => true
  | .access _ => false

/-- The frames inside the wait of `access`. -/
def Frame.accessing : Frame → Bool
  | .modify _ => false
  | .access _ => true

/-! ### What the sections do -/

section Sections

variable {Thread : Type} [DecidableEq Thread]

/-- A section of `modify` lets the thread in, puts it to sleep, or gives up. -/
theorem modify_cases (fields : Fields Thread) (self : Thread) (timeout : Timeout) (rtn : Bool) :
    ((fields.writers = 0 ∧ fields.sharing = 0 ∨ fields.writers ≠ 0 ∧ fields.writeid = self) ∧
        modify fields self timeout rtn =
          ⟨{ fields with writeid := self, writers := raise fields.writers 1 }, .none,
            .leave true⟩) ∨
      ((fields.writers ≠ 0 ∨ fields.sharing ≠ 0) ∧
        modify fields self timeout rtn =
          ⟨{ fields with pending := raise fields.pending 1 }, .none, .sleep (.modify timeout)⟩) ∨
      ((rtn = true → fields.writers ≠ 0 ∨ fields.sharing ≠ 0) ∧
        modify fields self timeout rtn = ⟨fields, .none, .leave false⟩) := by
  cases rtn with
  | false => exact Or.inr (Or.inr ⟨by simp, by simp [modify, modifyExit]⟩)
  | true =>
    by_cases busy : fields.writers ≠ 0 ∨ fields.sharing ≠ 0
    · by_cases mine : fields.writers ≠ 0 ∧ fields.writeid = self
      · refine Or.inl ⟨Or.inr mine, ?_⟩
        simp [modify, modifyExit, mine.1, mine.2]
      · cases timeout with
        | zero => exact Or.inr (Or.inr ⟨fun _ => busy, by simp [modify, modifyExit, busy, mine]⟩)
        | inf => exact Or.inr (Or.inl ⟨busy, by simp [modify, busy, mine]⟩)
        | finite => exact Or.inr (Or.inl ⟨busy, by simp [modify, busy, mine]⟩)
    · have open_ : fields.writers = 0 ∧ fields.sharing = 0 := by
        push Not at busy
        exact busy
      refine Or.inl ⟨Or.inl open_, ?_⟩
      simp [modify, modifyExit, open_.1, open_.2]

omit [DecidableEq Thread] in
/-- A section of `access` lets the thread in, puts it to sleep, or gives up. -/
theorem access_cases (fields : Fields Thread) (timeout : Timeout) (rtn : Bool) :
    ((fields.writers = 0 ∧ fields.pending = 0) ∧
        access fields timeout rtn =
          ⟨{ fields with sharing := raise fields.sharing 1 }, .none, .leave true⟩) ∨
      ((fields.writers ≠ 0 ∨ fields.pending ≠ 0) ∧
        access fields timeout rtn =
          ⟨{ fields with waiting := raise fields.waiting 1 }, .none, .sleep (.access timeout)⟩) ∨
      access fields timeout rtn = ⟨fields, .none, .leave false⟩ := by
  cases rtn with
  | false => exact Or.inr (Or.inr (by simp [access, accessExit]))
  | true =>
    by_cases busy : fields.writers ≠ 0 ∨ fields.pending ≠ 0
    · cases timeout with
      | zero => exact Or.inr (Or.inr (by simp [access, accessExit, busy]))
      | inf => exact Or.inr (Or.inl ⟨busy, by simp [access, busy]⟩)
      | finite => exact Or.inr (Or.inl ⟨busy, by simp [access, busy]⟩)
    · have open_ : fields.writers = 0 ∧ fields.pending = 0 := by
        push Not at busy
        exact busy
      exact Or.inl ⟨open_, by simp [access, accessExit, open_.1, open_.2]⟩

/-- The counters show a hold of the given kind. -/
def Held (fields : Fields Thread) : Kind → Prop
  | .read => fields.writers = 0 ∧ fields.sharing ≠ 0
  | .write => fields.writers ≠ 0 ∧ fields.sharing = 0

/-- The fields after a hold of the given kind has ended. -/
def endHold (fields : Fields Thread) : Kind → Fields Thread
  | .read => { fields with toFields := { fields.toFields with sharing := fields.sharing - 1 } }
  | .write => { fields with writers := fields.writers - 1 }

omit [DecidableEq Thread] in
/-- `release` ends the kind of hold the counters show and returns. When it leaves the lock free
it wakes a writer if one is pending, and else the readers. -/
theorem release_of_held {fields : Fields Thread} {kind : Kind} (held : Held fields kind) :
    (release fields).fields = endHold fields kind ∧ (release fields).next = .leave true ∧
      ((endHold fields kind).writers = 0 → (endHold fields kind).sharing = 0 →
        (release fields).wake =
          if fields.pending ≠ 0 then .signal .cond
          else if fields.waiting ≠ 0 then .broadcast .bcast
          else .none) := by
  cases kind with
  | read =>
    obtain ⟨unwritten, shared⟩ := held
    have lowered := lower_of_le (Nat.one_le_iff_ne_zero.mpr shared)
    refine ⟨by simp [release, endHold, unwritten, shared, lowered],
      by simp [release, unwritten, shared], fun _ unshared => ?_⟩
    change fields.sharing - 1 = 0 at unshared
    by_cases pending : fields.pending = 0 <;>
      simp [release, unwritten, shared, lowered, unshared, pending]
  | write =>
    obtain ⟨written, _⟩ := held
    have lowered := lower_of_le (Nat.one_le_iff_ne_zero.mpr written)
    refine ⟨by simp [release, endHold, written, lowered], by simp [release, written],
      fun unwritten _ => ?_⟩
    change fields.writers - 1 = 0 at unwritten
    simp [release, written, lowered, unwritten]

end Sections

/-! ### Exclusion -/

section Exclusion

variable {Thread : Type} [DecidableEq Thread] [Fintype Thread]

def readWeight : Option Frame → Holds → Nat := fun _ holds => holds.reads

def writeWeight : Option Frame → Holds → Nat := fun _ holds => holds.writes

/-- The holds are counted, writers exclude readers, and the writer is named. -/
structure Excludes (state : State Thread) : Prop where
  sharing : state.fields.sharing = tally readWeight state.threads
  writers : state.fields.writers = tally writeWeight state.threads
  exclusion : state.fields.writers ≠ 0 → state.fields.sharing = 0
  named : ∀ thread, (state.threads thread).holds.writes ≠ 0 → state.fields.writeid = thread

theorem excludes_init {state : State Thread} (initial : (machine Thread).Init state) :
    Excludes state := by
  obtain ⟨fields, ⟨_, _, sharing, writers⟩, rfl⟩ := initial
  refine ⟨?_, ?_, ?_, ?_⟩ <;>
    simp [State.initial, tally, readWeight, writeWeight, sharing, writers]

/-- The fields a section starts from tell of the holds what the source's do. -/
structure Kept (source : State Thread) (fields : Fields Thread) : Prop where
  sharing : fields.sharing = source.fields.sharing
  writers : fields.writers = source.fields.writers
  writeid : fields.writeid = source.fields.writeid

omit [DecidableEq Thread] [Fintype Thread] in
theorem Kept.refl (source : State Thread) : Kept source source.fields := ⟨rfl, rfl, rfl⟩

variable {source target : State Thread} {thread : Thread} {fields : Fields Thread} {call : Call}
  {passage : Section (Fields Thread) Queue Frame} {timeout : Timeout} {rtn : Bool}

omit [DecidableEq Thread] in
theorem Excludes.reads_le (holds : Excludes source) (thread : Thread) :
    (source.threads thread).holds.reads ≤ source.fields.sharing := by
  rw [holds.sharing]
  exact le_tally readWeight source.threads thread

omit [DecidableEq Thread] in
theorem Excludes.writes_le (holds : Excludes source) (thread : Thread) :
    (source.threads thread).holds.writes ≤ source.fields.writers := by
  rw [holds.writers]
  exact le_tally writeWeight source.threads thread

/-- The writer stays named when the section neither renames it nor makes one. -/
theorem Excludes.named_ran (holds : Excludes source)
    (ran : Ran (monitor Thread) source thread call passage target)
    (writeid : target.fields.writeid = source.fields.writeid)
    (own : (target.threads thread).holds.writes ≤ (source.threads thread).holds.writes)
    (other : Thread) (writes : (target.threads other).holds.writes ≠ 0) :
    target.fields.writeid = other := by
  rw [writeid]
  refine holds.named other ?_
  by_cases same : other = thread
  · rw [same] at writes ⊢
    omega
  · rwa [ran.holds_other same] at writes

/-- A section that neither grants nor ends a hold keeps the holds counted. -/
theorem Excludes.quiet (holds : Excludes source) (kept : Kept source passage.fields)
    (ran : Ran (monitor Thread) source thread call passage target)
    (own : (target.threads thread).holds = (source.threads thread).holds) : Excludes target := by
  refine ⟨?_, ?_, ?_, holds.named_ran ran (by rw [ran.fields, kept.writeid]) (by rw [own])⟩
  · exact ran.counted holds.sharing (by rw [ran.fields, kept.sharing, own]; rfl)
  · exact ran.counted holds.writers (by rw [ran.fields, kept.writers, own]; rfl)
  · rw [ran.fields, kept.writers, kept.sharing]
    exact holds.exclusion

/-- A section of `modify` that has room keeps the holds counted. -/
theorem Excludes.modify (holds : Excludes source)
    (ran : Ran (monitor Thread) source thread (.modify timeout)
      (modify fields thread timeout rtn) target) (kept : Kept source fields)
    (room : fields.writeid = thread → fields.writers + 1 < 2 ^ 32) : Excludes target := by
  have own := ran.own
  have after := ran.fields
  have sharing := kept.sharing
  have writers := kept.writers
  rcases modify_cases fields thread timeout rtn with
    ⟨admitted, passage⟩ | ⟨_, passage⟩ | ⟨_, passage⟩ <;>
    rw [passage] at ran own after <;> simp only [settleLocal, monitor] at own
  · have deeper : raise fields.writers 1 = fields.writers + 1 := by
      refine raise_of_lt ?_
      rcases admitted with ⟨unwritten, _⟩ | ⟨_, mine⟩
      · omega
      · exact room mine
    rw [deeper] at after
    refine ⟨ran.counted holds.sharing ?_, ran.counted holds.writers ?_, ?_, ?_⟩
    · simp [own, after, readWeight, sharing]
    · simp [own, after, writeWeight, writers]
      omega
    · intro _
      rw [after, kept.sharing]
      rcases admitted with ⟨_, unshared⟩ | ⟨written, _⟩
      · exact kept.sharing ▸ unshared
      · exact holds.exclusion (kept.writers ▸ written)
    · intro other writes
      rw [after]
      by_contra different
      have different : other ≠ thread := fun same => different same.symm
      rw [ran.holds_other different] at writes
      rcases admitted with ⟨unwritten, _⟩ | ⟨_, mine⟩
      · have bounded := holds.writes_le other
        omega
      · rw [kept.writeid, holds.named other writes] at mine
        exact different mine
  · exact holds.quiet ⟨kept.sharing, kept.writers, kept.writeid⟩ ran (by rw [own])
  · exact holds.quiet kept ran (by rw [own])

/-- A section of `access` that has room keeps the holds counted. -/
theorem Excludes.access (holds : Excludes source)
    (ran : Ran (monitor Thread) source thread (.access timeout) (access fields timeout rtn)
      target) (kept : Kept source fields)
    (room : fields.writers = 0 → fields.pending = 0 → fields.sharing + 1 < 2 ^ 32) :
    Excludes target := by
  have own := ran.own
  have after := ran.fields
  rcases access_cases fields timeout rtn with
    ⟨⟨unwritten, clear⟩, passage⟩ | ⟨_, passage⟩ | passage <;>
    rw [passage] at ran own after <;> simp only [settleLocal, monitor] at own
  · rw [raise_of_lt (room unwritten clear)] at after
    have sharing := kept.sharing
    refine ⟨ran.counted holds.sharing ?_, ran.counted holds.writers ?_, ?_,
      holds.named_ran ran (by simp [after, kept.writeid]) (by simp [own])⟩
    · simp [own, after, readWeight, sharing]
      omega
    · simp [own, after, writeWeight, kept.writers]
    · simp [after, unwritten]
  · exact holds.quiet ⟨kept.sharing, kept.writers, kept.writeid⟩ ran (by rw [own])
  · exact holds.quiet kept ran (by rw [own])

omit [DecidableEq Thread] in
/-- `release` guesses right: whatever the thread holds, the counters show. -/
theorem Excludes.held [DecidableEq Thread] (holds : Excludes source) {kind : Kind}
    (allowed : (monitor Thread).may (source.threads thread).holds (.release kind) = true) :
    Held source.fields kind := by
  cases kind with
  | read =>
    have reads : (source.threads thread).holds.reads ≠ 0 := by simpa [monitor] using allowed
    have bounded := holds.reads_le thread
    have shared : source.fields.sharing ≠ 0 := by omega
    refine ⟨?_, shared⟩
    by_contra written
    exact shared (holds.exclusion written)
  | write =>
    have writes : (source.threads thread).holds.writes ≠ 0 := by simpa [monitor] using allowed
    have bounded := holds.writes_le thread
    have written : source.fields.writers ≠ 0 := by omega
    exact ⟨written, holds.exclusion written⟩

/-- `release` keeps the holds counted. -/
theorem Excludes.release (holds : Excludes source) {kind : Kind}
    (allowed : (monitor Thread).may (source.threads thread).holds (.release kind) = true)
    (ran : Ran (monitor Thread) source thread (.release kind) (release source.fields) target) :
    Excludes target := by
  have held := holds.held allowed
  obtain ⟨fields, next, _⟩ := release_of_held held
  have own := ran.own
  have after := ran.fields
  have reads := holds.reads_le thread
  have writes := holds.writes_le thread
  rw [next] at own
  rw [fields] at after
  refine ⟨ran.counted holds.sharing ?_, ran.counted holds.writers ?_, ?_,
    holds.named_ran ran ?_ ?_⟩
  · cases kind <;> simp [own, after, endHold, settleLocal, monitor, readWeight] at allowed held ⊢
    omega
  · cases kind <;> simp [own, after, endHold, settleLocal, monitor, writeWeight] at allowed held ⊢
    omega
  · rw [after]
    cases kind with
    | read => exact fun written => absurd held.1 written
    | write => exact fun _ => held.2
  · rw [after]
    cases kind <;> rfl
  · cases kind <;> simp [own, settleLocal, monitor]

theorem Excludes.stirred (holds : Excludes source)
    (stirred : Stirred (monitor Thread) source thread target) : Excludes target := by
  refine ⟨?_, ?_, ?_, fun other writes => ?_⟩
  · rw [stirred.fields, stirred.tally_eq, holds.sharing]
  · rw [stirred.fields, stirred.tally_eq, holds.writers]
  · rw [stirred.fields]
    exact holds.exclusion
  · rw [stirred.holds_eq] at writes
    rw [stirred.fields]
    exact holds.named other writes

theorem excludes_step (source : State Thread) (action : Action Thread Call)
    (target : State Thread) (holds : Excludes source)
    (room : (monitor Thread).Before Room source action)
    (stepped : (machine Thread).step source action = some target) : Excludes target := by
  refine preserved_before ?_ ?_ ?_ source action target holds room stepped
  · intro source thread call target holds room idle allowed owner ran
    cases call with
    | modify timeout => exact holds.modify ran (.refl source) room
    | access timeout => exact holds.access ran (.refl source) room
    | release kind => exact holds.release allowed ran
  · intro source thread frame flag target holds room free waitOver ran
    cases frame with
    | modify timeout => exact holds.modify ran ⟨rfl, rfl, rfl⟩ room
    | access timeout => exact holds.access ran ⟨rfl, rfl, rfl⟩ room
  · intro source thread target holds stirred
    exact holds.stirred stirred

/-- The internal assertions of `release`. -/
def ReleaseAsserts (fields : Fields Thread) : Prop :=
  (fields.sharing ≠ 0 ∨ fields.writers ≠ 0) ∧
    (fields.writers ≠ 0 → fields.sharing = 0) ∧
    (¬ fields.writers ≠ 0 → fields.sharing ≠ 0 → fields.writers = 0)

omit [DecidableEq Thread] [Fintype Thread] in
theorem Held.releaseAsserts {kind : Kind} (held : Held fields kind) : ReleaseAsserts fields := by
  cases kind with
  | read => exact ⟨Or.inl held.2, fun written => absurd held.1 written, fun _ _ => held.1⟩
  | write => exact ⟨Or.inr held.1, fun _ => held.2, fun unwritten => absurd held.1 unwritten⟩

omit [Fintype Thread] in
/-- A section of `modify` that does not return true leaves the holds alone. -/
theorem modify_quiet (denied : (modify fields thread timeout rtn).next.result ≠ some true) :
    (modify fields thread timeout rtn).fields.writers = fields.writers ∧
      (modify fields thread timeout rtn).fields.sharing = fields.sharing := by
  rcases modify_cases fields thread timeout rtn with ⟨_, passage⟩ | ⟨_, passage⟩ | ⟨_, passage⟩
  · rw [passage] at denied
    exact absurd rfl denied
  · rw [passage]
    exact ⟨rfl, rfl⟩
  · rw [passage]
    exact ⟨rfl, rfl⟩

omit [DecidableEq Thread] [Fintype Thread] in
/-- A section of `access` that does not return true leaves the holds alone. -/
theorem access_quiet (denied : (access fields timeout rtn).next.result ≠ some true) :
    (access fields timeout rtn).fields.writers = fields.writers ∧
      (access fields timeout rtn).fields.sharing = fields.sharing := by
  rcases access_cases fields timeout rtn with ⟨_, passage⟩ | ⟨_, passage⟩ | passage
  · rw [passage] at denied
    exact absurd rfl denied
  · rw [passage]
    exact ⟨rfl, rfl⟩
  · rw [passage]
    exact ⟨rfl, rfl⟩

omit [DecidableEq Thread] [Fintype Thread] in
theorem release_result (fields : Fields Thread) : (release fields).next.result = some true := by
  unfold release
  split
  · rfl
  · split <;> rfl

/-- A step in which no call returns true leaves `writers` and `sharing` as they were. -/
theorem step_quiet {action : Action Thread Call}
    (stepped : (machine Thread).step source action = some target)
    (denied : ∀ thread call,
      (monitor Thread).outcome source action ≠ some (thread, call, true)) :
    target.fields.writers = source.fields.writers ∧
      target.fields.sharing = source.fields.sharing := by
  cases action with
  | enter thread call chosen =>
    obtain ⟨_, _, _, ran⟩ := step_enter stepped
    have refused : ((monitor Thread).enter thread call source.fields).next.result ≠
        some true := by
      intro returned
      exact denied thread call (by simp [outcome, returned])
    rw [ran.fields]
    cases call with
    | modify timeout => exact modify_quiet refused
    | access timeout => exact access_quiet refused
    | release kind => exact absurd (release_result source.fields) refused
  | resume thread chosen =>
    obtain ⟨_, frame, flag, waitOver, ran⟩ := step_resume stepped
    have refused : ((monitor Thread).resume thread frame flag source.fields).next.result ≠
        some true := by
      intro returned
      refine denied thread ((monitor Thread).call frame) ?_
      rw [outcome_resume waitOver, returned]
      rfl
    rw [ran.fields]
    cases frame with
    | modify timeout => exact modify_quiet refused
    | access timeout => exact access_quiet refused
  | spurious thread => rw [(step_spurious stepped).fields]; exact ⟨rfl, rfl⟩
  | timeout thread => rw [(step_timeout stepped).fields]; exact ⟨rfl, rfl⟩

/-- Writers exclude readers; a write holder is alone, `writers` is its depth and `writeid` its
name, and `writers` is zero when there is none; `sharing` is the number of read holds; a step in
which no call returns true adds to neither; and the assertions of `release` hold for whoever may
call it. -/
structure Exclusive (state : State Thread) : Prop where
  exclusion : 0 < state.fields.writers → state.fields.sharing = 0
  writer : ∀ thread, 0 < (state.threads thread).holds.writes →
    state.fields.writers = (state.threads thread).holds.writes ∧ state.fields.writeid = thread ∧
      ∀ other, 0 < (state.threads other).holds.writes → other = thread
  unwritten : (∀ thread, (state.threads thread).holds.writes = 0) → state.fields.writers = 0
  sharing : state.fields.sharing = ∑ thread, (state.threads thread).holds.reads
  denied : ∀ action target, (machine Thread).step state action = some target →
    (∀ thread call, (monitor Thread).outcome state action ≠ some (thread, call, true)) →
      target.fields.writers = state.fields.writers ∧ target.fields.sharing = state.fields.sharing
  asserts : ∀ thread kind,
    (monitor Thread).may (state.threads thread).holds (.release kind) = true →
      ReleaseAsserts state.fields

/-- A `RWLock` is exclusive wherever a run leads whose holds have room. -/
theorem rwlock_exclusive {moves : List (Move (State Thread) (Action Thread Call))}
    {state : State Thread} (run : (machine Thread).Run moves state)
    (room : Machine.Meets ((monitor Thread).Before Room) moves) : Exclusive state := by
  have holds : Excludes state := run.invariant_of_meets (fun _ => excludes_init) excludes_step room
  refine ⟨fun written => holds.exclusion (Nat.pos_iff_ne_zero.mp written), ?_, ?_, holds.sharing,
    fun _ _ stepped denied => step_quiet stepped denied,
    fun thread kind allowed => (holds.held allowed).releaseAsserts⟩
  · intro thread writes
    have named := holds.named thread (Nat.pos_iff_ne_zero.mp writes)
    have alone : ∀ other, 0 < (state.threads other).holds.writes → other = thread := by
      intro other others
      rw [← named, ← holds.named other (Nat.pos_iff_ne_zero.mp others)]
    refine ⟨?_, named, alone⟩
    rw [holds.writers]
    refine tally_eq_of_alone fun other different => ?_
    by_contra writing
    exact different (alone other (Nat.pos_iff_ne_zero.mpr writing))
  · intro none
    rw [holds.writers]
    exact tally_eq_zero_iff.mpr none

end Exclusion

/-- A writer that has entered twice, and a reader it keeps waiting. -/
theorem rwlock_exclusive_nested :
    ∃ state : State (Fin 2), (machine (Fin 2)).Reachable state ∧
      (state.threads 0).holds.writes = 2 ∧ state.fields.writers = 2 ∧
      state.fields.waiting = 1 ∧ state.fields.sharing = 0 := by
  have initial : (machine (Fin 2)).Init (.initial ⟨⟨0, 0, 0⟩, 0, 1⟩ ⟨0, 0⟩) :=
    ⟨_, ⟨rfl, rfl, rfl, rfl⟩, rfl⟩
  have run := (((Machine.Run.start initial).take (.enter 0 (.modify .inf) none)
    (by decide)).take (.enter 0 (.modify .zero) none) (by decide)).take
    (.enter 1 (.access .finite) none) (by decide)
  have exclusive := rwlock_exclusive run (by decide)
  exact ⟨_, ⟨_, run⟩, by decide, (exclusive.writer 0 (by decide)).1, by decide,
    exclusive.exclusion (by decide)⟩

/-- One of two threads has entered so many times as writer. -/
def entered (self : Fin 2) (count : Nat) : State (Fin 2) :=
  ⟨⟨⟨0, 0, 0⟩, count % 2 ^ 32, self⟩, none,
    fun thread => ⟨.idle, ⟨0, if thread = self then count else 0⟩⟩⟩

theorem step_entered (count : Nat) :
    (machine (Fin 2)).step (entered 0 count) (.enter 0 (.modify .inf) none) =
      some (entered 0 (count + 1)) := by
  have others : Function.update (entered 0 count).threads 0 ⟨.idle, ⟨0, count + 1⟩⟩ =
      (entered 0 (count + 1)).threads :=
    funext fun
      | 0 => rfl
      | 1 => rfl
  have counted : raise (count % 2 ^ 32) 1 = (count + 1) % 2 ^ 32 := Nat.mod_add_mod _ _ _
  have deeper (writers : Nat) : modify ⟨⟨0, 0, 0⟩, writers, (0 : Fin 2)⟩ 0 .inf true =
      ⟨⟨⟨0, 0, 0⟩, raise writers 1, 0⟩, .none, .leave true⟩ := by
    by_cases zero : writers = 0 <;> simp [modify, modifyExit, zero]
  have passage : modify (entered 0 count).fields 0 .inf true =
      ⟨(entered 0 (count + 1)).fields, .none, .leave true⟩ := by
    rw [entered, deeper, counted]
    rfl
  show (monitor (Fin 2)).settle (entered 0 count) 0 _ (modify (entered 0 count).fields 0 .inf true)
    none = _
  rw [passage]
  show some (⟨(entered 0 (count + 1)).fields, none,
    Function.update (entered 0 count).threads 0 ⟨.idle, ⟨0, count + 1⟩⟩⟩ : State (Fin 2)) = _
  rw [others]
  rfl

/-- A writer that has entered 2^32 times is not counted any more, and a second one is let in. -/
theorem rwlock_wraps :
    ∃ state target : State (Fin 2), (machine (Fin 2)).Reachable state ∧
      (state.threads 0).holds.writes = 2 ^ 32 ∧ state.fields.writers = 0 ∧
      (machine (Fin 2)).step state (.enter 1 (.modify .zero) none) = some target ∧
      (target.threads 0).holds.writes = 2 ^ 32 ∧ (target.threads 1).holds.writes = 1 ∧
      ¬ Exclusive target := by
  have initial : (machine (Fin 2)).Init (entered 0 0) :=
    ⟨_, ⟨rfl, rfl, rfl, rfl⟩, congrArg _ (funext fun
      | 0 => rfl
      | 1 => rfl)⟩
  have reachable := Machine.reachable_of_repeated ⟨[], .start initial⟩
    fun count => (Machine.play_one _ _).trans (step_entered count)
  refine ⟨entered 0 (2 ^ 32), _, reachable _, rfl, rfl, rfl, rfl, rfl, fun exclusive => ?_⟩
  exact absurd ((exclusive.writer 0 (by decide)).2.2 1 (by decide)) (by decide)

/-! ### Wake-ups -/

section Wakeups

variable {Thread : Type} [DecidableEq Thread] [Fintype Thread]

/-- On a free lock without pending writers no untimed reader sleeps. -/
def Calm (state : State Thread) : Prop :=
  state.fields.writers = 0 → state.fields.sharing = 0 → state.fields.pending = 0 →
    ∀ thread, (state.threads thread).place ≠ .asleep (.access .inf)

/-- Nobody is stranded: on a free lock without pending writers no untimed reader sleeps, and
while an untimed writer sleeps on a free lock another pending writer has been woken. -/
def Unstranded (state : State Thread) : Prop :=
  Calm state ∧ (state.fields.writers = 0 → state.fields.sharing = 0 →
    ∀ thread, (state.threads thread).place = .asleep (.modify .inf) →
      ∃ other timeout, other ≠ thread ∧
        (state.threads other).place = .woken (.modify timeout))

/-- The step is not a `modify` that gives up, its wait expired, as the last pending writer of a
lock that is already free, while an untimed reader sleeps. -/
def GivesUpSafely (state : State Thread) : Action Thread Call → Prop
  | .resume thread _ =>
    ∀ timeout, (state.threads thread).place = .expired (.modify timeout) →
      state.fields.writers = 0 → state.fields.sharing = 0 → state.fields.pending = 1 →
      ∀ other, (state.threads other).place ≠ .asleep (.access .inf)
  | _ => True

/-- The threads that sleep besides the given one can be counted, and one more. -/
def Few (state : State Thread) (thread : Thread) : Prop :=
  ∀ kind, tally (suspended kind) state.threads <
    2 ^ 32 - 1 + suspended kind (state.threads thread).place.frame (state.threads thread).holds

/-- Every counter that a section may raise has room. -/
def Roomy (state : State Thread) (thread : Thread) (call : Call) : Prop :=
  Room state thread call ∧ Few state thread

/-- What every step of a `RWLock` preserves when its counters have room. -/
structure Invariant (state : State Thread) : Prop extends Excludes state where
  timely : Timely (monitor Thread) state
  pending : state.fields.pending = tally (suspended Frame.modifying) state.threads
  waiting : state.fields.waiting = tally (suspended Frame.accessing) state.threads
  served : state.fields.writers = 0 → state.fields.sharing = 0 →
    (∃ thread timeout, (state.threads thread).place = .asleep (.modify timeout)) →
    ∃ thread timeout, (state.threads thread).place = .woken (.modify timeout)

theorem invariant_init {state : State Thread} (initial : (machine Thread).Init state) :
    Invariant state := by
  have excludes := excludes_init initial
  obtain ⟨fields, ⟨pending, waiting, _⟩, rfl⟩ := initial
  refine ⟨excludes, ?_, ?_, ?_, ?_⟩ <;> simp [State.initial, Timely, tally, pending, waiting]

/-- The fields a section starts from: the source's, less what the running thread contributes as
a sleeper. -/
structure Start (source : State Thread) (thread : Thread) (fields : Fields Thread) : Prop
    extends Kept source fields where
  pending : fields.pending +
    suspended Frame.modifying (source.threads thread).place.frame
      (source.threads thread).holds = source.fields.pending
  waiting : fields.waiting +
    suspended Frame.accessing (source.threads thread).place.frame
      (source.threads thread).holds = source.fields.waiting

variable {source target : State Thread} {thread : Thread} {fields : Fields Thread} {call : Call}
  {passage : Section (Fields Thread) Queue Frame} {timeout : Timeout} {rtn : Bool}

omit [DecidableEq Thread] in
theorem few_of_card (few : Fintype.card Thread < 2 ^ 32) (source : State Thread)
    (thread : Thread) : Few source thread := by
  intro kind
  have below := tally_suspended_lt kind source.threads thread
  omega

theorem Start.counted (start : Start source thread fields)
    (holds : Invariant source) (few : Few source thread) :
    raise fields.pending 1 = fields.pending + 1 ∧ raise fields.waiting 1 = fields.waiting + 1 := by
  have pending := few Frame.modifying
  have waiting := few Frame.accessing
  have startPending := start.pending
  have startWaiting := start.waiting
  rw [← holds.pending] at pending
  rw [← holds.waiting] at waiting
  exact ⟨raise_of_lt (by omega), raise_of_lt (by omega)⟩

/-- The sleepers stay counted when the section adds to each counter what the running thread
contributes afterwards. -/
theorem Invariant.ran (holds : Invariant source) (start : Start source thread fields)
    (ran : Ran (monitor Thread) source thread call passage target) (excludes : Excludes target)
    (pending : passage.fields.pending = fields.pending +
      suspended Frame.modifying (target.threads thread).place.frame
        (target.threads thread).holds)
    (waiting : passage.fields.waiting = fields.waiting +
      suspended Frame.accessing (target.threads thread).place.frame
        (target.threads thread).holds)
    (served : target.fields.writers = 0 → target.fields.sharing = 0 →
      (∃ other timeout, (target.threads other).place = .asleep (.modify timeout)) →
      ∃ other timeout, (target.threads other).place = .woken (.modify timeout)) :
    Invariant target := by
  have startPending := start.pending
  have startWaiting := start.waiting
  refine ⟨excludes, holds.timely.ran ran, ?_, ?_, served⟩
  · rw [ran.fields]
    exact ran.counted holds.pending (by omega)
  · rw [ran.fields]
    exact ran.counted holds.waiting (by omega)

/-- A section of a thread that is not itself a woken writer keeps writers served, when it leaves
the lock as free as it was and does not put a writer to sleep. -/
theorem Invariant.served_ran (holds : Invariant source)
    (ran : Ran (monitor Thread) source thread call passage target)
    (writers : target.fields.writers = 0 → source.fields.writers = 0)
    (sharing : target.fields.sharing = 0 → source.fields.sharing = 0)
    (own : ∀ timeout, (source.threads thread).place ≠ .woken (.modify timeout))
    (awake : ∀ timeout, (target.threads thread).place ≠ .asleep (.modify timeout)) :
    target.fields.writers = 0 → target.fields.sharing = 0 →
      (∃ other timeout, (target.threads other).place = .asleep (.modify timeout)) →
      ∃ other timeout, (target.threads other).place = .woken (.modify timeout) := by
  rintro unwritten unshared ⟨sleeper, timeout, asleep⟩
  have different : sleeper ≠ thread := by
    rintro rfl
    exact awake timeout asleep
  obtain ⟨other, timeout', woken⟩ := holds.served (writers unwritten) (sharing unshared)
    ⟨sleeper, timeout, ran.asleep_other different asleep⟩
  refine ⟨other, timeout', ran.woken_other ?_ woken⟩
  rintro rfl
  exact own timeout' woken

omit [DecidableEq Thread] [Fintype Thread] in
/-- An idle thread's section starts from the fields as they are. -/
theorem start_of_idle (idle : (source.threads thread).place = .idle) :
    Start source thread source.fields := by
  refine ⟨.refl source, ?_, ?_⟩ <;> simp [idle]

/-- The section after a wait starts from the fields less the call's own share of a counter. -/
theorem start_of_modify (holds : Invariant source) {flag : Bool}
    (waitOver : WaitOver (source.threads thread).place (.modify timeout) flag) :
    Start source thread
      { source.fields with
        toFields := { source.fields.toFields with pending := lower source.fields.pending 1 } } := by
  have weighs := le_tally (suspended Frame.modifying) source.threads thread
  rw [← holds.pending, waitOver.frame_eq] at weighs
  simp only [suspended_some, Frame.modifying, if_true] at weighs
  rw [lower_of_le weighs]
  refine ⟨⟨rfl, rfl, rfl⟩, ?_, ?_⟩
  · rw [waitOver.frame_eq]
    simp only [suspended_some, Frame.modifying, if_true]
    omega
  · rw [waitOver.frame_eq]
    simp [Frame.accessing]

theorem start_of_access (holds : Invariant source) {flag : Bool}
    (waitOver : WaitOver (source.threads thread).place (.access timeout) flag) :
    Start source thread
      { source.fields with
        toFields := { source.fields.toFields with waiting := lower source.fields.waiting 1 } } := by
  have weighs := le_tally (suspended Frame.accessing) source.threads thread
  rw [← holds.waiting, waitOver.frame_eq] at weighs
  simp only [suspended_some, Frame.accessing, if_true] at weighs
  rw [lower_of_le weighs]
  refine ⟨⟨rfl, rfl, rfl⟩, ?_, ?_⟩
  · rw [waitOver.frame_eq]
    simp [Frame.modifying]
  · rw [waitOver.frame_eq]
    simp only [suspended_some, Frame.accessing, if_true]
    omega

/-- A section of `modify` keeps the invariant. -/
theorem Invariant.modify (holds : Invariant source) (few : Few source thread)
    (start : Start source thread fields)
    (room : fields.writeid = thread → fields.writers + 1 < 2 ^ 32)
    (stayed : ∀ timeout, (source.threads thread).place = .woken (.modify timeout) → rtn = true)
    (ran : Ran (monitor Thread) source thread (.modify timeout)
      (modify fields thread timeout rtn) target) :
    Invariant target := by
  have excludes := holds.toExcludes.modify ran start.toKept room
  have own := ran.own
  have after := ran.fields
  rcases modify_cases fields thread timeout rtn with
    ⟨_, passage⟩ | ⟨busy, passage⟩ | ⟨busy, passage⟩ <;>
    rw [passage] at ran own after <;> simp only [settleLocal, monitor] at own
  · refine holds.ran start ran excludes (by simp [own]) (by simp [own]) fun unwritten => ?_
    have alone := excludes.writes_le thread
    simp [unwritten, own] at alone
  · rw [(start.counted holds few).1] at ran after
    refine holds.ran start ran excludes ?_ ?_ ?_
    · simp [own, Frame.modifying]
    · simp [own, Frame.accessing]
    · intro unwritten unshared
      rw [after] at unwritten unshared
      rcases busy with written | shared
      · exact absurd unwritten written
      · exact absurd unshared shared
  · refine holds.ran start ran excludes (by simp [own]) (by simp [own]) ?_
    intro unwritten unshared
    refine holds.served_ran ran ?_ ?_ ?_ ?_ unwritten unshared
    · simp [after, start.writers]
    · simp [after, start.sharing]
    · intro timeout' woken
      rw [after] at unwritten unshared
      rcases busy (stayed timeout' woken) with written | shared
      · exact written unwritten
      · exact shared unshared
    · simp [own]

/-- A section of `access` keeps the invariant. -/
theorem Invariant.access (holds : Invariant source) (few : Few source thread)
    (start : Start source thread fields)
    (room : fields.writers = 0 → fields.pending = 0 → fields.sharing + 1 < 2 ^ 32)
    (reader : ∀ timeout, (source.threads thread).place ≠ .woken (.modify timeout))
    (ran : Ran (monitor Thread) source thread (.access timeout) (access fields timeout rtn)
      target) :
    Invariant target := by
  have excludes := holds.toExcludes.access ran start.toKept room
  have own := ran.own
  have after := ran.fields
  rcases access_cases fields timeout rtn with
    ⟨⟨unwritten, clear⟩, passage⟩ | ⟨_, passage⟩ | passage <;>
    rw [passage] at ran own after <;> simp only [settleLocal, monitor] at own
  · refine holds.ran start ran excludes (by simp [own]) (by simp [own]) fun _ unshared => ?_
    have alone := excludes.reads_le thread
    simp [unshared, own] at alone
  · rw [(start.counted holds few).2] at ran after
    refine holds.ran start ran excludes ?_ ?_ (holds.served_ran ran ?_ ?_ reader ?_)
    · simp [own, Frame.modifying]
    · simp [own, Frame.accessing]
    · simp [after, start.writers]
    · simp [after, start.sharing]
    · simp [own]
  · refine holds.ran start ran excludes (by simp [own]) (by simp [own])
      (holds.served_ran ran ?_ ?_ reader ?_)
    · simp [after, start.writers]
    · simp [after, start.sharing]
    · simp [own]

/-- A section that signals `cond` while a writer sleeps leaves one woken. -/
theorem exists_woken_of_signal (idle : (source.threads thread).place = .idle)
    (ran : Ran (monitor Thread) source thread call passage target)
    (signals : passage.wake = .signal .cond)
    (sleeper : ∃ other timeout, (source.threads other).place = .asleep (.modify timeout)) :
    ∃ other timeout, (target.threads other).place = .woken (.modify timeout) := by
  obtain ⟨other, timeout, asleep⟩ := sleeper
  obtain ⟨chosen, frame, _, _, queued, woken⟩ :=
    ran.exists_woken signals (by simp [idle]) ⟨other, .modify timeout, asleep, rfl⟩
  cases frame with
  | modify timeout' => exact ⟨chosen, timeout', woken⟩
  | access timeout' => cases queued

/-- A sleeping writer is counted in `pending`. -/
theorem Invariant.pending_ne_zero (holds : Invariant source)
    (asleep : (source.threads thread).place = .asleep (.modify timeout)) :
    source.fields.pending ≠ 0 := by
  have weighs := le_tally (suspended Frame.modifying) source.threads thread
  rw [← holds.pending, asleep] at weighs
  simp only [Place.frame_asleep, suspended_some, Frame.modifying, if_true] at weighs
  omega

/-- A sleeping reader is counted in `waiting`. -/
theorem Invariant.waiting_ne_zero (holds : Invariant source)
    (asleep : (source.threads thread).place = .asleep (.access timeout)) :
    source.fields.waiting ≠ 0 := by
  have weighs := le_tally (suspended Frame.accessing) source.threads thread
  rw [← holds.waiting, asleep] at weighs
  simp only [Place.frame_asleep, suspended_some, Frame.accessing, if_true] at weighs
  omega

/-- `release` keeps the invariant: when it frees the lock it wakes a pending writer. -/
theorem Invariant.release (holds : Invariant source)
    (idle : (source.threads thread).place = .idle) {kind : Kind}
    (allowed : (monitor Thread).may (source.threads thread).holds (.release kind) = true)
    (ran : Ran (monitor Thread) source thread (.release kind) (release source.fields) target) :
    Invariant target := by
  obtain ⟨fields, next, wake⟩ := release_of_held (holds.held allowed)
  have own := ran.own
  have after := ran.fields
  rw [next] at own
  rw [fields] at after
  refine holds.ran (start_of_idle idle) ran (holds.toExcludes.release allowed ran) ?_ ?_ ?_
  · cases kind <;> simp [own, fields, endHold, settleLocal]
  · cases kind <;> simp [own, fields, endHold, settleLocal]
  · rintro unwritten unshared ⟨sleeper, timeout, asleep⟩
    rw [after] at unwritten unshared
    have different : sleeper ≠ thread := by
      rintro rfl
      rw [own] at asleep
      cases asleep
    have before := ran.asleep_other different asleep
    have signals := wake unwritten unshared
    rw [if_pos (holds.pending_ne_zero before)] at signals
    exact exists_woken_of_signal idle ran signals ⟨sleeper, timeout, before⟩

/-- A sleeper that leaves its condition without a signal keeps the invariant. -/
theorem Invariant.stirred (holds : Invariant source)
    (stirred : Stirred (monitor Thread) source thread target) : Invariant target := by
  refine ⟨holds.toExcludes.stirred stirred, holds.timely.stirred stirred, ?_, ?_, ?_⟩
  · rw [stirred.fields, stirred.tally_eq, holds.pending]
  · rw [stirred.fields, stirred.tally_eq, holds.waiting]
  · rw [stirred.fields]
    rintro unwritten unshared ⟨sleeper, timeout, asleep⟩
    obtain ⟨other, timeout', woken⟩ :=
      holds.served unwritten unshared ⟨sleeper, timeout, stirred.asleep_before asleep⟩
    refine ⟨other, timeout', ?_⟩
    rw [stirred.unmoved fun frame asleep => by rw [woken] at asleep; cases asleep]
    exact woken

theorem invariant_step (source : State Thread) (action : Action Thread Call)
    (target : State Thread) (holds : Invariant source)
    (roomy : (monitor Thread).Before Roomy source action)
    (stepped : (machine Thread).step source action = some target) : Invariant target := by
  refine preserved_before ?_ ?_ ?_ source action target holds roomy stepped
  · intro source thread call target holds ⟨room, few⟩ idle allowed owner ran
    cases call with
    | modify timeout => exact holds.modify few (start_of_idle idle) room (by simp [idle]) ran
    | access timeout => exact holds.access few (start_of_idle idle) room (by simp [idle]) ran
    | release kind => exact holds.release idle allowed ran
  · intro source thread frame flag target holds ⟨room, few⟩ free waitOver ran
    cases frame with
    | modify timeout =>
      refine holds.modify few (start_of_modify holds waitOver) room
        (fun timeout' woken => ?_) ran
      cases flag with
      | true => rfl
      | false =>
        rw [waitOver] at woken
        cases woken
    | access timeout =>
      refine holds.access few (start_of_access holds waitOver) room
        (fun timeout' woken => ?_) ran
      have frame := waitOver.frame_eq
      rw [woken] at frame
      cases frame
  · intro source thread target holds stirred
    exact holds.stirred stirred

/-- A section of `modify` keeps readers from being stranded, if one that gives up does. -/
theorem Calm.modify (kept : Invariant target)
    (safely : rtn = false → fields.writers = 0 → fields.sharing = 0 → fields.pending = 0 →
      ∀ other, (source.threads other).place ≠ .asleep (.access .inf))
    (ran : Ran (monitor Thread) source thread (.modify timeout)
      (modify fields thread timeout rtn) target) : Calm target := by
  have own := ran.own
  have after := ran.fields
  intro unwritten unshared unpending sleeper asleep
  rcases modify_cases fields thread timeout rtn with
    ⟨_, passage⟩ | ⟨_, passage⟩ | ⟨busy, passage⟩ <;>
    rw [passage] at ran own after
  · have alone := kept.writes_le thread
    simp [unwritten, own, settleLocal, monitor] at alone
  · exact absurd unpending (kept.pending_ne_zero (by rw [own]; rfl))
  · rw [after] at unwritten unshared unpending
    have different : sleeper ≠ thread := by
      rintro rfl
      rw [own] at asleep
      cases asleep
    cases rtn with
    | true =>
      rcases busy rfl with written | shared
      · exact written unwritten
      · exact shared unshared
    | false =>
      exact safely rfl unwritten unshared unpending sleeper (ran.asleep_other different asleep)

/-- A section of `access` strands nobody: it sleeps only behind a writer. -/
theorem Calm.access (kept : Invariant target) (calm : Calm source)
    (start : Start source thread fields)
    (pending : fields.pending = source.fields.pending)
    (ran : Ran (monitor Thread) source thread (.access timeout) (access fields timeout rtn)
      target) : Calm target := by
  have own := ran.own
  have after := ran.fields
  intro unwritten unshared unpending sleeper asleep
  rcases access_cases fields timeout rtn with
    ⟨_, passage⟩ | ⟨busy, passage⟩ | passage <;>
    rw [passage] at ran own after
  · have alone := kept.reads_le thread
    simp [unshared, own, settleLocal, monitor] at alone
  · rw [after] at unwritten unpending
    rcases busy with written | blocked
    · exact written unwritten
    · exact blocked unpending
  · rw [after] at unwritten unshared unpending
    have different : sleeper ≠ thread := by
      rintro rfl
      rw [own] at asleep
      cases asleep
    exact calm (start.writers ▸ unwritten) (start.sharing ▸ unshared) (pending ▸ unpending)
      sleeper (ran.asleep_other different asleep)

/-- `release` strands nobody: a lock left free without pending writers is broadcast. -/
theorem Calm.release (holds : Invariant source) {kind : Kind}
    (allowed : (monitor Thread).may (source.threads thread).holds (.release kind) = true)
    (ran : Ran (monitor Thread) source thread (.release kind) (release source.fields) target) :
    Calm target := by
  obtain ⟨fields, next, wake⟩ := release_of_held (holds.held allowed)
  have own := ran.own
  have after := ran.fields
  rw [next] at own
  rw [fields] at after
  intro unwritten unshared unpending sleeper asleep
  rw [after] at unwritten unshared unpending
  have different : sleeper ≠ thread := by
    rintro rfl
    rw [own] at asleep
    cases asleep
  have before := ran.asleep_other different asleep
  have clear : source.fields.pending = 0 := by
    cases kind <;> exact unpending
  have broadcasts := wake unwritten unshared
  rw [if_neg (not_not_intro clear), if_pos (holds.waiting_ne_zero before)] at broadcasts
  exact ran.not_asleep_of_broadcast broadcasts different asleep rfl

omit [Fintype Thread] in
theorem Calm.stirred (calm : Calm source)
    (stirred : Stirred (monitor Thread) source thread target) : Calm target := by
  unfold Calm
  rw [stirred.fields]
  intro unwritten unshared unpending sleeper asleep
  exact calm unwritten unshared unpending sleeper (stirred.asleep_before asleep)

/-- A step that gives up safely keeps readers from being stranded. -/
theorem calm_step (action : Action Thread Call) (holds : Invariant source)
    (kept : Invariant target) (calm : Calm source) (safely : GivesUpSafely source action)
    (stepped : (machine Thread).step source action = some target) : Calm target := by
  cases action with
  | enter thread call chosen =>
    obtain ⟨idle, allowed, _, ran⟩ := step_enter stepped
    cases call with
    | modify timeout => exact Calm.modify kept (by simp) ran
    | access timeout => exact Calm.access kept calm (start_of_idle idle) rfl ran
    | release kind => exact Calm.release holds allowed ran
  | resume thread chosen =>
    obtain ⟨_, frame, flag, waitOver, ran⟩ := step_resume stepped
    cases frame with
    | modify timeout =>
      refine Calm.modify kept (fun expired unwritten unshared unpending => ?_) ran
      subst expired
      have counted := (start_of_modify holds waitOver).pending
      rw [waitOver.frame_eq] at counted
      simp only [suspended_some, Frame.modifying, if_true] at counted unpending
      exact safely timeout waitOver unwritten unshared (by omega)
    | access timeout => exact Calm.access kept calm (start_of_access holds waitOver) rfl ran
  | spurious thread => exact calm.stirred (step_spurious stepped)
  | timeout thread => exact calm.stirred (step_timeout stepped)

/-- A writer that gives up unsafely leaves a reader stranded. -/
theorem not_calm_of_not_givesUpSafely (action : Action Thread Call)
    (unsafe_ : ¬ GivesUpSafely source action)
    (stepped : (machine Thread).step source action = some target) : ¬ Calm target := by
  cases action with
  | resume thread chosen =>
    simp only [GivesUpSafely] at unsafe_
    push Not at unsafe_
    obtain ⟨timeout, expired, unwritten, unshared, pending, sleeper, asleep⟩ := unsafe_
    obtain ⟨_, frame, flag, waitOver, ran⟩ := step_resume stepped
    cases flag with
    | true =>
      rw [waitOver] at expired
      cases expired
    | false =>
      rw [waitOver] at expired
      cases expired
      have different : sleeper ≠ thread := by
        rintro rfl
        exact waitOver.not_asleep _ asleep
      have passage : (monitor Thread).resume thread (.modify timeout) false source.fields =
          ⟨{ source.fields with
              toFields := { source.fields.toFields with pending := source.fields.pending - 1 } },
            .none, .leave false⟩ := by
        simp [monitor, RWLock.modify, modifyExit, lower_of_le (Nat.le_of_eq pending.symm)]
      rw [passage] at ran
      intro calm
      refine calm ?_ ?_ ?_ sleeper ?_
      · rw [ran.fields, unwritten]
      · rw [ran.fields]
        exact unshared
      · rw [ran.fields]
        simp [pending]
      · rw [ran.eq_other rfl different, asleep]
  | _ => exact absurd trivial unsafe_

theorem Invariant.unstranded (holds : Invariant source) (calm : Calm source) :
    Unstranded source := by
  refine ⟨calm, fun unwritten unshared thread asleep => ?_⟩
  obtain ⟨other, timeout, woken⟩ := holds.served unwritten unshared ⟨thread, .inf, asleep⟩
  refine ⟨other, timeout, ?_, woken⟩
  rintro rfl
  rw [asleep] at woken
  cases woken

/-- A run of a `RWLock` for fewer than 2^32 threads whose holds have room strands nobody exactly
when no timed writer in it gives up as the last pending writer of a free lock while an untimed
reader sleeps. -/
theorem rwlock_unstranded_iff (few : Fintype.card Thread < 2 ^ 32)
    {moves : List (Move (State Thread) (Action Thread Call))} {state : State Thread}
    (run : (machine Thread).Run moves state)
    (room : Machine.Meets ((monitor Thread).Before Room) moves) :
    Machine.Throughout Unstranded moves state ↔ Machine.Meets GivesUpSafely moves := by
  classical
  refine (run.restrict room).throughout_iff_meets (fun state => Invariant state ∧ Calm state)
    ?_ ?_ ?_ ?_
  · intro state initial
    have holds := invariant_init initial
    obtain ⟨fields, _, rfl⟩ := initial
    exact ⟨holds, by simp [Calm, State.initial]⟩
  · rintro source action target ⟨holds, calm⟩ safely stepped
    obtain ⟨room, stepped⟩ := Machine.restrict_step stepped
    have kept := invariant_step source action target holds
      (before_imp (fun thread _ room => ⟨room, few_of_card few source thread⟩) room) stepped
    exact ⟨kept, calm_step action holds kept calm safely stepped⟩
  · rintro state ⟨holds, calm⟩
    exact holds.unstranded calm
  · rintro source action target _ unsafe_ stepped ⟨calm, _⟩
    exact not_calm_of_not_givesUpSafely action unsafe_ (Machine.restrict_step stepped).2 calm

end Wakeups

/-- A writer whose wait expires while a reader still holds the lock gives up safely: the reader
behind it sleeps on, but the lock is not free. -/
theorem rwlock_unstranded_iff_expired :
    ∃ moves, ∃ state : State (Fin 3), (machine (Fin 3)).Run moves state ∧
      (state.threads 2).place = .asleep (.access .inf) ∧
      Machine.Throughout Unstranded moves state := by
  let start : State (Fin 3) := .initial ⟨⟨0, 0, 0⟩, 0, 0⟩ ⟨0, 0⟩
  have initial : (machine (Fin 3)).Init start := ⟨_, ⟨rfl, rfl, rfl, rfl⟩, rfl⟩
  have run := ((((Machine.Run.start initial).take (.enter 0 (.access .inf) none)
    (by decide)).take (.enter 1 (.modify .finite) none) (by decide)).take
    (.enter 2 (.access .inf) none) (by decide)).take (.timeout 1) (by decide)
  refine ⟨_, _, run.take (.resume 1 none) (by decide), by decide, ?_⟩
  rw [rwlock_unstranded_iff (by decide) (run.take (.resume 1 none) (by decide)) (by decide)]
  refine Machine.meets_cons.mpr ⟨fun timeout _ _ unshared => ?_, ?_⟩
  · exact absurd unshared (by decide)
  · exact Machine.meets_cons.mpr ⟨trivial, Machine.meets_cons.mpr ⟨trivial,
      Machine.meets_cons.mpr ⟨trivial, Machine.meets_cons.mpr ⟨trivial, by simp [Machine.Meets]⟩⟩⟩⟩

/-- A reader holds the lock, a timed writer waits for it and an untimed reader waits behind the
writer. The writer's wait expires just before the first reader releases, so that the signal finds
nobody asleep; the writer then gives up. The lock is free, nobody is pending, and the untimed
reader sleeps on. -/
theorem rwlock_strands_reader :
    ∃ moves, ∃ state : State (Fin 3), (machine (Fin 3)).Run moves state ∧
      state.fields.writers = 0 ∧ state.fields.sharing = 0 ∧ state.fields.pending = 0 ∧
      (state.threads 2).place = .asleep (.access .inf) ∧
      ¬ Machine.Throughout Unstranded moves state := by
  let start : State (Fin 3) := .initial ⟨⟨0, 0, 0⟩, 0, 0⟩ ⟨0, 0⟩
  have initial : (machine (Fin 3)).Init start := ⟨_, ⟨rfl, rfl, rfl, rfl⟩, rfl⟩
  let played := (machine (Fin 3)).play start
    [.enter 0 (.access .inf) none, .enter 1 (.modify .finite) none, .enter 2 (.access .inf) none,
      .timeout 1, .enter 0 (.release .read) none, .resume 1 none]
  obtain ⟨moves, run⟩ : (machine (Fin 3)).Reachable (played.get (by decide)) :=
    Machine.reachable_get initial _
  have asleep : ((played.get (by decide)).threads 2).place = .asleep (.access .inf) := by decide
  refine ⟨moves, _, run, by decide, by decide, by decide, asleep, fun throughout => ?_⟩
  exact throughout.1.1 (by decide) (by decide) (by decide) 2 asleep

end RWLock

end CommonCpp
