/-
This file models the locks the library keeps for arbitrary addresses:
`Mutex::protect` and `Mutex::release`, and the `lock` of `RWLock::reader` and
`RWLock::writer` with `RWLock::release`.

An address is hashed to an index, which has a list of entries behind a mutex.
The critical section of the index finds or recycles the entry of the address
and raises its count; the lock of the entry is taken outside it. A timed request
that fails lowers the count in a critical section of its own, and a release
unlocks the entry and lowers its count in one. A critical section of an index is
one step here; what other threads do inside an entry's lock during a release
commutes with the count it lowers.

Both are registries in the sense of `CommonCpp.Registry`, over a plain mutex and
over the `RWLock` of `CommonCpp.RWLock`, so the bookkeeping is exact and the
exclusion of each lock carries over to the addresses. Both hold as long as no
request comes to an entry whose count is at its end: an address that is held
2^32 times has an entry whose count is zero.
-/

import Mathlib.Data.BitVec
import CommonCpp.RWLock
import CommonCpp.Registry

namespace CommonCpp

open Concurrency Concurrency.Monitor Counter

namespace AddressLock

/-! ### Hashing an address -/

/-- A pointer. The null pointer is zero. -/
abbrev Pointer := BitVec 64

/-- The bytes of a pointer as they lie in memory, the lowest first. -/
def bytes (ptr : Pointer) : List Nat :=
  (List.range 8).map fun place => ptr.toNat / 256 ^ place % 256

/-- `hash_address`: the bytes from the first that is not zero up to the next that is, each
shifted in by one bit. Eight bytes stay within an `unsigned`. -/
def hashAddress (ptr : Pointer) (indexing : Nat) : Nat :=
  if indexing < 2 then 0
  else
    (((bytes ptr).dropWhile (· = 0)).takeWhile (· ≠ 0)).foldl
      (fun key byte => (key <<< 1) ^^^ byte) 0 % indexing

/-! ### Mutexes -/

section Mutex

variable (Thread : Type) [DecidableEq Thread]

/-- The mutex of an entry, as the thread that has it locked. A thread that finds it locked makes
no step. -/
def mutex : Lock Thread (Option Thread) Unit Unit Unit where
  kind _ := ()
  act _ thread _ owner := if owner = none then some (some thread, .granted) else none
  finish _ _ _ _ := some none
  holds owner thread _ := if owner = some thread then 1 else 0
  busy _ _ := false

theorem mutex_lawful [Fintype Thread] :
    (mutex Thread).Lawful (fun owner => owner = none) fun _ => True := by
  refine ⟨?_, ?_, ?_⟩
  · rintro owner rfl
    exact ⟨trivial, fun thread kind => by simp [mutex], fun thread => rfl⟩
  · intro request thread label owner owner' reply _ _ acted
    simp only [mutex] at acted
    split at acted
    next free =>
      cases acted
      refine ⟨trivial, fun other kind => ?_, fun other busy => by cases busy⟩
      simp [mutex, free, eq_comm]
    next => cases acted
  · intro kind thread label owner owner' _ held finished
    simp only [mutex, ne_eq, ite_eq_right_iff, one_ne_zero, imp_false, not_not] at held
    cases finished
    refine ⟨trivial, fun other kind' => ?_, fun other busy => by cases busy⟩
    simp [mutex, held, eq_comm]

/-- The state of the mutexes kept for addresses, and of the threads. -/
abbrev MutexState := Registry.State Pointer Unit Unit Thread (Option Thread)

abbrev MutexAction := Registry.Action Pointer Unit Unit Thread Unit

variable {Thread}

/-- `Mutex::protect` from its start until the entry is claimed. -/
def protect (thread : Thread) (ptr : Pointer) : MutexAction Thread := .lock thread ptr ()

/-- The `pthread_mutex_lock` of `Mutex::protect`. -/
def protectLock (thread : Thread) : MutexAction Thread := .act thread ()

/-- `Mutex::release` of an address. -/
def releaseMutex (thread : Thread) (ptr : Pointer) : MutexAction Thread :=
  .release thread ptr () ()

variable (Thread)

/-- The runs of `Mutex::protect` and `Mutex::release` over a table of the given size. -/
def mutexes (indexing : Nat) : Machine (MutexState Thread) (MutexAction Thread) :=
  Registry.machine (mutex Thread) (fun ptr => hashAddress ptr indexing) 0 fun owner => owner = none

end Mutex

/-! ### Read and write locks -/

section ReadWrite

open RWLock (Kind Timeout)

instance : Fintype Kind where
  elems := {.read, .write}
  complete kind := by cases kind <;> simp

/-- A request for an address: `RWLock::reader::lock` or `RWLock::writer::lock`, with its
timeout. -/
structure Request where
  kind : Kind
  timeout : Timeout
  deriving DecidableEq

/-- The call the request makes on the lock of its entry. -/
def Request.call (request : Request) : RWLock.Call :=
  match request.kind with
  | .read => .access request.timeout
  | .write => .modify request.timeout

/-- What a thread with a request does next inside the lock of its entry, or what happens to it
there. -/
inductive Label (Thread : Type)
  | enter (chosen : Option Thread)
  | resume (chosen : Option Thread)
  | spurious
  | timeout

/-- The holds of a kind. -/
def holdsOf (holds : RWLock.Holds) : Kind → Nat
  | .read => holds.reads
  | .write => holds.writes

/-- What a call that has returned the value, or not returned, comes to. -/
def replyOf : Option Bool → Reply
  | none => .waiting
  | some true => .granted
  | some false => .refused

variable (Thread : Type) [DecidableEq Thread] [Fintype Thread]

/-- The step of the entry's lock that a label stands for. A thread goes on only with the call of
its own request. -/
def innerAction (request : Request) (thread : Thread) (inner : RWLock.State Thread) :
    Label Thread → Option (Action Thread RWLock.Call)
  | .enter chosen => some (.enter thread request.call chosen)
  | .resume chosen =>
    if (inner.threads thread).place.frame.map (RWLock.monitor Thread).call =
        some request.call then
      some (.resume thread chosen)
    else none
  | .spurious => some (.spurious thread)
  | .timeout => some (.timeout thread)

/-- The lock of an entry is a `RWLock`. -/
def rwlock : Lock Thread (RWLock.State Thread) Kind Request (Label Thread) where
  kind request := request.kind
  act request thread label inner :=
    (innerAction Thread request thread inner label).bind fun action =>
      ((RWLock.monitor Thread).step inner action).map fun inner' =>
        (inner', replyOf (((RWLock.monitor Thread).outcome inner action).map fun ended =>
          ended.2.2))
  finish kind thread label inner :=
    match label with
    | .enter chosen => (RWLock.monitor Thread).step inner (.enter thread (.release kind) chosen)
    | _ => none
  holds inner thread kind := holdsOf (inner.threads thread).holds kind
  busy inner thread := (inner.threads thread).place ≠ .idle

variable {Thread} {source target : RWLock.State Thread} {thread : Thread}

omit [Fintype Thread] in
/-- A request that returns books one more hold of its kind when it returns true. -/
theorem holdsOf_book (request : Request) (result : Bool) (holds : RWLock.Holds) (kind : Kind) :
    holdsOf ((RWLock.monitor Thread).book request.call result holds) kind =
      holdsOf holds kind +
        if replyOf (some result) = .granted ∧ kind = request.kind then 1 else 0 := by
  obtain ⟨own, timeout⟩ := request
  cases own <;> cases result <;> cases kind <;>
    simp [RWLock.monitor, Request.call, holdsOf, replyOf]

/-- What a section of a request does to the holds and to the threads inside the lock. -/
theorem request_ran {request : Request} {passage : Section (RWLock.Fields Thread)
      ConditionalAccess.Queue RWLock.Frame}
    (ran : Ran (RWLock.monitor Thread) source thread request.call passage target) :
    (∀ other kind, holdsOf (target.threads other).holds kind =
      holdsOf (source.threads other).holds kind +
        if other = thread ∧ replyOf passage.next.result = .granted ∧ kind = request.kind
        then 1 else 0) ∧
    ∀ other, (target.threads other).place ≠ .idle →
      other = thread ∧ replyOf passage.next.result = .waiting ∨
        other ≠ thread ∧ (source.threads other).place ≠ .idle := by
  constructor
  · intro other kind
    by_cases same : other = thread
    · subst same
      rw [ran.own_holds]
      cases passage.next.result with
      | none => simp [replyOf]
      | some result =>
        rw [Option.elim_some, holdsOf_book]
        simp
    · rw [ran.holds_other same]
      simp [same]
  · intro other moving
    by_cases same : other = thread
    · subst same
      rw [Ne, ran.own_idle_iff, not_not] at moving
      exact Or.inl ⟨rfl, by rw [moving]; rfl⟩
    · refine Or.inr ⟨same, fun idle => moving ?_⟩
      rw [ran.unmoved same fun frame asleep => by rw [idle] at asleep; cases asleep]
      exact idle

omit [Fintype Thread] in
/-- A sleeper that leaves its condition without a signal changes no holds and stays inside the
lock. -/
theorem request_stirred (stirred : Stirred (RWLock.monitor Thread) source thread target) :
    (∀ other kind, holdsOf (target.threads other).holds kind =
      holdsOf (source.threads other).holds kind) ∧
    ∀ other, (target.threads other).place ≠ .idle →
      other = thread ∨ other ≠ thread ∧ (source.threads other).place ≠ .idle := by
  constructor
  · intro other kind
    rw [stirred.holds_eq]
  · intro other moving
    by_cases same : other = thread
    · exact Or.inl same
    · rw [stirred.others other same] at moving
      exact Or.inr ⟨same, moving⟩

/-- A lock that has just been constructed is held by nobody, with nobody inside. -/
theorem rwlock_fresh {inner : RWLock.State Thread} (initial : (RWLock.machine Thread).Init inner) :
    RWLock.Invariant inner ∧
      (∀ thread kind, (rwlock Thread).holds inner thread kind = 0) ∧
      ∀ thread, (rwlock Thread).busy inner thread = false := by
  refine ⟨RWLock.invariant_init initial, ?_, ?_⟩
  · obtain ⟨fields, _, rfl⟩ := initial
    intro thread kind
    cases kind <;> rfl
  · obtain ⟨fields, _, rfl⟩ := initial
    intro thread
    simp [rwlock, State.initial]

/-- A lock whose holds and threads can be counted has room in each of its counters. -/
theorem roomy_of_room {inner : RWLock.State Thread} (good : RWLock.Invariant inner)
    (room : (rwlock Thread).Room thread inner) (call : RWLock.Call) :
    RWLock.Roomy inner thread call := by
  have kinds (other : Thread) : ∑ kind, (rwlock Thread).holds inner other kind =
      (inner.threads other).holds.reads + (inner.threads other).holds.writes :=
    Finset.sum_pair (by decide)
  have own : ∑ other, (if other = thread then 1 else 0) = 1 := by simp
  have inside : ∑ other, (if other = thread then 1 else 0) ≤
      ∑ other, if other = thread ∨ (rwlock Thread).busy inner other = true then 1 else 0 :=
    Finset.sum_le_sum fun other _ => by split <;> simp [*]
  simp only [Lock.Room, kinds, Finset.sum_add_distrib] at room
  have sharing := good.sharing
  have writers := good.writers
  simp only [tally, RWLock.readWeight, RWLock.writeWeight] at sharing writers
  refine ⟨?_, fun kind => ?_⟩
  · cases call with
    | modify timeout =>
      intro _
      omega
    | access timeout =>
      intro _ _
      omega
    | release kind => trivial
  · let weight (other : Thread) : Nat :=
      suspended kind (inner.threads other).place.frame (inner.threads other).holds
    have each : ∀ other, weight other + (if other = thread then 1 else 0) ≤
        (if other = thread ∨ (rwlock Thread).busy inner other = true then 1 else 0) +
          if other = thread then weight thread else 0 := by
      intro other
      by_cases same : other = thread
      · simp [same, Nat.add_comm]
      · cases place : (inner.threads other).place <;>
          simp [weight, same, place, rwlock, suspended] <;> split <;> decide
    have sum := Finset.sum_le_sum fun other (_ : other ∈ Finset.univ) => each other
    simp only [Finset.sum_add_distrib, own, Finset.sum_ite_eq', Finset.mem_univ, if_true] at sum
    show ∑ other, weight other < 2 ^ 32 - 1 + weight thread
    omega

/-- An act of a request gives its thread the hold when it is granted, and nothing to others. -/
theorem rwlock_act {request : Request} {label : Label Thread} {inner inner' : RWLock.State Thread}
    {reply : Reply} (good : RWLock.Invariant inner) (room : (rwlock Thread).Room thread inner)
    (acted : (rwlock Thread).act request thread label inner = some (inner', reply)) :
    RWLock.Invariant inner' ∧
      (∀ other kind, (rwlock Thread).holds inner' other kind =
        (rwlock Thread).holds inner other kind +
          if other = thread ∧ reply = .granted ∧ kind = (rwlock Thread).kind request then 1
          else 0) ∧
      ∀ other, (rwlock Thread).busy inner' other = true →
        other = thread ∧ reply = .waiting ∨
          other ≠ thread ∧ (rwlock Thread).busy inner other = true := by
  obtain ⟨action, labelled, acted⟩ := Option.bind_eq_some_iff.mp acted
  obtain ⟨after, stepped, equal⟩ := Option.map_eq_some_iff.mp acted
  obtain ⟨rfl, rfl⟩ := Prod.mk.inj equal
  have roomy : (RWLock.monitor Thread).Before RWLock.Roomy inner action := by
    cases label with
    | enter chosen =>
      cases labelled
      exact roomy_of_room good room _
    | resume chosen =>
      simp only [innerAction] at labelled
      split at labelled
      next =>
        cases labelled
        exact fun frame _ => roomy_of_room good room _
      next => cases labelled
    | _ =>
      cases labelled
      trivial
  refine ⟨RWLock.invariant_step inner action after good roomy stepped, ?_⟩
  simp only [rwlock, ne_eq, decide_not, Bool.not_eq_true', decide_eq_false_iff_not]
  cases label with
  | enter chosen =>
    cases labelled
    obtain ⟨_, _, _, ran⟩ := step_enter stepped
    simp only [outcome, Option.map_map, Function.comp_def, Option.map_id']
    exact request_ran ran
  | resume chosen =>
    simp only [innerAction] at labelled
    split at labelled
    next same =>
      cases labelled
      obtain ⟨_, frame, flag, waitOver, ran⟩ := step_resume stepped
      rw [waitOver.frame_eq, Option.map_some, Option.some_inj] at same
      rw [outcome_resume waitOver, same] at *
      simp only [Option.map_map, Function.comp_def, Option.map_id']
      exact request_ran ran
    next => cases labelled
  | spurious =>
    cases labelled
    obtain ⟨holds, inside⟩ := request_stirred (step_spurious stepped)
    refine ⟨fun other kind => ?_, fun other moving => ?_⟩
    · rw [holds]
      simp [outcome, replyOf]
    · exact (inside other moving).imp_left fun same => ⟨same, rfl⟩
  | timeout =>
    cases labelled
    obtain ⟨holds, inside⟩ := request_stirred (step_timeout stepped)
    refine ⟨fun other kind => ?_, fun other moving => ?_⟩
    · rw [holds]
      simp [outcome, replyOf]
    · exact (inside other moving).imp_left fun same => ⟨same, rfl⟩

/-- The end of a hold is the end of one of its thread, which leaves the lock. -/
theorem rwlock_finish {kind : Kind} {label : Label Thread} {inner inner' : RWLock.State Thread}
    (good : RWLock.Invariant inner) (held : (rwlock Thread).holds inner thread kind ≠ 0)
    (finished : (rwlock Thread).finish kind thread label inner = some inner') :
    RWLock.Invariant inner' ∧
      (∀ other kind', (rwlock Thread).holds inner' other kind' +
        (if other = thread ∧ kind' = kind then 1 else 0) =
          (rwlock Thread).holds inner other kind') ∧
      ∀ other, (rwlock Thread).busy inner' other = true →
        (rwlock Thread).busy inner other = true := by
  cases label with
  | enter chosen =>
    have stepped : (RWLock.monitor Thread).step inner (.enter thread (.release kind) chosen) =
      some inner' := finished
    obtain ⟨idle, allowed, _, ran⟩ := step_enter stepped
    have result : ((RWLock.monitor Thread).enter thread (.release kind)
        inner.fields).next.result = some true := RWLock.release_result inner.fields
    refine ⟨good.release idle allowed ran, fun other kind' => ?_, ?_⟩
    · simp only [rwlock] at held ⊢
      by_cases same : other = thread
      · subst same
        rw [ran.own_holds, result]
        cases kind <;> cases kind' <;>
          simp [RWLock.monitor, holdsOf] at held ⊢ <;> omega
      · rw [ran.holds_other same]
        simp [same]
    · intro other busy
      simp only [rwlock, ne_eq, decide_not, Bool.not_eq_true', decide_eq_false_iff_not]
        at busy ⊢
      by_cases same : other = thread
      · subst same
        exact absurd (ran.own_idle_iff.mpr (by rw [result]; simp)) busy
      · intro idle'
        refine busy ?_
        rw [ran.unmoved same fun frame asleep => by rw [idle'] at asleep; cases asleep]
        exact idle'
  | _ => cases finished

theorem rwlock_lawful :
    (rwlock Thread).Lawful (RWLock.machine Thread).Init RWLock.Invariant :=
  ⟨fun _ initial => rwlock_fresh initial,
    fun _ _ _ _ _ _ good room acted => rwlock_act good room acted,
    fun _ _ _ _ _ good held finished => rwlock_finish good held finished⟩

/-- Nobody holds the lock, and no thread is inside a call on it. -/
def Free (inner : RWLock.State Thread) : Prop :=
  inner.fields.writers = 0 ∧ inner.fields.sharing = 0 ∧ inner.fields.pending = 0 ∧
    inner.fields.waiting = 0 ∧ ∀ thread, (inner.threads thread).place = .idle

/-- A lock without holds and without threads inside is free. -/
theorem free_of_unheld (good : RWLock.Invariant source)
    (unheld : ∀ thread kind, holdsOf (source.threads thread).holds kind = 0)
    (idle : ∀ thread, (source.threads thread).place = .idle) : Free source := by
  refine ⟨?_, ?_, ?_, ?_, idle⟩
  · rw [good.writers]
    exact tally_eq_zero_iff.mpr fun thread => unheld thread .write
  · rw [good.sharing]
    exact tally_eq_zero_iff.mpr fun thread => unheld thread .read
  · rw [good.pending]
    exact tally_eq_zero_iff.mpr fun thread => by rw [idle thread]; rfl
  · rw [good.waiting]
    exact tally_eq_zero_iff.mpr fun thread => by rw [idle thread]; rfl

variable (Thread)

/-- The state of the read and write locks kept for addresses, and of the threads. -/
abbrev RWState := Registry.State Pointer Request Kind Thread (RWLock.State Thread)

abbrev RWAction := Registry.Action Pointer Request Kind Thread (Label Thread)

variable {Thread}

/-- `RWLock::reader::lock` from its start until the entry is claimed. -/
def readerLock (thread : Thread) (ptr : Pointer) (timeout : Timeout) : RWAction Thread :=
  .lock thread ptr ⟨.read, timeout⟩

/-- `RWLock::writer::lock` from its start until the entry is claimed. -/
def writerLock (thread : Thread) (ptr : Pointer) (timeout : Timeout) : RWAction Thread :=
  .lock thread ptr ⟨.write, timeout⟩

variable (Thread)

/-- The runs of `RWLock::reader::lock`, `RWLock::writer::lock` and `RWLock::release` over a table
of the given size. -/
def rwlocks (indexing : Nat) : Machine (RWState Thread) (RWAction Thread) :=
  Registry.machine (rwlock Thread) (fun ptr => hashAddress ptr indexing) 0
    (RWLock.machine Thread).Init

end ReadWrite

/-! ### Exclusion by address -/

section Exclusion

open RWLock (Kind)

variable {Thread : Type} [DecidableEq Thread] [Fintype Thread] {indexing : Nat}

/-- The mutexes kept for addresses: the bookkeeping is exact, an entry is given to another address
only when its mutex is free, and one thread at most holds an address. -/
structure MutexSound (indexing : Nat) (state : MutexState Thread) : Prop where
  exact_ : Registry.Exact (mutex Thread) state
  recycled : ∀ action target, (mutexes Thread indexing).step state action = some target →
    ∀ number, (target.table.entry number).key ≠ (state.table.entry number).key →
      (state.table.entry number).count = 0 ∧ state.locks number = none
  exclusive : ∀ ptr thread thread', (state.threads thread).held ptr () ≠ 0 →
    (state.threads thread').held ptr () ≠ 0 → thread = thread'

theorem mutexSound_of_run {moves : List (Move (MutexState Thread) (MutexAction Thread))}
    {state : MutexState Thread} (run : (mutexes Thread indexing).Run moves state)
    (room : Machine.Meets (Registry.Room fun ptr => hashAddress ptr indexing) moves) :
    MutexSound indexing state := by
  have holds := Registry.invariant_run (mutex_lawful Thread) run room
  refine ⟨holds.exact, ?_, ?_⟩
  · intro action target stepped number rekeyed
    have dead := Registry.not_live_of_rekeyed holds stepped rekeyed
    refine ⟨by simpa [Table.Live] using dead, ?_⟩
    cases owner : state.locks number with
    | none => rfl
    | some thread =>
      have unheld := holds.holds_of_dead dead thread ()
      simp [mutex, owner] at unheld
  · intro ptr thread thread' held held'
    obtain ⟨number, live, rfl⟩ := holds.served thread ptr () held
    rw [holds.held number live] at held held'
    simp only [mutex, ne_eq, ite_eq_right_iff, one_ne_zero, imp_false, not_not] at held held'
    rw [held, Option.some_inj] at held'
    exact held'

/-- The read and write locks kept for addresses: the bookkeeping is exact, an entry is given to
another address only when its lock is free, the read and the write holds of an address exclude
each other, and one thread at most holds an address for writing. -/
structure RWSound (indexing : Nat) (state : RWState Thread) : Prop where
  exact_ : Registry.Exact (rwlock Thread) state
  recycled : ∀ action target, (rwlocks Thread indexing).step state action = some target →
    ∀ number, (target.table.entry number).key ≠ (state.table.entry number).key →
      (state.table.entry number).count = 0 ∧ Free (state.locks number)
  exclusive : ∀ ptr thread thread', (state.threads thread).held ptr .write ≠ 0 →
    (state.threads thread').held ptr .read = 0 ∧
      ((state.threads thread').held ptr .write ≠ 0 → thread = thread')

theorem rwSound_of_run {moves : List (Move (RWState Thread) (RWAction Thread))}
    {state : RWState Thread} (run : (rwlocks Thread indexing).Run moves state)
    (room : Machine.Meets (Registry.Room fun ptr => hashAddress ptr indexing) moves) :
    RWSound indexing state := by
  have holds := Registry.invariant_run rwlock_lawful run room
  refine ⟨holds.exact, ?_, ?_⟩
  · intro action target stepped number rekeyed
    have dead := Registry.not_live_of_rekeyed holds stepped rekeyed
    refine ⟨by simpa [Table.Live] using dead,
      free_of_unheld (holds.good number) (holds.holds_of_dead dead) fun thread => ?_⟩
    have idle := holds.busy_of_dead dead thread
    simpa [rwlock] using idle
  · intro ptr thread thread' held
    obtain ⟨number, live, rfl⟩ := holds.served thread ptr .write held
    have good := holds.good number
    rw [holds.held number live] at held ⊢
    have written : (state.locks number).fields.writers ≠ 0 := by
      have le := good.writes_le thread
      change ((state.locks number).threads thread).holds.writes ≠ 0 at held
      omega
    refine ⟨?_, fun held' => ?_⟩
    · have le := good.reads_le thread'
      rw [good.exclusion written] at le
      exact Nat.le_zero.mp le
    · rw [holds.held number live] at held'
      rw [← good.named thread held, ← good.named thread' held']

/-- Over any table size and any interleaving, the locks kept for addresses are sound wherever a
run leads whose requests find room in the counts of their entries: the mutexes of
`Mutex::protect`, and the read and write locks of `RWLock::reader` and `RWLock::writer`. -/
theorem addressLock_registry (indexing : Nat) :
    (∀ moves, ∀ state : MutexState Thread, (mutexes Thread indexing).Run moves state →
      Machine.Meets (Registry.Room fun ptr => hashAddress ptr indexing) moves →
      MutexSound indexing state) ∧
    ∀ moves, ∀ state : RWState Thread, (rwlocks Thread indexing).Run moves state →
      Machine.Meets (Registry.Room fun ptr => hashAddress ptr indexing) moves →
      RWSound indexing state :=
  ⟨fun _ _ => mutexSound_of_run, fun _ _ => rwSound_of_run⟩

end Exclusion

/-- Two threads ask for one address: one holds it, and the entry is claimed twice. So it is for
the mutexes, at an entry that has served another address before, and for the read and write locks
when the reader that waits behind the writer has been refused and still has to give up its
claim. -/
theorem addressLock_registry_contended :
    (∃ state : MutexState (Fin 2), (mutexes (Fin 2) 3).Reachable state ∧
      (state.threads 0).held 0x1000 () = 1 ∧ (state.table.entry 0).count = 2 ∧
      MutexSound 3 state) ∧
    ∃ state : RWState (Fin 2), (rwlocks (Fin 2) 3).Reachable state ∧
      (state.threads 0).held 0x1000 .write = 1 ∧
      (state.threads 1).place = .refused 0x1000 0 ∧ (state.table.entry 0).count = 2 ∧
      RWSound 3 state := by
  constructor
  · let start : MutexState (Fin 2) :=
      ⟨⟨fun _ => [], fun _ => ⟨0, 0⟩, 0⟩, fun _ => none, fun _ => ⟨.idle, fun _ _ => 0⟩⟩
    let roomy := (mutexes (Fin 2) 3).restrict (Registry.Room fun ptr => hashAddress ptr 3)
    have initial : roomy.Init start := ⟨fun _ => rfl, fun _ => rfl, fun _ => rfl, fun _ => rfl⟩
    let played := roomy.play start
      [protect 1 0x4000, protectLock 1, releaseMutex 1 0x4000, protect 0 0x1000,
        protect 1 0x1000, protectLock 0]
    obtain ⟨moves, ran⟩ : roomy.Reachable (played.get (by decide)) :=
      Machine.reachable_get initial _
    obtain ⟨run, room⟩ := ran.of_restrict
    exact ⟨_, ⟨moves, run⟩, by decide, by decide, (addressLock_registry 3).1 _ _ run room⟩
  · let start : RWState (Fin 2) :=
      ⟨⟨fun _ => [], fun _ => ⟨0, 0⟩, 0⟩, fun _ => .initial ⟨⟨0, 0, 0⟩, 0, 0⟩ ⟨0, 0⟩,
        fun _ => ⟨.idle, fun _ _ => 0⟩⟩
    let roomy := (rwlocks (Fin 2) 3).restrict (Registry.Room fun ptr => hashAddress ptr 3)
    have initial : roomy.Init start :=
      ⟨fun _ => rfl, fun _ => rfl, fun _ => ⟨_, ⟨rfl, rfl, rfl, rfl⟩, rfl⟩, fun _ => rfl⟩
    let played := roomy.play start
      [writerLock 0 0x1000 .inf, readerLock 1 0x1000 .finite, .act 0 (.enter none),
        .act 1 (.enter none), .act 1 .timeout, .act 1 (.resume none)]
    obtain ⟨moves, ran⟩ : roomy.Reachable (played.get (by decide)) :=
      Machine.reachable_get initial _
    obtain ⟨run, room⟩ := ran.of_restrict
    exact ⟨_, ⟨moves, run⟩, by decide, by decide, by decide,
      (addressLock_registry 3).2 _ _ run room⟩

/-- The locks of entries that no request has claimed yet. -/
def unclaimed (self : Fin 2) (_ : Nat) : RWLock.State (Fin 2) :=
  .initial ⟨⟨0, 0, 0⟩, 0, self⟩ ⟨0, 0⟩

/-- One of two threads holds one address for reading to a depth, with other counts of it. -/
def nested (self : Fin 2) (depth count : Nat) : RWState (Fin 2) where
  table := ⟨Function.update (fun _ => []) 0 [0],
    Function.update (fun _ => ⟨0, 0⟩) 0 ⟨0x1000, count⟩, 1⟩
  locks := Function.update (unclaimed self) 0
    ⟨⟨⟨0, 0, count⟩, 0, self⟩, none,
      Function.update (fun _ => ⟨.idle, ⟨0, 0⟩⟩) self ⟨.idle, ⟨depth, 0⟩⟩⟩
  threads := Function.update (fun _ => ⟨.idle, fun _ _ => 0⟩) self
    ⟨.idle, fun ptr kind => if ptr = 0x1000 ∧ kind = .read then depth else 0⟩

theorem claim_nested (depth count : Nat) : (nested 0 depth count).table.claim 0 0x1000 =
    (0, (nested 0 (depth + 1) (raise count 1)).table) := by
  have located : (nested 0 depth count).table.locate 0 0x1000 =
      (0, (nested 0 depth count).table) := by
    by_cases unused : count = 0 <;>
      simp [Table.locate, search, Table.serves, Table.vacant, nested, unused]
  rw [Table.claim, located]
  simp only [nested, Table.set, Function.update_self, Function.update_idem]

theorem play_nested (depth count : Nat) :
    (rwlocks (Fin 2) 1).play (nested 0 depth count)
      [readerLock 0 0x1000 .inf, .act 0 (.enter none)] =
      some (nested 0 (depth + 1) (raise count 1)) := by
  have bucket : hashAddress 0x1000 1 = 0 := rfl
  have asked : (rwlocks (Fin 2) 1).step (nested 0 depth count) (readerLock 0 0x1000 .inf) =
      some ⟨(nested 0 (depth + 1) (raise count 1)).table, (nested 0 depth count).locks,
        Function.update (nested 0 depth count).threads 0
          ⟨.asking 0x1000 ⟨.read, .inf⟩ 0, ((nested 0 depth count).threads 0).held⟩⟩ := by
    simp only [rwlocks, Registry.machine, Registry.step, readerLock, show
      ((nested 0 depth count).threads 0).place = .idle from rfl, bucket, claim_nested]
    rfl
  have entered : (rwlock (Fin 2)).act ⟨.read, .inf⟩ 0 (.enter none)
      ((nested 0 depth count).locks 0) =
      some ((nested 0 (depth + 1) (raise count 1)).locks 0, .granted) := by
    show some (Monitor.State.mk _ none (Function.update (Function.update _ 0 _) 0 _), _) = _
    rw [Function.update_idem]
    rfl
  have held : (fun ptr kind => (if ptr = 0x1000 ∧ kind = RWLock.Kind.read then depth else 0) +
      if ptr = 0x1000 ∧ kind = RWLock.Kind.read then 1 else 0) =
      ((nested 0 (depth + 1) (raise count 1)).threads 0).held := by
    funext ptr kind
    show _ = if ptr = 0x1000 ∧ kind = .read then depth + 1 else 0
    split <;> rfl
  rw [Machine.play, asked, Option.bind_some, Machine.play_one]
  simp only [rwlocks, Registry.machine, Registry.step, Function.update_self, entered,
    Option.map_some]
  show some (Registry.State.mk _ (Function.update (Function.update _ 0 _) 0 _)
    (Function.update (Function.update (Function.update _ 0 _) 0 _) 0 ⟨.idle, _⟩)) = _
  rw [Function.update_idem, Function.update_idem, Function.update_idem]
  exact congrArg (fun held => some (Registry.State.mk _ _
    (Function.update _ 0 (Registry.Local.mk .idle held)))) held

/-- A pointer held for reading 2^32 times has an entry with count zero, like one that nobody
uses. -/
theorem addressLock_wraps :
    ∃ state : RWState (Fin 2), (rwlocks (Fin 2) 1).Reachable state ∧
      (state.threads 0).held 0x1000 .read = 2 ^ 32 ∧ (state.table.entry 0).count = 0 ∧
      ¬ RWSound 1 state := by
  have initial : (rwlocks (Fin 2) 1).Init
      ⟨⟨fun _ => [], fun _ => ⟨0, 0⟩, 0⟩, unclaimed 0, fun _ => ⟨.idle, fun _ _ => 0⟩⟩ :=
    ⟨fun _ => rfl, fun _ => rfl, fun _ => ⟨_, ⟨rfl, rfl, rfl, rfl⟩, rfl⟩, fun _ => rfl⟩
  let family (count : Nat) := nested 0 (count + 1) ((count + 1) % 2 ^ 32)
  have first : (rwlocks (Fin 2) 1).Reachable (family 0) := by
    refine Machine.reachable_of_play initial (?_ : (rwlocks (Fin 2) 1).play _
      [readerLock 0 0x1000 .inf, .act 0 (.enter none)] = _)
    have held : (fun ptr kind => 0 + if ptr = 0x1000 ∧ kind = RWLock.Kind.read then 1 else 0) =
        ((family 0).threads 0).held := funext fun _ => funext fun _ => Nat.zero_add _
    show some (Registry.State.mk ⟨_, Function.update (Function.update _ 0 _) 0 _, _⟩ _
      (Function.update (Function.update _ 0 _) 0 ⟨.idle, _⟩)) = _
    rw [Function.update_idem, Function.update_idem]
    exact congrArg (fun held => some (Registry.State.mk _ _
      (Function.update _ 0 (Registry.Local.mk .idle held)))) held
  have next (count : Nat) : (rwlocks (Fin 2) 1).play (family count)
      [readerLock 0 0x1000 .inf, .act 0 (.enter none)] = some (family (count + 1)) := by
    rw [play_nested, raise, Nat.mod_add_mod]
  have reachable := Machine.reachable_of_repeated first next (2 ^ 32 - 1)
  refine ⟨_, reachable, rfl, rfl, fun sound => ?_⟩
  have unheld := (sound.exact_.unheld 0 (fun live => live rfl) 0).1 .read
  exact absurd unheld (by decide)

end AddressLock

end CommonCpp
