/-
This file models the threads that share an `ArrayReuse` or a `MappedReuse`, and
finds when no slot is handed out twice.

A thread that gets an object waits while there is none, and goes back to its test
when it is woken, with or without a signal. A thread that releases an object first
rewrites the link of the object, and then takes the lock to put it on the free list;
until then the object is its own. Whatever the threads do, a slot is held by a
client or it is on the free list, once.

The slots must lie side by side in the memory for that. They do when the memory is as
large as they are. But the size of an array is a product that can overflow, and
`MappedReuse` keeps the object size as an `unsigned`, so that it carves slots that
are smaller than the objects when these have 4 GiB or more.

The holder of an object may write to all of it, its link included. Who holds what is
kept beside the fields, and a thread keeps the object it is about to release.
-/

import CommonCpp.Links
import CommonCpp.Monitor
import CommonCpp.ReusableAllocator

namespace CommonCpp

open Concurrency Concurrency.Monitor Memory

namespace ReusableAllocator

/-! ### The code -/

/-- `Timer::inf`. -/
def Timer.inf : Nat := 2 ^ 64 - 1

/-- The calls of the clients, with what a client does to an object it holds. A `release` is the
writes to the object, and then its enlisting under the lock. -/
inductive Call
  | get (timeout : Nat)
  | request
  | use (object : Nat) (link : Option Nat)
  | retire (object : Nat)
  | enlist (object : Nat)
  deriving DecidableEq

/-- What a derived class adds: the loop test of its `get`, and its `request`, which is also what
`get` does after the loop. -/
structure Derived where
  exhausted : Fields → Bool
  request : Fields → Fields × Option Nat

section Code

variable (derived : Derived)

/-- A call that takes an object, or finds none. -/
def take (fields : Fields) : Section Fields Unit Nat :=
  ⟨(derived.request fields).1, .none, .leave (derived.request fields).2.isSome⟩

/-- `get` from its loop test on. -/
def get (timeout : Nat) (fields : Fields) : Section Fields Unit Nat :=
  if derived.exhausted fields then
    if timeout = 0 then ⟨fields, .none, .leave false⟩
    else ⟨{ fields with waiting := fields.waiting + 1 }, .none, .sleep timeout⟩
  else take derived fields

/-- `get` after a wait. The flag is what the wait returned. -/
def getAfterWait (timeout : Nat) (flag : Bool) (fields : Fields) : Section Fields Unit Nat :=
  let fields := { fields with waiting := fields.waiting - 1 }
  if flag then get derived timeout fields else ⟨fields, .none, .leave false⟩

/-- The calls of a reusable allocator. A suspended call is a `get` with its timeout. A thread keeps
the object it has written to for a release, and can only go on with that release. -/
def monitor (Thread : Type) :
    Monitor Thread Fields Call Unit Nat (Option Nat) where
  enter _ call fields :=
    match call with
    | .get timeout => get derived timeout fields
    | .request => take derived fields
    | .use object link =>
      ⟨{ fields with next := Function.update fields.next object link }, .none, .leave true⟩
    | .retire object => ⟨fields.retire object, .none, .leave true⟩
    | .enlist object =>
      ⟨fields.enlist object, if fields.waiting = 0 then .none else .signal (), .leave true⟩
  resume _ timeout flag fields := getAfterWait derived timeout flag fields
  call timeout := .get timeout
  queue _ := ()
  timed timeout := timeout ≠ Timer.inf
  spurious := true
  inside _ := false
  may
    | none, .enlist _ => false
    | none, _ => true
    | some object, call => call = .enlist object
  book
    | .retire object, _, _ => some object
    | .enlist _, _, _ => none
    | _, _, holds => holds

end Code

/-- The state of an allocator and of the threads that use it. -/
abbrev State (Thread : Type) := Monitor.State Thread Fields Nat (Option Nat)

variable {Thread : Type} [DecidableEq Thread] [Fintype Thread]

/-- The runs of an allocator from its constructor on. -/
def threads (Thread : Type) [DecidableEq Thread] [Fintype Thread] (derived : Derived) :
    Machine (State Thread) (Monitor.Action Thread Call) :=
  (monitor derived Thread).machine (fun fields => fields = Fields.constructed) none

/-- What the clients keep to: an object is used and released by who holds it, and released once. -/
def Disciplined (state : State Thread) : Monitor.Action Thread Call → Prop
  | .enter _ (.use object _) _ =>
    object ∈ state.fields.held ∧ ∀ thread, (state.threads thread).holds ≠ some object
  | .enter _ (.retire object) _ =>
    object ∈ state.fields.held ∧ ∀ thread, (state.threads thread).holds ≠ some object
  | _ => True

instance (state : State Thread) : (action : Monitor.Action Thread Call) →
    Decidable (Disciplined state action)
  | .enter _ (.use object _) _ => inferInstanceAs (Decidable (object ∈ state.fields.held ∧
      ∀ thread, (state.threads thread).holds ≠ some object))
  | .enter _ (.retire object) _ => inferInstanceAs (Decidable (object ∈ state.fields.held ∧
      ∀ thread, (state.threads thread).holds ≠ some object))
  | .enter _ (.get _) _ => inferInstanceAs (Decidable True)
  | .enter _ .request _ => inferInstanceAs (Decidable True)
  | .enter _ (.enlist _) _ => inferInstanceAs (Decidable True)
  | .resume _ _ => inferInstanceAs (Decidable True)
  | .spurious _ => inferInstanceAs (Decidable True)
  | .timeout _ => inferInstanceAs (Decidable True)

end ReusableAllocator

open ReusableAllocator

namespace ArrayReuse

/-- `ArrayReuse(objsize, limit)`. -/
def derived (objsize limit : Nat) : Derived where
  exhausted fields := fields.freelist = none ∧ limit ≤ fields.used
  request := request objsize limit

end ArrayReuse

namespace MappedReuse

/-- `MappedReuse(name, osize, count)` with a mapping of the given size. Its `reading` is never
other than 0. -/
def derived (osize size : Nat) : Derived where
  exhausted fields := fields.freelist = none ∧ size ≤ fields.used
  request := request (osize % 2 ^ 32) size

/-- The size of the mapping, computed as a `size_t`. -/
def mapped (osize count : Nat) : Nat := osize * count % 2 ^ 64

end MappedReuse

namespace ReusableAllocator

/-! ### Slots -/

/-- Two objects of this size do not overlap. -/
def Apart (objsize : Nat) (first second : Nat) : Prop :=
  first + objsize ≤ second ∨ second + objsize ≤ first

/-- The objects held and these free ones are the slots carved so far, each once; they do not
overlap, and lie inside the memory. -/
structure Shared (objsize bytes top : Nat) (fields : Fields) (free : List Nat) : Prop where
  freelist : Path fields.next fields.freelist free none
  shared : (fields.held ++ free).Perm fields.carved
  apart : (fields.held ++ free).Pairwise (Apart objsize)
  inside : ∀ object ∈ fields.held ++ free, object + objsize ≤ bytes
  used : fields.used ≤ top

/-- The slots are shared between the clients and the free list. -/
def Slots (objsize bytes top : Nat) (state : State Thread) : Prop :=
  ∃ free, Shared objsize bytes top state.fields free

/-- The step does not return null from a `get` without a timeout. -/
def NeverNull (derived : Derived) (move : Move (State Thread) (Monitor.Action Thread Call)) :
    Prop :=
  ∀ thread, (monitor derived Thread).outcome move.source move.action ≠
    some (thread, .get Timer.inf, false)

/-- How a `request` goes: it takes the first free object, or carves the next slot of the given
size, or finds nothing. -/
inductive Requested (objsize room : Nat) (level : Nat → Nat) (carved : Nat) (source : Fields) :
    Fields × Option Nat → Prop
  | popped (object count : Nat) (free : source.freelist = some object) :
    Requested objsize room level carved source
      ({ source.pop object with count := count }, some object)
  | carved (count : Nat) (empty : source.freelist = none) (more : carved < room) :
    Requested objsize room level carved source
      ({ source.carve (level (carved + 1)) (carved * objsize) with count := count },
        some (carved * objsize))
  | refused (empty : source.freelist = none) :
    Requested objsize room level carved source (source, none)

/-- The derived class carves slots of this size side by side, while there is room. -/
def Carves (derived : Derived) (objsize room : Nat) (level : Nat → Nat) : Prop :=
  ∀ fields carved, carved ≤ room → fields.used = level carved →
    Requested objsize room level carved fields (derived.request fields)

/-- Slots of this size have been carved side by side, and they are shared between the clients and
the free list. -/
structure Arranged (objsize room : Nat) (level : Nat → Nat) (fields : Fields) (carved : Nat)
    (free : List Nat) : Prop where
  bounded : carved ≤ room
  used : fields.used = level carved
  slots : fields.carved = (List.range carved).reverse.map (· * objsize)
  freelist : Path fields.next fields.freelist free none
  shared : (fields.held ++ free).Perm fields.carved

section Arranged

variable {derived : Derived} {objsize room carved : Nat} {level : Nat → Nat} {fields : Fields}
  {free : List Nat} {object : Nat}

namespace Arranged

theorem constructed (start : level 0 = 0) :
    Arranged objsize room level Fields.constructed 0 [] :=
  ⟨Nat.zero_le _, start.symm, rfl, rfl, List.Perm.nil⟩

/-- Slots carved side by side do not overlap. -/
theorem apart (holds : Arranged objsize room level fields carved free) :
    (fields.held ++ free).Pairwise (Apart objsize) := by
  have symmetric : ∀ {first second : Nat}, Apart objsize first second →
      Apart objsize second first := Or.symm
  rw [holds.shared.pairwise_iff symmetric, holds.slots, List.pairwise_map, List.pairwise_reverse]
  refine List.pairwise_lt_range.imp fun {first second} less => Or.inr ?_
  have next : (first + 1) * objsize ≤ second * objsize := Nat.mul_le_mul_right _ less
  rw [Nat.succ_mul] at next
  exact next

theorem once (holds : Arranged objsize room level fields carved free) (positive : 0 < objsize) :
    (fields.held ++ free).Nodup := by
  refine holds.apart.imp fun {first second} apart same => ?_
  rcases apart with before | after <;> omega

theorem toShared {bytes top : Nat} (holds : Arranged objsize room level fields carved free)
    (fits : room * objsize ≤ bytes) (low : ∀ carved ≤ room, level carved ≤ top) :
    Shared objsize bytes top fields free where
  freelist := holds.freelist
  shared := holds.shared
  apart := holds.apart
  inside object member := by
    rw [holds.shared.mem_iff, holds.slots, List.mem_map] at member
    obtain ⟨index, within, rfl⟩ := member
    rw [List.mem_reverse, List.mem_range] at within
    have next : (index + 1) * objsize ≤ room * objsize :=
      Nat.mul_le_mul_right _ (Nat.lt_of_lt_of_le within holds.bounded)
    rw [Nat.succ_mul] at next
    exact Nat.le_trans next fits
  used := by
    rw [holds.used]
    exact low carved holds.bounded

/-- A request leaves the slots arranged, and nobody loses an object. -/
theorem request (holds : Arranged objsize room level fields carved free)
    (carves : Carves derived objsize room level) :
    (∃ carved' free', Arranged objsize room level (derived.request fields).1 carved' free') ∧
      fields.held ⊆ (derived.request fields).1.held := by
  have requested := carves fields carved holds.bounded holds.used
  revert requested
  generalize derived.request fields = result
  intro requested
  cases requested with
  | popped object count first =>
    have path := holds.freelist
    rw [first] at path
    cases free with
    | nil => cases path
    | cons object' rest =>
      obtain ⟨same, onward⟩ := path
      cases same
      refine ⟨⟨carved, rest, holds.bounded, holds.used, holds.slots, onward, ?_⟩,
        List.subset_cons_self _ _⟩
      exact List.perm_middle.symm.trans holds.shared
  | carved count empty more =>
    have path := holds.freelist
    rw [empty] at path
    cases free with
    | cons object rest => cases path.1
    | nil =>
      refine ⟨⟨carved + 1, [], more, rfl, ?_, holds.freelist, ?_⟩, List.subset_cons_self _ _⟩
      · simp [Fields.carve, holds.slots, List.range_succ]
      · exact holds.shared.cons _
  | refused empty => exact ⟨⟨carved, free, holds⟩, List.Subset.refl _⟩

/-- The link of an object that is held is on no list. -/
theorem write (holds : Arranged objsize room level fields carved free) (positive : 0 < objsize)
    (member : object ∈ fields.held) (link : Option Nat) :
    Arranged objsize room level
      { fields with next := Function.update fields.next object link } carved free := by
  refine ⟨holds.bounded, holds.used, holds.slots, ?_, holds.shared⟩
  refine holds.freelist.congr fun other free => Function.update_of_ne ?_ _ _
  exact ((List.nodup_append.mp (holds.once positive)).2.2 _ member _ free).symm

theorem retire (holds : Arranged objsize room level fields carved free) (positive : 0 < objsize)
    (member : object ∈ fields.held) :
    Arranged objsize room level (fields.retire object) carved free :=
  (holds.write positive member (some object)).write positive member none

theorem enlist (holds : Arranged objsize room level fields carved free) (positive : 0 < objsize)
    (member : object ∈ fields.held) :
    Arranged objsize room level (fields.enlist object) carved (object :: free) := by
  have once := List.nodup_append.mp (holds.once positive)
  refine ⟨holds.bounded, holds.used, holds.slots, ?_, ?_⟩
  · exact holds.freelist.push fun free => once.2.2 _ member _ free rfl
  · have moved : (fields.held.erase object ++ object :: free).Perm (fields.held ++ free) :=
      List.perm_middle.trans ((List.perm_cons_erase member).symm.append_right free)
    exact moved.trans holds.shared

end Arranged

/-- A `get` leaves the slots arranged as well. -/
theorem get_arranged (holds : Arranged objsize room level fields carved free)
    (carves : Carves derived objsize room level) (timeout : Nat) :
    (∃ carved' free', Arranged objsize room level (get derived timeout fields).fields
      carved' free') ∧ fields.held ⊆ (get derived timeout fields).fields.held := by
  unfold get
  split
  next =>
    split
    next => exact ⟨⟨carved, free, holds⟩, List.Subset.refl _⟩
    next =>
      exact ⟨⟨carved, free, holds.bounded, holds.used, holds.slots, holds.freelist, holds.shared⟩,
        List.Subset.refl _⟩
  next => exact holds.request carves

theorem getAfterWait_arranged (holds : Arranged objsize room level fields carved free)
    (carves : Carves derived objsize room level) (timeout : Nat) (flag : Bool) :
    (∃ carved' free', Arranged objsize room level (getAfterWait derived timeout flag fields).fields
      carved' free') ∧ fields.held ⊆ (getAfterWait derived timeout flag fields).fields.held := by
  have woken : Arranged objsize room level { fields with waiting := fields.waiting - 1 } carved
      free := ⟨holds.bounded, holds.used, holds.slots, holds.freelist, holds.shared⟩
  unfold getAfterWait
  cases flag with
  | true => exact get_arranged woken carves timeout
  | false => exact ⟨⟨carved, free, woken⟩, List.Subset.refl _⟩

end Arranged

/-! ### Runs -/

section Runs

variable {Thread : Type} [DecidableEq Thread] [Fintype Thread] {derived : Derived}
  {objsize room : Nat} {level : Nat → Nat} {source target : State Thread} {thread : Thread}
  {call : Call} {passage : Section Fields Unit Nat}

/-- The slots are arranged, and what a thread is about to release is held, and by no other. -/
structure Orderly (derived : Derived) (objsize room : Nat) (level : Nat → Nat)
    (state : State Thread) : Prop where
  arranged : ∃ carved free, Arranged objsize room level state.fields carved free
  releasing : ∀ thread object, (state.threads thread).holds = some object →
    object ∈ state.fields.held
  alone : ∀ thread other object, (state.threads thread).holds = some object →
    (state.threads other).holds = some object → thread = other
  timely : Timely (monitor derived Thread) state

/-- A section that changes nobody's release, and takes no object from the clients. -/
theorem Orderly.ran (holds : Orderly derived objsize room level source)
    (ran : Ran (monitor derived Thread) source thread call passage target)
    (arranged : ∃ carved free, Arranged objsize room level passage.fields carved free)
    (kept : source.fields.held ⊆ passage.fields.held)
    (same : (target.threads thread).holds = (source.threads thread).holds) :
    Orderly derived objsize room level target := by
  have holdsSame : ∀ other, (target.threads other).holds = (source.threads other).holds := by
    intro other
    by_cases own : other = thread
    · rw [own, same]
    · exact ran.holds_other own
  refine ⟨?_, ?_, ?_, holds.timely.ran ran⟩
  · rw [ran.fields]
    exact arranged
  · intro other object releases
    rw [holdsSame] at releases
    rw [ran.fields]
    exact kept (holds.releasing other object releases)
  · intro other another object first second
    rw [holdsSame] at first second
    exact holds.alone other another object first second

/-- A thread takes an object for itself that is held and that nobody is about to release. -/
theorem Orderly.retire (holds : Orderly derived objsize room level source)
    (positive : 0 < objsize) {object : Nat} (member : object ∈ source.fields.held)
    (nobody : ∀ other, (source.threads other).holds ≠ some object)
    (ran : Ran (monitor derived Thread) source thread (.retire object)
      ((monitor derived Thread).enter thread (.retire object) source.fields) target) :
    Orderly derived objsize room level target := by
  obtain ⟨carved, free, arranged⟩ := holds.arranged
  have own := ran.own_holds
  refine ⟨?_, ?_, ?_, holds.timely.ran ran⟩
  · rw [ran.fields]
    exact ⟨carved, free, arranged.retire positive member⟩
  · intro other another releases
    rw [ran.fields]
    by_cases same : other = thread
    · rw [same, own] at releases
      cases releases
      exact member
    · rw [ran.holds_other same] at releases
      exact holds.releasing other another releases
  · intro other another object' first second
    by_cases same : other = thread
    · by_cases same' : another = thread
      · rw [same, same']
      · rw [same, own] at first
        cases first
        rw [ran.holds_other same'] at second
        exact absurd second (nobody another)
    · rw [ran.holds_other same] at first
      by_cases same' : another = thread
      · rw [same', own] at second
        cases second
        exact absurd first (nobody other)
      · rw [ran.holds_other same'] at second
        exact holds.alone other another object' first second

/-- A thread hands the object back that it was about to release. -/
theorem Orderly.enlist (holds : Orderly derived objsize room level source)
    (positive : 0 < objsize) {object : Nat}
    (releases : (source.threads thread).holds = some object)
    (ran : Ran (monitor derived Thread) source thread (.enlist object)
      ((monitor derived Thread).enter thread (.enlist object) source.fields) target) :
    Orderly derived objsize room level target := by
  obtain ⟨carved, free, arranged⟩ := holds.arranged
  have own := ran.own_holds
  have member := holds.releasing thread object releases
  refine ⟨?_, ?_, ?_, holds.timely.ran ran⟩
  · rw [ran.fields]
    exact ⟨carved, object :: free, arranged.enlist positive member⟩
  · intro other another releases'
    by_cases same : other = thread
    · rw [same, own] at releases'
      cases releases'
    · rw [ran.holds_other same] at releases'
      rw [ran.fields]
      refine (List.mem_erase_of_ne fun equal => same ?_).mpr
        (holds.releasing other another releases')
      rw [equal] at releases'
      exact holds.alone other thread object releases' releases
  · intro other another object' first second
    by_cases same : other = thread
    · rw [same, own] at first
      cases first
    · by_cases same' : another = thread
      · rw [same', own] at second
        cases second
      · rw [ran.holds_other same] at first
        rw [ran.holds_other same'] at second
        exact holds.alone other another object' first second

theorem Orderly.enter (holds : Orderly derived objsize room level source)
    (positive : 0 < objsize) (carves : Carves derived objsize room level) {chosen : Option Thread}
    (disciplined : Disciplined source (.enter thread call chosen))
    (allowed : (monitor derived Thread).may (source.threads thread).holds call = true)
    (ran : Ran (monitor derived Thread) source thread call
      ((monitor derived Thread).enter thread call source.fields) target) :
    Orderly derived objsize room level target := by
  obtain ⟨carved, free, arranged⟩ := holds.arranged
  have own := ran.own_holds
  cases call with
  | get timeout =>
    obtain ⟨after, kept⟩ := get_arranged arranged carves timeout
    refine holds.ran ran after kept ?_
    rw [own]
    cases ((monitor derived Thread).enter thread (.get timeout) source.fields).next.result <;> rfl
  | request =>
    obtain ⟨after, kept⟩ := arranged.request carves
    exact holds.ran ran after kept own
  | use object link =>
    exact holds.ran ran ⟨carved, free, arranged.write positive disciplined.1 link⟩
      (List.Subset.refl _) own
  | retire object => exact holds.retire positive disciplined.1 disciplined.2 ran
  | enlist object =>
    have releases : (source.threads thread).holds = some object := by
      cases held : (source.threads thread).holds with
      | none =>
        rw [held] at allowed
        cases allowed
      | some object' =>
        rw [held] at allowed
        cases of_decide_eq_true allowed
        rfl
    exact holds.enlist positive releases ran

/-- The invariant of a run: every step of disciplined clients keeps the slots arranged. -/
theorem orderly_step (holds : Orderly derived objsize room level source) (positive : 0 < objsize)
    (carves : Carves derived objsize room level) (action : Monitor.Action Thread Call)
    (disciplined : Disciplined source action)
    (stepped : (monitor derived Thread).step source action = some target) :
    Orderly derived objsize room level target := by
  have stirred : ∀ other, Stirred (monitor derived Thread) source other target →
      Orderly derived objsize room level target := by
    intro other stirred
    refine ⟨?_, ?_, ?_, holds.timely.stirred stirred⟩
    · rw [stirred.fields]
      exact holds.arranged
    · intro another object releases
      rw [stirred.holds_eq] at releases
      rw [stirred.fields]
      exact holds.releasing another object releases
    · intro another another' object first second
      rw [stirred.holds_eq] at first second
      exact holds.alone another another' object first second
  cases action with
  | enter thread call chosen =>
    obtain ⟨_, allowed, _, ran⟩ := step_enter stepped
    exact holds.enter positive carves disciplined allowed ran
  | resume thread chosen =>
    obtain ⟨_, timeout, flag, _, ran⟩ := step_resume stepped
    obtain ⟨carved, free, arranged⟩ := holds.arranged
    obtain ⟨after, kept⟩ := getAfterWait_arranged arranged carves timeout flag
    refine holds.ran ran after kept ?_
    rw [ran.own_holds]
    cases ((monitor derived Thread).resume thread timeout flag source.fields).next.result <;> rfl
  | spurious thread => exact stirred thread (step_spurious stepped)
  | timeout thread => exact stirred thread (step_timeout stepped)

omit [DecidableEq Thread] [Fintype Thread] in
/-- A `get` without a timeout does not end with null after its loop test: it sleeps, or finds an
object. -/
theorem get_inf_result (ready : ∀ fields, derived.exhausted fields = false →
    (derived.request fields).2.isSome = true) (fields : Fields) :
    (get derived Timer.inf fields).next.result ≠ some false := by
  unfold get
  cases exhausted : derived.exhausted fields with
  | true => simp [Timer.inf, Next.result]
  | false => simp [take, Next.result, ready fields exhausted]

theorem neverNull_step (timely : Timely (monitor derived Thread) source)
    (ready : ∀ fields, derived.exhausted fields = false →
      (derived.request fields).2.isSome = true)
    (action : Monitor.Action Thread Call)
    (stepped : (monitor derived Thread).step source action = some target) :
    NeverNull derived ⟨source, action, target⟩ := by
  intro thread returned
  cases action with
  | enter thread' call chosen =>
    obtain ⟨result, ended, same⟩ := Option.map_eq_some_iff.mp returned
    cases same
    exact get_inf_result ready source.fields ended
  | resume thread' chosen =>
    obtain ⟨_, timeout, flag, waitOver, _⟩ := step_resume stepped
    rw [outcome_resume waitOver] at returned
    obtain ⟨result, ended, same⟩ := Option.map_eq_some_iff.mp returned
    cases same
    cases flag with
    | true => exact get_inf_result ready _ ended
    | false => exact absurd (timely thread Timer.inf waitOver) (by simp [monitor])
  | spurious thread' => cases returned
  | timeout thread' => cases returned

/-- The rule for a derived class that carves side by side, in memory that is large enough. -/
theorem slots_of_carves (positive : 0 < objsize) (carves : Carves derived objsize room level)
    {bytes top : Nat} (start : level 0 = 0) (fits : room * objsize ≤ bytes)
    (low : ∀ carved ≤ room, level carved ≤ top)
    {moves : List (Move (State Thread) (Monitor.Action Thread Call))} {state : State Thread}
    (run : (threads Thread derived).Run moves state)
    (disciplined : Machine.Meets Disciplined moves) :
    Machine.Throughout (Slots objsize bytes top) moves state ∧
      ((∀ fields, derived.exhausted fields = false → (derived.request fields).2.isSome = true) →
        ∀ move ∈ moves, NeverNull derived move) := by
  have initial : ∀ state, (threads Thread derived).Init state →
      Orderly derived objsize room level state := by
    rintro state ⟨fields, rfl, rfl⟩
    refine ⟨⟨0, [], Arranged.constructed start⟩, ?_, ?_, ?_⟩
    · intro _ _ releases
      cases releases
    · intro _ _ _ releases
      cases releases
    · intro _ _ expired
      cases expired
  have slots : ∀ state : State Thread, Orderly derived objsize room level state →
      Slots objsize bytes top state := by
    rintro state ⟨⟨carved, free, arranged⟩, _⟩
    exact ⟨free, arranged.toShared fits low⟩
  induction run with
  | start init => exact ⟨⟨slots _ (initial _ init), fun _ member => (by cases member)⟩,
      fun _ _ member => (by cases member)⟩
  | @next moves source target run action stepped inductionHypothesis =>
    obtain ⟨last, earlier⟩ := Machine.meets_cons.mp disciplined
    obtain ⟨before, neverNull⟩ := inductionHypothesis earlier
    have atSource : Orderly derived objsize room level source :=
      run.invariant_of_meets initial (fun _ action _ holds disciplined stepped =>
        orderly_step holds positive carves action disciplined stepped) earlier
    have atTarget := orderly_step atSource positive carves action last stepped
    refine ⟨Machine.throughout_cons.mpr ⟨slots _ atTarget, before⟩, fun ready => ?_⟩
    exact List.forall_mem_cons.mpr
      ⟨neverNull_step atSource.timely ready action stepped, neverNull ready⟩

/-! ### Memory that is too small -/

/-- A thread that is alone can request objects as often as it likes. -/
theorem run_requests (derived : Derived) (thread : Thread) (times : Nat) :
    ∃ moves, (threads Thread derived).Run moves (.initial
      ((fun fields => (derived.request fields).1)^[times] Fields.constructed) none) ∧
        Machine.Meets Disciplined moves := by
  induction times with
  | zero => exact ⟨[], .start ⟨_, rfl, rfl⟩, fun _ member => (by cases member)⟩
  | succ times inductionHypothesis =>
    obtain ⟨moves, run, disciplined⟩ := inductionHypothesis
    refine ⟨_, run.next (.enter thread .request none) ?_,
      Machine.meets_cons.mpr ⟨trivial, disciplined⟩⟩
    rw [Function.iterate_succ_apply']
    simp [threads, Monitor.machine, step, settle, monitor, rouse, take, settleLocal, settleOwner,
      mutexFor, State.initial, Function.update_eq_self]

end Runs

end ReusableAllocator

namespace ArrayReuse

variable {objsize limit bytes : Nat}

theorem carves (fits : limit * objsize ≤ bytes) (word : bytes < 2 ^ 64) :
    Carves (derived objsize limit) objsize limit fun carved => carved := by
  rintro fields carved bounded rfl
  have slot : fields.used * objsize % 2 ^ 64 = fields.used * objsize := by
    have least : fields.used * objsize ≤ limit * objsize := Nat.mul_le_mul_right _ bounded
    exact Nat.mod_eq_of_lt (by omega)
  simp only [derived, request]
  cases first : fields.freelist with
  | some object => exact .popped object _ first
  | none =>
    by_cases more : fields.used < limit
    · simp only [if_pos more, slot]
      exact .carved _ first more
    · simp only [if_neg more]
      exact .refused first

/-- A `get` whose loop test fails finds an object. -/
theorem ready (fields : Fields) (more : (derived objsize limit).exhausted fields = false) :
    ((derived objsize limit).request fields).2.isSome = true := by
  simp only [derived, request, decide_eq_false_iff_not, not_and, not_le] at more ⊢
  cases first : fields.freelist with
  | some object => rfl
  | none => simp [more first]

/-- The fields after as many requests, up to the limit. -/
theorem iterate_request (objsize times : Nat) (bounded : times ≤ limit) :
    ((fun fields => ((derived objsize limit).request fields).1)^[times]
        Fields.constructed).freelist = none ∧
      ((fun fields => ((derived objsize limit).request fields).1)^[times]
        Fields.constructed).used = times := by
  induction times with
  | zero => exact ⟨rfl, rfl⟩
  | succ times inductionHypothesis =>
    obtain ⟨empty, used⟩ := inductionHypothesis (Nat.le_of_succ_le bounded)
    rw [Function.iterate_succ_apply']
    generalize (fun fields => ((derived objsize limit).request fields).1)^[times]
      Fields.constructed = fields at empty used ⊢
    simp [derived, request, empty, used, Nat.lt_of_succ_le bounded, Fields.carve]

/-- In an array that is too small a slot is handed out beyond its end. -/
theorem not_shared_of_small (positive : 0 < objsize) (word : bytes < 2 ^ 64)
    (small : bytes < limit * objsize) :
    ∃ times, ∀ free, ¬ Shared objsize bytes limit
      ((fun fields => ((derived objsize limit).request fields).1)^[times]
        Fields.constructed) free := by
  have more : bytes / objsize < limit := (Nat.div_lt_iff_lt_mul positive).mpr small
  obtain ⟨empty, used⟩ := iterate_request objsize (bytes / objsize) (Nat.le_of_lt more)
  refine ⟨bytes / objsize + 1, fun free shared => ?_⟩
  rw [Function.iterate_succ_apply'] at shared
  generalize (fun fields => ((derived objsize limit).request fields).1)^[bytes / objsize]
    Fields.constructed = fields at empty used shared
  have place : bytes / objsize * objsize % 2 ^ 64 = bytes / objsize * objsize :=
    Nat.mod_eq_of_lt (Nat.lt_of_le_of_lt (Nat.div_mul_le_self _ _) word)
  have held : bytes / objsize * objsize ∈ ((derived objsize limit).request fields).1.held := by
    simp only [derived, request, empty, used, if_pos more, place, Fields.carve,
      List.mem_cons_self]
  have inside := shared.inside _ (List.mem_append_left _ held)
  exact absurd inside (Nat.not_le.mpr (Nat.lt_div_mul_add positive))

end ArrayReuse

namespace MappedReuse

variable {osize count : Nat}

theorem product_le (small : osize < 2 ^ 32) (word : count < 2 ^ 32) :
    count * osize ≤ (2 ^ 32 - 1) * (2 ^ 32 - 1) :=
  Nat.mul_le_mul (Nat.le_sub_one_of_lt word) (Nat.le_sub_one_of_lt small)

theorem mapped_eq (small : osize < 2 ^ 32) (word : count < 2 ^ 32) :
    mapped osize count = count * osize := by
  have product := product_le small word
  rw [mapped, Nat.mul_comm]
  exact Nat.mod_eq_of_lt (by omega)

theorem carves (positive : 0 < osize) (small : osize < 2 ^ 32) (word : count < 2 ^ 32) :
    Carves (derived osize (mapped osize count)) osize count (· * osize) := by
  have product := product_le small word
  intro fields carved bounded used
  replace used : fields.used = carved * osize := used
  have least : carved * osize ≤ count * osize := Nat.mul_le_mul_right _ bounded
  have level : (fields.used + osize % 2 ^ 32) % 2 ^ 64 = (carved + 1) * osize := by
    rw [Nat.mod_eq_of_lt small, used, ← Nat.succ_mul]
    refine Nat.mod_eq_of_lt ?_
    rw [Nat.succ_mul]
    omega
  simp only [derived, request, level, mapped_eq small word]
  cases first : fields.freelist with
  | some object => exact .popped object _ first
  | none =>
    by_cases more : (carved + 1) * osize ≤ count * osize
    · simp only [if_pos more, used]
      exact .carved fields.count first (Nat.le_of_mul_le_mul_right more positive)
    · simp only [if_neg more]
      exact .refused first

/-- Nothing is carved from a mapping that is smaller than what is left of the object size. -/
theorem carves_nothing {osize size : Nat} (large : size < osize % 2 ^ 32) :
    Carves (derived osize size) osize 0 (· * osize) := by
  intro fields carved bounded used
  have full : ¬ (fields.used + osize % 2 ^ 32) % 2 ^ 64 ≤ size := by
    have start : fields.used = 0 := by
      rw [used, Nat.le_zero.mp bounded]
      exact Nat.zero_mul _
    have less : osize % 2 ^ 32 < 2 ^ 32 := Nat.mod_lt _ (by decide)
    rw [start, Nat.mod_eq_of_lt (by omega)]
    omega
  simp only [derived, request, if_neg full]
  cases first : fields.freelist with
  | some object => exact .popped object _ first
  | none => exact .refused first

/-- Objects of 4 GiB or more are handed out on top of each other, or outside the mapping. -/
theorem not_shared_of_large {size : Nat} (large : 2 ^ 32 ≤ osize) (room : osize % 2 ^ 32 ≤ size) :
    ∃ times, ∀ free, ¬ Shared osize size size
      ((fun fields => ((derived osize size).request fields).1)^[times] Fields.constructed)
      free := by
  have split := Nat.div_add_mod osize (2 ^ 32)
  have less : osize % 2 ^ 32 < 2 ^ 32 := Nat.mod_lt _ (by decide)
  have first : (0 + osize % 2 ^ 32) % 2 ^ 64 = osize % 2 ^ 32 := by
    rw [Nat.zero_add]
    exact Nat.mod_eq_of_lt (by omega)
  by_cases outside : size < osize
  · refine ⟨1, fun free shared => ?_⟩
    have held : 0 ∈ ((derived osize size).request Fields.constructed).1.held := by
      simp only [derived, request, Fields.constructed, first, if_pos room, Fields.carve,
        List.mem_cons_self]
    have inside := shared.inside 0 (List.mem_append_left _ held)
    omega
  · have second : (osize % 2 ^ 32 + osize % 2 ^ 32) % 2 ^ 64 = osize % 2 ^ 32 + osize % 2 ^ 32 :=
      Nat.mod_eq_of_lt (by omega)
    have fits : osize % 2 ^ 32 + osize % 2 ^ 32 ≤ size := by
      have least : 1 ≤ osize / 2 ^ 32 := Nat.div_pos large (by decide)
      omega
    refine ⟨2, fun free shared => ?_⟩
    have held : ((fun fields => ((derived osize size).request fields).1)^[2]
        Fields.constructed).held = [osize % 2 ^ 32, 0] := by
      simp only [Function.iterate_succ_apply', Function.iterate_zero_apply, derived, request,
        Fields.constructed, first, if_pos room, Fields.carve, second, if_pos fits]
    have apart := shared.apart
    rw [held] at apart
    have overlap : Apart osize (osize % 2 ^ 32) 0 :=
      (List.pairwise_cons.mp apart).1 0 (by simp)
    rcases overlap with before | after <;> omega

end MappedReuse

namespace ReusableAllocator

/-- Slots that cease to be shared after some requests are not shared in every run. -/
theorem not_slots_of_requests (Thread : Type) [DecidableEq Thread] [Fintype Thread]
    [Nonempty Thread] {derived : Derived} {objsize bytes top : Nat}
    (spoiled : ∃ times, ∀ free, ¬ Shared objsize bytes top
      ((fun fields => (derived.request fields).1)^[times] Fields.constructed) free) :
    ∃ moves, ∃ state : State Thread, (threads Thread derived).Run moves state ∧
      Machine.Meets Disciplined moves ∧
        ¬ Machine.Throughout (Slots objsize bytes top) moves state := by
  obtain ⟨times, spoiled⟩ := spoiled
  obtain ⟨moves, run, disciplined⟩ :=
    run_requests derived (Classical.arbitrary Thread) times
  refine ⟨moves, _, run, disciplined, fun throughout => ?_⟩
  obtain ⟨free, shared⟩ := throughout.1
  exact spoiled free shared

/-- In every run of threads that share an `ArrayReuse` the slots are shared between the clients and
the free list, and no `get` without a timeout returns null, exactly when the array has room for all
the objects up to the limit. In every run of threads that share a `MappedReuse` the slots are shared
exactly when the objects have less than 4 GiB, or nothing can be carved at all. -/
theorem reusable_slots_iff (Thread : Type) [DecidableEq Thread] [Fintype Thread]
    [Nonempty Thread] :
    (∀ objsize limit bytes : Nat, 0 < objsize → bytes < 2 ^ 64 →
      ((∀ moves, ∀ state : State Thread,
        (threads Thread (ArrayReuse.derived objsize limit)).Run moves state →
          Machine.Meets Disciplined moves →
            Machine.Throughout (Slots objsize bytes limit) moves state ∧
              ∀ move ∈ moves, NeverNull (ArrayReuse.derived objsize limit) move) ↔
        limit * objsize ≤ bytes)) ∧
    ∀ osize count : Nat, 0 < osize → count < 2 ^ 32 →
      ((∀ moves, ∀ state : State Thread,
        (threads Thread (MappedReuse.derived osize (MappedReuse.mapped osize count))).Run moves
          state → Machine.Meets Disciplined moves →
            Machine.Throughout (Slots osize (MappedReuse.mapped osize count)
              (MappedReuse.mapped osize count)) moves state) ↔
        osize < 2 ^ 32 ∨ MappedReuse.mapped osize count < osize % 2 ^ 32) := by
  constructor
  · intro objsize limit bytes positive word
    constructor
    · intro sound
      by_contra small
      obtain ⟨moves, state, run, disciplined, spoiled⟩ := not_slots_of_requests Thread
        (ArrayReuse.not_shared_of_small positive word (Nat.lt_of_not_le small))
      exact spoiled (sound moves state run disciplined).1
    · intro fits moves state run disciplined
      obtain ⟨slots, neverNull⟩ := slots_of_carves positive (ArrayReuse.carves fits word) rfl fits
        (fun _ bounded => bounded) run disciplined
      exact ⟨slots, neverNull ArrayReuse.ready⟩
  · intro osize count positive word
    constructor
    · intro sound
      by_contra neither
      obtain ⟨large, room⟩ := not_or.mp neither
      obtain ⟨moves, state, run, disciplined, spoiled⟩ := not_slots_of_requests Thread
        (MappedReuse.not_shared_of_large (Nat.le_of_not_lt large) (Nat.le_of_not_lt room))
      exact spoiled (sound moves state run disciplined)
    · rintro (small | none) moves state run disciplined
      · have size := MappedReuse.mapped_eq small word
        refine (slots_of_carves positive (MappedReuse.carves positive small word)
          (Nat.zero_mul _) size.ge (fun carved bounded => ?_) run disciplined).1
        rw [size]
        exact Nat.mul_le_mul_right _ bounded
      · refine (slots_of_carves positive (MappedReuse.carves_nothing none)
          (Nat.zero_mul _) ?_ (fun carved bounded => ?_) run disciplined).1
        · rw [Nat.zero_mul]
          exact Nat.zero_le _
        · rw [Nat.le_zero.mp bounded, Nat.zero_mul]
          exact Nat.zero_le _

/-- One thread holds the only slot, the other waits for it without a timeout, is woken for nothing
once, and then gets what the first one releases. -/
theorem reusable_slots_iff_passed_on :
    (∃ moves, ∃ state : State (Fin 2),
      (threads (Fin 2) (ArrayReuse.derived 16 1)).Run moves state ∧
        state.fields.held = [0] ∧ state.fields.count = 2 ∧
        (state.threads 1).place = .idle ∧
        Machine.Throughout (Slots 16 16 1) moves state ∧
        ∀ move ∈ moves, NeverNull (ArrayReuse.derived 16 1) move) ∧
    ∃ moves, ∃ state : State (Fin 2),
      (threads (Fin 2) (MappedReuse.derived 16 (MappedReuse.mapped 16 1))).Run moves state ∧
        state.fields.held = [0] ∧ (state.threads 1).place = .idle ∧
        Machine.Throughout (Slots 16 (MappedReuse.mapped 16 1) (MappedReuse.mapped 16 1))
          moves state := by
  let schedule : List (Monitor.Action (Fin 2) Call) :=
    [.enter 0 .request none, .enter 1 (.get Timer.inf) none, .spurious 1, .resume 1 none,
      .enter 0 (.use 0 (some 7)) none, .enter 0 (.retire 0) none, .enter 0 (.enlist 0) (some 1),
      .resume 1 none]
  obtain ⟨array, mapped⟩ := reusable_slots_iff (Fin 2)
  constructor
  · let played := ((threads (Fin 2) (ArrayReuse.derived 16 1)).restrict Disciplined).play
      (.initial Fields.constructed none) schedule
    obtain ⟨moves, restricted⟩ : ((threads (Fin 2) (ArrayReuse.derived 16 1)).restrict
        Disciplined).Reachable (played.get (by decide)) :=
      Machine.reachable_of_play ⟨_, rfl, rfl⟩ (Option.some_get _).symm
    obtain ⟨run, disciplined⟩ := restricted.of_restrict
    obtain ⟨slots, neverNull⟩ :=
      (array 16 1 16 (by decide) (by decide)).mpr (by decide) moves _ run disciplined
    exact ⟨moves, _, run, by decide, by decide, by decide, slots, neverNull⟩
  · let played := ((threads (Fin 2) (MappedReuse.derived 16 (MappedReuse.mapped 16 1))).restrict
      Disciplined).play (.initial Fields.constructed none) schedule
    obtain ⟨moves, restricted⟩ : ((threads (Fin 2) (MappedReuse.derived 16
        (MappedReuse.mapped 16 1))).restrict Disciplined).Reachable (played.get (by decide)) :=
      Machine.reachable_of_play ⟨_, rfl, rfl⟩ (Option.some_get _).symm
    obtain ⟨run, disciplined⟩ := restricted.of_restrict
    exact ⟨moves, _, run, by decide, by decide,
      (mapped 16 1 (by decide) (by decide)).mpr (by decide) moves _ run disciplined⟩

/-- A mapping for one object of 4 GiB and 8 bytes gives a second one, 8 bytes behind the first. -/
theorem mappedReuse_overlaps :
    ∃ moves, ∃ state : State Unit, (threads Unit (MappedReuse.derived (2 ^ 32 + 8)
        (MappedReuse.mapped (2 ^ 32 + 8) 1))).Run moves state ∧
      Machine.Meets Disciplined moves ∧ state.fields.held = [8, 0] ∧
      ¬ Machine.Throughout (Slots (2 ^ 32 + 8) (MappedReuse.mapped (2 ^ 32 + 8) 1)
        (MappedReuse.mapped (2 ^ 32 + 8) 1)) moves state := by
  let played := ((threads Unit (MappedReuse.derived (2 ^ 32 + 8)
    (MappedReuse.mapped (2 ^ 32 + 8) 1))).restrict Disciplined).play
      (.initial Fields.constructed none) [.enter () .request none, .enter () .request none]
  obtain ⟨moves, restricted⟩ : ((threads Unit (MappedReuse.derived (2 ^ 32 + 8)
      (MappedReuse.mapped (2 ^ 32 + 8) 1))).restrict Disciplined).Reachable
        (played.get (by decide)) :=
    Machine.reachable_of_play ⟨_, rfl, rfl⟩ (Option.some_get _).symm
  obtain ⟨run, disciplined⟩ := restricted.of_restrict
  have held : (played.get (by decide)).fields.held = [8, 0] := by decide
  refine ⟨moves, _, run, disciplined, held, fun throughout => ?_⟩
  obtain ⟨free, shared⟩ := throughout.1
  have inside := shared.inside 8 (List.mem_append_left _ (by rw [held]; simp))
  exact absurd inside (by decide)

end ReusableAllocator

end CommonCpp
