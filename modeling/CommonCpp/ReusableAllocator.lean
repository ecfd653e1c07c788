/-
This file models the fields of the reusable allocators, and finds when their
accounts are right.

`ArrayReuse` carves its slots out of an array, `MappedReuse` out of shared memory,
and `PagerReuse` takes blocks from a pager. What is released goes on the free list
of their base `ReusableAllocator`, linked through the released objects themselves,
and is handed out again first. `ArrayReuse` and `PagerReuse` count what they hand
out, but the base class does not know of that counter, and nobody counts down. So
the counter is the number of objects held only until one is released. An
`ArrayReuse` goes on handing out objects after that, and only says that it has none;
a `PagerReuse` reads the counter itself, and has none for good when it reaches the
limit.

An object is the offset of its slot in the memory of its allocator. Which objects
the clients hold, and which slots have been carved so far, is kept beside the fields.
-/

import Mathlib.Algebra.Group.Nat.Defs
import Mathlib.Data.List.Basic
import Mathlib.Logic.Function.Basic
import CommonCpp.Machine

namespace CommonCpp

open Concurrency

namespace ReusableAllocator

/-! ### The code -/

/-- The fields of a `ReusableAllocator` and of the classes derived from it, with the link of every
object, the objects held by the clients and the slots carved so far. -/
structure Fields where
  freelist : Option Nat
  next : Nat → Option Nat
  used : Nat
  count : Nat
  waiting : Nat
  held : List Nat
  carved : List Nat

/-- The fields after construction. -/
def Fields.constructed : Fields :=
  ⟨none, fun _ => none, 0, 0, 0, [], []⟩

namespace Fields

/-- The first free object is handed out. -/
def pop (fields : Fields) (object : Nat) : Fields :=
  { fields with freelist := fields.next object, held := object :: fields.held }

/-- A new slot is handed out. -/
def carve (fields : Fields) (used slot : Nat) : Fields :=
  { fields with
    used := used
    held := slot :: fields.held
    carved := slot :: fields.carved }

/-- What `release` does to an object before it takes the lock: `obj->retain()` and
`obj->release()`. -/
def retire (fields : Fields) (object : Nat) : Fields :=
  let fields := { fields with next := Function.update fields.next object (some object) }
  { fields with next := Function.update fields.next object none }

/-- `obj->enlist(&freelist)`, which ends the holding of the object. -/
def enlist (fields : Fields) (object : Nat) : Fields :=
  { fields with
    next := Function.update fields.next object fields.freelist
    freelist := some object
    held := fields.held.erase object }

end Fields

def release (fields : Fields) (object : Nat) : Fields :=
  (fields.retire object).enlist object

end ReusableAllocator

open ReusableAllocator

namespace ArrayReuse

def avail (limit : Nat) (fields : Fields) : Bool :=
  fields.count < limit

/-- `request`, and `get` after its loop. -/
def request (objsize limit : Nat) (fields : Fields) : Fields × Option Nat :=
  match fields.freelist with
  | some object => ({ fields.pop object with count := (fields.count + 1) % 2 ^ 32 }, some object)
  | none =>
    if fields.used < limit then
      let slot := fields.used * objsize % 2 ^ 64
      ({ fields.carve (fields.used + 1) slot with count := (fields.count + 1) % 2 ^ 32 }, some slot)
    else (fields, none)

end ArrayReuse

namespace MappedReuse

/-- `request`, and `getTimed` after its loop. The call of `sbrk` tests for room once more. -/
def request (objsize size : Nat) (fields : Fields) : Fields × Option Nat :=
  match fields.freelist with
  | some object => (fields.pop object, some object)
  | none =>
    if (fields.used + objsize) % 2 ^ 64 ≤ size then
      (fields.carve ((fields.used + objsize) % 2 ^ 64) fields.used, some fields.used)
    else (fields, none)

end MappedReuse

namespace PagerReuse

def avail (limit : Nat) (fields : Fields) : Bool :=
  limit = 0 || fields.count < limit

/-- The pager gives the block that follows the ones it has given so far. -/
def request (alloc : List Nat → Nat) (limit : Nat) (fields : Fields) : Fields × Option Nat :=
  if limit = 0 ∨ fields.count < limit then
    match fields.freelist with
    | some object => ({ fields.pop object with count := (fields.count + 1) % 2 ^ 32 }, some object)
    | none =>
      let block := alloc fields.carved
      ({ fields.carve fields.used block with count := (fields.count + 1) % 2 ^ 32 }, some block)
  else (fields, none)

end PagerReuse

namespace ReusableAllocator

/-! ### Accounts -/

inductive Action
  | request
  | release (object : Nat)

/-- The runs of an allocator with the given `request`, from its constructor on. An object is
released by who holds it. -/
def machine (request : Fields → Fields × Option Nat) : Machine Fields Action where
  Init fields := fields = Fields.constructed
  step fields
    | .request => some (request fields).1
    | .release object => if object ∈ fields.held then some (release fields object) else none

/-- The counter says what is held, `avail` what the next request does, and a request is granted
while less than the limit is held. -/
structure Accounted (avail : Fields → Bool) (request : Fields → Fields × Option Nat) (limit : Nat)
    (fields : Fields) : Prop where
  count : fields.count = fields.held.length
  avail : avail fields = true ↔ (request fields).2.isSome = true
  request : (request fields).2.isSome = true ↔ fields.held.length < limit

/-- The step releases nothing. -/
def Unreleased (_ : Fields) : Action → Prop
  | .request => True
  | .release _ => False

instance (fields : Fields) : (action : Action) → Decidable (Unreleased fields action)
  | .request => inferInstanceAs (Decidable True)
  | .release _ => inferInstanceAs (Decidable False)

/-- Nothing has been released: the free list is empty, and everything handed out is held. -/
structure Granting (limit : Nat) (fields : Fields) : Prop where
  freelist : fields.freelist = none
  count : fields.count = fields.held.length
  within : fields.count ≤ limit

section Accounts

variable {avail : Fields → Bool} {request : Fields → Fields × Option Nat} {limit : Nat}
  {fields source target : Fields}

/-- A release takes an object from those held and leaves the counter. -/
theorem not_accounted_of_release {object : Nat} (counted : source.count = source.held.length)
    (stepped : (machine request).step source (.release object) = some target) :
    ¬ Accounted avail request limit target := by
  simp only [machine] at stepped
  split at stepped
  next member =>
    cases stepped
    intro accounted
    have after : source.count = (source.held.erase object).length := accounted.count
    rw [List.length_erase_of_mem member, counted] at after
    have positive := List.length_pos_of_mem member
    omega
  next => cases stepped

/-- The accounts of an allocator are right exactly while nothing is released: provided they are
right where nothing has been released, which a request preserves. -/
theorem accounted_iff_unreleased (invariant : Fields → Prop)
    (initial : invariant Fields.constructed)
    (requested : ∀ fields, invariant fields → invariant (request fields).1)
    (accounted : ∀ fields, invariant fields → Accounted avail request limit fields)
    {moves : List (Move Fields Action)} (run : (machine request).Run moves fields) :
    Machine.Throughout (Accounted avail request limit) moves fields ↔
      Machine.Meets Unreleased moves := by
  refine run.throughout_iff_meets invariant ?_ ?_ accounted ?_
  · rintro state rfl
    exact initial
  · rintro source action target holds unreleased stepped
    cases action with
    | request =>
      cases stepped
      exact requested source holds
    | release object => exact absurd unreleased id
  · rintro source action target holds released stepped
    cases action with
    | request => exact absurd trivial released
    | release object => exact not_accounted_of_release (accounted source holds).count stepped

end Accounts

end ReusableAllocator

namespace ArrayReuse

/-- Nothing has been released, and the slots used are the ones counted. -/
structure Granting (limit : Nat) (fields : Fields) : Prop extends
    ReusableAllocator.Granting limit fields where
  used : fields.used = fields.count

variable {objsize limit : Nat} {fields : Fields}

theorem Granting.request (holds : Granting limit fields) (word : limit < 2 ^ 32) :
    Granting limit (request objsize limit fields).1 := by
  obtain ⟨⟨empty, count, within⟩, used⟩ := holds
  simp only [ArrayReuse.request, empty]
  split
  next room =>
    have kept : (fields.count + 1) % 2 ^ 32 = fields.count + 1 := Nat.mod_eq_of_lt (by omega)
    refine ⟨⟨empty, ?_, ?_⟩, ?_⟩
    · simp only [kept, Fields.carve, List.length_cons, ← count]
    · simp only [kept]
      omega
    · simp only [kept, Fields.carve, used]
  next => exact ⟨⟨empty, count, within⟩, used⟩

theorem Granting.accounted (holds : Granting limit fields) :
    Accounted (avail limit) (ArrayReuse.request objsize limit) limit fields := by
  obtain ⟨⟨empty, count, within⟩, used⟩ := holds
  have granted : (ArrayReuse.request objsize limit fields).2.isSome = true ↔
      fields.used < limit := by
    simp only [ArrayReuse.request, empty]
    split
    next room => simp [room]
    next full => simp [full]
  refine ⟨count, ?_, ?_⟩
  · rw [granted, used, avail, decide_eq_true_iff]
  · rw [granted, used, count]

end ArrayReuse

namespace PagerReuse

variable {alloc : List Nat → Nat} {limit : Nat} {fields : Fields}

theorem granting_request (holds : Granting limit fields) (word : limit < 2 ^ 32)
    (positive : 0 < limit) : Granting limit (request alloc limit fields).1 := by
  obtain ⟨empty, count, within⟩ := holds
  simp only [request, empty, Nat.ne_of_gt positive, false_or]
  split
  next room =>
    have kept : (fields.count + 1) % 2 ^ 32 = fields.count + 1 := Nat.mod_eq_of_lt (by omega)
    refine ⟨empty, ?_, ?_⟩
    · simp only [kept, Fields.carve, List.length_cons, ← count]
    · simp only [kept]
      omega
  next => exact ⟨empty, count, within⟩

theorem accounted_of_granting (holds : Granting limit fields) (positive : 0 < limit) :
    Accounted (avail limit) (request alloc limit) limit fields := by
  obtain ⟨empty, count, within⟩ := holds
  have granted : (request alloc limit fields).2.isSome = true ↔ fields.count < limit := by
    simp only [request, empty, Nat.ne_of_gt positive, false_or]
    split
    next room => simp [room]
    next full => simp [full]
  refine ⟨count, ?_, ?_⟩
  · rw [granted, avail]
    simp [Nat.ne_of_gt positive]
  · rw [granted, count]

end PagerReuse

namespace ReusableAllocator

/-- In a run of an `ArrayReuse` or of a `PagerReuse` with a limit the accounts are always right
exactly when nothing is released. -/
theorem reusable_accounted_iff (limit : Nat) (positive : 0 < limit) (word : limit < 2 ^ 32) :
    (∀ (objsize : Nat) (moves : List (Move Fields Action)) (fields : Fields),
      (machine (ArrayReuse.request objsize limit)).Run moves fields →
        (Machine.Throughout (Accounted (ArrayReuse.avail limit) (ArrayReuse.request objsize limit)
          limit) moves fields ↔ Machine.Meets Unreleased moves)) ∧
    ∀ (alloc : List Nat → Nat) (moves : List (Move Fields Action)) (fields : Fields),
      (machine (PagerReuse.request alloc limit)).Run moves fields →
        (Machine.Throughout (Accounted (PagerReuse.avail limit) (PagerReuse.request alloc limit)
          limit) moves fields ↔ Machine.Meets Unreleased moves) := by
  constructor
  · intro objsize moves fields run
    exact accounted_iff_unreleased (ArrayReuse.Granting limit)
      ⟨⟨rfl, rfl, Nat.zero_le _⟩, rfl⟩ (fun _ holds => holds.request word)
      (fun _ holds => holds.accounted) run
  · intro alloc moves fields run
    exact accounted_iff_unreleased (Granting limit) ⟨rfl, rfl, Nat.zero_le _⟩
      (fun _ holds => PagerReuse.granting_request holds word positive)
      (fun _ holds => PagerReuse.accounted_of_granting holds positive) run

/-- Two requests are granted by allocators with limit 2, and there is nothing left. -/
theorem reusable_accounted_iff_exhausted :
    (∃ moves fields, (machine (ArrayReuse.request 16 2)).Run moves fields ∧
      fields.held = [16, 0] ∧ (ArrayReuse.request 16 2 fields).2 = none ∧
      Machine.Throughout (Accounted (ArrayReuse.avail 2) (ArrayReuse.request 16 2) 2)
        moves fields) ∧
    ∃ moves fields, (machine (PagerReuse.request List.length 2)).Run moves fields ∧
      fields.held = [1, 0] ∧ (PagerReuse.request List.length 2 fields).2 = none ∧
      Machine.Throughout (Accounted (PagerReuse.avail 2) (PagerReuse.request List.length 2) 2)
        moves fields := by
  obtain ⟨array, pager⟩ := reusable_accounted_iff 2 (by decide) (by decide)
  constructor
  · let played := ((machine (ArrayReuse.request 16 2)).restrict Unreleased).play
      Fields.constructed [.request, .request]
    obtain ⟨moves, restricted⟩ : ((machine (ArrayReuse.request 16 2)).restrict
        Unreleased).Reachable (played.get (by decide)) :=
      Machine.reachable_get rfl _
    obtain ⟨run, meets⟩ := restricted.of_restrict
    exact ⟨moves, _, run, by decide, by decide, (array 16 moves _ run).mpr meets⟩
  · let played := ((machine (PagerReuse.request List.length 2)).restrict Unreleased).play
      Fields.constructed [.request, .request]
    obtain ⟨moves, restricted⟩ : ((machine (PagerReuse.request List.length 2)).restrict
        Unreleased).Reachable (played.get (by decide)) :=
      Machine.reachable_get rfl _
    obtain ⟨run, meets⟩ := restricted.of_restrict
    exact ⟨moves, _, run, by decide, by decide, (pager List.length moves _ run).mpr meets⟩

/-- After one request and its release nothing is held, but both allocators with limit 1 say that
they have nothing. The array hands its slot out again all the same; the pager refuses for good. -/
theorem reusable_loses_released :
    (∃ moves fields, (machine (ArrayReuse.request 16 1)).Run moves fields ∧
      fields.held = [] ∧ ArrayReuse.avail 1 fields = false ∧
      (ArrayReuse.request 16 1 fields).2 = some 0 ∧
      ¬ Machine.Throughout (Accounted (ArrayReuse.avail 1) (ArrayReuse.request 16 1) 1)
        moves fields) ∧
    ∃ moves fields, (machine (PagerReuse.request List.length 1)).Run moves fields ∧
      fields.held = [] ∧ (PagerReuse.request List.length 1 fields).2 = none ∧
      ¬ Machine.Throughout (Accounted (PagerReuse.avail 1) (PagerReuse.request List.length 1) 1)
        moves fields := by
  constructor
  · let played := (machine (ArrayReuse.request 16 1)).play Fields.constructed
      [.request, .release 0]
    obtain ⟨moves, run⟩ : (machine (ArrayReuse.request 16 1)).Reachable
        (played.get (by decide)) := Machine.reachable_get rfl _
    refine ⟨moves, _, run, by decide, by decide, by decide, fun throughout => ?_⟩
    exact absurd throughout.1.count (by decide)
  · let played := (machine (PagerReuse.request List.length 1)).play Fields.constructed
      [.request, .release 0]
    obtain ⟨moves, run⟩ : (machine (PagerReuse.request List.length 1)).Reachable
        (played.get (by decide)) := Machine.reachable_get rfl _
    refine ⟨moves, _, run, by decide, by decide, fun throughout => ?_⟩
    exact absurd throughout.1.count (by decide)

end ReusableAllocator

end CommonCpp
