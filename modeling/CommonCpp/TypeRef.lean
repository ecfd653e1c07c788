/-
This file models the smart pointers that share counted objects: `TypeRef` and the
typed `typeref`, the guarded `typeref_guard`, and `SharedRef`.

A holder refers to an object or to nothing. Every assignment retains the object it
is given, releases the one the holder has and stores the new reference. `set` and
`assign` read the source a second time when they store it. By then the source may be
gone: it is the holder itself, which has just been cleared, or it lies in the data of
an object that the release has deallocated. `SharedRef::put` stores the reference in
the other holder without a retain or a release. As long as no object gets as many
holders as its count, an `int`, cannot count, counts and references agree exactly
when neither happens.

The holders are any finite number of places, each of which may be constructed and
destroyed again and again. The holders in the data of an object can only be read. A
destroyed holder reads as the null its destructor left. The locks of a guard and of
a `SharedRef` are held for one call, and each call is one step here.
-/

import Mathlib.Algebra.BigOperators.Fin
import CommonCpp.Counted
import CommonCpp.Machine

namespace CommonCpp

open Concurrency Counted

namespace TypeRef

variable {Holder : Type} [DecidableEq Holder]

/-! ### The code -/

/-- The counted objects and the holders. -/
structure State (Holder : Type) where
  heap : Heap
  constructed : Holder → Bool
  ref : Holder → Option Nat

/-- What a call can read a reference from: a holder, or one of those in the data of an object. -/
inductive Source (Holder : Type)
  | holder (holder : Holder)
  | member (object index : Nat)

/-- `ptr.ref`. -/
def read (state : State Holder) : Source Holder → Option Nat
  | .holder holder => state.ref holder
  | .member object index => (state.heap.members object)[index]?.join

/-- `ref = object`. -/
def store (state : State Holder) (this : Holder) (object : Option Nat) : State Holder :=
  { state with ref := Function.update state.ref this object }

def clear (state : State Holder) (this : Holder) : State Holder :=
  store { state with heap := releaseRef state.heap (state.ref this) } this none

/-- `TypeRef(Counted *)`, and with null `TypeRef()`. -/
def construct (state : State Holder) (this : Holder) (object : Option Nat) : State Holder :=
  let state := store state this object
  { state with
    constructed := Function.update state.constructed this true
    heap := retainRef state.heap object }

/-- `TypeRef(const TypeRef&)`; `SharedRef::get()` constructs its result like this. -/
def copy (state : State Holder) (this : Holder) (pointer : Source Holder) : State Holder :=
  construct state this (read state pointer)

/-- `set(Counted *)`. -/
def setObject (state : State Holder) (this : Holder) (object : Option Nat) : State Holder :=
  let state := { state with heap := retainRef state.heap object }
  let state := clear state this
  store state this object

/-- `set(const TypeRef&)`. -/
def set (state : State Holder) (this : Holder) (ptr : Source Holder) : State Holder :=
  let state := { state with heap := retainRef state.heap (read state ptr) }
  let state := clear state this
  store state this (read state ptr)

/-- `assign(const typeref_guard&)`: the body of `set`, under the lock of the guard. -/
def assign (state : State Holder) (this : Holder) (global : Source Holder) : State Holder :=
  set state this global

/-- `typeref_guard::set`: calls `set` under the lock of the guard. -/
def guardSet (state : State Holder) (this : Holder) (pointer : Source Holder) : State Holder :=
  set state this pointer

/-- `SharedRef::get(TypeRef&)`. -/
def get (state : State Holder) (this ptr : Holder) : State Holder :=
  let old := state.ref this
  let state := store state this (state.ref ptr)
  let state := { state with heap := retainRef state.heap (state.ref this) }
  { state with heap := releaseRef state.heap old }

/-- `SharedRef::put`. -/
def put (state : State Holder) (this ptr : Holder) : State Holder :=
  store state ptr (state.ref this)

/-- `~TypeRef()`. -/
def destroy (state : State Holder) (this : Holder) : State Holder :=
  let state := clear state this
  { state with constructed := Function.update state.constructed this false }

inductive Action (Holder : Type)
  | create (data : List (Source Holder))
  | construct (this : Holder) (object : Option Nat)
  | copy (this : Holder) (pointer : Source Holder)
  | setObject (this : Holder) (object : Option Nat)
  | set (this : Holder) (ptr : Source Holder)
  | assign (this : Holder) (global : Source Holder)
  | guardSet (this : Holder) (pointer : Source Holder)
  | get (this ptr : Holder)
  | put (this ptr : Holder)
  | clear (this : Holder)
  | destroy (this : Holder)

/-- A source that exists: a constructed holder, or one in the data of an object that has not been
deallocated. -/
def Exists (state : State Holder) : Source Holder → Prop
  | .holder holder => state.constructed holder
  | .member object index =>
    state.heap.deallocs object = 0 ∧ index < (state.heap.members object).length

/-- The calls a program may make: on holders and objects that exist. -/
def Allowed (state : State Holder) : Action Holder → Prop
  | .create data => ∀ source ∈ data, Exists state source
  | .construct this object => state.constructed this = false ∧ Alive state.heap object
  | .copy this pointer => state.constructed this = false ∧ Exists state pointer
  | .setObject this object => state.constructed this ∧ Alive state.heap object
  | .set this source | .assign this source | .guardSet this source =>
    state.constructed this ∧ Exists state source
  | .get this ptr | .put this ptr => state.constructed this ∧ state.constructed ptr
  | .clear this | .destroy this => state.constructed this

/-- What the code of a call does. -/
def perform (state : State Holder) : Action Holder → State Holder
  | .create data => { state with heap := create state.heap (data.map (read state)) }
  | .construct this object => construct state this object
  | .copy this pointer => copy state this pointer
  | .setObject this object => setObject state this object
  | .set this ptr => set state this ptr
  | .assign this global => assign state this global
  | .guardSet this pointer => guardSet state this pointer
  | .get this ptr => get state this ptr
  | .put this ptr => put state this ptr
  | .clear this => clear state this
  | .destroy this => destroy state this

instance (heap : Heap) (ref : Option Nat) : Decidable (Alive heap ref) :=
  match ref with
  | none => isTrue fun _ same => by cases same
  | some object =>
    decidable_of_iff (object < heap.size ∧ heap.deallocs object = 0) (by simp [Alive])

instance (state : State Holder) : (source : Source Holder) → Decidable (Exists state source)
  | .holder holder => inferInstanceAs (Decidable (state.constructed holder))
  | .member object index => inferInstanceAs (Decidable (state.heap.deallocs object = 0 ∧
      index < (state.heap.members object).length))

instance (state : State Holder) : (action : Action Holder) → Decidable (Allowed state action)
  | .create data => inferInstanceAs (Decidable (∀ source ∈ data, Exists state source))
  | .construct this object =>
    inferInstanceAs (Decidable (state.constructed this = false ∧ Alive state.heap object))
  | .copy this pointer =>
    inferInstanceAs (Decidable (state.constructed this = false ∧ Exists state pointer))
  | .setObject this object =>
    inferInstanceAs (Decidable (state.constructed this ∧ Alive state.heap object))
  | .set this source | .assign this source | .guardSet this source =>
    inferInstanceAs (Decidable (state.constructed this ∧ Exists state source))
  | .get this ptr | .put this ptr =>
    inferInstanceAs (Decidable (state.constructed this ∧ state.constructed ptr))
  | .clear this | .destroy this => inferInstanceAs (Decidable (state.constructed this))

/-- The runs of any program on the holders. -/
def machine (Holder : Type) [DecidableEq Holder] : Machine (State Holder) (Action Holder) where
  Init state := state =
    ⟨⟨0, fun _ => 0, fun _ => 0, fun _ => []⟩, fun _ => false, fun _ => none⟩
  step state action := if Allowed state action then some (perform state action) else none

/-! ### References and counts -/

section Accounts

variable [Fintype Holder]

/-- The holders that refer to an object. -/
def outside (state : State Holder) (object : Nat) : Nat :=
  ∑ holder, points (state.ref holder) object

/-- The holders that refer to an object, with those in the data of objects. -/
def holders (state : State Holder) (object : Nat) : Nat :=
  outside state object + inside state.heap object

/-- The count of every object that has not been deallocated is the number of its holders, and no
holder refers to one that has. -/
structure Consistent (state : State Holder) : Prop where
  counts : ∀ object, state.heap.deallocs object = 0 →
    state.heap.count object = holders state object
  living : ∀ object, state.heap.deallocs object ≠ 0 → holders state object = 0
  once : ∀ object, state.heap.deallocs object ≤ 1

/-- The holder a call assigns to refers to what it was given, as it was before the call. -/
def Named (source target : State Holder) : Action Holder → Prop
  | .create _ => True
  | .construct this object | .setObject this object => target.ref this = object
  | .copy this pointer | .set this pointer | .assign this pointer | .guardSet this pointer =>
    target.ref this = read source pointer
  | .get this ptr => target.ref this = source.ref ptr
  | .put this ptr => target.ref ptr = source.ref this
  | .clear this | .destroy this => target.ref this = none

/-- A call deallocates the objects that lose their last holder, once, and assigns what it was
given. -/
structure Sound (move : Move (State Holder) (Action Holder)) : Prop where
  deallocs : ∀ object, move.target.heap.deallocs object = move.source.heap.deallocs object +
    if 0 < holders move.source object ∧ holders move.target object = 0 then 1 else 0
  named : Named move.source move.target move.action

/-- An object that is kept when a holder lets go: another holder refers to it, or it is new and
has no holder yet, or it is referred to from the data of an object that is kept. -/
inductive Kept (state : State Holder) (this : Holder) : Nat → Prop
  | holder {other : Holder} {object : Nat} (apart : other ≠ this)
      (refers : state.ref other = some object) : Kept state this object
  | unheld {object : Nat} (constructed : object < state.heap.size)
      (alive : state.heap.deallocs object = 0) (new : holders state object = 0) :
      Kept state this object
  | member {owner object : Nat} (kept : Kept state this owner)
      (refers : some object ∈ state.heap.members owner) : Kept state this object

/-- The source of an assignment is still there when the holder has let go. -/
def Lasts (state : State Holder) (this : Holder) : Source Holder → Prop
  | .holder other => other ≠ this
  | .member object _ => Kept state this object

/-- What is assigned from a holder is null or still there when it is stored, and `put` is only
called for a holder that refers to the same already. -/
def Careful (state : State Holder) : Action Holder → Prop
  | .set this ptr | .assign this ptr | .guardSet this ptr =>
    read state ptr = none ∨ Lasts state this ptr
  | .put this ptr => state.ref ptr = state.ref this
  | _ => True

omit [DecidableEq Holder] [Fintype Holder] in
/-- The references that a call retains. -/
def retained (state : State Holder) : Action Holder → List (Option Nat)
  | .create data => data.map (read state)
  | .construct _ object | .setObject _ object => [object]
  | .copy _ pointer | .set _ pointer | .assign _ pointer | .guardSet _ pointer =>
    [read state pointer]
  | .get _ ptr => [state.ref ptr]
  | .put _ _ | .clear _ | .destroy _ => []

/-- A call finds room in the counts of the objects it retains. -/
def Room (state : State Holder) (action : Action Holder) : Prop :=
  Roomy state.heap (retained state action)

instance (state : State Holder) (action : Action Holder) : Decidable (Room state action) :=
  inferInstanceAs (Decidable (Roomy _ _))

variable {state target : State Holder} {this : Holder} {object : Nat} {ref : Option Nat}
  {ptr : Source Holder}

omit [Fintype Holder] in
theorem store_ref_of_ne {other : Holder} (apart : other ≠ this) (state : State Holder)
    (ref : Option Nat) : (store state this ref).ref other = state.ref other :=
  Function.update_of_ne apart _ _

omit [Fintype Holder] in
/-- Storing what a holder refers to already changes nothing. -/
theorem store_self (refers : state.ref this = ref) : store state this ref = state := by
  rw [store, ← refers, Function.update_eq_self]

theorem outside_store (state : State Holder) (this : Holder) (ref : Option Nat) (object : Nat) :
    outside (store state this ref) object + points (state.ref this) object =
      outside state object + points ref object :=
  sum_points_update state.ref this ref object

omit [DecidableEq Holder] in
theorem outside_pos (refers : state.ref this = some object) : 0 < outside state object :=
  sum_points_pos refers

omit [DecidableEq Holder] in
theorem exists_of_outside (referred : 0 < outside state object) :
    ∃ holder, state.ref holder = some object := by
  obtain ⟨holder, _, positive⟩ := Finset.exists_ne_zero_of_sum_ne_zero (Nat.ne_of_gt referred)
  refine ⟨holder, ?_⟩
  by_contra apart
  exact positive (if_neg apart)

/-- The accounts balance, and the data of every object refers to older ones. -/
structure Accounted (state : State Holder) : Prop where
  balanced : Balanced state.heap (outside state) []
  older : ∀ owner object, some object ∈ state.heap.members owner → object < owner

namespace Accounted

omit [DecidableEq Holder] in
theorem alive (accounted : Accounted state) (ptr : Source Holder) :
    Alive state.heap (read state ptr) := by
  intro object refers
  cases ptr with
  | holder holder =>
    have referred := outside_pos refers
    exact accounted.balanced.alive (by omega)
  | member owner index =>
    have member : some object ∈ state.heap.members owner :=
      List.mem_of_getElem? (Option.join_eq_some_iff.mp refers)
    exact accounted.balanced.alive_of_member member

omit [DecidableEq Holder] in
theorem consistent (accounted : Accounted state) : Consistent state :=
  ⟨accounted.balanced.counts, fun object dead => (accounted.balanced.dead object dead).1,
    accounted.balanced.once⟩

omit [DecidableEq Holder] in
/-- Nothing has been constructed, and no holder refers to anything. -/
theorem empty (constructed : Holder → Bool) :
    Accounted ⟨⟨0, fun _ => 0, fun _ => 0, fun _ => []⟩, constructed, fun _ => none⟩ := by
  refine ⟨⟨fun object _ => ?_, fun object dead => absurd rfl dead, fun _ => Nat.zero_le _,
    fun _ _ => ⟨rfl, rfl, rfl⟩, fun _ => (by decide : (0 : Int) < 2 ^ 31)⟩,
    fun _ _ member => by cases member⟩
  simp [outside, inside]

end Accounted

/-! #### Exchanging a reference -/

/-- What every assignment should do: the new reference is retained, the old one released, and the
new one stored. -/
def exchange (state : State Holder) (this : Holder) (ref : Option Nat) : State Holder :=
  store { state with heap := releaseRef (retainRef state.heap ref) (state.ref this) } this ref

omit [Fintype Holder] in
theorem exchange_ref_self (state : State Holder) (this : Holder) (ref : Option Nat) :
    (exchange state this ref).ref this = ref :=
  Function.update_self _ _ _

omit [Fintype Holder] in
theorem exchange_ref_of_ne {other : Holder} (apart : other ≠ this) (state : State Holder)
    (ref : Option Nat) : (exchange state this ref).ref other = state.ref other :=
  store_ref_of_ne apart _ _

omit [Fintype Holder] in
theorem setObject_eq_exchange (state : State Holder) (this : Holder) (object : Option Nat) :
    setObject state this object = exchange state this object := by
  simp only [setObject, exchange, clear, store, Function.update_idem]

namespace Accounted

/-- The releases of an exchange. -/
theorem settled (accounted : Accounted state) (this : Holder) (alive : Alive state.heap ref)
    (room : Roomy state.heap [ref]) :
    Settled (retainRef state.heap ref) (outside (exchange state this ref))
      (state.ref this).toList (exchange state this ref).heap := by
  have retained := accounted.balanced.retainRef alive room fun _ => rfl
  exact retained.releaseRef fun object => (outside_store state this ref object).symm

/-- An exchange keeps the accounts. -/
theorem exchange (accounted : Accounted state) (this : Holder) (alive : Alive state.heap ref)
    (room : Roomy state.heap [ref]) : Accounted (exchange state this ref) := by
  have settled := accounted.settled this alive room
  refine ⟨settled.balanced, fun owner object member => ?_⟩
  rcases settled.members_or owner with same | empty
  · rw [same, (recounted_retainRef state.heap ref).members] at member
    exact accounted.older owner object member
  · rw [empty] at member
    cases member

/-- An exchange deallocates the objects that lose their last holder. -/
theorem exchange_deallocs (accounted : Accounted state) (this : Holder)
    (alive : Alive state.heap ref) (room : Roomy state.heap [ref]) (object : Nat) :
    (TypeRef.exchange state this ref).heap.deallocs object = state.heap.deallocs object +
      if 0 < holders state object ∧ holders (TypeRef.exchange state this ref) object = 0 then 1
      else 0 := by
  have recounted := recounted_retainRef state.heap ref
  have deallocs := (accounted.settled this alive room).deallocs object
  have stored : outside (TypeRef.exchange state this ref) object + points (state.ref this) object =
      outside state object + points ref object := outside_store _ this ref object
  rw [recounted.deallocs, recounted.inside, count_toList] at deallocs
  rw [deallocs, holders, holders]
  by_cases refers : ref = some object
  · -- the new reference keeps the object
    have stores : (TypeRef.exchange state this ref).ref this = some object := by
      rw [exchange_ref_self, refers]
    have referred := outside_pos stores
    rw [if_neg (by omega), if_neg (by omega)]
  · have unrelated : points ref object = 0 := if_neg refers
    have same : outside (TypeRef.exchange state this ref) object + inside state.heap object +
        points (state.ref this) object = outside state object + inside state.heap object := by
      omega
    rw [same]

/-- A reference stored in the place of another, without a retain and a release, leaves a count
that is wrong. -/
theorem not_consistent_store (accounted : Accounted state) (alive : Alive state.heap ref)
    (differs : state.ref this ≠ ref) : ¬ Consistent (store state this ref) := by
  intro consistent
  have wrong : ∀ object, object < state.heap.size ∧ state.heap.deallocs object = 0 →
      points (state.ref this) object = points ref object := by
    intro object alive
    have stored := outside_store state this ref object
    have before := accounted.consistent.counts object alive.2
    have after : state.heap.count object =
        (outside (store state this ref) object + inside state.heap object : Nat) :=
      consistent.counts object alive.2
    rw [before, holders] at after
    omega
  cases ref with
  | none =>
    obtain ⟨object, refers⟩ := Option.ne_none_iff_exists'.mp differs
    have same := wrong object (accounted.alive (.holder this) object refers)
    rw [refers, points_some, if_pos rfl] at same
    cases same
  | some object =>
    have same := wrong object (alive object rfl)
    rw [points_some, if_pos rfl, points, if_neg differs] at same
    cases same

/-! #### Objects that are kept -/

/-- The data of an object that survives an exchange is unchanged. -/
theorem exchange_members (accounted : Accounted state) (this : Holder)
    (alive : Alive state.heap ref) (room : Roomy state.heap [ref]) {owner : Nat}
    (survives : (TypeRef.exchange state this ref).heap.deallocs owner = 0) :
    (TypeRef.exchange state this ref).heap.members owner = state.heap.members owner := by
  have settled := accounted.settled this alive room
  have recounted := recounted_retainRef state.heap ref
  have deallocs := settled.deallocs owner
  rw [settled.members owner (by omega), recounted.members]

/-- An object that is kept survives. -/
theorem survives_of_kept (accounted : Accounted state) (alive : Alive state.heap ref)
    (room : Roomy state.heap [ref]) (kept : Kept state this object) :
    (TypeRef.exchange state this ref).heap.deallocs object = 0 := by
  have balanced := (accounted.exchange this alive room).balanced
  induction kept with
  | @holder other object apart refers =>
    have stays : (TypeRef.exchange state this ref).ref other = some object := by
      rw [exchange_ref_of_ne apart, refers]
    have referred := outside_pos stays
    exact (balanced.alive (by omega)).2
  | unheld _ living new =>
    rw [accounted.exchange_deallocs this alive room, living, new]
    rfl
  | member _ refers inductionHypothesis =>
    rw [← accounted.exchange_members this alive room inductionHypothesis] at refers
    exact (balanced.alive_of_member refers).2

/-- An object that survives, and is newer than the one assigned, is kept. -/
theorem kept_of_survives (accounted : Accounted state) (alive : Alive state.heap ref)
    (room : Roomy state.heap [ref]) (constructed : object < state.heap.size)
    (newer : ∀ other, ref = some other → other < object)
    (survives : (TypeRef.exchange state this ref).heap.deallocs object = 0) :
    Kept state this object := by
  -- an object is referred to by holders, and by newer objects that survive
  induction distance : state.heap.size - object using Nat.strong_induction_on
    generalizing object with
  | h distance inductionHypothesis =>
    have deallocs := accounted.exchange_deallocs this alive room object
    rw [survives] at deallocs
    by_cases new : holders state object = 0
    · exact .unheld constructed (by omega) new
    · have referred : 0 < holders (TypeRef.exchange state this ref) object := by
        by_contra none_
        rw [if_pos ⟨Nat.pos_of_ne_zero new, Nat.eq_zero_of_not_pos none_⟩] at deallocs
        omega
      rcases Nat.eq_zero_or_pos (outside (TypeRef.exchange state this ref) object) with
        none_ | some_
      · have referred' : 0 < inside (TypeRef.exchange state this ref).heap object := by
          rw [holders] at referred
          omega
        obtain ⟨owner, within, member⟩ := exists_member_of_inside referred'
        have settled := accounted.settled this alive room
        rw [settled.size, (recounted_retainRef state.heap ref).size] at within
        have survives' : (TypeRef.exchange state this ref).heap.deallocs owner = 0 := by
          by_contra dead
          rw [(settled.balanced.dead owner dead).2] at member
          cases member
        rw [accounted.exchange_members this alive room survives'] at member
        have above := accounted.older owner object member
        refine .member (inductionHypothesis _ (by omega) within (fun other refers => ?_) survives'
          rfl) member
        exact Nat.lt_trans (newer other refers) above
      · obtain ⟨other, refers⟩ := exists_of_outside some_
        by_cases same : other = this
        · rw [same, exchange_ref_self] at refers
          exact absurd (newer object refers) (Nat.lt_irrefl _)
        · rw [exchange_ref_of_ne same] at refers
          exact .holder same refers

/-! #### Reading the source again -/

/-- The state in which `set` reads its source the second time. -/
def cleared (state : State Holder) (this : Holder) (ptr : Source Holder) : State Holder :=
  clear { state with heap := retainRef state.heap (read state ptr) } this

/-- The source reads as before exactly when it was null or it is still there. -/
theorem read_cleared_iff (accounted : Accounted state) (exist : Exists state ptr)
    (room : Roomy state.heap [read state ptr]) :
    read (cleared state this ptr) ptr = read state ptr ↔
      read state ptr = none ∨ Lasts state this ptr := by
  have alive := accounted.alive ptr
  cases ptr with
  | holder other =>
    by_cases same : other = this
    · have null : read (cleared state this (.holder other)) (.holder other) = none := by
        rw [same]
        exact Function.update_self _ _ _
      rw [null, eq_comm]
      simp [Lasts, same]
    · have reads : read (cleared state this (.holder other)) (.holder other) =
          read state (.holder other) := Function.update_of_ne same _ _
      simp [reads, Lasts, same]
  | member owner index =>
    obtain ⟨_, within⟩ := exist
    have constructed : owner < state.heap.size := by
      by_contra beyond
      rw [accounted.balanced.bounded (Nat.le_of_not_lt beyond)] at within
      exact absurd within (Nat.not_lt_zero _)
    have newer : ∀ other, read state (.member owner index) = some other → other < owner :=
      fun other refers => accounted.older owner other
        (List.mem_of_getElem? (Option.join_eq_some_iff.mp refers))
    -- the heap is that of the exchange
    have reads : read (cleared state this (.member owner index)) (.member owner index) =
        ((TypeRef.exchange state this (read state (.member owner index))).heap.members
          owner)[index]?.join := rfl
    by_cases survives : (TypeRef.exchange state this
        (read state (.member owner index))).heap.deallocs owner = 0
    · have kept := accounted.kept_of_survives alive room constructed newer survives
      rw [accounted.exchange_members this alive room survives] at reads
      exact ⟨fun _ => Or.inr kept, fun _ => reads⟩
    · have empty := ((accounted.exchange this alive room).balanced.dead owner survives).2
      rw [empty, List.getElem?_nil] at reads
      rw [reads, eq_comm]
      exact ⟨Or.inl, fun last => last.resolve_right fun kept =>
        survives (accounted.survives_of_kept alive room kept)⟩

/-- A careful assignment is an exchange. -/
theorem set_eq_exchange (accounted : Accounted state) (exist : Exists state ptr)
    (room : Roomy state.heap [read state ptr])
    (careful : read state ptr = none ∨ Lasts state this ptr) :
    TypeRef.set state this ptr = TypeRef.exchange state this (read state ptr) := by
  have reads := (accounted.read_cleared_iff exist room).mpr careful
  have stores : TypeRef.set state this ptr =
      store (cleared state this ptr) this (read (cleared state this ptr) ptr) := rfl
  rw [stores, reads, TypeRef.exchange, cleared, TypeRef.clear]
  simp only [store, Function.update_idem]

omit [DecidableEq Holder] in
/-- A new object keeps the accounts; nothing is deallocated. -/
theorem create (accounted : Accounted state) {data : List (Option Nat)}
    (alive : ∀ ref ∈ data, Alive state.heap ref) (room : Roomy state.heap data) :
    Accounted { state with heap := Counted.create state.heap data } ∧
      ∀ object, (Counted.create state.heap data).deallocs object = state.heap.deallocs object := by
  obtain ⟨size, deallocs, members⟩ := recounted_retainAll state.heap data
  refine ⟨⟨accounted.balanced.create alive room, fun owner object member => ?_⟩, fun object => ?_⟩
  · simp only [Counted.create, size, members] at member
    by_cases same : owner = state.heap.size
    · rw [same, Function.update_self] at member
      rw [same]
      exact (alive _ member object rfl).1
    · rw [Function.update_of_ne same] at member
      exact accounted.older owner object member
  · simp only [Counted.create, size, deallocs]
    by_cases same : object = state.heap.size
    · rw [same, Function.update_self]
      exact (accounted.balanced.fresh _ (Nat.le_refl _)).2.1.symm
    · rw [Function.update_of_ne same]

end Accounted

/-! ### Runs -/

/-- What every careful call preserves: the accounts, and that a holder that does not exist refers
to nothing. -/
structure Invariant (state : State Holder) : Prop where
  accounted : Accounted state
  blank : ∀ holder, state.constructed holder = false → state.ref holder = none

omit [Fintype Holder] in
/-- The blank holders are still blank when one that is constructed has been exchanged. -/
theorem blank_exchange (blank : ∀ holder, state.constructed holder = false →
      state.ref holder = none) {constructed : Holder → Bool}
    (kept : ∀ holder, holder ≠ this → constructed holder = state.constructed holder)
    (known : constructed this = false → ref = none) (holder : Holder)
    (absent : constructed holder = false) : (exchange state this ref).ref holder = none := by
  by_cases same : holder = this
  · rw [same] at absent ⊢
    rw [exchange_ref_self, known absent]
  · rw [exchange_ref_of_ne same]
    exact blank holder (kept holder same ▸ absent)

namespace Invariant

/-- A call that exchanges the reference of a holder, and perhaps constructs or destroys it. -/
theorem exchanged (invariant : Invariant state) (this : Holder) (alive : Alive state.heap ref)
    (room : Roomy state.heap [ref]) (constructed : Holder → Bool)
    (kept : ∀ holder, holder ≠ this → constructed holder = state.constructed holder)
    (known : constructed this = false → ref = none) {action : Action Holder}
    (performed : perform state action =
      { exchange state this ref with constructed := constructed })
    (named : Named state { exchange state this ref with constructed := constructed } action) :
    Invariant (perform state action) ∧ Sound ⟨state, action, perform state action⟩ := by
  have accounted := invariant.accounted.exchange this alive room
  rw [performed]
  refine ⟨⟨⟨accounted.balanced, accounted.older⟩, blank_exchange invariant.blank kept known⟩,
    ⟨fun object => ?_, named⟩⟩
  exact invariant.accounted.exchange_deallocs this alive room object

/-- A call that constructs a holder. -/
theorem constructs (invariant : Invariant state) (absent : state.constructed this = false)
    (alive : Alive state.heap ref) (room : Roomy state.heap [ref]) {action : Action Holder}
    (performed : perform state action = construct state this ref)
    (named : ∀ target : State Holder, target.ref this = ref → Named state target action) :
    Invariant (perform state action) ∧ Sound ⟨state, action, perform state action⟩ := by
  refine invariant.exchanged this alive room (Function.update state.constructed this true)
    (fun holder apart => Function.update_of_ne apart _ _) (fun unset => ?_) ?_
    (named _ (exchange_ref_self _ _ _))
  · rw [Function.update_self] at unset
    cases unset
  · rw [performed, construct, exchange, invariant.blank this absent]
    rfl

/-- A call that exchanges the reference of a holder that exists. -/
theorem assigns (invariant : Invariant state) (exist : state.constructed this = true)
    (alive : Alive state.heap ref) (room : Roomy state.heap [ref]) {action : Action Holder}
    (performed : perform state action = exchange state this ref)
    (named : ∀ target : State Holder, target.ref this = ref → Named state target action) :
    Invariant (perform state action) ∧ Sound ⟨state, action, perform state action⟩ := by
  refine invariant.exchanged this alive room state.constructed (fun _ _ => rfl) (fun unset => ?_)
    performed (named _ (exchange_ref_self _ _ _))
  rw [exist] at unset
  cases unset

/-- Every careful call keeps the invariant and is sound. -/
theorem step (invariant : Invariant state) (action : Action Holder)
    (allowed : Allowed state action) (room : Room state action) (careful : Careful state action) :
    Invariant (perform state action) ∧ Sound ⟨state, action, perform state action⟩ := by
  have accounted := invariant.accounted
  cases action with
  | create data =>
    have alive : ∀ ref ∈ data.map (read state), Alive state.heap ref := by
      intro ref member
      obtain ⟨source, _, rfl⟩ := List.mem_map.mp member
      exact accounted.alive source
    obtain ⟨created, deallocs⟩ := accounted.create alive room
    refine ⟨⟨created, invariant.blank⟩, ⟨fun object => ?_, trivial⟩⟩
    have grown := inside_create state.heap (data.map (read state)) object
    have same : outside { state with heap := create state.heap (data.map (read state)) } object =
        outside state object := rfl
    rw [if_neg (by simp only [perform, holders, same, grown]; omega), Nat.add_zero]
    exact deallocs object
  | construct this object =>
    exact invariant.constructs allowed.1 allowed.2 room rfl fun _ refers => refers
  | copy this pointer =>
    exact invariant.constructs allowed.1 (accounted.alive pointer) room rfl fun _ refers => refers
  | setObject this object =>
    exact invariant.assigns allowed.1 allowed.2 room (setObject_eq_exchange _ _ _)
      fun _ refers => refers
  | set this ptr | assign this ptr | guardSet this ptr =>
    exact invariant.assigns allowed.1 (accounted.alive ptr) room
      (accounted.set_eq_exchange allowed.2 room careful) fun _ refers => refers
  | get this ptr =>
    refine invariant.assigns allowed.1 (accounted.alive (.holder ptr)) room ?_
      fun _ refers => refers
    simp only [perform, TypeRef.get, TypeRef.exchange, store, read, Function.update_self]
  | put this ptr =>
    have same : state.ref ptr = state.ref this := careful
    have unchanged : perform state (.put this ptr) = state := store_self same
    rw [unchanged]
    refine ⟨invariant, ⟨fun object => ?_, same⟩⟩
    dsimp only
    rw [if_neg (by omega), Nat.add_zero]
  | clear this =>
    exact invariant.assigns allowed (alive_none _) (roomy_none _) rfl fun _ refers => refers
  | destroy this =>
    exact invariant.exchanged this (alive_none _) (roomy_none _)
      (Function.update state.constructed this false)
      (fun holder apart => Function.update_of_ne apart _ _) (fun _ => rfl) rfl
      (exchange_ref_self _ _ _)

/-- A call that is not careful is not sound, or leaves a count that is wrong. -/
theorem spoiled (invariant : Invariant state) (action : Action Holder)
    (allowed : Allowed state action) (room : Room state action)
    (careless : ¬ Careful state action)
    (consistent : Consistent (perform state action)) :
    ¬ Sound ⟨state, action, perform state action⟩ := by
  intro sound
  have assigned : ∀ this ptr, Exists state ptr → Roomy state.heap [read state ptr] →
      ¬ (read state ptr = none ∨ Lasts state this ptr) →
      (TypeRef.set state this ptr).ref this ≠ read state ptr := by
    intro this ptr exist room lost refers
    have reads : (TypeRef.set state this ptr).ref this =
        read (Accounted.cleared state this ptr) ptr := Function.update_self _ _ _
    exact lost ((invariant.accounted.read_cleared_iff exist room).mp (reads.symm.trans refers))
  cases action with
  | set this ptr | assign this ptr | guardSet this ptr =>
    exact assigned this ptr allowed.2 room careless sound.named
  | put this ptr =>
    have alive := invariant.accounted.alive (.holder this)
    exact invariant.accounted.not_consistent_store alive careless consistent
  | _ => exact careless trivial

end Invariant

/-- A condition that is enough: the source is another holder, or lies in an object that another
holder refers to, and `put` is not called. -/
def Direct (state : State Holder) : Action Holder → Prop
  | .set this (.holder other) | .assign this (.holder other) | .guardSet this (.holder other) =>
    other ≠ this
  | .set this (.member object _) | .assign this (.member object _)
  | .guardSet this (.member object _) => ∃ other, other ≠ this ∧ state.ref other = some object
  | .put _ _ => False
  | _ => True

omit [DecidableEq Holder] in
theorem careful_of_direct {action : Action Holder} (direct : Direct state action) :
    Careful state action := by
  match action with
  | .set this (.holder other) | .assign this (.holder other) | .guardSet this (.holder other) =>
    exact Or.inr direct
  | .set this (.member object _) | .assign this (.member object _)
  | .guardSet this (.member object _) =>
    obtain ⟨other, apart, refers⟩ := direct
    exact Or.inr (.holder apart refers)
  | .create _ | .construct _ _ | .copy _ _ | .setObject _ _ | .get _ _ | .clear _ | .destroy _ =>
    trivial

instance (state : State Holder) : (action : Action Holder) → Decidable (Direct state action)
  | .set this (.holder other) | .assign this (.holder other) | .guardSet this (.holder other) =>
    inferInstanceAs (Decidable (other ≠ this))
  | .set this (.member object _) | .assign this (.member object _)
  | .guardSet this (.member object _) =>
    inferInstanceAs (Decidable (∃ other, other ≠ this ∧ state.ref other = some object))
  | .put _ _ => inferInstanceAs (Decidable False)
  | .create _ | .construct _ _ | .copy _ _ | .setObject _ _ | .get _ _ | .clear _ | .destroy _ =>
    inferInstanceAs (Decidable True)

end Accounts

end TypeRef

end CommonCpp
