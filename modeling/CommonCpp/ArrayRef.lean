/-
This file models `ArrayRef`, the shared array of references that serves as a stack
or as a queue: a ring of slots with a head and a tail.

The slots are holders like the typerefs outside. `assign` exchanges the reference of
a slot, and `remove` takes it out for the caller, count and all. `get` only reads it.
A `FALLBACK` queue never gives its last element away: `pull` reads it with `get` and
stores it in the typeref without retaining it, and so the count is one short from
then on. `clear` is `reset` to null, and `reset` returns at once when the object is
null, so that `clear` leaves every slot as it is. As long as every element that is
retained has room in its count, the counts agree, and the slots are empty after
`clear`, exactly when neither happens.

As a ring the array holds at most one element less than it has slots. Its slots from
the head on are the elements of a list, in which `push` appends and the other end or
the same end is taken, however often the indices have wrapped.

`push` and `pull` wait while they cannot go on. A call here is one round of its loop,
made under the lock: a `push` that has to wait, or whose time is over, changes nothing,
and a `pull` that has to wait has cleared its typeref and found no element.
-/

import CommonCpp.Ring
import CommonCpp.TypeRef

namespace CommonCpp

open Concurrency Counted Memory

namespace ArrayRef

/-! ### The code -/

/-- `arraytype_t`. -/
inductive Mode
  | array
  | stack
  | queue
  | fallback
  deriving DecidableEq

variable {size : Nat} {Typeref : Type} [DecidableEq Typeref]

/-- The holders, which are the slots of the array and the typerefs outside, and the two ends of
the ring. -/
structure State (size : Nat) (Typeref : Type) where
  refs : TypeRef.State (Fin size ⊕ Typeref)
  head : Nat
  tail : Nat

/-- `Array::count`. -/
def count (state : State size Typeref) : Nat :=
  if state.head ≤ state.tail then state.tail - state.head else (state.tail + size) - state.head

/-- `Array::get`. -/
def get (state : State size Typeref) (index : Nat) : Option Nat :=
  if inside : index < size then state.refs.ref (.inl ⟨index, inside⟩) else none

/-- `Array::remove`: the reference that was in the slot, and the array without it. -/
def remove (state : State size Typeref) (index : Nat) : Option Nat × State size Typeref :=
  if inside : index < size then
    (get state index, { state with refs := TypeRef.store state.refs (.inl ⟨index, inside⟩) none })
  else (none, state)

/-- `Array::assign`. -/
def assign (state : State size Typeref) (index : Nat) (object : Option Nat) :
    State size Typeref :=
  if inside : index < size then
    let refs := { state.refs with heap := retainRef state.refs.heap object }
    let replace := refs.ref (.inl ⟨index, inside⟩)
    let refs := { refs with heap := releaseRef refs.heap replace }
    { state with refs := TypeRef.store refs (.inl ⟨index, inside⟩) object }
  else state

/-- The loop of `reset` over the first slots. -/
def assignFirst (state : State size Typeref) (object : Option Nat) : Nat → State size Typeref
  | 0 => state
  | max + 1 => assign (assignFirst state object max) max object

def reset (mode : Mode) (state : State size Typeref) (object : Option Nat) :
    State size Typeref :=
  match object with
  | none => state
  | some _ =>
    let max := match mode with
      | .array => size
      | .fallback => 1
      | _ => 0
    assignFirst { state with head := 0, tail := max } object max

def clear (mode : Mode) (state : State size Typeref) : State size Typeref :=
  reset mode state none

/-- The tail a step back: `if(tail == 0) tail = size; --tail`. -/
def retreat (size tail : Nat) : Nat :=
  (if tail = 0 then size else tail) - 1

/-- The branch of `pop` for a queue. -/
def popHead (state : State size Typeref) : State size Typeref :=
  if state.head ≠ state.tail then
    let state := assign state state.head none
    { state with head := advance size state.head }
  else state

def pop (mode : Mode) (state : State size Typeref) : State size Typeref :=
  match mode with
  | .stack =>
    if state.head ≠ state.tail then
      let state := { state with tail := retreat size state.tail }
      assign state state.tail none
    else state
  | .fallback => if count state = 1 then state else popHead state
  | .queue => popHead state
  | .array => state

/-- One round of `push`: whether it went on, and the array left. -/
def push (mode : Mode) (state : State size Typeref) (object : Option Nat) :
    Bool × State size Typeref :=
  if mode = .array then (false, state)
  else if count state ≥ size - 1 then (false, state)
  else
    let state := assign state state.tail object
    (true, { state with tail := advance size state.tail })

/-- The branch of `pull` for a queue. -/
def takeHead (state : State size Typeref) : Option Nat × State size Typeref :=
  let (value, state) := remove state state.head
  (value, { state with head := if state.head + 1 = size then 0 else state.head + 1 })

/-- One round of the loop in `pull`: the element taken, and the array left. -/
def take (mode : Mode) (state : State size Typeref) : Option Nat × State size Typeref :=
  if state.head ≠ state.tail then
    match mode with
    | .stack =>
      let state := { state with tail := retreat size state.tail }
      remove state state.tail
    | .fallback => if count state = 1 then (get state state.head, state) else takeHead state
    | .queue => takeHead state
    | .array => (none, state)
  else (none, state)

/-- `pull` into a typeref that has just been cleared: one round of its loop. -/
def pullRound (mode : Mode) (state : State size Typeref) (object : Typeref) :
    State size Typeref :=
  if mode = .array then state
  else
    match take mode state with
    | (some value, state) =>
      { state with refs := TypeRef.store state.refs (.inr object) (some value) }
    | (none, state) => state

/-- `pull`. -/
def pull (mode : Mode) (state : State size Typeref) (object : Typeref) : State size Typeref :=
  pullRound mode { state with refs := TypeRef.clear state.refs (.inr object) } object

inductive Action (Typeref : Type)
  | push (object : Typeref)
  | pull (object : Typeref)
  | pop
  | reset (object : Typeref)
  | clear
  | create (data : List Typeref)
  | hold (this : Typeref) (object : Option Nat)
  | release (this : Typeref)

/-- The references of a state with other holders. -/
def withRefs (state : State size Typeref) (refs : TypeRef.State (Fin size ⊕ Typeref)) :
    State size Typeref :=
  { state with refs }

/-- What the code of a call does. Besides the calls of the array itself, new elements are created,
and typerefs are set to elements and cleared. -/
def perform (mode : Mode) (state : State size Typeref) : Action Typeref → State size Typeref
  | .push object => (push mode state (state.refs.ref (.inr object))).2
  | .pull object => pull mode state object
  | .pop => pop mode state
  | .reset object => reset mode state (state.refs.ref (.inr object))
  | .clear => clear mode state
  | .create data =>
    let refs := data.map fun object => state.refs.ref (.inr object)
    withRefs state { state.refs with heap := create state.refs.heap refs }
  | .hold this object => withRefs state (TypeRef.setObject state.refs (.inr this) object)
  | .release this => withRefs state (TypeRef.clear state.refs (.inr this))

/-- A typeref is only set to an element that exists. -/
def Allowed (state : State size Typeref) : Action Typeref → Prop
  | .hold _ object => Alive state.refs.heap object
  | _ => True

instance (state : State size Typeref) : (action : Action Typeref) → Decidable (Allowed state action)
  | .hold _ object => inferInstanceAs (Decidable (Alive state.refs.heap object))
  | .push _ | .pull _ | .pop | .reset _ | .clear | .create _ | .release _ =>
    inferInstanceAs (Decidable True)

/-- The runs of any program on an array and typerefs. -/
def machine (mode : Mode) (size : Nat) (Typeref : Type) [DecidableEq Typeref] :
    Machine (State size Typeref) (Action Typeref) where
  Init state := state =
    ⟨⟨⟨0, fun _ => 0, fun _ => 0, fun _ => []⟩, fun _ => true, fun _ => none⟩, 0,
      if mode = .array then size else 0⟩
  step state action := if Allowed state action then some (perform mode state action) else none

theorem step_eq_perform {mode : Mode} {state target : State size Typeref}
    {action : Action Typeref}
    (stepped : (machine mode size Typeref).step state action = some target) :
    Allowed state action ∧ target = perform mode state action := by
  simp only [machine] at stepped
  split at stepped
  next allowed => exact ⟨allowed, (Option.some_inj.mp stepped).symm⟩
  next => cases stepped

/-! ### Ownership -/

section Ownership

variable [Fintype Typeref] {mode : Mode} {state : State size Typeref} {object : Option Nat}

/-- After `clear` no slot holds a reference. -/
def Emptied (move : Move (State size Typeref) (Action Typeref)) : Prop :=
  move.action = .clear → ∀ slot, move.target.refs.ref (.inl slot) = none

/-- The last element of a `FALLBACK` queue is not pulled, and `clear` is only called when the
slots are empty. -/
def Owned (mode : Mode) (state : State size Typeref) : Action Typeref → Prop
  | .pull _ => ¬ (mode = .fallback ∧ count state = 1 ∧ get state state.head ≠ none)
  | .clear => ∀ slot, state.refs.ref (.inl slot) = none
  | _ => True

omit [Fintype Typeref] in
/-- The counts have room for an object that is assigned to the first slots, one after another. -/
def RoomFirst (state : State size Typeref) (object : Option Nat) : Nat → Prop
  | 0 => True
  | max + 1 => RoomFirst state object max ∧
      Roomy (assignFirst state object max).refs.heap [object]

omit [Fintype Typeref] in
/-- A call finds room in the counts of the elements it retains. -/
def Room (mode : Mode) (state : State size Typeref) : Action Typeref → Prop
  | .push object => mode ≠ .array → count state < size - 1 →
      Roomy state.refs.heap [state.refs.ref (.inr object)]
  | .reset object => RoomFirst state (state.refs.ref (.inr object))
      (match mode with
      | .array => size
      | .fallback => 1
      | _ => 0)
  | .create data => Roomy state.refs.heap (data.map fun object => state.refs.ref (.inr object))
  | .hold _ object => Roomy state.refs.heap [object]
  | .pull _ | .pop | .clear | .release _ => True

instance decidableRoomFirst (state : State size Typeref) (object : Option Nat) :
    (max : Nat) → Decidable (RoomFirst state object max)
  | 0 => isTrue trivial
  | max + 1 =>
    have := decidableRoomFirst state object max
    inferInstanceAs (Decidable (_ ∧ _))

instance (mode : Mode) (state : State size Typeref) :
    (action : Action Typeref) → Decidable (Room mode state action)
  | .push _ => inferInstanceAs (Decidable (mode ≠ .array → count state < size - 1 → _))
  | .reset _ => decidableRoomFirst state _ _
  | .create _ | .hold _ _ => inferInstanceAs (Decidable (Roomy _ _))
  | .pull _ | .pop | .clear | .release _ => inferInstanceAs (Decidable True)

theorem accounted_assign (state : State size Typeref)
    (accounted : TypeRef.Accounted state.refs) (index : Nat)
    (alive : Alive state.refs.heap object) (room : Roomy state.refs.heap [object]) :
    TypeRef.Accounted (assign state index object).refs := by
  unfold assign
  split
  next inside => exact accounted.exchange (.inl ⟨index, inside⟩) alive room
  next => exact accounted

omit [Fintype Typeref] in
theorem assign_typeref (state : State size Typeref) (index : Nat) (object : Option Nat)
    (this : Typeref) : (assign state index object).refs.ref (.inr this) =
      state.refs.ref (.inr this) := by
  unfold assign
  split
  · exact TypeRef.exchange_ref_of_ne Sum.inr_ne_inl state.refs object
  · rfl

/-- A typeref that refers to the object keeps it alive while the slots are assigned. -/
theorem accounted_assignFirst (state : State size Typeref)
    (accounted : TypeRef.Accounted state.refs) (this : Typeref)
    (refers : state.refs.ref (.inr this) = object) (max : Nat)
    (room : RoomFirst state object max) :
    TypeRef.Accounted (assignFirst state object max).refs ∧
      (assignFirst state object max).refs.ref (.inr this) = object := by
  induction max with
  | zero => exact ⟨accounted, refers⟩
  | succ max inductionHypothesis =>
    obtain ⟨accounted', refers'⟩ := inductionHypothesis room.1
    have alive := accounted'.alive (.holder (.inr this))
    rw [TypeRef.read, refers'] at alive
    exact ⟨accounted_assign _ accounted' max alive room.2, by
      rw [assignFirst, assign_typeref, refers']⟩

omit [Fintype Typeref] in
/-- The slots are assigned alike wherever the two ends are. -/
theorem assignFirst_refs (state : State size Typeref) (object : Option Nat) (head tail max : Nat) :
    (assignFirst { state with head, tail } object max).refs =
      (assignFirst state object max).refs := by
  induction max with
  | zero => rfl
  | succ max inductionHypothesis =>
    simp only [assignFirst, assign]
    split
    · simp only [inductionHypothesis]
    · exact inductionHypothesis

theorem accounted_reset (accounted : TypeRef.Accounted state.refs) (this : Typeref)
    (room : Room mode state (.reset this)) :
    TypeRef.Accounted (reset mode state (state.refs.ref (.inr this))).refs := by
  unfold reset
  split
  next => exact accounted
  next refers =>
    rw [assignFirst_refs]
    exact (accounted_assignFirst state accounted this rfl _ room).1

theorem accounted_popHead (accounted : TypeRef.Accounted state.refs) :
    TypeRef.Accounted (popHead state).refs := by
  unfold popHead
  split
  · exact accounted_assign _ accounted _ (alive_none _) (roomy_none _)
  · exact accounted

theorem accounted_pop (accounted : TypeRef.Accounted state.refs) :
    TypeRef.Accounted (pop mode state).refs := by
  cases mode with
  | array => exact accounted
  | stack =>
    unfold pop
    dsimp only
    split
    · exact accounted_assign { state with tail := retreat size state.tail } accounted _
        (alive_none _) (roomy_none _)
    · exact accounted
  | queue => exact accounted_popHead accounted
  | fallback =>
    unfold pop
    dsimp only
    split
    · exact accounted
    · exact accounted_popHead accounted

theorem accounted_push (accounted : TypeRef.Accounted state.refs)
    (alive : Alive state.refs.heap object)
    (room : mode ≠ .array → count state < size - 1 → Roomy state.refs.heap [object]) :
    TypeRef.Accounted (push mode state object).2.refs := by
  unfold push
  split
  next => exact accounted
  next notArray =>
    split
    next => exact accounted
    next free =>
      exact accounted_assign _ accounted _ alive (room notArray (Nat.lt_of_not_le free))

/-- A reference moves from one holder to another that is empty. -/
theorem accounted_moved {refs : TypeRef.State (Fin size ⊕ Typeref)}
    (accounted : TypeRef.Accounted refs) {slot into : Fin size ⊕ Typeref} (apart : into ≠ slot)
    (empty : refs.ref into = none) :
    TypeRef.Accounted (TypeRef.store (TypeRef.store refs slot none) into (refs.ref slot)) := by
  refine ⟨?_, accounted.older⟩
  have same : TypeRef.outside (TypeRef.store (TypeRef.store refs slot none) into (refs.ref slot)) =
      TypeRef.outside refs := by
    funext other
    have left := TypeRef.outside_store refs slot none other
    have entered := TypeRef.outside_store (TypeRef.store refs slot none) into (refs.ref slot) other
    have still : (TypeRef.store refs slot none).ref into = none := by
      rw [TypeRef.store_ref_of_ne apart, empty]
    rw [points_none] at left
    rw [still, points_none] at entered
    omega
  rw [same]
  exact accounted.balanced

omit [Fintype Typeref] in
/-- What a round of `pull` takes: nothing, or the last element of a `FALLBACK` queue without
removing it, or what it removes from a slot. -/
theorem take_cases (mode : Mode) (state : State size Typeref) :
    (take mode state = (none, state)) ∨
      (mode = .fallback ∧ count state = 1 ∧ take mode state = (get state state.head, state)) ∨
      ∃ index : Nat, (take mode state).1 = (remove state index).1 ∧
        (take mode state).2.refs = (remove state index).2.refs := by
  unfold take
  by_cases empty : state.head ≠ state.tail
  · rw [if_pos empty]
    cases mode with
    | array => exact Or.inl rfl
    | stack =>
      refine Or.inr (Or.inr ⟨retreat size state.tail, ?_, ?_⟩)
      · dsimp only
        unfold remove get
        split <;> rfl
      · dsimp only
        unfold remove
        split <;> rfl
    | queue => exact Or.inr (Or.inr ⟨_, rfl, rfl⟩)
    | fallback =>
      dsimp only
      split
      next one => exact Or.inr (Or.inl ⟨rfl, one, rfl⟩)
      next => exact Or.inr (Or.inr ⟨_, rfl, rfl⟩)
  · rw [if_neg empty]
    exact Or.inl rfl

/-- What `remove` takes out of a slot goes to a typeref that is empty. -/
theorem accounted_removed (accounted : TypeRef.Accounted state.refs) {this : Typeref}
    (empty : state.refs.ref (.inr this) = none) (index : Nat) :
    TypeRef.Accounted
      (TypeRef.store (remove state index).2.refs (.inr this) (remove state index).1) := by
  unfold remove get
  by_cases inside : index < size
  · simp only [dif_pos inside]
    exact accounted_moved accounted Sum.inr_ne_inl empty
  · simp only [dif_neg inside]
    rw [TypeRef.store_self empty]
    exact accounted

omit [Fintype Typeref] in
theorem pullRound_eq (mode : Mode) (state : State size Typeref) {this : Typeref}
    (empty : (take mode state).2.refs.ref (.inr this) = none) (kind : mode ≠ .array) :
    pullRound mode state this = withRefs (take mode state).2
      (TypeRef.store (take mode state).2.refs (.inr this) (take mode state).1) := by
  unfold pullRound
  rw [if_neg kind]
  rcases took : take mode state with ⟨_ | value, left⟩
  · rw [took] at empty
    dsimp only at empty ⊢
    rw [TypeRef.store_self empty]
    rfl
  · rfl

omit [Fintype Typeref] in
theorem remove_typeref (state : State size Typeref) (index : Nat) (this : Typeref) :
    (remove state index).2.refs.ref (.inr this) = state.refs.ref (.inr this) := by
  unfold remove
  split
  · exact TypeRef.store_ref_of_ne Sum.inr_ne_inl state.refs none
  · rfl

omit [Fintype Typeref] in
theorem take_typeref (mode : Mode) (state : State size Typeref) (this : Typeref) :
    (take mode state).2.refs.ref (.inr this) = state.refs.ref (.inr this) := by
  rcases take_cases mode state with none_ | ⟨_, _, last⟩ | ⟨index, _, removed⟩
  · rw [none_]
  · rw [last]
  · rw [removed, remove_typeref]

theorem accounted_pullRound (accounted : TypeRef.Accounted state.refs) {this : Typeref}
    (empty : state.refs.ref (.inr this) = none)
    (owned : ¬ (mode = .fallback ∧ count state = 1 ∧ get state state.head ≠ none)) :
    TypeRef.Accounted (pullRound mode state this).refs := by
  by_cases kind : mode = .array
  · unfold pullRound
    rw [if_pos kind]
    exact accounted
  · have empty' := empty
    rw [← take_typeref mode] at empty'
    rw [pullRound_eq mode state empty' kind]
    unfold withRefs
    dsimp only
    have unchanged : TypeRef.store state.refs (.inr this) none = state.refs :=
      TypeRef.store_self empty
    rcases take_cases mode state with none_ | ⟨fallback, one, last⟩ | ⟨index, value, removed⟩
    · rw [none_, unchanged]
      exact accounted
    · have null : get state state.head = none := by
        by_contra some_
        exact owned ⟨fallback, one, some_⟩
      rw [last, null, unchanged]
      exact accounted
    · rw [value, removed]
      exact accounted_removed accounted empty index

omit [Fintype Typeref] in
/-- Clearing a typeref does not change what the slots hold. -/
theorem get_cleared (state : State size Typeref) (this : Typeref) :
    get { state with refs := TypeRef.clear state.refs (.inr this) } = get state := by
  funext index
  unfold get
  split
  · exact TypeRef.exchange_ref_of_ne Sum.inl_ne_inr state.refs none
  · rfl

/-- Every call that owns what it takes keeps the accounts. -/
theorem accounted_perform (accounted : TypeRef.Accounted state.refs) (action : Action Typeref)
    (allowed : Allowed state action) (room : Room mode state action)
    (owned : Owned mode state action) :
    TypeRef.Accounted (perform mode state action).refs := by
  cases action with
  | push this => exact accounted_push accounted (accounted.alive (.holder (.inr this))) room
  | pull this =>
    have cleared := accounted.exchange (.inr this) (alive_none _) (roomy_none _)
    refine accounted_pullRound cleared (TypeRef.exchange_ref_self _ _ _) ?_
    exact (get_cleared state this).symm ▸ owned
  | pop => exact accounted_pop accounted
  | reset this => exact accounted_reset accounted this room
  | clear => exact accounted
  | create data =>
    refine (accounted.create (fun ref member => ?_) room).1
    obtain ⟨this, _, rfl⟩ := List.mem_map.mp member
    exact accounted.alive (.holder (.inr this))
  | hold this object =>
    have exchanged := accounted.exchange (.inr this) allowed room
    have same : TypeRef.setObject state.refs (.inr this) object =
        TypeRef.exchange state.refs (.inr this) object := TypeRef.setObject_eq_exchange _ _ _
    rw [perform, withRefs, same]
    exact exchanged
  | release this => exact accounted.exchange (.inr this) (alive_none _) (roomy_none _)

/-- The pull of the last element of a `FALLBACK` queue leaves a count that is one short. -/
theorem not_consistent_pull (accounted : TypeRef.Accounted state.refs) {this : Typeref}
    (last : mode = .fallback ∧ count state = 1 ∧ get state state.head ≠ none) :
    ¬ TypeRef.Consistent (pull mode state this).refs := by
  obtain ⟨rfl, one, some_⟩ := last
  obtain ⟨element, holds⟩ := Option.ne_none_iff_exists'.mp some_
  have cleared := accounted.exchange (.inr this) (alive_none _) (roomy_none _)
  have apart : state.head ≠ state.tail := by
    unfold count at one
    split at one <;> omega
  rw [← get_cleared state this] at holds
  have took : take .fallback { state with refs := TypeRef.clear state.refs (.inr this) } =
      (some element, { state with refs := TypeRef.clear state.refs (.inr this) }) := by
    rw [← holds]
    unfold take
    rw [if_pos apart]
    exact if_pos one
  have stored : (pull .fallback state this).refs =
      TypeRef.store (TypeRef.clear state.refs (.inr this)) (.inr this) (some element) := by
    simp [pull, pullRound, took]
  rw [stored]
  refine cleared.not_consistent_store ?_ ?_
  · unfold get at holds
    split at holds
    next inside =>
      have alive := cleared.alive (.holder (.inl ⟨state.head, inside⟩))
      rwa [← holds]
    next => cases holds
  · rw [TypeRef.exchange_ref_self]
    exact Option.some_ne_none element |>.symm

/-- In a run on an array and typerefs, in which the counts have room for what is retained, the
count of every element is always the number of its holders, slots and typerefs, no holder refers to
a deallocated element and `clear` leaves the slots empty, exactly when the last element of a
`FALLBACK` queue is not pulled and `clear` is only called when the slots are empty already. -/
theorem arrayRef_owned_iff {moves : List (Move (State size Typeref) (Action Typeref))}
    (run : (machine mode size Typeref).Run moves state)
    (room : Machine.Meets (Room mode) moves) :
    (Machine.Throughout (fun state => TypeRef.Consistent state.refs) moves state ∧
        ∀ move ∈ moves, Emptied move) ↔
      Machine.Meets (Owned mode) moves := by
  refine (run.restrict room).sound_throughout_iff_meets
    (fun state => TypeRef.Accounted state.refs) ?_ ?_
    (fun state accounted => accounted.consistent) ?_
  · rintro state rfl
    exact .empty _
  · intro source action target accounted owned stepped
    obtain ⟨room, stepped⟩ := Machine.restrict_step stepped
    obtain ⟨allowed, rfl⟩ := step_eq_perform stepped
    refine ⟨accounted_perform accounted action allowed room owned, fun clears slot => ?_⟩
    cases clears
    exact owned slot
  · intro source action target accounted disowned stepped consistent
    obtain ⟨_, stepped⟩ := Machine.restrict_step stepped
    obtain ⟨allowed, rfl⟩ := step_eq_perform stepped
    cases action with
    | pull this =>
      exact absurd consistent (not_consistent_pull accounted (Classical.not_not.mp disowned))
    | clear => exact fun emptied => disowned (emptied rfl)
    | _ => exact absurd trivial disowned

instance (mode : Mode) (state : State size Typeref) :
    (action : Action Typeref) → Decidable (Owned mode state action)
  | .pull _ => inferInstanceAs (Decidable (¬ (mode = .fallback ∧ count state = 1 ∧
      get state state.head ≠ none)))
  | .clear => inferInstanceAs (Decidable (∀ slot, state.refs.ref (.inl slot) = none))
  | .push _ | .pop | .reset _ | .create _ | .hold _ _ | .release _ =>
    inferInstanceAs (Decidable True)

end Ownership

/-- Two elements go into a `FALLBACK` queue; the first is pulled and let go, and the second stays
when it is popped. -/
theorem arrayRef_owned_iff_fallback :
    ∃ moves, ∃ state : State 3 (Fin 1), (machine .fallback 3 (Fin 1)).Run moves state ∧
      state.refs.heap.deallocs 0 = 1 ∧ get state 1 = some 1 ∧ state.refs.heap.count 1 = 1 ∧
      Machine.Throughout (fun state => TypeRef.Consistent state.refs) moves state ∧
      ∀ move ∈ moves, Emptied move := by
  let owned := (machine .fallback 3 (Fin 1)).restrict fun state action =>
    Owned .fallback state action ∧ Room .fallback state action
  let played := owned.play
    ⟨⟨⟨0, fun _ => 0, fun _ => 0, fun _ => []⟩, fun _ => true, fun _ => none⟩, 0, 0⟩
    [.clear, .create [], .hold 0 (some 0), .push 0, .create [], .hold 0 (some 1), .push 0, .pull 0,
      .release 0, .pop]
  obtain ⟨moves, restricted⟩ : owned.Reachable (played.get (by decide)) :=
    Machine.reachable_get rfl _
  obtain ⟨run, meets⟩ := restricted.of_restrict
  obtain ⟨consistent, emptied⟩ := (arrayRef_owned_iff run fun move member =>
    (meets move member).2).mpr fun move member => (meets move member).1
  exact ⟨moves, _, run, by decide, by decide, by decide, consistent, emptied⟩

/-- The only element of a `FALLBACK` queue is pulled: the slot and the typeref both refer to it,
and its count is one. -/
theorem arrayRef_shares_element :
    ∃ moves, ∃ state : State 2 (Fin 1), (machine .fallback 2 (Fin 1)).Run moves state ∧
      get state 0 = some 0 ∧ state.refs.ref (.inr 0) = some 0 ∧ state.refs.heap.count 0 = 1 ∧
      ¬ Machine.Throughout (fun state => TypeRef.Consistent state.refs) moves state := by
  let played := (machine .fallback 2 (Fin 1)).play
    ⟨⟨⟨0, fun _ => 0, fun _ => 0, fun _ => []⟩, fun _ => true, fun _ => none⟩, 0, 0⟩
    [.create [], .hold 0 (some 0), .push 0, .release 0, .pull 0]
  obtain ⟨moves, run⟩ : (machine .fallback 2 (Fin 1)).Reachable (played.get (by decide)) :=
    Machine.reachable_get rfl _
  have counted : (played.get (by decide)).refs.heap.count 0 = 1 := by decide
  refine ⟨moves, _, run, by decide, by decide, counted, fun throughout => ?_⟩
  have counts := throughout.1.counts 0 (by decide)
  rw [counted] at counts
  exact absurd counts (by decide)

/-! ### The ring -/

section Ring

variable {mode : Mode} {state target : State size Typeref} {items : List Nat} {item : Nat}

/-- The slots from the head up to the tail hold these elements, the oldest first. -/
structure Represents (state : State size Typeref) (items : List Nat) : Prop where
  head : state.head < size
  tail : state.tail = (state.head + items.length) % size
  bounded : items.length ≤ size - 1
  cells : window (get state) size state.head items.length = items.map some

/-- The element that is taken: the newest of a stack, the oldest of a queue. -/
def taken (mode : Mode) (items : List Nat) : Option Nat :=
  if mode = .stack then items.getLast? else items.head?

/-- The elements that are left. -/
def left (mode : Mode) (items : List Nat) : List Nat :=
  if mode = .stack then items.dropLast else items.tail

/-- What a call is for: a `push` appends unless the array is full, and `pull` and `pop` take an
element. -/
def intended (mode : Mode) (state : State size Typeref) : Action Typeref → List Nat → List Nat
  | .push object, items =>
    if items.length < size - 1 then items ++ (state.refs.ref (.inr object)).toList else items
  | .pull _, items | .pop, items => left mode items
  | _, items => items

/-- The elements the calls of a run should leave. -/
def contents (mode : Mode) : List (Move (State size Typeref) (Action Typeref)) → List Nat
  | [] => []
  | move :: earlier => intended mode move.source move.action (contents mode earlier)

/-- The results of the calls: `count` is the number of elements; a `push` waits when one slot less
than all is taken, and then changes nothing; a `pull` gives the element to be taken and waits when
there is none; and a `pop` of an empty array does nothing. -/
structure Serves (mode : Mode) (state : State size Typeref) (items : List Nat) : Prop where
  counts : count state = items.length
  push_waits : ∀ object, (push mode state object).1 = false ↔ items.length = size - 1
  push_fails : ∀ object, (push mode state object).1 = false → (push mode state object).2 = state
  pull_gives : ∀ this, (pull mode state this).refs.ref (.inr this) = taken mode items
  pull_waits : (take mode state).1 = none ↔ items = []
  pop_empty : items = [] → pop mode state = state

/-- The elements pushed are not null, and the array is not reset. -/
def Plain (state : State size Typeref) : Action Typeref → Prop
  | .push object => state.refs.ref (.inr object) ≠ none
  | .reset _ | .clear => False
  | _ => True

/-- The slots from the head up to the tail, the oldest first. A null that was pushed takes a slot
as an element does. -/
structure Rings (state : State size Typeref) (cells : List (Option Nat)) : Prop where
  head : state.head < size
  tail : state.tail = (state.head + cells.length) % size
  bounded : cells.length ≤ size - 1
  cells : window (get state) size state.head cells.length = cells

/-- The slots that are left when one is taken: the newest of a stack, the oldest of a queue. -/
def remaining (mode : Mode) (cells : List (Option Nat)) : List (Option Nat) :=
  if mode = .stack then cells.dropLast else cells.tail

/-! #### Positions -/

section Positions

omit [DecidableEq Typeref]

theorem count_of_mod {head length : Nat} (inside : head < size) (room : length < size)
    (tail : state.tail = (state.head + length) % size) (same : state.head = head) :
    count state = length := by
  unfold count
  rw [tail, same]
  rcases Nat.lt_or_ge (head + length) size with below | above
  · rw [Nat.mod_eq_of_lt below, if_pos (Nat.le_add_right _ _), Nat.add_sub_cancel_left]
  · rw [Nat.mod_eq_sub_mod above, Nat.mod_eq_of_lt (by omega), if_neg (by omega)]
    omega

/-- A step back from the end of a ring segment. -/
theorem retreat_eq {head length : Nat} (inside : head < size) (room : length + 1 < size) :
    retreat size ((head + (length + 1)) % size) = (head + length) % size := by
  unfold retreat
  rcases Nat.lt_trichotomy (head + (length + 1)) size with below | last | above
  · rw [Nat.mod_eq_of_lt below, if_neg (by omega), Nat.mod_eq_of_lt (by omega)]
    omega
  · rw [last, Nat.mod_self, if_pos rfl, Nat.mod_eq_of_lt (by omega)]
    omega
  · rw [Nat.mod_eq_sub_mod above.le, Nat.mod_eq_of_lt (by omega), if_neg (by omega),
      Nat.mod_eq_sub_mod (by omega), Nat.mod_eq_of_lt (by omega)]
    omega

namespace Rings

variable {cell : Option Nat} {cells : List (Option Nat)}

theorem room (holds : Rings state cells) : cells.length < size := by
  have head := holds.head
  have bounded := holds.bounded
  omega

theorem count_eq (holds : Rings state cells) : count state = cells.length :=
  count_of_mod holds.head holds.room holds.tail rfl

theorem head_ne_tail_iff (holds : Rings state cells) : state.head ≠ state.tail ↔ cells ≠ [] := by
  have counts := holds.count_eq
  have head := holds.head
  unfold count at counts
  rw [ne_eq, ne_eq, not_iff_not, ← List.length_eq_zero_iff]
  split at counts <;> omega

theorem tail_lt (holds : Rings state cells) : state.tail < size := by
  rw [holds.tail]
  exact Nat.mod_lt _ (Nat.zero_lt_of_lt holds.head)

theorem retreat_lt (holds : Rings state cells) : retreat size state.tail < size := by
  have inside := holds.head
  have tail := holds.tail_lt
  unfold retreat
  split <;> omega

/-- The elements depend on the slots and the two ends only. -/
theorem congr (holds : Rings state cells) (same : get target = get state)
    (head : target.head = state.head) (tail : target.tail = state.tail) :
    Rings target cells :=
  ⟨head ▸ holds.head, by rw [tail, head, holds.tail], holds.bounded, by
    rw [same, head, holds.cells]⟩

/-- A reference is stored at the tail. -/
theorem append (holds : Rings state cells) (free : cells.length < size - 1)
    (stored : get target = Function.update (get state) state.tail cell)
    (head : target.head = state.head) (tail : target.tail = advance size state.tail) :
    Rings target (cells ++ [cell]) := by
  refine ⟨head ▸ holds.head, ?_, by rw [List.length_append]; exact free, ?_⟩
  · rw [tail, advance_eq_mod holds.tail_lt, head, holds.tail, Nat.mod_add_mod, List.length_append,
      List.length_singleton, Nat.add_assoc]
  · rw [List.length_append, List.length_singleton, window_succ_last, head, stored, holds.tail,
      window_update_last _ holds.room, holds.cells, Function.update_self]

/-- The slot at the head is taken. -/
theorem first (holds : Rings state (cell :: cells))
    (emptied : get target = Function.update (get state) state.head none)
    (head : target.head = advance size state.head) (tail : target.tail = state.tail) :
    Rings target cells ∧ get state state.head = cell := by
  have inside := holds.head
  have bounded := holds.bounded
  have filled := holds.cells
  rw [List.length_cons] at bounded
  rw [List.length_cons, window_succ_first, Nat.mod_eq_of_lt inside, List.cons.injEq] at filled
  refine ⟨⟨head ▸ advance_lt inside, ?_, by omega, ?_⟩, filled.1⟩
  · rw [tail, holds.tail, head, advance_eq_mod inside, Nat.mod_add_mod, List.length_cons]
    congr 1
    omega
  · rw [emptied, head, advance_eq_mod inside]
    have updated : window (Function.update (get state) (state.head % size) none) size
        ((state.head + 1) % size) cells.length =
          window (get state) size ((state.head + 1) % size) cells.length :=
      window_update_first none (by omega)
    rw [Nat.mod_eq_of_lt inside] at updated
    rw [updated, filled.2]

/-- The slot before the tail is taken. -/
theorem last (holds : Rings state (cells ++ [cell]))
    (emptied : get target = Function.update (get state) (retreat size state.tail) none)
    (head : target.head = state.head) (tail : target.tail = retreat size state.tail) :
    Rings target cells ∧ get state (retreat size state.tail) = cell := by
  have inside := holds.head
  have bounded := holds.bounded
  have room := holds.room
  have window := holds.cells
  rw [List.length_append, List.length_singleton] at bounded room window
  have back : retreat size state.tail = (state.head + cells.length) % size := by
    rw [holds.tail, List.length_append, List.length_singleton, retreat_eq inside room]
  rw [window_succ_last] at window
  obtain ⟨earlier, found⟩ := List.append_inj window (by simp)
  refine ⟨⟨head ▸ inside, by rw [tail, head, back], by omega, ?_⟩, ?_⟩
  · rw [emptied, head, back, window_update_last _ (by omega), earlier]
  · rw [back]
    exact List.head_eq_of_cons_eq found

end Rings

namespace Represents

theorem rings (holds : Represents state items) : Rings state (items.map some) :=
  ⟨holds.head, by rw [List.length_map]; exact holds.tail, by
    rw [List.length_map]; exact holds.bounded, by rw [List.length_map]; exact holds.cells⟩

theorem of_rings (holds : Rings state (items.map some)) : Represents state items := by
  obtain ⟨head, tail, bounded, cells⟩ := holds
  rw [List.length_map] at tail bounded cells
  exact ⟨head, tail, bounded, cells⟩

theorem count_eq (holds : Represents state items) : count state = items.length := by
  rw [holds.rings.count_eq, List.length_map]

theorem head_ne_tail_iff (holds : Represents state items) :
    state.head ≠ state.tail ↔ items ≠ [] := by
  rw [holds.rings.head_ne_tail_iff, ne_eq, List.map_eq_nil_iff]

/-- The elements depend on the slots and the two ends only. -/
theorem congr (holds : Represents state items) (cells : get target = get state)
    (head : target.head = state.head) (tail : target.tail = state.tail) :
    Represents target items :=
  of_rings (holds.rings.congr cells head tail)

end Represents

end Positions

/-! #### Calls -/

/-- The slots after a reference has been stored in one of them. -/
theorem get_stored {index : Nat} {object : Option Nat} (inside : index < size)
    (stored : target.refs.ref = Function.update state.refs.ref (.inl ⟨index, inside⟩) object) :
    get target = Function.update (get state) index object := by
  funext other
  by_cases same : other = index
  · subst same
    rw [Function.update_self, get, dif_pos inside, stored, Function.update_self]
  · rw [Function.update_of_ne same]
    unfold get
    by_cases inside' : other < size
    · have apart : (Sum.inl ⟨other, inside'⟩ : Fin size ⊕ Typeref) ≠ .inl ⟨index, inside⟩ := by
        simpa using same
      rw [dif_pos inside', dif_pos inside', stored, Function.update_of_ne apart]
    · rw [dif_neg inside', dif_neg inside']

/-- The slots after a reference has been stored in a typeref. -/
theorem get_typeref {this : Typeref} {object : Option Nat}
    (stored : target.refs.ref = Function.update state.refs.ref (.inr this) object) :
    get target = get state := by
  funext index
  unfold get
  rw [stored]
  split
  · rw [Function.update_of_ne Sum.inl_ne_inr]
  · rfl

/-- A typeref that is set to an element leaves the slots as they are. -/
theorem get_held (state : State size Typeref) (this : Typeref) (object : Option Nat) :
    get (withRefs state (TypeRef.setObject state.refs (.inr this) object)) = get state :=
  get_typeref (congrArg TypeRef.State.ref
    (TypeRef.setObject_eq_exchange state.refs (.inr this) object))

theorem get_assign (state : State size Typeref) {index : Nat} (inside : index < size)
    (object : Option Nat) :
    get (assign state index object) = Function.update (get state) index object :=
  get_stored inside (by simp only [assign, dif_pos inside, TypeRef.store])

theorem get_remove (state : State size Typeref) {index : Nat} (inside : index < size) :
    get (remove state index).2 = Function.update (get state) index none :=
  get_stored inside (by simp only [remove, dif_pos inside, TypeRef.store])

@[simp] theorem assign_head (state : State size Typeref) (index : Nat) (object : Option Nat) :
    (assign state index object).head = state.head := by
  unfold assign
  split <;> rfl

@[simp] theorem assign_tail (state : State size Typeref) (index : Nat) (object : Option Nat) :
    (assign state index object).tail = state.tail := by
  unfold assign
  split <;> rfl

@[simp] theorem remove_head (state : State size Typeref) (index : Nat) :
    (remove state index).2.head = state.head := by
  unfold remove
  split <;> rfl

@[simp] theorem remove_tail (state : State size Typeref) (index : Nat) :
    (remove state index).2.tail = state.tail := by
  unfold remove
  split <;> rfl

theorem remove_value (state : State size Typeref) {index : Nat} (inside : index < size) :
    (remove state index).1 = get state index := by
  rw [remove, dif_pos inside]

namespace Rings

variable {cell : Option Nat} {cells : List (Option Nat)}

/-- The branch of `pull` for a queue takes the oldest slot. -/
theorem takeHead (holds : Rings state (cell :: cells)) :
    Rings (takeHead state).2 cells ∧ (ArrayRef.takeHead state).1 = cell := by
  have inside := holds.head
  have advances : (ArrayRef.takeHead state).2.head = advance size state.head := by
    simp only [ArrayRef.takeHead, remove_head, advance]
    split <;> split <;> omega
  have emptied : get (ArrayRef.takeHead state).2 = Function.update (get state) state.head none :=
    get_remove state inside
  obtain ⟨rings, found⟩ := holds.first emptied advances (remove_tail _ _)
  exact ⟨rings, by rw [← found]; exact remove_value state inside⟩

/-- The branch of `pull` for a stack takes the newest slot. -/
theorem takeTail (holds : Rings state (cells ++ [cell])) :
    Rings (remove { state with tail := retreat size state.tail } (retreat size state.tail)).2
        cells ∧
      (remove { state with tail := retreat size state.tail } (retreat size state.tail)).1 =
        cell := by
  have inside := holds.retreat_lt
  obtain ⟨rings, found⟩ := holds.last
    (get_remove { state with tail := retreat size state.tail } inside) (remove_head _ _)
    (remove_tail _ _)
  refine ⟨rings, ?_⟩
  rw [← found]
  exact remove_value { state with tail := retreat size state.tail } inside

/-- A round of `pull` takes a slot, or finds none. -/
theorem take (holds : Rings state cells) (kind : mode = .queue ∨ mode = .stack) :
    Rings (take mode state).2 (remaining mode cells) := by
  unfold ArrayRef.take remaining
  by_cases empty : cells = []
  · have stays := mt holds.head_ne_tail_iff.mp (not_not.mpr empty)
    rw [if_neg stays]
    rw [empty] at holds ⊢
    simpa using holds
  · rw [if_pos (holds.head_ne_tail_iff.mpr empty)]
    rcases kind with rfl | rfl
    · obtain ⟨cell, rest, rfl⟩ := List.exists_cons_of_ne_nil empty
      exact holds.takeHead.1
    · obtain ⟨rest, cell, rfl⟩ := (List.eq_nil_or_concat' cells).resolve_left empty
      simpa using holds.takeTail.1

/-- `pop` removes the slot that `pull` would take. -/
theorem pop (holds : Rings state cells) (kind : mode = .queue ∨ mode = .stack) :
    Rings (pop mode state) (remaining mode cells) := by
  by_cases empty : cells = []
  · have stays := mt holds.head_ne_tail_iff.mp (not_not.mpr empty)
    have unchanged : ArrayRef.pop mode state = state := by
      rcases kind with rfl | rfl
      · exact if_neg stays
      · exact if_neg stays
    rw [unchanged, remaining, empty]
    rw [empty] at holds
    simpa using holds
  · have moves := holds.head_ne_tail_iff.mpr empty
    rcases kind with rfl | rfl
    · obtain ⟨cell, rest, rfl⟩ := List.exists_cons_of_ne_nil empty
      have popped : ArrayRef.pop .queue state =
          { assign state state.head none with head := advance size state.head } := by
        simp [ArrayRef.pop, popHead, moves]
      have emptied : get (ArrayRef.pop .queue state) =
          Function.update (get state) state.head none := by
        rw [popped]
        exact get_assign state holds.head none
      refine (holds.first emptied ?_ ?_).1
      · rw [popped]
      · rw [popped]
        exact assign_tail _ _ _
    · obtain ⟨rest, cell, rfl⟩ := (List.eq_nil_or_concat' cells).resolve_left empty
      have popped : ArrayRef.pop .stack state =
          assign { state with tail := retreat size state.tail } (retreat size state.tail) none := by
        simp [ArrayRef.pop, moves]
      have shorter : remaining .stack (rest ++ [cell]) = rest := by simp [remaining]
      rw [popped, shorter]
      exact (holds.last (get_assign { state with tail := retreat size state.tail }
        holds.retreat_lt none) (assign_head _ _ _) (assign_tail _ _ _)).1

/-- `push` fills a slot, or does nothing when the array is full. -/
theorem push (holds : Rings state cells) (kind : mode = .queue ∨ mode = .stack)
    (object : Option Nat) :
    Rings (push mode state object).2
      (if cells.length < size - 1 then cells ++ [object] else cells) := by
  have notArray : mode ≠ .array := by rcases kind with rfl | rfl <;> decide
  unfold ArrayRef.push
  rw [if_neg notArray, holds.count_eq]
  by_cases free : cells.length < size - 1
  · rw [if_pos free, if_neg (Nat.not_le_of_lt free)]
    have advances : advance size (assign state state.tail object).tail =
        advance size state.tail := by rw [assign_tail]
    exact holds.append free (get_assign state holds.tail_lt object) (assign_head _ _ _) advances
  · rw [if_neg free, if_pos (Nat.le_of_not_lt free)]
    exact holds

/-- `pull` takes a slot into a typeref that it has cleared. -/
theorem pull (holds : Rings state cells) (kind : mode = .queue ∨ mode = .stack)
    (this : Typeref) : Rings (pull mode state this) (remaining mode cells) := by
  have notArray : mode ≠ .array := by rcases kind with rfl | rfl <;> decide
  have cleared : Rings { state with refs := TypeRef.clear state.refs (.inr this) } cells :=
    holds.congr (get_cleared state this) rfl rfl
  have empty : (ArrayRef.take mode { state with refs := TypeRef.clear state.refs (.inr this) }
      ).2.refs.ref (.inr this) = none := by
    rw [take_typeref]
    exact TypeRef.exchange_ref_self _ _ _
  rw [ArrayRef.pull, pullRound_eq mode _ empty notArray]
  exact (cleared.take kind).congr (get_typeref rfl) rfl rfl

end Rings

namespace Represents

theorem remaining_map (mode : Mode) (items : List Nat) :
    remaining mode (items.map some) = (left mode items).map some := by
  unfold remaining left
  split
  · exact List.map_dropLast.symm
  · exact List.map_tail.symm

/-- A round of `pull` takes an element, or finds none. -/
theorem take (holds : Represents state items) (kind : mode = .queue ∨ mode = .stack) :
    Represents (take mode state).2 (left mode items) ∧
      (ArrayRef.take mode state).1 = taken mode items := by
  have rings := holds.rings.take kind
  rw [remaining_map] at rings
  refine ⟨of_rings rings, ?_⟩
  unfold ArrayRef.take taken
  by_cases empty : items = []
  · rw [if_neg (mt holds.head_ne_tail_iff.mp (not_not.mpr empty)), empty]
    simp
  · rw [if_pos (holds.head_ne_tail_iff.mpr empty)]
    rcases kind with rfl | rfl
    · obtain ⟨item, rest, rfl⟩ := List.exists_cons_of_ne_nil empty
      exact holds.rings.takeHead.2
    · obtain ⟨rest, item, rfl⟩ := (List.eq_nil_or_concat' items).resolve_left empty
      have rings := holds.rings
      rw [List.map_append] at rings
      simpa using rings.takeTail.2

/-- `pop` removes the element that `pull` would take, or does nothing when there is none. -/
theorem pop (holds : Represents state items) (kind : mode = .queue ∨ mode = .stack) :
    Represents (pop mode state) (left mode items) ∧
      (items = [] → ArrayRef.pop mode state = state) := by
  have rings := holds.rings.pop kind
  rw [remaining_map] at rings
  refine ⟨of_rings rings, fun empty => ?_⟩
  have stays := mt holds.head_ne_tail_iff.mp (not_not.mpr empty)
  rcases kind with rfl | rfl
  · exact if_neg stays
  · exact if_neg stays

theorem push_waits (holds : Represents state items) (kind : mode = .queue ∨ mode = .stack)
    (object : Option Nat) :
    (push mode state object).1 = false ↔ items.length = size - 1 := by
  have bounded := holds.bounded
  have notArray : mode ≠ .array := by rcases kind with rfl | rfl <;> decide
  unfold ArrayRef.push
  rw [if_neg notArray, holds.count_eq]
  split
  · simp
    omega
  · simp
    omega

/-- `push` appends an element, or does nothing when the array is full. -/
theorem push (holds : Represents state items) (kind : mode = .queue ∨ mode = .stack) (item : Nat) :
    Represents (push mode state (some item)).2
      (if items.length < size - 1 then items ++ [item] else items) := by
  have pushed := holds.rings.push kind (some item)
  rw [List.length_map] at pushed
  refine of_rings ?_
  split at pushed
  next free =>
    rw [if_pos free, List.map_append]
    exact pushed
  next full =>
    rw [if_neg full]
    exact pushed

/-- `pull` gives its typeref the element taken. -/
theorem pull (holds : Represents state items) (kind : mode = .queue ∨ mode = .stack)
    (this : Typeref) :
    Represents (pull mode state this) (left mode items) ∧
      (ArrayRef.pull mode state this).refs.ref (.inr this) = taken mode items := by
  have notArray : mode ≠ .array := by rcases kind with rfl | rfl <;> decide
  have cleared : Represents { state with refs := TypeRef.clear state.refs (.inr this) } items :=
    holds.congr (get_cleared state this) rfl rfl
  obtain ⟨represents, value⟩ := cleared.take kind
  have empty : (ArrayRef.take mode { state with refs := TypeRef.clear state.refs (.inr this) }
      ).2.refs.ref (.inr this) = none := by
    rw [take_typeref]
    exact TypeRef.exchange_ref_self _ _ _
  have pulled := pullRound_eq mode _ empty notArray
  refine ⟨?_, ?_⟩
  · rw [ArrayRef.pull, pulled]
    exact represents.congr (get_typeref rfl) rfl rfl
  · rw [ArrayRef.pull, pulled, ← value]
    exact Function.update_self _ _ _

/-- Every call leaves the elements it is for. -/
theorem step (holds : Represents state items) (kind : mode = .queue ∨ mode = .stack)
    (action : Action Typeref) (plain : Plain state action) :
    Represents (perform mode state action) (intended mode state action items) := by
  cases action with
  | push this =>
    obtain ⟨item, refers⟩ := Option.ne_none_iff_exists'.mp plain
    rw [perform, intended, refers]
    exact holds.push kind item
  | pull this => exact (holds.pull kind this).1
  | pop => exact (holds.pop kind).1
  | reset this => exact absurd plain not_false
  | clear => exact absurd plain not_false
  | create data => exact holds.congr rfl rfl rfl
  | hold this object => exact holds.congr (get_held state this object) rfl rfl
  | release this => exact holds.congr (get_cleared state this) rfl rfl

theorem serves (holds : Represents state items) (kind : mode = .queue ∨ mode = .stack) :
    Serves mode state items := by
  refine ⟨holds.count_eq, holds.push_waits kind, fun object fails => ?_,
    fun this => (holds.pull kind this).2, ?_, (holds.pop kind).2⟩
  · unfold ArrayRef.push at fails ⊢
    split at fails
    next array => rw [if_pos array]
    next array =>
      split at fails
      next full => rw [if_neg array, if_pos full]
      next => cases fails
  · rw [(holds.take kind).2, taken]
    split <;> simp

end Represents

/-- In every run on an array of at least two slots that serves as a queue or a stack, in which
elements are pushed, pulled and popped, the slots hold the elements that the calls should leave, at
most one less than there are slots, and every call does what it is for. -/
theorem arrayRef_ring (kind : mode = .queue ∨ mode = .stack) (large : 2 ≤ size)
    {moves : List (Move (State size Typeref) (Action Typeref))}
    (run : (machine mode size Typeref).Run moves state) (plain : Machine.Meets Plain moves) :
    Represents state (contents mode moves) ∧ Serves mode state (contents mode moves) := by
  have represents : Represents state (contents mode moves) := by
    induction run with
    | @start state initial =>
      obtain rfl := initial
      have notArray : mode ≠ .array := by rcases kind with rfl | rfl <;> decide
      refine ⟨Nat.lt_of_lt_of_le Nat.zero_lt_two large, ?_, Nat.zero_le _, rfl⟩
      simp [contents, notArray]
    | next run action stepped inductionHypothesis =>
      obtain ⟨last, earlier⟩ := Machine.meets_cons.mp plain
      obtain ⟨_, rfl⟩ := step_eq_perform stepped
      exact (inductionHypothesis earlier).step kind action last
  exact ⟨represents, represents.serves kind⟩

instance (state : State size Typeref) : (action : Action Typeref) → Decidable (Plain state action)
  | .push object => inferInstanceAs (Decidable (state.refs.ref (.inr object) ≠ none))
  | .reset _ | .clear => inferInstanceAs (Decidable False)
  | .pull _ | .pop | .create _ | .hold _ _ | .release _ => inferInstanceAs (Decidable True)

end Ring

/-- A queue of three slots is filled, emptied by a pull and a pop, and filled again: its tail has
wrapped. -/
theorem arrayRef_ring_wrapped :
    ∃ moves, ∃ state : State 3 (Fin 2), (machine .queue 3 (Fin 2)).Run moves state ∧
      state.head = 2 ∧ state.tail = 1 ∧ count state = 2 ∧
      Represents state (contents .queue moves) ∧ Serves .queue state (contents .queue moves) := by
  let played := ((machine .queue 3 (Fin 2)).restrict Plain).play
    ⟨⟨⟨0, fun _ => 0, fun _ => 0, fun _ => []⟩, fun _ => true, fun _ => none⟩, 0, 0⟩
    [.create [], .hold 0 (some 0), .push 0, .push 0, .push 0, .pull 1, .pop, .push 0, .push 0]
  obtain ⟨moves, restricted⟩ : ((machine .queue 3 (Fin 2)).restrict Plain).Reachable
      (played.get (by decide)) := Machine.reachable_get rfl _
  obtain ⟨run, plain⟩ := restricted.of_restrict
  obtain ⟨represents, serves⟩ := arrayRef_ring (Or.inl rfl) (by decide) run plain
  exact ⟨moves, _, run, by decide, by decide, by decide, represents, serves⟩

end ArrayRef

end CommonCpp
