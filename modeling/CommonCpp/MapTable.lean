/-
This file models `MapTable`, a table of hash chains with a free list in one more slot
of the same array, and shows exactly when its chains, its counter, its search and the
iteration over it agree with the objects that were put in.

The tables share the objects and their links. An object is on one chain at most: in
the bucket of its id in the table it is attached to, or on a free list. What the
operations are for is kept beside the fields, as the objects of each table, the one
added last first, and the objects of each free list; a bucket is then the part of
its table's list that hashes to it. Nothing in the code reads these lists.

Three widths limit it. The array is allocated for a number of slots that is computed
in 32 bits, the search for the last object starts from an `int`, and the counter is
not checked.
-/

import Mathlib.Algebra.Group.Nat.Defs
import Mathlib.Data.Fin.VecNotation
import Mathlib.Data.Fintype.Card
import CommonCpp.Machine
import CommonCpp.Links

namespace CommonCpp

open Concurrency Memory

namespace MapTable

/-! ### The code -/

/-- What does not change in a run: the ids of the objects, as bytes up to the terminating null, and
the ranges of the tables. -/
structure Setup (Object Table : Type) where
  idObject : Object → List UInt8
  range : Table → Nat
  positive : ∀ this, 0 < range this
  word : ∀ this, range this < 2 ^ 32

/-- The fields of all objects and all tables. `map` gives what a slot of a table's array holds. -/
structure Fields (Object Table : Type) where
  nextObject : Object → Option Object
  table : Object → Option Table
  map : Table × Nat → Option Object
  count : Table → Nat

/-- What the operations are for: the objects attached to a table and those on its free list, the
latest first. -/
structure Lists (Object Table : Type) where
  attached : Table → List Object
  free : Table → List Object

structure State (Object Table : Type) where
  fields : Fields Object Table
  lists : Lists Object Table

/-- The calls. `addObject` is also `operator+=`, and `remove` is `operator-=`. -/
inductive Action (Object Table : Type)
  | addObject (this : Table) (obj : Object)
  | remove (this : Table) (obj : Object)
  | detach (this : Object)
  | addFree (this : Table) (obj : Object)
  | getFree (this : Table)

/-- A byte as `stricmp` compares it. -/
def lower (char : UInt8) : UInt8 :=
  if 65 ≤ char ∧ char ≤ 90 then char + 32 else char

/-- `stricmp` returns zero. -/
def sameId (id id' : List UInt8) : Bool :=
  id.map lower = id'.map lower

/-- The loop of `getIndex`. -/
def key (id : List UInt8) : UInt32 :=
  id.foldl (fun key char => (key <<< 1) ^^^ (char.toUInt32 &&& 0x1f)) 0

variable {Object Table : Type}

section Code

variable (setup : Setup Object Table)

def getIndex (this : Table) (id : List UInt8) : Nat :=
  (key id).toNat % setup.range this

/-- The slot of an object in a table. -/
def slot (this : Table) (obj : Object) : Table × Nat :=
  (this, getIndex setup this (setup.idObject obj))

/-- The slot behind the buckets. -/
def freeSlot (this : Table) : Table × Nat :=
  (this, setup.range this)

/-- `operator++` of an index at an object. -/
def increment (fields : Fields Object Table) (thisObject : Object) : Option Object :=
  match fields.nextObject thisObject with
  | some following => some following
  | none =>
    match fields.table thisObject with
    | some table =>
      let i := getIndex setup table (setup.idObject thisObject) + 1
      (List.range' i (setup.range table - i)).findSome? fun i => fields.map (table, i)
    | none => some thisObject

def getFirst (fields : Fields Object Table) (this : Table) : Option Object :=
  (List.range (setup.range this)).findSome? fun i => fields.map (this, i)

variable [Fintype Object]

/-- The search. It has no outcome when the bucket has no end. -/
def getObject (fields : Fields Object Table) (this : Table) (id : List UInt8) :
    Option (Option Object) :=
  (walk fields.nextObject (fun obj => sameId (setup.idObject obj) id) (Fintype.card Object) none
    (fields.map (this, getIndex setup this id))).map Prod.snd

/-- The search for the last object. Its index is an `int`, which a range above `2 ^ 31` makes
negative from the start. -/
def getLast (fields : Fields Object Table) (this : Table) : Option (Option Object) :=
  if 2 ^ 31 ≤ setup.range this - 1 then some none
  else
    match (List.range (setup.range this)).reverse.findSome? fun i => fields.map (this, i) with
    | some obj => (follow fields.nextObject (Fintype.card Object) obj).map some
    | none => some none

variable [DecidableEq Object] [DecidableEq Table]

/-- `detach` of an object. It has no outcome when the bucket has no end. -/
def detach (fields : Fields Object Table) (this : Object) : Option (Fields Object Table) :=
  match fields.table this with
  | none => some fields
  | some table =>
    let idx := slot setup table this
    (walk fields.nextObject (fun node => node = this) (Fintype.card Object) none
      (fields.map idx)).map fun (prev, node) =>
        let fields := match node, prev with
          | some _, none =>
            { fields with map := Function.update fields.map idx (fields.nextObject this) }
          | some _, some prev =>
            { fields with nextObject :=
                Function.update fields.nextObject prev (fields.nextObject this) }
          | none, _ => fields
        { fields with
          count := Function.update fields.count table ((fields.count table + (2 ^ 32 - 1)) % 2 ^ 32)
          table := Function.update fields.table this none }

omit [Fintype Object] [DecidableEq Object] in
def getFree (fields : Fields Object Table) (this : Table) :
    Option Object × Fields Object Table :=
  match fields.map (freeSlot setup this) with
  | some obj => (some obj,
      { fields with map := Function.update fields.map (freeSlot setup this)
                      (fields.nextObject obj) })
  | none => (none, fields)

def addFree (fields : Fields Object Table) (this : Table) (obj : Object) :
    Option (Fields Object Table) :=
  (detach setup fields obj).map fun fields =>
    { fields with
      nextObject := Function.update fields.nextObject obj (fields.map (freeSlot setup this))
      map := Function.update fields.map (freeSlot setup this) (some obj) }

def addObject (fields : Fields Object Table) (this : Table) (obj : Object) :
    Option (Fields Object Table) :=
  let idx := slot setup this obj
  if fields.table obj = some this then some fields
  else (detach setup fields obj).map fun fields =>
    { nextObject := Function.update fields.nextObject obj (fields.map idx)
      map := Function.update fields.map idx (some obj)
      table := Function.update fields.table obj (some this)
      count := Function.update fields.count this ((fields.count this + 1) % 2 ^ 32) }

/-- `operator-=`. -/
def remove (fields : Fields Object Table) (this : Table) (obj : Object) :
    Option (Fields Object Table) :=
  if fields.table obj = some this then detach setup fields obj else some fields

def perform (fields : Fields Object Table) : Action Object Table → Option (Fields Object Table)
  | .addObject this obj => addObject setup fields this obj
  | .remove this obj => remove setup fields this obj
  | .detach this => detach setup fields this
  | .addFree this obj => addFree setup fields this obj
  | .getFree this => some (getFree setup fields this).2

end Code

/-! ### The machine -/

section Intent

variable [DecidableEq Object]

/-- The lists after an object has been taken off those it is attached to. -/
def Lists.without (lists : Lists Object Table) (object : Object) : Lists Object Table :=
  { lists with attached := fun this => (lists.attached this).filter fun other => other ≠ object }

variable [DecidableEq Table]

/-- What a call does to the lists. -/
def intended (lists : Lists Object Table) : Action Object Table → Lists Object Table
  | .addObject this object =>
    if object ∈ lists.attached this then lists
    else
      ⟨Function.update (lists.without object).attached this (object :: lists.attached this),
        lists.free⟩
  | .remove this object => if object ∈ lists.attached this then lists.without object else lists
  | .detach object => lists.without object
  | .addFree this object =>
    ⟨(lists.without object).attached,
      Function.update lists.free this (object :: lists.free this)⟩
  | .getFree this => { lists with free := Function.update lists.free this (lists.free this).tail }

end Intent

/-- An object on a free list is only taken back by `getFree`. -/
def Allowed (lists : Lists Object Table) : Action Object Table → Prop
  | .addObject _ object | .addFree _ object => ∀ this, object ∉ lists.free this
  | _ => True

instance [DecidableEq Object] [Fintype Table] (lists : Lists Object Table) :
    DecidablePred (Allowed lists)
  | .addObject _ object | .addFree _ object =>
    inferInstanceAs (Decidable (∀ this, object ∉ lists.free this))
  | .remove _ _ | .detach _ | .getFree _ => inferInstanceAs (Decidable True)

section Machine

variable [Fintype Object] [Fintype Table] [DecidableEq Object] [DecidableEq Table]
  (setup : Setup Object Table)

def step (state : State Object Table) (action : Action Object Table) :
    Option (State Object Table) :=
  if Allowed state.lists action then
    (perform setup state.fields action).map fun fields => ⟨fields, intended state.lists action⟩
  else none

/-- The runs of tables and objects from their constructors on. The link of an object is not
initialized. -/
def machine : Machine (State Object Table) (Action Object Table) where
  Init state := ∃ nextObject, state =
    ⟨⟨nextObject, fun _ => none, fun _ => none, fun _ => 0⟩, ⟨fun _ => [], fun _ => []⟩⟩
  step := step setup

end Machine

/-- The objects that are on the chain of a slot. -/
def chain [DecidableEq Table] (setup : Setup Object Table) (lists : Lists Object Table)
    (place : Table × Nat) : List Object :=
  if place.2 = setup.range place.1 then lists.free place.1
  else (lists.attached place.1).filter fun object => slot setup place.1 object = place

/-- A table's array has a slot for its free list; the objects attached to it are those that name
it, each on the chain of its slot and on no other; the counter counts them; the search finds the one
added last of those it looks for; the iteration passes each of them once and the last object last; a
free object is what was freed last; and every call has an outcome. -/
structure Sound [Fintype Object] [DecidableEq Object] [DecidableEq Table]
    (setup : Setup Object Table) (state : State Object Table) : Prop where
  inside : ∀ this, setup.range this < (setup.range this + 1) % 2 ^ 32
  chains : Paths state.fields.nextObject state.fields.map (chain setup state.lists)
  attached : ∀ this object,
    object ∈ state.lists.attached this ↔ state.fields.table object = some this
  once : ∀ this, (state.lists.attached this).Nodup
  count : ∀ this, state.fields.count this = (state.lists.attached this).length
  getObject : ∀ this id, getObject setup state.fields this id =
    some ((state.lists.attached this).find? fun object => sameId (setup.idObject object) id)
  iterated : ∀ this, ∃ visited,
    Path (increment setup state.fields) (getFirst setup state.fields this) visited none ∧
      visited.Perm (state.lists.attached this) ∧
        getLast setup state.fields this = some visited.getLast?
  getFree : ∀ this, (getFree setup state.fields this).1 = (state.lists.free this).head?
  answers : ∀ action, Allowed state.lists action → (perform setup state.fields action).isSome

/-- A call that attaches an object to a table leaves room in the counter, and the table is not too
long for an `int`. -/
def Roomy (setup : Setup Object Table) (state : State Object Table) : Action Object Table → Prop
  | .addObject this obj => state.fields.table obj = some this ∨
      setup.range this ≤ 2 ^ 31 ∧ state.fields.count this + 1 < 2 ^ 32
  | _ => True

instance [DecidableEq Table] (setup : Setup Object Table) (state : State Object Table) :
    (action : Action Object Table) → Decidable (Roomy setup state action)
  | .addObject this obj => inferInstanceAs (Decidable (state.fields.table obj = some this ∨
      setup.range this ≤ 2 ^ 31 ∧ state.fields.count this + 1 < 2 ^ 32))
  | .remove _ _ | .detach _ | .addFree _ _ | .getFree _ => inferInstanceAs (Decidable True)

/-! ### The hash -/

/-- The hash does not see the bits that `stricmp` ignores. -/
theorem hashed_lower (char : UInt8) :
    (lower char).toUInt32 &&& 0x1f = char.toUInt32 &&& 0x1f := by
  unfold lower
  split
  next letter =>
    rw [← UInt32.toNat_inj]
    have small := UInt8.le_iff_toNat_le.mp letter.2
    simp only [UInt32.toNat_and, UInt8.toNat_toUInt32, UInt8.toNat_add, UInt32.reduceToNat,
      UInt8.reduceToNat] at small ⊢
    rw [Nat.mod_eq_of_lt (by omega)]
    have masked : ∀ value, value &&& 31 = value % 32 := fun value =>
      Nat.and_two_pow_sub_one_eq_mod value 5
    rw [masked, masked, Nat.add_mod_right]
  next => rfl

theorem key_lower (id : List UInt8) : key (id.map lower) = key id := by
  unfold key
  rw [List.foldl_map]
  simp only [hashed_lower]

theorem getIndex_lt (setup : Setup Object Table) (this : Table) (id : List UInt8) :
    getIndex setup this id < setup.range this :=
  Nat.mod_lt _ (setup.positive this)

/-- Ids that are the same for the search are in the same bucket. -/
theorem getIndex_of_sameId {setup : Setup Object Table} {this : Table} {id id' : List UInt8}
    (same : sameId id id') : getIndex setup this id = getIndex setup this id' := by
  unfold getIndex
  rw [← key_lower id, ← key_lower id', of_decide_eq_true same]

/-! ### The chains -/

section Chains

variable [DecidableEq Table] {setup : Setup Object Table} {lists : Lists Object Table}

omit [DecidableEq Table] in
theorem slot_ne_freeSlot (setup : Setup Object Table) (this other : Table) (object : Object) :
    slot setup this object ≠ freeSlot setup other := by
  intro same
  obtain ⟨rfl, last⟩ := Prod.mk.inj same
  exact absurd last (Nat.ne_of_lt (getIndex_lt setup this _))

theorem chain_freeSlot (this : Table) : chain setup lists (freeSlot setup this) = lists.free this :=
  if_pos rfl

theorem chain_of_ne {place : Table × Nat} (bucket : place ≠ freeSlot setup place.1) :
    chain setup lists place =
      (lists.attached place.1).filter fun object => slot setup place.1 object = place :=
  if_neg fun last => bucket (Prod.ext rfl last)

/-- An object is on the chain of its slot in a table, or on the table's free list. -/
theorem mem_chain {place : Table × Nat} {object : Object} :
    object ∈ chain setup lists place ↔
      (place = freeSlot setup place.1 ∧ object ∈ lists.free place.1) ∨
        (slot setup place.1 object = place ∧ object ∈ lists.attached place.1) := by
  by_cases last : place = freeSlot setup place.1
  · have other := slot_ne_freeSlot setup place.1 place.1 object
    rw [← last] at other
    rw [last, chain_freeSlot]
    rw [← last]
    exact ⟨fun member => Or.inl ⟨last, member⟩,
      fun on => on.elim And.right fun bucket => absurd bucket.1 other⟩
  · rw [chain_of_ne last, List.mem_filter, decide_eq_true_eq]
    simp only [last, false_and, false_or, and_comm]

theorem not_mem_chain {object : Object} (unattached : ∀ this, object ∉ lists.attached this)
    (unfree : ∀ this, object ∉ lists.free this) (place : Table × Nat) :
    object ∉ chain setup lists place := by
  rw [mem_chain, not_or]
  exact ⟨fun on => unfree _ on.2, fun on => unattached _ on.2⟩

theorem mem_chain_slot {this : Table} {object : Object} :
    object ∈ chain setup lists (slot setup this object) ↔ object ∈ lists.attached this := by
  rw [mem_chain]
  constructor
  · rintro (⟨last, _⟩ | ⟨_, member⟩)
    · exact absurd last (slot_ne_freeSlot setup _ _ object)
    · exact member
  · exact fun member => Or.inr ⟨rfl, member⟩

theorem chain_attach (this : Table) (object : Object) :
    chain setup
        ⟨Function.update lists.attached this (object :: lists.attached this), lists.free⟩ =
      Function.update (chain setup lists) (slot setup this object)
        (object :: chain setup lists (slot setup this object)) := by
  funext place
  by_cases last : place = freeSlot setup place.1
  · have other := (slot_ne_freeSlot setup this place.1 object).symm
    rw [last, Function.update_of_ne other, chain_freeSlot, chain_freeSlot]
  · rw [chain_of_ne last]
    by_cases here : place = slot setup this object
    · rw [here, Function.update_self, chain_of_ne (slot_ne_freeSlot setup _ _ object)]
      simp [slot]
    · rw [Function.update_of_ne here, chain_of_ne last]
      by_cases same : place.1 = this
      · simp only [same, Function.update_self]
        exact List.filter_cons_of_neg (by simpa using Ne.symm here)
      · simp only [Function.update_of_ne same]

theorem chain_free (this : Table) (list : List Object) :
    chain setup ⟨lists.attached, Function.update lists.free this list⟩ =
      Function.update (chain setup lists) (freeSlot setup this) list := by
  funext place
  by_cases here : place = freeSlot setup this
  · rw [here, Function.update_self, chain_freeSlot]
    exact Function.update_self _ _ _
  · rw [Function.update_of_ne here]
    by_cases last : place = freeSlot setup place.1
    · have other : place.1 ≠ this := fun same => here (same ▸ last)
      rw [last, chain_freeSlot, chain_freeSlot]
      exact Function.update_of_ne other _ _
    · rw [chain_of_ne last, chain_of_ne last]

variable [DecidableEq Object]

theorem chain_without {object : Object} (unfree : ∀ this, object ∉ lists.free this)
    (place : Table × Nat) : chain setup (lists.without object) place =
      (chain setup lists place).filter fun other => other ≠ object := by
  by_cases last : place = freeSlot setup place.1
  · rw [last, chain_freeSlot, chain_freeSlot]
    refine (List.filter_eq_self.mpr fun other member => decide_eq_true ?_).symm
    exact ne_of_mem_of_not_mem member (unfree _)
  · rw [chain_of_ne last, chain_of_ne last]
    exact List.filter_comm _ _ _

omit [DecidableEq Table]

theorem not_attached_without (lists : Lists Object Table) (object : Object) (this : Table) :
    object ∉ (lists.without object).attached this := by
  simp [Lists.without]

theorem without_of_not_mem {this : Table} {object : Object}
    (unattached : object ∉ lists.attached this) :
    (lists.without object).attached this = lists.attached this :=
  List.filter_eq_self.mpr fun _ member =>
    decide_eq_true (ne_of_mem_of_not_mem member unattached)

theorem without_eq_self {object : Object} (unattached : ∀ this, object ∉ lists.attached this) :
    lists.without object = lists :=
  congrArg₂ Lists.mk (funext fun this => without_of_not_mem (unattached this)) rfl

theorem length_without {this : Table} {object : Object} (once : (lists.attached this).Nodup)
    (member : object ∈ lists.attached this) :
    ((lists.without object).attached this).length + 1 = (lists.attached this).length := by
  have erased : (lists.without object).attached this = (lists.attached this).erase object := by
    rw [once.erase_eq_filter]
    exact List.filter_congr fun other _ => decide_not
  rw [erased, List.length_erase_of_mem member]
  exact Nat.sub_add_cancel (List.length_pos_of_mem member)

end Chains

/-! ### The invariant -/

structure Invariant [DecidableEq Table] (setup : Setup Object Table)
    (fields : Fields Object Table) (lists : Lists Object Table) : Prop where
  chains : Paths fields.nextObject fields.map (chain setup lists)
  attached : ∀ this object,
    object ∈ lists.attached this ↔ fields.table object = some this
  once : ∀ this, (lists.attached this).Nodup
  count : ∀ this, fields.count this = (lists.attached this).length
  bounded : ∀ this, (lists.attached this).length < 2 ^ 32
  short : ∀ this, lists.attached this ≠ [] → setup.range this ≤ 2 ^ 31

namespace Invariant

section Steps

variable [DecidableEq Object] [DecidableEq Table] {setup : Setup Object Table}
  {fields : Fields Object Table} {lists : Lists Object Table}

omit [DecidableEq Object] in
theorem not_free (holds : Invariant setup fields lists) {this other : Table} {object : Object}
    (member : object ∈ lists.attached this) : object ∉ lists.free other := by
  intro free
  have bucket : object ∈ chain setup lists (slot setup this object) := mem_chain_slot.mpr member
  rw [← @chain_freeSlot _ _ _ setup] at free
  exact slot_ne_freeSlot setup this other object (holds.chains.apart bucket free)

/-- An object comes off the chain it is attached to. -/
theorem detach [Fintype Object] (holds : Invariant setup fields lists) (object : Object) :
    ∃ fields', MapTable.detach setup fields object = some fields' ∧
      Invariant setup fields' (lists.without object) := by
  cases owned : fields.table object with
  | none =>
    have unattached : ∀ this, object ∉ lists.attached this := fun this member => by
      rw [holds.attached this object, owned] at member
      cases member
    rw [without_eq_self unattached]
    exact ⟨fields, by rw [MapTable.detach, owned], holds⟩
  | some table =>
    have member := (holds.attached table object).mpr owned
    have bucket : object ∈ chain setup lists (slot setup table object) := mem_chain_slot.mpr member
    obtain ⟨first, last, split⟩ := List.append_of_mem bucket
    have path := holds.chains.path (slot setup table object)
    have once := holds.chains.once (slot setup table object)
    have chains := holds.chains.detach split
    rw [split] at path once
    have walked := walk_of_mem path once once.length_le_card
    have removed : MapTable.detach setup fields object = some
        { nextObject := first.getLast?.elim fields.nextObject fun prior =>
            Function.update fields.nextObject prior (fields.nextObject object)
          map := if first.getLast? = none then
              Function.update fields.map (slot setup table object) (fields.nextObject object)
            else fields.map
          table := Function.update fields.table object none
          count := Function.update fields.count table
            ((fields.count table + (2 ^ 32 - 1)) % 2 ^ 32) } := by
      simp only [MapTable.detach, owned, walked, Option.map_some]
      cases first.getLast? <;> rfl
    refine ⟨_, removed, ?_, ?_, ?_, ?_, ?_, ?_⟩
    · rw [funext (chain_without fun this => holds.not_free member)]
      exact chains
    · intro this other
      by_cases same : other = object
      · simp [same, Lists.without]
      · simp [same, Lists.without, ← holds.attached this other]
    · exact fun this => (holds.once this).filter _
    · intro this
      by_cases same : this = table
      · have counted := holds.count table
        have bounded := holds.bounded table
        have length := length_without (holds.once table) member
        rw [same]
        refine (Function.update_self _ _ _).trans ?_
        omega
      · have outside : object ∉ lists.attached this := fun inner => by
          rw [holds.attached this object, owned] at inner
          exact same (Option.some_inj.mp inner).symm
        rw [without_of_not_mem outside, ← holds.count this]
        exact Function.update_of_ne same _ _
    · exact fun this => (List.length_filter_le _ _).trans_lt (holds.bounded this)
    · exact fun this some_ => holds.short this fun none_ => some_ (by simp [Lists.without, none_])

/-- An object that is on no chain is put in front of a bucket. -/
theorem attach (holds : Invariant setup fields lists) {this : Table} {object : Object}
    (unattached : ∀ other, object ∉ lists.attached other)
    (unfree : ∀ other, object ∉ lists.free other)
    (short : setup.range this ≤ 2 ^ 31) (room : fields.count this + 1 < 2 ^ 32) :
    Invariant setup
      { nextObject := Function.update fields.nextObject object (fields.map (slot setup this object))
        map := Function.update fields.map (slot setup this object) (some object)
        table := Function.update fields.table object (some this)
        count := Function.update fields.count this ((fields.count this + 1) % 2 ^ 32) }
      ⟨Function.update lists.attached this (object :: lists.attached this), lists.free⟩ where
  chains := by
    rw [chain_attach]
    exact holds.chains.push (not_mem_chain unattached unfree) _
  attached other object' := by
    by_cases same : object' = object
    · rw [same]
      by_cases here : other = this
      · simp [here]
      · simp [here, Ne.symm here, unattached other]
    · by_cases here : other = this
      · simp [here, same, ← holds.attached this object']
      · simp [here, same, ← holds.attached other object']
  once other := by
    by_cases here : other = this
    · simp [here, unattached this, holds.once this]
    · simp [here, holds.once other]
  count other := by
    by_cases here : other = this
    · rw [holds.count this] at room
      simpa [here, holds.count this] using room
    · simp [here, holds.count other]
  bounded other := by
    rw [holds.count this] at room
    by_cases here : other = this
    · simpa [here] using room
    · simpa [here] using holds.bounded other
  short other some_ := by
    by_cases here : other = this
    · rwa [here]
    · exact holds.short other (by simpa [here] using some_)

/-- An object that is on no chain is put in front of a free list. -/
theorem addFree (holds : Invariant setup fields lists) (this : Table) {object : Object}
    (unattached : ∀ other, object ∉ lists.attached other)
    (unfree : ∀ other, object ∉ lists.free other) :
    Invariant setup
      { fields with
        nextObject := Function.update fields.nextObject object (fields.map (freeSlot setup this))
        map := Function.update fields.map (freeSlot setup this) (some object) }
      ⟨lists.attached, Function.update lists.free this (object :: lists.free this)⟩ where
  chains := by
    rw [chain_free, ← @chain_freeSlot _ _ _ setup]
    exact holds.chains.push (not_mem_chain unattached unfree) _
  attached := holds.attached
  once := holds.once
  count := holds.count
  bounded := holds.bounded
  short := holds.short

omit [DecidableEq Object] in
/-- The first object is taken off a free list. -/
theorem getFree (holds : Invariant setup fields lists) (this : Table) :
    (MapTable.getFree setup fields this).1 = (lists.free this).head? ∧
      Invariant setup (MapTable.getFree setup fields this).2
        { lists with free := Function.update lists.free this (lists.free this).tail } := by
  have path := holds.chains.path (freeSlot setup this)
  rw [chain_freeSlot] at path
  unfold MapTable.getFree
  cases list : lists.free this with
  | nil =>
    rw [list] at path
    have unchanged : Function.update lists.free this [] = lists.free :=
      Function.update_eq_self_iff.mpr list.symm
    have empty : fields.map (freeSlot setup this) = none := path
    simp only [empty, List.tail_nil, unchanged]
    exact ⟨rfl, holds⟩
  | cons object rest =>
    rw [list] at path
    have split : chain setup lists (freeSlot setup this) = object :: rest := by
      rw [chain_freeSlot, list]
    simp only [path.1]
    refine ⟨rfl, ?_, holds.attached, holds.once, holds.count, holds.bounded, holds.short⟩
    rw [List.tail_cons, chain_free]
    exact holds.chains.pop split

variable [Fintype Object]

theorem addObject (holds : Invariant setup fields lists) {this : Table} {obj : Object}
    (unfree : ∀ other, obj ∉ lists.free other) :
    ∃ fields', MapTable.addObject setup fields this obj = some fields' ∧
      (Roomy setup ⟨fields, lists⟩ (.addObject this obj) →
        Invariant setup fields' (intended lists (.addObject this obj))) := by
  unfold MapTable.addObject
  by_cases present : fields.table obj = some this
  · have member := (holds.attached this obj).mpr present
    simp only [present, if_true, intended, member]
    exact ⟨fields, rfl, fun _ => holds⟩
  · have absent : obj ∉ lists.attached this := fun member =>
      present ((holds.attached this obj).mp member)
    obtain ⟨fields', detached, off⟩ := holds.detach obj
    simp only [if_neg present, detached, Option.map_some, intended, if_neg absent]
    refine ⟨_, rfl, fun roomy => ?_⟩
    obtain ⟨short, room⟩ := roomy.resolve_left present
    have kept := without_of_not_mem absent
    have counted : fields'.count this = fields.count this := by
      rw [off.count this, kept, holds.count this]
    have attached := off.attach (not_attached_without lists obj) unfree short
      (by rw [counted]; exact room)
    rw [kept] at attached
    exact attached

theorem perform (holds : Invariant setup fields lists) {action : Action Object Table}
    (allowed : Allowed lists action) :
    ∃ fields', MapTable.perform setup fields action = some fields' ∧
      (Roomy setup ⟨fields, lists⟩ action →
        Invariant setup fields' (intended lists action)) := by
  cases action with
  | addObject this obj => exact holds.addObject allowed
  | remove this obj =>
    obtain ⟨fields', detached, off⟩ := holds.detach obj
    simp only [MapTable.perform, MapTable.remove, intended, holds.attached this obj]
    split
    next => exact ⟨fields', detached, fun _ => off⟩
    next => exact ⟨fields, rfl, fun _ => holds⟩
  | detach this =>
    obtain ⟨fields', detached, off⟩ := holds.detach this
    exact ⟨fields', detached, fun _ => off⟩
  | addFree this obj =>
    obtain ⟨fields', detached, off⟩ := holds.detach obj
    simp only [MapTable.perform, MapTable.addFree, detached, Option.map_some]
    exact ⟨_, rfl, fun _ => off.addFree this (not_attached_without lists obj) allowed⟩
  | getFree this => exact ⟨_, rfl, fun _ => (holds.getFree this).2⟩

end Steps

/-! #### Reading a table -/

section Readings

variable [DecidableEq Table] {setup : Setup Object Table} {fields : Fields Object Table}
  {lists : Lists Object Table}

/-- The bucket of an index holds the objects of the table that hash to it. -/
theorem bucket (holds : Invariant setup fields lists) (this : Table) {index : Nat}
    (inside : index < setup.range this) :
    Path fields.nextObject (fields.map (this, index))
      ((lists.attached this).filter fun object => slot setup this object = (this, index)) none := by
  have path := holds.chains.path (this, index)
  rwa [chain_of_ne fun last => Nat.ne_of_lt inside (Prod.mk.inj last).2] at path

theorem getObject [Fintype Object] (holds : Invariant setup fields lists) (this : Table)
    (id : List UInt8) : MapTable.getObject setup fields this id =
      some ((lists.attached this).find? fun object => sameId (setup.idObject object) id) := by
  have once := (holds.once this).filter fun object =>
    slot setup this object = (this, getIndex setup this id)
  rw [MapTable.getObject, walk_find _
    (holds.bucket this (getIndex_lt setup this id)) once.length_le_card, List.find?_filter]
  congr 2
  funext object
  by_cases same : sameId (setup.idObject object) id
  · simp [same, slot, getIndex_of_sameId same]
  · simp [same]

/-- The objects of a table in the order of its buckets. -/
def visited (setup : Setup Object Table) (lists : Lists Object Table) (this : Table) :
    List Object :=
  (List.range (setup.range this)).flatMap fun index =>
    (lists.attached this).filter fun object => slot setup this object = (this, index)

theorem visited_perm (holds : Invariant setup fields lists) (this : Table) :
    (visited setup lists this).Perm (lists.attached this) := by
  have once : (visited setup lists this).Nodup := by
    refine List.nodup_flatMap.mpr ⟨fun index _ => (holds.once this).filter _, ?_⟩
    refine List.nodup_range.imp fun {index other} different object on on' => ?_
    have here := of_decide_eq_true (List.mem_filter.mp on).2
    have here' := of_decide_eq_true (List.mem_filter.mp on').2
    exact different (Prod.mk.inj (here.symm.trans here')).2
  refine (List.perm_ext_iff_of_nodup once (holds.once this)).mpr fun object => ?_
  simp only [visited, List.mem_flatMap, List.mem_range, List.mem_filter, decide_eq_true_eq]
  constructor
  · rintro ⟨_, _, member, _⟩
    exact member
  · exact fun member => ⟨_, getIndex_lt setup this _, member, rfl⟩

theorem path_visited (holds : Invariant setup fields lists) (this : Table) :
    Path (increment setup fields) (getFirst setup fields this) (visited setup lists this) none := by
  unfold getFirst visited
  rw [List.range_eq_range']
  refine Path.scan (fun index inside => holds.bucket this ?_) fun index _ _ object member => ?_
  · rwa [Nat.zero_add] at inside
  · obtain ⟨member, here⟩ := List.mem_filter.mp member
    have owned := (holds.attached this object).mp member
    have same : getIndex setup this (setup.idObject object) = index :=
      (Prod.mk.inj (of_decide_eq_true here)).2
    unfold increment
    cases fields.nextObject object <;> simp [owned, same]

theorem getLast [Fintype Object] (holds : Invariant setup fields lists) (this : Table) :
    MapTable.getLast setup fields this = some (visited setup lists this).getLast? := by
  unfold MapTable.getLast
  split
  next long =>
    have none_ : lists.attached this = [] := by
      by_contra some_
      have short := holds.short this some_
      omega
    have empty := holds.visited_perm this
    rw [none_, List.perm_nil] at empty
    rw [empty, List.getLast?_nil]
  next =>
    unfold visited
    rw [List.getLast?_flatMap]
    refine follow_of_paths _ (fun index inside => holds.bucket this ?_) fun index _ => ?_
    · exact List.mem_range.mp (List.mem_reverse.mp inside)
    · exact ((holds.once this).filter _).length_le_card

theorem sound [Fintype Object] [DecidableEq Object] (holds : Invariant setup fields lists)
    (small : ∀ this, setup.range this + 1 < 2 ^ 32) : Sound setup ⟨fields, lists⟩ where
  inside this := by
    rw [Nat.mod_eq_of_lt (small this)]
    exact Nat.lt_succ_self _
  chains := holds.chains
  attached := holds.attached
  once := holds.once
  count := holds.count
  getObject := holds.getObject
  iterated this := ⟨_, holds.path_visited this, holds.visited_perm this, holds.getLast this⟩
  getFree this := (holds.getFree this).1
  answers action allowed := by
    obtain ⟨fields', performed, _⟩ := holds.perform allowed
    rw [performed]
    rfl

end Readings

end Invariant

/-! ### The result -/

section Runs

variable [Fintype Object] [Fintype Table] [DecidableEq Object] [DecidableEq Table]
  {setup : Setup Object Table}

theorem initially {state : State Object Table} (initial : (machine setup).Init state) :
    Invariant setup state.fields state.lists := by
  obtain ⟨nextObject, rfl⟩ := initial
  have empty : ∀ place, chain setup ⟨fun _ => [], fun _ => []⟩ place = [] := by
    intro place
    unfold chain
    split <;> rfl
  refine ⟨⟨fun place => ?_, fun place => ?_, fun {place _ object} member => ?_⟩,
    fun this object => ?_, fun _ => List.nodup_nil, fun _ => rfl, fun _ => Nat.two_pow_pos 32,
    fun _ some_ => absurd rfl some_⟩
  · rw [empty]
    rfl
  · rw [empty]
    exact List.nodup_nil
  · rw [empty] at member
    cases member
  · simp

omit [Fintype Table] in
/-- The last object is found in a table that is not too long for an `int`. -/
theorem Sound.short {state : State Object Table} (sound : Sound setup state) (this : Table)
    (some_ : state.lists.attached this ≠ []) : setup.range this ≤ 2 ^ 31 := by
  by_contra long
  obtain ⟨visited, _, same, last⟩ := sound.iterated this
  rw [getLast, if_pos (by omega), Option.some_inj, eq_comm, List.getLast?_eq_none_iff] at last
  rw [last] at same
  exact some_ (List.nil_perm.mp same)

omit [Fintype Table] in
/-- An object that is attached to a table without room leaves it unsound at once. -/
theorem not_sound_of_not_roomy {fields target : Fields Object Table} {lists : Lists Object Table}
    (holds : Invariant setup fields lists) {action : Action Object Table}
    (crowded : ¬ Roomy setup ⟨fields, lists⟩ action)
    (performed : perform setup fields action = some target) :
    ¬ Sound setup ⟨target, intended lists action⟩ := by
  intro sound
  cases action with
  | addObject this obj =>
    obtain ⟨present, crowded⟩ := not_or.mp crowded
    have absent : obj ∉ lists.attached this := fun member =>
      present ((holds.attached this obj).mp member)
    obtain ⟨fields', detached, off⟩ := holds.detach obj
    simp only [perform, addObject, if_neg present, detached, Option.map_some,
      Option.some_inj] at performed
    subst performed
    have list : (intended lists (.addObject this obj)).attached this =
        obj :: lists.attached this := by
      rw [intended, if_neg absent]
      exact Function.update_self _ _ _
    by_cases room : fields.count this + 1 < 2 ^ 32
    · exact crowded ⟨sound.short this (by simp [list]), room⟩
    · have counted : (fields'.count this + 1) % 2 ^ 32 = (lists.attached this).length + 1 := by
        have count := sound.count this
        rw [list] at count
        exact (Function.update_self _ _ _).symm.trans count
      rw [off.count this, without_of_not_mem absent] at counted
      rw [holds.count this] at room
      have bounded := holds.bounded this
      omega
  | remove | detach | addFree | getFree => exact crowded trivial

/-- In a run of map tables the chains, the counters, the search, the iteration and the free lists
agree throughout with the objects put in exactly when no range is the largest one, and whenever an
object is attached, its table has room for it in the counter and is not too long for an `int`. -/
theorem mapTable_sound_iff {moves : List (Move (State Object Table) (Action Object Table))}
    {state : State Object Table} (run : (machine setup).Run moves state) :
    Machine.Throughout (Sound setup) moves state ↔
      (∀ this, setup.range this + 1 < 2 ^ 32) ∧ Machine.Meets (Roomy setup) moves := by
  by_cases small : ∀ this, setup.range this + 1 < 2 ^ 32
  · rw [and_iff_right small]
    refine run.throughout_iff_meets (fun state => Invariant setup state.fields state.lists)
      (fun state => initially) ?_ (fun state holds => holds.sound small) ?_
    · intro source action target holds roomy stepped
      simp only [machine, step] at stepped
      split at stepped
      next allowed =>
        obtain ⟨fields, performed, after⟩ := holds.perform allowed
        rw [performed, Option.map_some, Option.some_inj] at stepped
        subst stepped
        exact after roomy
      next => cases stepped
    · intro source action target holds crowded stepped
      simp only [machine, step] at stepped
      split at stepped
      next allowed =>
        obtain ⟨fields, performed, rfl⟩ := Option.map_eq_some_iff.mp stepped
        exact not_sound_of_not_roomy holds crowded performed
      next => cases stepped
  · refine iff_of_false (fun throughout => small fun this => ?_) fun both => small both.1
    have inside := throughout.1.inside this
    have word := setup.word this
    by_contra largest
    have wraps : setup.range this + 1 = 2 ^ 32 := by omega
    rw [wraps, Nat.mod_self] at inside
    exact absurd inside (Nat.not_lt_zero _)

end Runs

/-- Two tables, and objects two of which have ids that differ in case. One object moves to the other
table, one is freed, taken back and attached again. -/
theorem mapTable_sound_iff_moved :
    ∃ (setup : Setup (Fin 4) (Fin 2)) (moves : _) (state : State (Fin 4) (Fin 2)),
      (machine setup).Run moves state ∧
        state.fields.table = ![some 0, some 0, some 1, some 0] ∧
        getObject setup state.fields 0 [0x61] = some (some 1) ∧
        getFirst setup state.fields 0 = some 3 ∧
        getLast setup state.fields 0 = some (some 0) ∧
        Machine.Throughout (Sound setup) moves state := by
  let setup : Setup (Fin 4) (Fin 2) :=
    ⟨![[0x61], [0x41], [0x62], [0x63]], ![3, 2], by decide, by decide⟩
  let played := ((machine setup).restrict (Roomy setup)).play
    ⟨⟨fun _ => none, fun _ => none, fun _ => none, fun _ => 0⟩, ⟨fun _ => [], fun _ => []⟩⟩
    [.addObject 0 0, .addObject 0 1, .addObject 0 2, .addObject 1 2, .addFree 1 1, .addObject 0 3,
      .getFree 1, .addObject 0 1]
  obtain ⟨moves, restricted⟩ : ((machine setup).restrict (Roomy setup)).Reachable
      (played.get (by decide)) :=
    Machine.reachable_of_play ⟨_, rfl⟩ (Option.some_get _).symm
  obtain ⟨run, meets⟩ := restricted.of_restrict
  exact ⟨setup, moves, _, run, by decide, by decide, by decide, by decide,
    (mapTable_sound_iff run).mpr ⟨by decide, meets⟩⟩

/-- A table of `2 ^ 31 + 1` slots: its only object is attached, and there is no last one. -/
theorem mapTable_loses_last :
    ∃ (setup : Setup (Fin 1) (Fin 1)) (moves : _) (state : State (Fin 1) (Fin 1)),
      (machine setup).Run moves state ∧ state.fields.table 0 = some 0 ∧
        getLast setup state.fields 0 = some none ∧
        ¬ Machine.Throughout (Sound setup) moves state := by
  let setup : Setup (Fin 1) (Fin 1) := ⟨fun _ => [], fun _ => 2 ^ 31 + 1, by decide, by decide⟩
  let played := (machine setup).play
    ⟨⟨fun _ => none, fun _ => none, fun _ => none, fun _ => 0⟩, ⟨fun _ => [], fun _ => []⟩⟩
    [.addObject 0 0]
  obtain ⟨moves, run⟩ : (machine setup).Reachable (played.get (by decide)) :=
    Machine.reachable_of_play ⟨_, rfl⟩ (Option.some_get _).symm
  refine ⟨setup, moves, _, run, by decide, by decide, fun throughout => ?_⟩
  exact absurd (throughout.1.short 0 (by decide)) (by decide)

end MapTable

end CommonCpp
