/-
This file models `mapped_pointer`, a hash table of pointers guarded by a
`ConditionalLock`, and its base `MappedPointer`.

The loops of `get` and `remove` walk the chain of a path. The loop of `set` never
moves on: it stays at the first node of the chain for ever when that node has
another key, and keeps the lock. A lookup leaves the lock with the caller, who
releases it with the pointer it has got, but not when that pointer is null. The
table is the finite map of the keys to the pointers set last, and the lock is
balanced, exactly when neither happens, and a page has room for the array of the paths:
the constructor asks the pager for the whole of it, which throws when it is larger.

Keys are pointers themselves. A null key has the path 0, and equals no key. Two keys
are equal when they point to the same bytes, or to the same text. Nodes are numbered
in the order of their allocation. A walk that passes more nodes than have been
allocated goes round a circle, and has no outcome. The lock is counted here: how
often it was taken and given back each way. The pages of the pager are those of the
system, which have room for a lock; how a page is divided is not modelled.
-/

import Mathlib.Algebra.Group.Nat.Defs
import Mathlib.Data.Finmap
import CommonCpp.Links
import CommonCpp.Machine
import CommonCpp.MapRef
import CommonCpp.Memalloc

namespace CommonCpp

open Concurrency Memory

namespace MappedPointer

/-! ### Keys -/

/-- `MappedPointer::keypath`. -/
def keypath (bytes : List UInt8) : UInt64 :=
  bytes.foldl (fun value byte => (value <<< 3) ^^^ byte.toUInt64) (UInt64.ofNat bytes.length)

/-- A type of keys: what it takes for two to be equal, and the path of each. The path is that of
the content equal keys have in common. -/
class MappedKey (Key : Type) where
  Content : Type
  decidable : DecidableEq Content
  content : Key → Content
  keyequal : Key → Key → Bool
  keypath : Key → UInt64
  hash : Content → UInt64
  equal_iff : ∀ first second, keyequal first second = true ↔ content first = content second
  keypath_eq : ∀ key, keypath key = hash (content key)

open MappedKey (Content content)

instance (Key : Type) [MappedKey Key] : DecidableEq (Content Key) := MappedKey.decidable

/-- An object of a type of this size. -/
structure ObjectKey (size : Nat) where
  bytes : Vector UInt8 size

instance (size : Nat) : MappedKey (ObjectKey size) where
  Content := Vector UInt8 size
  decidable := inferInstance
  content := ObjectKey.bytes
  keyequal first second := first.bytes == second.bytes
  keypath key := MappedPointer.keypath key.bytes.toList
  hash bytes := MappedPointer.keypath bytes.toList
  equal_iff _ _ := beq_iff_eq
  keypath_eq _ := rfl

theorem charsKey_equal_iff (first second : MapRef.CharsKey) :
    (first.text == second.text) = true ↔ first.text = second.text :=
  beq_iff_eq

instance : MappedKey MapRef.CharsKey where
  Content := List UInt8
  decidable := inferInstance
  content := MapRef.CharsKey.text
  keyequal first second := first.text == second.text
  keypath key := MappedPointer.keypath key.text
  hash text := MappedPointer.keypath text
  equal_iff := charsKey_equal_iff
  keypath_eq _ := rfl

variable {Key V : Type}

/-- `mapped_keypath`. -/
def mappedKeypath [MappedKey Key] : Option Key → Nat
  | some key => (MappedKey.keypath key).toNat
  | none => 0

/-- `mapped_keyequal`. -/
def mappedKeyequal [MappedKey Key] : Option Key → Option Key → Bool
  | some first, some second => MappedKey.keyequal first second
  | _, _ => false

/-! ### The code -/

/-- How often the lock was taken and given back. -/
structure Lock where
  modifies : Nat
  commits : Nat
  accesses : Nat
  releases : Nat

/-- The fields of a `MappedPointer`, and those of its nodes: the link, the key and the value. -/
structure Table (Key V : Type) where
  pagesize : Nat
  paths : Nat
  list : Nat → Option Nat
  free : Option Nat
  alloc : Nat
  next : Nat → Option Nat
  key : Nat → Option Key
  value : Nat → Option V
  lock : Lock

/-- A table of no node. -/
def Table.empty (pagesize indexes : Nat) : Table Key V :=
  ⟨pagesize, indexes, fun _ => none, none, 0, fun _ => none, fun _ => none, fun _ => none,
    ⟨0, 0, 0, 0⟩⟩

/-- `pager.alloc(size)` throws `std::length_error`. -/
def large (pagesize size : Nat) : Bool := size > Memalloc.sub pagesize Memalloc.headerSize

/-- `MappedPointer(indexes)`, on pages of this size. It throws when its array is larger than a page.
When the product has wrapped, the paths leave the array. -/
def create (pagesize indexes : Nat) : Option (Table Key V) :=
  let size := Memalloc.pointerSize * indexes % 2 ^ 64
  if large pagesize size then none
  else if size < Memalloc.pointerSize * indexes then none
  else some (Table.empty pagesize indexes)

/-- `sizeof(Index)`: the table of its virtual methods, the link, the key and the value. -/
def indexSize : Nat := 32

/-- `lock->commit()`. -/
def commit (table : Table Key V) : Table Key V :=
  { table with lock := { table.lock with commits := table.lock.commits + 1 } }

/-- `lock->release()`. -/
def unshare (table : Table Key V) : Table Key V :=
  { table with lock := { table.lock with releases := table.lock.releases + 1 } }

/-- `MappedPointer::access`. -/
def access (table : Table Key V) (path : Nat) : Option Nat × Table Key V :=
  (table.list (path % table.paths),
    { table with lock := { table.lock with accesses := table.lock.accesses + 1 } })

/-- `MappedPointer::modify`. -/
def modify (table : Table Key V) (path : Nat) : Option Nat × Table Key V :=
  (table.list (path % table.paths),
    { table with lock := { table.lock with modifies := table.lock.modifies + 1 } })

/-- `MappedPointer::release`. -/
def release (table : Table Key V) (object : Option V) : Table Key V :=
  match object with
  | some _ => unshare table
  | none => table

/-- `MappedPointer::replace`. -/
def replace (table : Table Key V) (ind : Nat) (object : Option V) : Table Key V :=
  commit { table with value := Function.update table.value ind object }

/-- `LinkedObject::delist` from the chain of a path. -/
def delist (table : Table Key V) (this root : Nat) : Option (Table Key V) :=
  (walk table.next (fun node => node = this) table.alloc none (table.list root)).map
    fun (prior, node) =>
      match node, prior with
      | none, _ => table
      | some _, none => { table with list := Function.update table.list root (table.next this) }
      | some _, some prior =>
        { table with next := Function.update table.next prior (table.next this) }

/-- `MappedPointer::remove`. -/
def remove (table : Table Key V) (ind path : Nat) : Option (Table Key V) :=
  (delist table ind (path % table.paths)).map fun table =>
    commit { table with
      next := Function.update table.next ind table.free
      free := some ind
      key := Function.update table.key ind none
      value := Function.update table.value ind none }

/-- The node of `MappedPointer::insert`: the first one that is free, or another from the pager. -/
def allocate (table : Table Key V) : Option (Nat × Table Key V) :=
  match table.free with
  | some node => some (node, { table with free := table.next node })
  | none =>
    if large table.pagesize indexSize then none
    else some (table.alloc, { table with alloc := table.alloc + 1 })

/-- `MappedPointer::insert`. -/
def insert (table : Table Key V) (key : Option Key) (value : Option V) (path : Nat) :
    Option (Table Key V) :=
  (allocate table).map fun (ind, table) =>
    let root := path % table.paths
    commit { table with
      next := Function.update table.next ind (table.list root)
      list := Function.update table.list root (some ind)
      key := Function.update table.key ind key
      value := Function.update table.value ind value }

variable [MappedKey Key]

/-- `mapped_pointer::remove`. -/
def removeKey (table : Table Key V) (key : Option Key) : Option (Table Key V) :=
  let path := mappedKeypath key
  let (first, table) := modify table path
  (walk table.next (fun node => mappedKeyequal (table.key node) key) table.alloc none first).bind
    fun (_, node) =>
      match node with
      | some node => remove table node path
      | none => some (commit table)

/-- `mapped_pointer::get`. -/
def get (table : Table Key V) (key : Option Key) : Option (Option V × Table Key V) :=
  let (first, table) := access table (mappedKeypath key)
  (walk table.next (fun node => mappedKeyequal (table.key node) key) table.alloc none first).map
    fun (_, node) =>
      match node with
      | some node => (table.value node, table)
      | none => (none, unshare table)

/-- The loop of `mapped_pointer::set`, which has no `ip.next()`. -/
def setLoop (table : Table Key V) (key : Option Key) : Nat → Option Nat → Option (Option Nat)
  | _, none => some none
  | 0, some _ => none
  | fuel + 1, some node =>
    if mappedKeyequal (table.key node) key then some (some node)
    else setLoop table key fuel (some node)

/-- `mapped_pointer::set`. -/
def set (table : Table Key V) (key : Option Key) (ptr : Option V) : Option (Table Key V) :=
  let path := mappedKeypath key
  let (first, table) := modify table path
  (setLoop table key (table.alloc + 1) first).bind fun node =>
    match node with
    | some node => some (replace table node ptr)
    | none => insert table key ptr path

/-! ### Calls -/

/-- A table, the finite map it is used as, and whether a call hangs in it or throws. -/
structure State (Key V : Type) [MappedKey Key] where
  table : Table Key V
  bindings : Finmap fun _ : Content Key => Option V
  hung : Bool

/-- A lookup is followed by the release of what it has found. -/
inductive Action (Key V : Type)
  | set (key : Option Key) (ptr : Option V)
  | get (key : Option Key)
  | remove (key : Option Key)

/-- The finite map after a call. -/
def intended (bindings : Finmap fun _ : Content Key => Option V) :
    Action Key V → Finmap fun _ : Content Key => Option V
  | .set (some key) ptr => bindings.insert (content key) ptr
  | .remove (some key) => bindings.erase (content key)
  | _ => bindings

/-- The table after a call. -/
def perform (table : Table Key V) : Action Key V → Option (Table Key V)
  | .set key ptr => set table key ptr
  | .get key => (get table key).map fun (object, table) => release table object
  | .remove key => removeKey table key

/-- A table that has been constructed, or that has not. -/
def initial (pagesize indexes : Nat) : State Key V where
  table := (create pagesize indexes).getD (Table.empty pagesize indexes)
  bindings := ∅
  hung := (create pagesize indexes : Option (Table Key V)).isNone

/-- The machine of `mapped_pointer(indexes)`, on pages of this size. A call that does not come to an
end hangs, and no other is made. -/
def machine (Key V : Type) [MappedKey Key] (pagesize indexes : Nat) :
    Machine (State Key V) (Action Key V) where
  Init state := state = initial pagesize indexes
  step state action :=
    if state.hung then none
    else
      match perform state.table action with
      | some table => some ⟨table, intended state.bindings action, false⟩
      | none => some ⟨state.table, state.bindings, true⟩

/-- What a key is bound to. -/
def bound (bindings : Finmap fun _ : Content Key => Option V) (key : Option Key) :
    Option (Option V) :=
  key.bind fun key => bindings.lookup (content key)

/-- The table serves as the finite map, no call hangs in it, and its lock is balanced. -/
structure Refines (state : State Key V) : Prop where
  ended : state.hung = false
  get_eq : ∀ key, (get state.table key).map Prod.fst = some (bound state.bindings key).join
  exclusive : state.table.lock.modifies = state.table.lock.commits
  shared : state.table.lock.accesses = state.table.lock.releases

/-- A call that changes the table commits once. -/
def CommitsOnce (move : Move (State Key V) (Action Key V)) : Prop :=
  (∀ key, move.action ≠ .get key) →
    move.target.table.lock.commits = move.source.table.lock.commits + 1

/-- A page has room for the array of so many paths, behind its header. -/
def Roomy (pagesize indexes : Nat) : Prop :=
  Memalloc.headerSize + Memalloc.pointerSize * indexes ≤ pagesize

instance (pagesize indexes : Nat) : Decidable (Roomy pagesize indexes) :=
  inferInstanceAs (Decidable (_ ≤ _))

/-- The size of the pages of a system: they are no smaller than this, and counted by a `size_t`. -/
structure SystemPage (pagesize : Nat) : Prop where
  least : 4096 ≤ pagesize
  counted : pagesize < 2 ^ 64

/-- A key is set when its path has no node yet, or has a first node with this key. A key that is
bound to null is not looked up. -/
def Ends (state : State Key V) : Action Key V → Prop
  | .set key _ => ∀ first, state.table.list (mappedKeypath key % state.table.paths) = some first →
      mappedKeyequal (state.table.key first) key = true
  | .get key => bound state.bindings key ≠ some none
  | .remove _ => True

/-! ### The finite map -/

variable {table : Table Key V} {bindings : Finmap fun _ : Content Key => Option V}
  {spare : List Nat} {key : Option Key} {node : Nat}

/-- The path of the keys with this content. -/
def bucket (paths : Nat) (name : Content Key) : Nat := (MappedKey.hash name).toNat % paths

/-- What the key of a node has in common with the keys equal to it. -/
def name (table : Table Key V) (node : Nat) : Option (Content Key) :=
  (table.key node).map content

/-- Every path has one node at most, and the nodes bind their keys like this. The other nodes are
free. -/
structure Holds (table : Table Key V) (spare : List Nat)
    (bindings : Finmap fun _ : Content Key => Option V) : Prop where
  system : SystemPage table.pagesize
  nonempty : 0 < table.paths
  single : ∀ root < table.paths, ∀ node, table.list root = some node → table.next node = none
  apart : ∀ root < table.paths, ∀ other < table.paths, ∀ node, table.list root = some node →
    table.list other = some node → root = other
  used : ∀ root < table.paths, ∀ node, table.list root = some node →
    node ∉ spare ∧ node < table.alloc
  free : Path table.next table.free spare none
  distinct : spare.Nodup
  spared : ∀ node ∈ spare, node < table.alloc
  binds : ∀ content ptr, bindings.lookup content = some ptr ↔
    ∃ node, table.list (bucket table.paths content) = some node ∧
      name table node = some content ∧ table.value node = ptr

theorem mappedKeyequal_iff (table : Table Key V) (node : Nat) (key : Option Key) :
    mappedKeyequal (table.key node) key = true ↔
      ∃ content', key.map content = some content' ∧ name table node = some content' := by
  unfold name
  cases table.key node with
  | none => cases key <;> simp [mappedKeyequal]
  | some kv =>
    cases key with
    | none => simp [mappedKeyequal]
    | some key => simp [mappedKeyequal, MappedKey.equal_iff]

theorem mappedKeypath_eq (paths : Nat) (key : Key) :
    mappedKeypath (some key) % paths = bucket paths (content key) := by
  rw [mappedKeypath, bucket, MappedKey.keypath_eq]

/-- A page of a system has room for a node. -/
theorem not_large {pagesize : Nat} (system : SystemPage pagesize) :
    large pagesize indexSize = false := by
  have least := system.least
  have room : Memalloc.sub pagesize Memalloc.headerSize = pagesize - 16 :=
    Memalloc.sub_of_le system.counted (by unfold Memalloc.headerSize; omega)
  unfold large indexSize
  rw [room, decide_eq_false_iff_not]
  omega

omit [MappedKey Key] in
/-- The constructor makes a table of no node exactly when a page has room for its array. -/
theorem create_eq {pagesize : Nat} (system : SystemPage pagesize) (indexes : Nat) :
    (create pagesize indexes : Option (Table Key V)) =
      if Roomy pagesize indexes then some (Table.empty pagesize indexes) else none := by
  have least := system.least
  have counted := system.counted
  have room : Memalloc.sub pagesize Memalloc.headerSize = pagesize - 16 :=
    Memalloc.sub_of_le system.counted (by unfold Memalloc.headerSize; omega)
  unfold create large
  rw [room]
  unfold Memalloc.pointerSize
  simp only [decide_eq_true_eq]
  by_cases roomy : Roomy pagesize indexes
  · have fits : 16 + 8 * indexes ≤ pagesize := roomy
    rw [if_pos roomy, if_neg (by omega), if_neg (by omega)]
  · have exceeds : ¬ 16 + 8 * indexes ≤ pagesize := roomy
    rw [if_neg roomy]
    by_cases large : 8 * indexes % 2 ^ 64 > pagesize - 16
    · rw [if_pos large]
    · rw [if_neg large, if_pos (by omega)]

theorem initial_of_roomy {pagesize indexes : Nat} (system : SystemPage pagesize)
    (roomy : Roomy pagesize indexes) :
    (initial pagesize indexes : State Key V) = ⟨Table.empty pagesize indexes, ∅, false⟩ := by
  unfold initial
  rw [create_eq system, if_pos roomy]
  rfl

theorem hung_of_not_roomy {pagesize indexes : Nat} (system : SystemPage pagesize)
    (large : ¬ Roomy pagesize indexes) : (initial pagesize indexes : State Key V).hung = true := by
  unfold initial
  rw [create_eq system, if_neg large]
  rfl

/-- A loop of `set` at a node with another key never ends. -/
theorem setLoop_hangs (differs : mappedKeyequal (table.key node) key = false) (fuel : Nat) :
    setLoop table key fuel (some node) = none := by
  induction fuel with
  | zero => rfl
  | succ fuel inductionHypothesis =>
    rw [setLoop, differs]
    exact inductionHypothesis

namespace Holds

theorem inside (holds : Holds table spare bindings) (path : Nat) :
    path % table.paths < table.paths :=
  Nat.mod_lt _ holds.nonempty

/-- A key no node of its path has is not bound. -/
theorem bound_of_missed (holds : Holds table spare bindings)
    (missed : ∀ node, table.list (mappedKeypath key % table.paths) = some node →
      mappedKeyequal (table.key node) key = false) : bound bindings key = none := by
  by_contra isBound
  obtain ⟨ptr, isBound⟩ := Option.ne_none_iff_exists'.mp isBound
  obtain ⟨key, rfl, lookup⟩ := Option.bind_eq_some_iff.mp isBound
  obtain ⟨node, leads, named, _⟩ := (holds.binds _ _).mp lookup
  rw [← mappedKeypath_eq] at leads
  have equal : mappedKeyequal (table.key node) (some key) = true :=
    (mappedKeyequal_iff table node _).mpr ⟨content key, rfl, named⟩
  rw [missed node leads] at equal
  cases equal

/-- A key is bound to the value of the node that has it. -/
theorem bound_of_found (holds : Holds table spare bindings)
    (leads : table.list (mappedKeypath key % table.paths) = some node)
    (found : mappedKeyequal (table.key node) key = true) :
    bound bindings key = some (table.value node) := by
  obtain ⟨content', has, named⟩ := (mappedKeyequal_iff table node key).mp found
  obtain ⟨key, rfl, rfl⟩ := Option.map_eq_some_iff.mp has
  rw [mappedKeypath_eq] at leads
  exact (holds.binds _ _).mpr ⟨node, leads, named, rfl⟩

/-- The loop of a lookup ends, at the node of the path if that has the key. -/
theorem walked (holds : Holds table spare bindings) (key : Option Key) :
    (∃ prior, walk table.next (fun node => mappedKeyequal (table.key node) key) table.alloc none
        (table.list (mappedKeypath key % table.paths)) = some (prior, none)) ∧
      (∀ node, table.list (mappedKeypath key % table.paths) = some node →
        mappedKeyequal (table.key node) key = false) ∨
    ∃ node, table.list (mappedKeypath key % table.paths) = some node ∧
      mappedKeyequal (table.key node) key = true ∧
      walk table.next (fun node => mappedKeyequal (table.key node) key) table.alloc none
        (table.list (mappedKeypath key % table.paths)) = some (none, some node) := by
  cases leads : table.list (mappedKeypath key % table.paths) with
  | none =>
    have path : Path table.next none [] none := rfl
    exact Or.inl ⟨⟨none, walk_of_missed path (by simp) (Nat.zero_le _) none⟩,
      fun node same => by cases same⟩
  | some node =>
    have inside := holds.inside (mappedKeypath key)
    have path : Path table.next (some node) [node] none :=
      ⟨rfl, holds.single _ inside node leads⟩
    have enough : [node].length ≤ table.alloc :=
      Nat.one_le_of_lt (holds.used _ inside node leads).2
    rcases walk_cases (fun node => mappedKeyequal (table.key node) key) path enough with
      ⟨missed, walked⟩ | ⟨first, other, last, whole, _, found, walked⟩
    · refine Or.inl ⟨⟨_, walked⟩, fun other same => missed other ?_⟩
      rw [← Option.some_inj.mp same]
      exact List.mem_singleton_self _
    · cases first with
      | nil =>
        cases whole
        exact Or.inr ⟨node, rfl, found, walked⟩
      | cons head rest => simp at whole

/-- A lookup gives what the key is bound to. The lock stays with the caller when there is a node
with the key. -/
theorem get (holds : Holds table spare bindings) (key : Option Key) :
    get table key = some ((bound bindings key).join,
      if (bound bindings key).isSome then (access table (mappedKeypath key)).2
      else unshare (access table (mappedKeypath key)).2) := by
  rw [MappedPointer.get]
  simp only [access]
  rcases holds.walked key with ⟨⟨prior, walked⟩, missed⟩ | ⟨node, leads, found, walked⟩
  · rw [walked, holds.bound_of_missed missed]
    rfl
  · rw [walked, holds.bound_of_found leads found]
    rfl

/-- Only the lock is not part of what holds. -/
theorem relock (holds : Holds table spare bindings) (lock : Lock) :
    Holds { table with lock } spare bindings :=
  ⟨holds.system, holds.nonempty, holds.single, holds.apart, holds.used, holds.free, holds.distinct,
    holds.spared, holds.binds⟩

theorem erase_of_missed (holds : Holds table spare bindings)
    (missed : ∀ node, table.list (mappedKeypath key % table.paths) = some node →
      mappedKeyequal (table.key node) key = false) :
    intended bindings (.remove key : Action Key V) = bindings := by
  have free := holds.bound_of_missed missed
  cases key with
  | none => rfl
  | some key =>
    refine Finmap.ext_lookup fun content' => ?_
    by_cases same : content' = content key
    · rw [intended, same, Finmap.lookup_erase]
      exact free.symm
    · exact Finmap.lookup_erase_ne same

/-- The node of a path is taken off and becomes the first free one. -/
theorem unlinked (holds : Holds table spare bindings)
    (leads : table.list (mappedKeypath key % table.paths) = some node)
    (found : mappedKeyequal (table.key node) key = true) :
    Holds { table with
        list := Function.update table.list (mappedKeypath key % table.paths) none
        next := Function.update table.next node table.free
        free := some node
        key := Function.update table.key node none
        value := Function.update table.value node none } (node :: spare)
      (intended bindings (.remove key : Action Key V)) := by
  have inside := holds.inside (mappedKeypath key)
  obtain ⟨off, below⟩ := holds.used _ inside node leads
  -- the other paths lead to other nodes
  have others : ∀ root < table.paths, ∀ other,
      Function.update table.list (mappedKeypath key % table.paths) none root = some other →
        table.list root = some other ∧ other ≠ node := by
    intro root inside' other leads'
    by_cases same : root = mappedKeypath key % table.paths
    · rw [same, Function.update_self] at leads'
      cases leads'
    · rw [Function.update_of_ne same] at leads'
      refine ⟨leads', fun equal => same ?_⟩
      exact holds.apart _ inside' _ inside node (equal ▸ leads') leads
  refine ⟨holds.system, holds.nonempty, fun root inside' other leads' => ?_,
    fun root inside' root' inside'' other leads' leads'' => ?_,
    fun root inside' other leads' => ?_, ⟨rfl, ?_⟩, List.nodup_cons.mpr ⟨off, holds.distinct⟩,
    List.forall_mem_cons.mpr ⟨below, holds.spared⟩, fun content' ptr => ?_⟩
  · obtain ⟨before, differs⟩ := others root inside' other leads'
    exact (Function.update_of_ne differs _ _).trans (holds.single root inside' other before)
  · exact holds.apart root inside' root' inside'' other (others root inside' other leads').1
      (others root' inside'' other leads'').1
  · obtain ⟨before, differs⟩ := others root inside' other leads'
    obtain ⟨off', below'⟩ := holds.used root inside' other before
    exact ⟨List.not_mem_cons_of_ne_of_not_mem differs off', below'⟩
  · dsimp only
    rw [Function.update_self]
    exact holds.free.congr fun other member =>
      Function.update_of_ne (ne_of_mem_of_not_mem member off) _ _
  · obtain ⟨content'', has, named⟩ := (mappedKeyequal_iff table node key).mp found
    obtain ⟨key, rfl, rfl⟩ := Option.map_eq_some_iff.mp has
    have kept : ∀ other, other ≠ node → ∀ content', ((Function.update table.key node none other).map
        content = some content' ↔ name table other = some content') := by
      intro other differs content'
      rw [Function.update_of_ne differs]
      rfl
    dsimp only [intended, name]
    by_cases same : content' = content key
    · rw [same, Finmap.lookup_erase, mappedKeypath_eq, Function.update_self]
      simp
    · rw [Finmap.lookup_erase_ne same, holds.binds]
      constructor
      · rintro ⟨other, leads', named', rfl⟩
        have differs : other ≠ node := by
          rintro rfl
          exact same (Option.some_inj.mp (named'.symm.trans named))
        have elsewhere : bucket table.paths content' ≠ mappedKeypath (some key) % table.paths := by
          intro equal
          rw [equal, leads, Option.some_inj] at leads'
          exact differs leads'.symm
        refine ⟨other, ?_, (kept other differs content').mpr named', ?_⟩
        · rw [Function.update_of_ne elsewhere]
          exact leads'
        · exact Function.update_of_ne differs _ _
      · rintro ⟨other, leads', named', rfl⟩
        obtain ⟨before, differs⟩ := others _ (Nat.mod_lt _ holds.nonempty) other leads'
        refine ⟨other, before, (kept other differs content').mp named', ?_⟩
        exact (Function.update_of_ne differs _ _).symm

/-- `mapped_pointer::remove` unbinds the key and commits once. -/
theorem removeKey (holds : Holds table spare bindings) (key : Option Key) :
    ∃ table' spare', removeKey table key = some table' ∧
      Holds table' spare' (intended bindings (.remove key : Action Key V)) ∧
      table'.lock = { table.lock with
        modifies := table.lock.modifies + 1
        commits := table.lock.commits + 1 } := by
  rw [MappedPointer.removeKey]
  simp only [modify]
  rcases holds.walked key with ⟨⟨prior, walked⟩, missed⟩ | ⟨node, leads, found, walked⟩
  · rw [walked, holds.erase_of_missed missed]
    exact ⟨_, spare, rfl, holds.relock _, rfl⟩
  · have inside := holds.inside (mappedKeypath key)
    have path : Path table.next (table.list (mappedKeypath key % table.paths)) ([] ++ [node])
        none := ⟨leads, holds.single _ inside node leads⟩
    have enough : ([] ++ [node]).length ≤ table.alloc :=
      Nat.one_le_of_lt (holds.used _ inside node leads).2
    have delisted := walk_of_mem path (List.nodup_singleton node) enough
    rw [walked]
    simp only [Option.bind_some, remove, delist, delisted, Option.map_some]
    refine ⟨_, node :: spare, rfl, ?_, rfl⟩
    have unlinked := holds.unlinked leads found
    rw [← holds.single _ inside node leads] at unlinked
    exact unlinked.relock _

/-- The value of the node that has the key is exchanged. -/
theorem replaced (holds : Holds table spare bindings) {ptr : Option V}
    (leads : table.list (mappedKeypath key % table.paths) = some node)
    (found : mappedKeyequal (table.key node) key = true) :
    Holds { table with value := Function.update table.value node ptr } spare
      (intended bindings (.set key ptr)) := by
  obtain ⟨content'', has, named⟩ := (mappedKeyequal_iff table node key).mp found
  obtain ⟨key, rfl, rfl⟩ := Option.map_eq_some_iff.mp has
  refine ⟨holds.system, holds.nonempty, holds.single, holds.apart, holds.used, holds.free,
    holds.distinct, holds.spared, fun content' ptr' => ?_⟩
  dsimp only [intended, name]
  rw [mappedKeypath_eq] at leads
  by_cases same : content' = content key
  · rw [same, Finmap.lookup_insert, leads]
    constructor
    · intro equal
      exact ⟨node, rfl, named, (Function.update_self _ _ _).trans (Option.some_inj.mp equal)⟩
    · rintro ⟨other, equal, _, rfl⟩
      rw [← Option.some_inj.mp equal, Function.update_self]
  · rw [Finmap.lookup_insert_of_ne _ same, holds.binds]
    refine exists_congr fun other => and_congr_right fun _ => and_congr_right fun named' => ?_
    have differs : other ≠ node := by
      rintro rfl
      exact same (Option.some_inj.mp (named'.symm.trans named))
    rw [Function.update_of_ne differs]

section Added

variable (empty : table.list (mappedKeypath key % table.paths) = none)
  (off : ∀ root < table.paths, table.list root ≠ some node)

include empty off

/-- When a node is put on a path that has none, the nodes on the paths are it and those there
were. -/
theorem leads_added {root : Nat} (inside : root < table.paths) (other : Nat) :
    Function.update table.list (mappedKeypath key % table.paths) (some node) root = some other ↔
      root = mappedKeypath key % table.paths ∧ other = node ∨
        table.list root = some other ∧ other ≠ node := by
  by_cases same : root = mappedKeypath key % table.paths
  · rw [same, Function.update_self, empty]
    simp [eq_comm]
  · rw [Function.update_of_ne same]
    refine ⟨fun leads => Or.inr ⟨leads, ?_⟩, ?_⟩
    · rintro rfl
      exact off root inside leads
    · rintro (⟨equal, _⟩ | ⟨leads, _⟩)
      · exact absurd equal same
      · exact leads

/-- Its key is bound to its value, and the others are bound as they were. -/
theorem binds_added (holds : Holds table spare bindings) (ptr : Option V) (content' : Content Key)
    (ptr' : Option V) :
    (∃ other, Function.update table.list (mappedKeypath key % table.paths) (some node)
        (bucket table.paths content') = some other ∧
        (Function.update table.key node key other).map content = some content' ∧
        Function.update table.value node ptr other = ptr') ↔
      key.map content = some content' ∧ ptr = ptr' ∨ bindings.lookup content' = some ptr' := by
  have inside : bucket table.paths content' < table.paths := Nat.mod_lt _ holds.nonempty
  have old : ∀ other, other ≠ node → ((Function.update table.key node key other).map
      content = some content' ↔ name table other = some content') := by
    intro other differs
    rw [Function.update_of_ne differs]
    rfl
  rw [holds.binds]
  constructor
  · rintro ⟨other, leads', named, equal⟩
    rcases (leads_added empty off inside other).mp leads' with ⟨_, rfl⟩ | ⟨before, differs⟩
    · rw [Function.update_self] at named equal
      exact Or.inl ⟨named, equal⟩
    · rw [Function.update_of_ne differs] at equal
      exact Or.inr ⟨other, before, (old other differs).mp named, equal⟩
  · rintro (⟨named, equal⟩ | ⟨other, before, named, equal⟩)
    · obtain ⟨key, rfl, rfl⟩ := Option.map_eq_some_iff.mp named
      refine ⟨node, (leads_added empty off inside node).mpr (Or.inl ⟨?_, rfl⟩), ?_, ?_⟩
      · exact (mappedKeypath_eq table.paths key).symm
      · rw [Function.update_self]
        exact named
      · rw [Function.update_self]
        exact equal
    · have differs : other ≠ node := by
        rintro rfl
        exact off _ inside before
      refine ⟨other, (leads_added empty off inside other).mpr (Or.inr ⟨before, differs⟩),
        (old other differs).mpr named, ?_⟩
      rw [Function.update_of_ne differs]
      exact equal

/-- A node that was on no path, and is no longer free, is put on a path that has none. -/
theorem added (holds : Holds table spare bindings) (ptr : Option V) {alloc : Nat}
    {free : Option Nat} {spare' : List Nat} (unspared : node ∉ spare')
    (below : node < alloc) (grown : table.alloc ≤ alloc)
    (onward : Path table.next free spare' none) (sublist : spare'.Sublist spare) :
    Holds { table with
        free := free
        alloc := alloc
        next := Function.update table.next node none
        list := Function.update table.list (mappedKeypath key % table.paths) (some node)
        key := Function.update table.key node key
        value := Function.update table.value node ptr } spare'
      (intended bindings (.set key ptr)) := by
  refine ⟨holds.system, holds.nonempty, fun root inside' other leads' => ?_,
    fun root inside' root' inside'' other leads' leads'' => ?_,
    fun root inside' other leads' => ?_, ?_, holds.distinct.sublist sublist,
    fun other member => Nat.lt_of_lt_of_le (holds.spared other (sublist.subset member)) grown,
    fun content' ptr' => ?_⟩
  · rcases (leads_added empty off inside' other).mp leads' with ⟨_, rfl⟩ | ⟨before, differs⟩
    · exact Function.update_self _ _ _
    · exact (Function.update_of_ne differs _ _).trans (holds.single root inside' other before)
  · rcases (leads_added empty off inside' other).mp leads' with ⟨rfl, rfl⟩ | ⟨before, differs⟩
    · rcases (leads_added empty off inside'' other).mp leads'' with ⟨rfl, _⟩ | ⟨_, differs⟩
      · rfl
      · exact absurd rfl differs
    · rcases (leads_added empty off inside'' other).mp leads'' with ⟨_, same⟩ | ⟨before', _⟩
      · exact absurd same differs
      · exact holds.apart root inside' root' inside'' other before before'
  · rcases (leads_added empty off inside' other).mp leads' with ⟨_, rfl⟩ | ⟨before, _⟩
    · exact ⟨unspared, below⟩
    · obtain ⟨off', below'⟩ := holds.used root inside' other before
      exact ⟨fun member => off' (sublist.subset member), Nat.lt_of_lt_of_le below' grown⟩
  · exact onward.congr fun other member =>
      Function.update_of_ne (ne_of_mem_of_not_mem member unspared) _ _
  · dsimp only [name]
    rw [binds_added empty off holds]
    have free : bound bindings key = none :=
      holds.bound_of_missed fun other leads' => by rw [empty] at leads'; cases leads'
    cases key with
    | none => simp [intended]
    | some key =>
      by_cases same : content' = content key
      · have unbound : bindings.lookup (content key) = none := free
        rw [same, intended, Finmap.lookup_insert, unbound]
        simp
      · simp [intended, Finmap.lookup_insert_of_ne _ same, Ne.symm same]

end Added

/-- `mapped_pointer::set` binds the key and commits once, when its path has no node or a first node
with the key. -/
theorem set (holds : Holds table spare bindings) (ptr : Option V)
    (ends : ∀ first, table.list (mappedKeypath key % table.paths) = some first →
      mappedKeyequal (table.key first) key = true) :
    ∃ table' spare', set table key ptr = some table' ∧
      Holds table' spare' (intended bindings (.set key ptr)) ∧
      table'.lock = { table.lock with
        modifies := table.lock.modifies + 1
        commits := table.lock.commits + 1 } := by
  rw [MappedPointer.set]
  simp only [modify]
  cases leads : table.list (mappedKeypath key % table.paths) with
  | some node =>
    have found := ends node leads
    simp only [setLoop, found, if_true, Option.bind_some]
    exact ⟨_, spare, rfl, (holds.replaced leads found).relock _, rfl⟩
  | none =>
    simp only [setLoop, Option.bind_some, insert, allocate]
    cases spare with
    | nil =>
      have none_ : table.free = none := holds.free
      have off : ∀ root < table.paths, table.list root ≠ some table.alloc :=
        fun root inside leads' => Nat.lt_irrefl _ (holds.used root inside _ leads').2
      have added := holds.added leads off ptr (by simp) (Nat.lt_succ_self _)
        (Nat.le_succ _) holds.free (List.Sublist.refl _)
      have fits : large table.pagesize indexSize = false := not_large holds.system
      simp only [none_, leads, fits, Bool.false_eq_true, if_false, Option.map_some]
      exact ⟨_, [], rfl, (none_ ▸ added).relock _, rfl⟩
    | cons node rest =>
      obtain ⟨some_, onward⟩ := holds.free
      have off : ∀ root < table.paths, table.list root ≠ some node :=
        fun root inside leads' => (holds.used root inside _ leads').1 List.mem_cons_self
      have added := holds.added leads off ptr (List.nodup_cons.mp holds.distinct).1
        (holds.spared node List.mem_cons_self) (Nat.le_refl _) onward
        (List.sublist_cons_self node rest)
      simp only [some_, leads, Option.map_some]
      exact ⟨_, rest, rfl, added.relock _, rfl⟩

end Holds

/-- A key is not set when the first node of its path has another key: the loop never ends. -/
theorem set_hangs (leads : table.list (mappedKeypath key % table.paths) = some node)
    (differs : mappedKeyequal (table.key node) key = false) (ptr : Option V) :
    set table key ptr = none := by
  simp only [set, modify, leads, Option.bind_eq_none_iff]
  rw [setLoop_hangs]
  · exact nofun
  · exact differs

/-! ### Runs -/

variable {state source target : State Key V} {action : Action Key V}

theorem Holds.empty {pagesize indexes : Nat} (system : SystemPage pagesize)
    (nonempty : 0 < indexes) : Holds (Table.empty pagesize indexes : Table Key V) [] ∅ := by
  refine ⟨system, nonempty, ?_, ?_, ?_, rfl, List.nodup_nil, ?_, ?_⟩ <;> simp [Table.empty]

/-- What every call preserves that comes to an end with the lock given back. -/
structure Invariant (state : State Key V) : Prop where
  ended : state.hung = false
  holds : ∃ spare, Holds state.table spare state.bindings
  exclusive : state.table.lock.modifies = state.table.lock.commits
  shared : state.table.lock.accesses = state.table.lock.releases

theorem Invariant.refines (invariant : Invariant state) : Refines state := by
  obtain ⟨spare, holds⟩ := invariant.holds
  refine ⟨invariant.ended, fun key => ?_, invariant.exclusive, invariant.shared⟩
  rw [holds.get, Option.map_some]

theorem step_of_perform {table : Table Key V} (ended : source.hung = false)
    (performed : perform source.table action = some table) {pagesize indexes : Nat} :
    (machine Key V pagesize indexes).step source action =
      some ⟨table, intended source.bindings action, false⟩ := by
  simp [machine, ended, performed]

theorem hung_of_perform (ended : source.hung = false)
    (performed : perform source.table action = none) {pagesize indexes : Nat}
    (stepped : (machine Key V pagesize indexes).step source action = some target) :
    target.hung = true := by
  simp only [machine, ended, performed, Bool.false_eq_true, if_false, Option.some_inj] at stepped
  rw [← stepped]

/-- A lookup gives the lock back, by itself or with the pointer it has found. -/
theorem perform_get {spare : List Nat} (holds : Holds state.table spare state.bindings)
    (found : bound state.bindings key ≠ some none) :
    perform state.table (.get key) =
      some (unshare (access state.table (mappedKeypath key)).2) := by
  rw [perform, holds.get, Option.map_some]
  cases isBound : bound state.bindings key with
  | none => rfl
  | some ptr =>
    cases ptr with
    | none => exact absurd isBound found
    | some ptr => rfl

/-- A lookup that finds null keeps the lock. -/
theorem perform_get_null {spare : List Nat} (holds : Holds state.table spare state.bindings)
    (null : bound state.bindings key = some none) :
    perform state.table (.get key) = some (access state.table (mappedKeypath key)).2 := by
  rw [perform, holds.get, Option.map_some, null]
  rfl

/-- A call that meets the condition keeps the invariant, and commits once if it changes the
table. -/
theorem Invariant.step (invariant : Invariant source) (met : Ends source action)
    {pagesize indexes : Nat}
    (stepped : (machine Key V pagesize indexes).step source action = some target) :
    Invariant target ∧ CommitsOnce ⟨source, action, target⟩ := by
  obtain ⟨ended, ⟨spare, holds⟩, exclusive, shared⟩ := invariant
  cases action with
  | set key ptr =>
    obtain ⟨table, spare', performed, holds', lock⟩ := holds.set ptr met
    have performed' : perform source.table (.set key ptr) = some table := performed
    cases stepped.symm.trans (step_of_perform ended performed')
    refine ⟨⟨rfl, ⟨spare', holds'⟩, ?_, ?_⟩, fun _ => ?_⟩ <;> simp [lock, exclusive, shared]
  | remove key =>
    obtain ⟨table, spare', performed, holds', lock⟩ := holds.removeKey key
    have performed' : perform source.table (.remove key) = some table := performed
    cases stepped.symm.trans (step_of_perform ended performed')
    refine ⟨⟨rfl, ⟨spare', holds'⟩, ?_, ?_⟩, fun _ => ?_⟩ <;> simp [lock, exclusive, shared]
  | get key =>
    have performed := perform_get holds met
    cases stepped.symm.trans (step_of_perform ended performed)
    refine ⟨⟨rfl, ⟨spare, holds.relock _⟩, exclusive, ?_⟩, fun changes => ?_⟩
    · simp [unshare, access, shared]
    · exact absurd rfl (changes key)

/-- A call that breaks the condition hangs, or keeps the lock. -/
theorem not_refines_of_broken (invariant : Invariant source) (broken : ¬ Ends source action)
    {indexes : Nat} (stepped : (machine Key V pagesize indexes).step source action = some target) :
    ¬ Refines target := by
  obtain ⟨ended, ⟨spare, holds⟩, exclusive, shared⟩ := invariant
  intro refines
  cases action with
  | set key ptr =>
    simp only [Ends] at broken
    push Not at broken
    obtain ⟨node, leads, differs⟩ := broken
    have hangs : perform source.table (.set key ptr) = none :=
      set_hangs leads (Bool.eq_false_iff.mpr differs) ptr
    have hung := hung_of_perform ended hangs stepped
    rw [refines.ended] at hung
    cases hung
  | remove key => exact absurd trivial broken
  | get key =>
    have performed := perform_get_null holds (not_not.mp broken)
    cases stepped.symm.trans (step_of_perform ended performed)
    have kept := refines.shared
    simp only [access, shared] at kept
    exact absurd kept (Nat.succ_ne_self _)

/-- In a run on a table of at least one path every call comes to an end and gives the lock back,
every lookup gives the pointer set last for its key and not removed since, and every change commits
once, exactly when a page has room for the array of the paths, no key is set whose path has a first
node with another key, and no key is looked up that is bound to null. -/
theorem mappedPointer_map_iff {pagesize indexes : Nat} (system : SystemPage pagesize)
    (positive : 0 < indexes) {moves : List (Move (State Key V) (Action Key V))}
    (run : (machine Key V pagesize indexes).Run moves state) :
    (Machine.Throughout Refines moves state ∧ ∀ move ∈ moves, CommitsOnce move) ↔
      Roomy pagesize indexes ∧ Machine.Meets Ends moves := by
  by_cases roomy : Roomy pagesize indexes
  · rw [and_iff_right roomy]
    refine run.sound_throughout_iff_meets Invariant ?_
      (fun source action target invariant met stepped => invariant.step met stepped)
      (fun state invariant => invariant.refines)
      fun source action target invariant broken stepped refines =>
        absurd refines (not_refines_of_broken invariant broken stepped)
    rintro state rfl
    rw [initial_of_roomy system roomy]
    exact ⟨rfl, ⟨[], Holds.empty system positive⟩, rfl, rfl⟩
  · refine iff_of_false ?_ fun both => roomy both.1
    rintro ⟨throughout, -⟩
    obtain ⟨start, rfl, refines⟩ := run.initial_of_throughout throughout
    have ended := refines.ended
    rw [hung_of_not_roomy system roomy] at ended
    cases ended

instance (state : State Key V) : (action : Action Key V) → Decidable (Ends state action)
  | .set key _ =>
    decidable_of_iff ((state.table.list (mappedKeypath key % state.table.paths)).all
        fun first => mappedKeyequal (state.table.key first) key)
      (by simp [Ends, Option.all_eq_true])
  | .get key =>
    decidable_of_iff (¬ (bound state.bindings key).any Option.isNone)
      (by simp [Ends, Option.any_eq_true])
  | .remove _ => inferInstanceAs (Decidable True)

/-- A key is set again, with other bytes behind its text, and removed, and another one takes its
node. -/
theorem mappedPointer_map_iff_reused :
    ∃ moves state, (machine MapRef.CharsKey Nat 4096 2).Run moves state ∧ state.table.alloc = 1 ∧
      (get state.table (some ⟨[0x63]⟩)).map Prod.fst = some (some 6) ∧
      Machine.Throughout Refines moves state ∧ ∀ move ∈ moves, CommitsOnce move := by
  have system : SystemPage 4096 := ⟨le_rfl, by decide⟩
  let played := ((machine MapRef.CharsKey Nat 4096 2).restrict Ends).play
    ⟨Table.empty 4096 2, ∅, false⟩
    [.set (some ⟨[0x61]⟩) (some 4), .get (some ⟨[0x61, 0]⟩), .set (some ⟨[0x61, 0, 1]⟩) (some 5),
      .remove (some ⟨[0x61]⟩), .set (some ⟨[0x63]⟩) (some 6), .get none]
  obtain ⟨moves, restricted⟩ : ((machine MapRef.CharsKey Nat 4096 2).restrict Ends).Reachable
      (played.get (by decide)) :=
    Machine.reachable_get (initial_of_roomy system (by decide)).symm _
  obtain ⟨run, meets⟩ := restricted.of_restrict
  obtain ⟨refines, commits⟩ :=
    (mappedPointer_map_iff system (by decide) run).mpr ⟨by decide, meets⟩
  exact ⟨moves, _, run, by decide, by decide, refines, commits⟩

/-- Two keys share a path: the second is never set, however long its loop goes on. -/
theorem mappedPointer_hangs :
    ∃ moves state, (machine MapRef.CharsKey Nat 4096 1).Run moves state ∧ state.hung = true ∧
      (∀ fuel, setLoop state.table (some ⟨[0x62]⟩) fuel (state.table.list 0) = none) ∧
      ¬ Machine.Throughout Refines moves state := by
  let played := (machine MapRef.CharsKey Nat 4096 1).play ⟨Table.empty 4096 1, ∅, false⟩
    [.set (some ⟨[0x61]⟩) (some 4), .set (some ⟨[0x62]⟩) (some 5)]
  obtain ⟨moves, run⟩ : (machine MapRef.CharsKey Nat 4096 1).Reachable (played.get (by decide)) :=
    Machine.reachable_get (initial_of_roomy ⟨le_rfl, by decide⟩ (by decide)).symm _
  have hung : (played.get (by decide)).hung = true := by decide
  refine ⟨moves, _, run, hung, fun fuel => setLoop_hangs (by decide) fuel, fun throughout => ?_⟩
  rw [throughout.1.ended] at hung
  cases hung

end MappedPointer

end CommonCpp
