/-
This file models the hash table that `NamedObject` keeps: an array of buckets, each
a chain of objects linked by `Next`, in which objects are found by their id.

`add` puts a new object in front of the chain of its bucket, or in the place of the
object that already has its id. For an object inside a chain the one before it is
led to the new object. For the first object of a chain the bucket is led past it,
to the object behind, and the new object is never linked: its id is lost. The table
is the finite map of the ids to the objects added last exactly when no id is added
that the first object of its bucket already has.

An id is a non-empty string of bytes without the null that ends it; ids are equal
when their bytes are. Objects are numbered in the order of their construction. A
walk that passes more objects than have been constructed goes round a circle, and
has no outcome. `unsigned` has 32 bits, so `count` also loses its way when the table
has that many objects.
-/

import CommonCpp.Buckets
import CommonCpp.Links
import CommonCpp.Machine

namespace CommonCpp

open Concurrency Memory

namespace NamedObject

/-! ### The code -/

/-- A string that is not empty. -/
structure Id where
  bytes : List UInt8
  named : bytes ≠ []
  ended : 0 ∉ bytes
  deriving DecidableEq

/-- The fields of all objects and the buckets of a table. The first `count` objects have been
constructed. -/
structure Table where
  count : Nat
  next : Nat → Option Nat
  id : Nat → Option Id
  root : Nat → Option Nat

def keyindex (id : Id) (max : UInt32) : UInt32 :=
  let val : UInt32 := id.bytes.foldl (fun val byte => (val <<< 1) ^^^ (byte &&& 0x1f).toUInt32) 0
  val % max

/-- The position of an id: `max < 2 ? 0 : keyindex(id, max)`. -/
def slot (max : UInt32) (id : Id) : Nat :=
  if max < 2 then 0 else (keyindex id max).toNat

/-- `NamedObject()`. -/
def construct (table : Table) (this : Nat) : Table :=
  { table with
    count := table.count + 1
    next := Function.update table.next this none
    id := Function.update table.id this none }

/-- `clearId`: the id of an object is freed. -/
def clearId (table : Table) (this : Nat) : Table :=
  { table with id := Function.update table.id this none }

/-- `LinkedObject::release`: an object that does not refer to itself is deleted, and its id with
it. -/
def release (table : Table) (this : Nat) : Table :=
  if table.next this ≠ some this then
    clearId { table with next := Function.update table.next this (some this) } this
  else table

/-- The loop over a chain up to an object that has the id: the object before, and the object. -/
def search (table : Table) (root : Option Nat) (id : Id) : Option (Option Nat × Option Nat) :=
  walk table.next (fun node => table.id node = some id) table.count none root

/-- `add(root, nid, max)`. -/
def add (table : Table) (this : Nat) (nid : Id) (max : UInt32) : Option Table :=
  let table := clearId table this
  let key := slot max nid
  (search table (table.root key) nid).map fun (prior, node) =>
    let table :=
      match node with
      | some node =>
        let table :=
          match prior with
          | some prior =>
            let table := { table with next := Function.update table.next prior (some this) }
            { table with next := Function.update table.next this (table.next node) }
          | none => { table with root := Function.update table.root key (table.next node) }
        release table node
      | none =>
        let table := { table with next := Function.update table.next this (table.root key) }
        { table with root := Function.update table.root key (some this) }
    { table with id := Function.update table.id this (some nid) }

/-- `remove(root, id)` on the chain of one bucket: the object removed, and the table left. -/
def removeFrom (table : Table) (key : Nat) (id : Id) : Option (Option Nat × Table) :=
  (search table (table.root key) id).map fun (prior, node) =>
    match node with
    | none => (none, table)
    | some node =>
      match prior with
      | none =>
        (some node, { table with root := Function.update table.root key (table.next node) })
      | some prior =>
        (some node, { table with next := Function.update table.next prior (table.next node) })

/-- `remove(idx, id, max)`. -/
def remove (table : Table) (id : Id) (max : UInt32) : Option (Option Nat × Table) :=
  if max < 2 then removeFrom table 0 id else removeFrom table (keyindex id max).toNat id

def find (table : Table) (root : Option Nat) (id : Id) : Option (Option Nat) :=
  (search table root id).map Prod.snd

def map (table : Table) (id : Id) (max : UInt32) : Option (Option Nat) :=
  if max < 2 then find table (table.root 0) id
  else find table (table.root (keyindex id max).toNat) id

/-- The loop of `count` over the chain of one bucket. -/
def countChain (next : Nat → Option Nat) : Nat → UInt32 → Option Nat → Option UInt32
  | _, count, none => some count
  | 0, _, some _ => none
  | fuel + 1, count, some node => countChain next fuel (count + 1) (next node)

/-- The loop of `count` over the buckets, the last one first. -/
def countFrom (table : Table) (count : UInt32) : Nat → Option UInt32
  | 0 => some count
  | index + 1 =>
    (countChain table.next table.count count (table.root index)).bind fun count =>
      countFrom table count index

/-- `count(idx, max)`. -/
def count (table : Table) (max : UInt32) : Option UInt32 :=
  countFrom table 0 (if max < 2 then 1 else max.toNat)

/-! ### The finite map -/

/-- A table, and the map of the ids to the objects it should hold. -/
structure State where
  table : Table
  bindings : Finmap fun _ : Id => Nat

/-- A table without objects. -/
def State.empty : State := ⟨⟨0, fun _ => none, fun _ => none, fun _ => none⟩, ∅⟩

inductive Action
  | add (this : Nat) (id : Id)
  | remove (id : Id)

/-- The runs of any program that adds new objects to a table and removes objects from it. -/
def machine (max : UInt32) : Machine State Action where
  Init state := state = .empty
  step state
    | .add this id =>
      if this = state.table.count then
        (add (construct state.table this) this id max).map fun table =>
          ⟨table, state.bindings.insert id this⟩
      else none
    | .remove id =>
      (remove state.table id max).map fun (_, table) => ⟨table, state.bindings.erase id⟩

/-- Every id is mapped to the object it is bound to, `count` is the number of ids that are bound,
and the operations come to an end. -/
structure Refines (max : UInt32) (state : State) : Prop where
  map_eq : ∀ id, map state.table id max = some (state.bindings.lookup id)
  count_eq : (count state.table max).map UInt32.toNat = some state.bindings.keys.card
  ends : ∀ id, ((machine max).step state (.add state.table.count id)).isSome ∧
    ((machine max).step state (.remove id)).isSome

/-- A removal returns the object its id is bound to. -/
def Returned (max : UInt32) (move : Move State Action) : Prop :=
  ∀ id, move.action = .remove id →
    (remove move.source.table id max).map Prod.fst = some (move.source.bindings.lookup id)

/-- An object is not added under the id of the first object of its bucket, nor under a new id when
the table has as many objects as `unsigned` can count. -/
def NotFirst (max : UInt32) (state : State) : Action → Prop
  | .add _ id =>
    (∀ first, state.table.root (slot max id) = some first → state.table.id first ≠ some id) ∧
      (map state.table id max = some none → count state.table max ≠ some 0xffffffff)
  | .remove _ => True

variable {max : UInt32} {state target : State} {table : Table} {chains : Nat → List Nat}
  {bindings : Finmap fun _ : Id => Nat} {this : Nat} {id : Id}

theorem map_eq_find : map table id max = find table (table.root (slot max id)) id := by
  unfold map slot
  split <;> rfl

theorem remove_eq_removeFrom : remove table id max = removeFrom table (slot max id) id := by
  unfold remove slot
  split <;> rfl

theorem slot_lt (positive : 0 < max) (id : Id) :
    slot max id < if max < 2 then 1 else max.toNat := by
  unfold slot
  split
  · exact Nat.one_pos
  · have bound : 0 < max.toNat := positive
    rw [keyindex, UInt32.toNat_mod]
    exact Nat.mod_lt _ bound

/-! ### Counting -/

theorem countChain_eq {next : Nat → Option Nat} {pointer : Option Nat} {list : List Nat}
    (path : Path next pointer list none) {fuel : Nat} (enough : list.length ≤ fuel)
    (count : UInt32) :
    countChain next fuel count pointer = some (count + UInt32.ofNat list.length) := by
  induction list generalizing pointer fuel count with
  | nil =>
    cases path
    cases fuel <;> simp [countChain]
  | cons node rest inductionHypothesis =>
    obtain ⟨rfl, onward⟩ := path
    cases fuel with
    | zero => cases enough
    | succ fuel =>
      rw [countChain, inductionHypothesis onward (Nat.le_of_succ_le_succ enough), List.length_cons,
        Nat.add_comm, UInt32.ofNat_add, ← UInt32.add_assoc]
      rfl

/-- The loops count the objects of all chains. -/
theorem countFrom_eq {size : Nat}
    (paths : ∀ index < size, Path table.next (table.root index) (chains index) none)
    (short : ∀ index < size, (chains index).length ≤ table.count) (count : UInt32) :
    countFrom table count size =
      some (count + UInt32.ofNat (Buckets.entries chains size).length) := by
  induction size generalizing count with
  | zero => simp [countFrom, Buckets.entries]
  | succ size inductionHypothesis =>
    have last := Nat.lt_succ_self size
    rw [countFrom, countChain_eq (paths size last) (short size last), Option.bind_some,
      inductionHypothesis (fun index less => paths index (Nat.lt_succ_of_lt less))
        fun index less => short index (Nat.lt_succ_of_lt less),
      Buckets.entries_succ, List.length_append, Nat.add_comm, UInt32.ofNat_add, UInt32.add_assoc]

/-- The buckets lead through the chains, whose objects hold the bindings. -/
structure Holds (max : UInt32) (table : Table) (chains : Nat → List Nat)
    (bindings : Finmap fun _ : Id => Nat) : Prop where
  path : ∀ index, Path table.next (table.root index) (chains index) none
  held : Buckets (slot max) table.id (fun node => node) chains bindings
  bounded : ∀ index, ∀ node ∈ chains index, node < table.count

namespace Holds

/-! #### Lookups -/

theorem length_le (holds : Holds max table chains bindings) (index : Nat) :
    (chains index).length ≤ table.count := by
  have inside : chains index ⊆ List.range table.count := fun node member =>
    List.mem_range.mpr (holds.bounded index node member)
  simpa using ((holds.held.nodup index).subperm inside).length_le

/-- A search misses the whole chain of the bucket, or stops at the object that has the id. -/
theorem search (holds : Holds max table chains bindings) (id : Id) :
    (∃ prior, search table (table.root (slot max id)) id = some (prior, none)) ∧
        (∀ node ∈ chains (slot max id), table.id node ≠ some id) ∨
      ∃ first node last, chains (slot max id) = first ++ node :: last ∧
        table.id node = some id ∧
        search table (table.root (slot max id)) id = some (first.getLast?, some node) := by
  have path := holds.path (slot max id)
  have enough := holds.length_le (slot max id)
  rcases walk_cases (fun node => table.id node = some id) path enough with
    ⟨missed, walked⟩ | ⟨first, node, last, whole, _, here, walked⟩
  · exact Or.inl ⟨⟨_, walked⟩, fun node member => of_decide_eq_false (missed node member)⟩
  · exact Or.inr ⟨first, node, last, whole, of_decide_eq_true here, walked⟩

theorem mem_of_root (holds : Holds max table chains bindings) {index first : Nat}
    (leads : table.root index = some first) : first ∈ chains index := by
  have head := (holds.path index).head_eq
  rw [leads, Option.or_none] at head
  exact List.mem_of_head? head.symm

theorem map_eq (holds : Holds max table chains bindings) (id : Id) :
    map table id max = some (bindings.lookup id) := by
  rw [map_eq_find, find]
  rcases holds.search id with
    ⟨⟨prior, searched⟩, missed⟩ | ⟨first, node, last, whole, named, searched⟩
  · rw [searched, holds.held.lookup_of_missed missed]
    rfl
  · have member : node ∈ chains (slot max id) := by simp [whole]
    rw [searched, holds.held.lookup_of_mem member named]
    rfl

theorem count_eq (holds : Holds max table chains bindings) (positive : 0 < max) :
    count table max = some (UInt32.ofNat bindings.keys.card) := by
  rw [count, countFrom_eq (fun index _ => holds.path index) fun index _ => holds.length_le index,
    UInt32.zero_add, holds.held.card_keys (slot_lt positive)]

/-! #### Removal -/

/-- The chain of one bucket is exchanged for another, and the others stay. -/
theorem exchanged (holds : Holds max table chains bindings) {table' : Table} {chain : List Nat}
    {bindings' : Finmap fun _ : Id => Nat} {index : Nat} (count : table'.count = table.count)
    (path : Path table'.next (table'.root index) chain none)
    (elsewhere : ∀ other, other ≠ index → table'.root other = table.root other ∧
      ∀ node ∈ chains other, table'.next node = table.next node)
    (bounded : ∀ node ∈ chain, node < table.count)
    (held : Buckets (slot max) table'.id (fun node => node)
      (Function.update chains index chain) bindings') :
    Holds max table' (Function.update chains index chain) bindings' := by
  refine ⟨fun other => ?_, held, fun other node member => ?_⟩
  · by_cases same : other = index
    · rw [same, Function.update_self]
      exact path
    · obtain ⟨root, next⟩ := elsewhere other same
      rw [Function.update_of_ne same, root]
      exact (holds.path other).congr next
  · rw [count]
    by_cases same : other = index
    · rw [same, Function.update_self] at member
      exact bounded node member
    · rw [Function.update_of_ne same] at member
      exact holds.bounded other node member

/-- `remove` returns the object the id is bound to, and leaves the table without the id. -/
theorem remove (holds : Holds max table chains bindings) (id : Id) :
    ∃ table' chains', remove table id max = some (bindings.lookup id, table') ∧
      Holds max table' chains' (bindings.erase id) := by
  rw [remove_eq_removeFrom, removeFrom]
  rcases holds.search id with
    ⟨⟨prior, searched⟩, missed⟩ | ⟨first, node, last, whole, named, searched⟩
  · refine ⟨table, chains, ?_, ?_⟩
    · rw [searched, holds.held.lookup_of_missed missed]
      rfl
    · rw [holds.held.erase_of_missed missed]
      exact holds
  · have member : node ∈ chains (slot max id) := by simp [whole]
    have path := holds.path (slot max id)
    have distinct := holds.held.nodup (slot max id)
    rw [whole] at path distinct
    refine ⟨{ table with
        next := first.getLast?.elim table.next fun prior =>
          Function.update table.next prior (table.next node)
        root := if first.getLast? = none then
            Function.update table.root (slot max id) (table.next node)
          else table.root },
      Function.update chains (slot max id) (first ++ last), ?_, ?_⟩
    · rw [searched, holds.held.lookup_of_mem member named]
      cases first.getLast? <;> rfl
    · refine holds.exchanged rfl ?_ (fun other apart => ⟨?_, fun node' member' => ?_⟩)
        (fun node' member' => holds.bounded (slot max id) node' ?_)
        (holds.held.erased whole named)
      · dsimp only
        rw [ite_apply, Function.update_self]
        exact path.detach distinct
      · dsimp only
        split
        · exact Function.update_of_ne apart _ _
        · rfl
      · refine Path.detached_of_not_mem (fun inFirst => apart ?_) _ _
        have onChain : node' ∈ chains (slot max id) := by
          rw [whole]
          exact List.mem_append_left _ inFirst
        exact holds.held.single member' onChain
      · rw [whole]
        simp only [List.mem_append, List.mem_cons] at member' ⊢
        tauto

/-! #### Addition -/

/-- The chains depend on the fields of their own objects only. -/
theorem congr (holds : Holds max table chains bindings) {table' : Table}
    (count : table.count ≤ table'.count) (root : table'.root = table.root)
    (kept : ∀ index, ∀ node ∈ chains index,
      table'.next node = table.next node ∧ table'.id node = table.id node) :
    Holds max table' chains bindings := by
  refine ⟨fun index => ?_, holds.held.congr fun index node member =>
    ⟨(kept index node member).2, rfl⟩, fun index node member => ?_⟩
  · rw [root]
    exact (holds.path index).congr fun node member => (kept index node member).1
  · exact Nat.lt_of_lt_of_le (holds.bounded index node member) count

theorem clearId (holds : Holds max table chains bindings) (off : ∀ index, this ∉ chains index) :
    Holds max (clearId table this) chains bindings := by
  refine holds.congr (Nat.le_refl _) rfl fun index node member => ⟨rfl, ?_⟩
  exact Function.update_of_ne (ne_of_mem_of_not_mem member (off index)) _ _

theorem construct (holds : Holds max table chains bindings) :
    Holds max (construct table table.count) chains bindings ∧
      ∀ index, table.count ∉ chains index := by
  have off : ∀ index, table.count ∉ chains index := fun index member =>
    Nat.lt_irrefl _ (holds.bounded index _ member)
  refine ⟨holds.congr (Nat.le_succ _) rfl fun index node member => ?_, off⟩
  have apart := ne_of_mem_of_not_mem member (off index)
  exact ⟨Function.update_of_ne apart _ _, Function.update_of_ne apart _ _⟩

/-- An object added under a new id is put in front of the chain. -/
theorem add_missed (holds : Holds max table chains bindings) (off : ∀ index, this ∉ chains index)
    (below : this < table.count)
    (missed : ∀ node ∈ chains (slot max id), table.id node ≠ some id) :
    Holds max
      { table with
        next := Function.update table.next this (table.root (slot max id))
        root := Function.update table.root (slot max id) (some this)
        id := Function.update table.id this (some id) }
      (Function.update chains (slot max id) (this :: chains (slot max id)))
      (bindings.insert id this) := by
  have apart : ∀ index, ∀ node ∈ chains index, node ≠ this := fun index node member =>
    ne_of_mem_of_not_mem member (off index)
  refine holds.exchanged rfl ?_ (fun other different => ⟨?_, fun node member => ?_⟩) ?_ ?_
  · dsimp only
    rw [Function.update_self]
    exact (holds.path (slot max id)).push (off _)
  · exact Function.update_of_ne different _ _
  · exact Function.update_of_ne (apart other node member) _ _
  · exact List.forall_mem_cons.mpr ⟨below, holds.bounded (slot max id)⟩
  · have whole : chains (slot max id) = [] ++ [] ++ chains (slot max id) := rfl
    exact holds.held.inserted whole missed (by simp) (Function.update_self _ _ _)
      fun index other member _ => ⟨Function.update_of_ne (apart index other member) _ _, rfl⟩

end Holds

/-! #### Release -/

@[simp] theorem release_count (table : Table) (node : Nat) :
    (release table node).count = table.count := by
  unfold release
  split <;> rfl

@[simp] theorem release_root (table : Table) (node : Nat) :
    (release table node).root = table.root := by
  unfold release
  split <;> rfl

theorem release_next_of_ne {node other : Nat} (apart : other ≠ node) (table : Table) :
    (release table node).next other = table.next other := by
  unfold release
  split
  · exact Function.update_of_ne apart _ _
  · rfl

theorem release_id_of_ne {node other : Nat} (apart : other ≠ node) (table : Table) :
    (release table node).id other = table.id other := by
  unfold release
  split
  · exact Function.update_of_ne apart _ _
  · rfl

namespace Holds

/-- An object added under the id of an object inside a chain takes its place. -/
theorem add_found (holds : Holds max table chains bindings) (off : ∀ index, this ∉ chains index)
    (below : this < table.count) {earlier last : List Nat} {prior node : Nat}
    (whole : chains (slot max id) = earlier ++ prior :: node :: last)
    (named : table.id node = some id) {released : Table}
    (releases : released = release { table with
      next := Function.update (Function.update table.next prior (some this)) this
        (Function.update table.next prior (some this) node) } node) :
    Holds max { released with id := Function.update released.id this (some id) }
      (Function.update chains (slot max id) (earlier ++ prior :: this :: last))
      (bindings.insert id this) := by
  have path := holds.path (slot max id)
  have distinct := holds.held.nodup (slot max id)
  have outside := off (slot max id)
  rw [whole] at path distinct outside
  have onChain : prior ∈ chains (slot max id) ∧ node ∈ chains (slot max id) := by simp [whole]
  have apart : ∀ index, ∀ other ∈ chains index, other ≠ this := fun index other member =>
    ne_of_mem_of_not_mem member (off index)
  have alone : node ∉ earlier ++ prior :: last := by
    have cycled : (earlier ++ [prior] ++ node :: last).Nodup := by simpa using distinct
    simpa using (List.nodup_cons.mp (List.nodup_middle.mp cycled)).1
  have differs : node ≠ prior := fun same => alone (by simp [same])
  have inside : ∀ other ∈ earlier ++ prior :: last, other ∈ chains (slot max id) := by
    intro other member
    rw [whole]
    simp only [List.mem_append, List.mem_cons] at member ⊢
    tauto
  have unnamed : ∀ other, table.id other ≠ some id → other ≠ node := fun other differs same =>
    differs (same ▸ named)
  subst releases
  refine holds.exchanged (release_count _ _) ?_
    (fun other different => ⟨?_, fun node' member => ?_⟩) (fun other member => ?_) ?_
  · dsimp only
    rw [release_root, Function.update_of_ne differs]
    have exchanged : Path (Function.update (Function.update table.next prior (some this)) this
        (table.next node)) (table.root (slot max id)) (earlier ++ prior :: this :: last) none :=
      path.exchange distinct fun member => off _ (inside this member)
    refine exchanged.congr fun other member => release_next_of_ne (fun same => ?_) _
    rw [same] at member
    simp only [List.mem_append, List.mem_cons] at member alone
    have away := apart _ node onChain.2
    tauto
  · dsimp only
    rw [release_root]
  · dsimp only
    have notNode : node' ≠ node := fun same =>
      different (holds.held.single (same ▸ member) onChain.2)
    have notPrior : node' ≠ prior := fun same =>
      different (holds.held.single (same ▸ member) onChain.1)
    rw [release_next_of_ne notNode]
    dsimp only
    rw [Function.update_of_ne (apart other node' member), Function.update_of_ne notPrior]
  · by_cases same : other = this
    · rw [same]
      exact below
    · refine holds.bounded (slot max id) other (inside other ?_)
      simp only [List.mem_append, List.mem_cons] at member ⊢
      tauto
  · have split : chains (slot max id) = (earlier ++ [prior]) ++ [node] ++ last := by simp [whole]
    have split' : chains (slot max id) = (earlier ++ [prior]) ++ node :: last := by simp [whole]
    have joined : earlier ++ prior :: this :: last = (earlier ++ [prior]) ++ this :: last := by simp
    rw [joined]
    refine holds.held.inserted split (holds.held.others_of_split split' named)
      (by simpa using named) (Function.update_self _ _ _) fun index other member differs =>
        ⟨?_, rfl⟩
    dsimp only
    rw [Function.update_of_ne (apart index other member), release_id_of_ne (unnamed other differs)]

/-- `add` binds the id to the new object, when the first object of the bucket has another id. -/
theorem add (holds : Holds max table chains bindings) (off : ∀ index, this ∉ chains index)
    (below : this < table.count)
    (notFirst : ∀ first, table.root (slot max id) = some first → table.id first ≠ some id) :
    ∃ table' chains', add table this id max = some table' ∧
      Holds max table' chains' (bindings.insert id this) := by
  have cleared := holds.clearId off
  unfold NamedObject.add
  rcases cleared.search id with
    ⟨⟨prior, searched⟩, missed⟩ | ⟨first, node, last, whole, named, searched⟩
  · simp only [searched, Option.map_some]
    exact ⟨_, _, rfl, cleared.add_missed off below missed⟩
  · simp only [searched, Option.map_some]
    rcases List.eq_nil_or_concat' first with rfl | ⟨earlier, prior, rfl⟩
    · -- the bucket leads to the object found, which has the id in the table as it was
      have leads : table.root (slot max id) = some node := by
        rw [(holds.path (slot max id)).head_eq, whole]
        rfl
      have apart : node ≠ this := ne_of_mem_of_not_mem (by simp [whole]) (off (slot max id))
      have before : table.id node = some id := by
        rw [← named]
        exact (Function.update_of_ne apart _ _).symm
      exact absurd before (notFirst node leads)
    · have joined : chains (slot max id) = earlier ++ prior :: node :: last := by simp [whole]
      rw [List.getLast?_concat]
      exact ⟨_, _, rfl, cleared.add_found off below joined named rfl⟩

/-- `add` under the id of the first object of the bucket loses the id. -/
theorem add_first (holds : Holds max table chains bindings) (off : ∀ index, this ∉ chains index)
    {node : Nat} (leads : table.root (slot max id) = some node) (named : table.id node = some id)
    {table' : Table} (added : NamedObject.add table this id max = some table') :
    map table' id max = some none := by
  have cleared := holds.clearId off
  have path := cleared.path (slot max id)
  have enough := cleared.length_le (slot max id)
  cases whole : chains (slot max id) with
  | nil =>
    rw [whole] at path
    cases leads.symm.trans path
  | cons first last =>
    rw [whole] at path enough
    obtain ⟨leads', onward⟩ := path
    cases leads.symm.trans leads'
    have apart : ∀ other ∈ node :: last, other ≠ this := fun other member =>
      ne_of_mem_of_not_mem (whole ▸ member) (off (slot max id))
    have alone : node ∉ last := by
      have distinct := holds.held.nodup (slot max id)
      rw [whole] at distinct
      exact (List.nodup_cons.mp distinct).1
    have named' : (NamedObject.clearId table this).id node = some id := by
      rw [← named]
      exact Function.update_of_ne (apart node List.mem_cons_self) _ _
    have split : chains (slot max id) = [] ++ node :: last := whole
    have others := cleared.held.others_of_split split named'
    have front : Path (NamedObject.clearId table this).next
        ((NamedObject.clearId table this).root (slot max id)) ([] ++ node :: last) none :=
      ⟨leads, onward⟩
    have searched : NamedObject.search (NamedObject.clearId table this)
        ((NamedObject.clearId table this).root (slot max id)) id = some (none, some node) :=
      walk_of_found front (fun _ member => by cases member) (decide_eq_true named')
        (Nat.lt_of_lt_of_le (Nat.succ_pos _) enough) none
    simp only [NamedObject.add, searched, Option.map_some, Option.some_inj] at added
    subst added
    have missed : ∀ other ∈ last, other ≠ node ∧ other ≠ this := fun other member =>
      ⟨ne_of_mem_of_not_mem member alone, apart other (List.mem_cons_of_mem _ member)⟩
    rw [map_eq_find, find, NamedObject.search, release_root, release_count]
    dsimp only
    rw [Function.update_self]
    refine congrArg (Option.map Prod.snd) (walk_of_missed ?_ (fun other member => ?_)
      (Nat.le_trans (Nat.le_succ _) enough) none)
    · exact onward.congr fun other member => release_next_of_ne (missed other member).1 _
    · obtain ⟨notNode, notThis⟩ := missed other member
      refine decide_eq_false ?_
      rw [Function.update_of_ne notThis, release_id_of_ne notNode]
      exact others other member

end Holds

/-! ### Runs -/

/-- What every step preserves that does not add the id of a first object. -/
structure Invariant (max : UInt32) (state : State) : Prop where
  holds : ∃ chains, Holds max state.table chains state.bindings
  few : state.bindings.keys.card < 2 ^ 32

theorem keys_insert (bindings : Finmap fun _ : Id => Nat) (id : Id) (this : Nat) :
    (bindings.insert id this).keys = insert id bindings.keys := by
  ext name
  rw [Finset.mem_insert, Finmap.mem_keys, Finmap.mem_keys, Finmap.mem_insert]

theorem add_isSome (holds : Holds max table chains bindings) (off : ∀ index, this ∉ chains index)
    (id : Id) : (add table this id max).isSome := by
  unfold add
  rcases (holds.clearId off).search id with ⟨⟨_, searched⟩, _⟩ | ⟨_, _, _, _, _, searched⟩
  · simp only [searched, Option.map_some, Option.isSome_some]
  · simp only [searched, Option.map_some, Option.isSome_some]

/-- The step of an addition: the object is constructed and added. -/
theorem step_add (holds : Holds max state.table chains state.bindings)
    (notFirst : ∀ first, state.table.root (slot max id) = some first →
      state.table.id first ≠ some id) :
    ∃ table chains', (machine max).step state (.add state.table.count id) =
        some ⟨table, state.bindings.insert id state.table.count⟩ ∧
      Holds max table chains' (state.bindings.insert id state.table.count) := by
  obtain ⟨constructed, off⟩ := holds.construct
  have first' : ∀ first, (construct state.table state.table.count).root (slot max id) = some first →
      (construct state.table state.table.count).id first ≠ some id := by
    intro first leads
    have apart := ne_of_mem_of_not_mem (holds.mem_of_root leads) (off (slot max id))
    simp only [construct, Function.update_of_ne apart]
    exact notFirst first leads
  obtain ⟨table, chains', added, holds'⟩ := constructed.add off (Nat.lt_succ_self _) first'
  refine ⟨table, chains', ?_, holds'⟩
  simp only [machine, if_true, added, Option.map_some]

/-- The step of an addition under the id of the first object of its bucket loses the id. -/
theorem step_add_first (holds : Holds max state.table chains state.bindings) {node : Nat}
    (leads : state.table.root (slot max id) = some node)
    (named : state.table.id node = some id)
    (stepped : (machine max).step state (.add state.table.count id) = some target) :
    map target.table id max = some none ∧
      target.bindings = state.bindings.insert id state.table.count := by
  obtain ⟨constructed, off⟩ := holds.construct
  have apart := ne_of_mem_of_not_mem (holds.mem_of_root leads) (off (slot max id))
  have named' : (construct state.table state.table.count).id node = some id := by
    simp only [construct, Function.update_of_ne apart]
    exact named
  simp only [machine, if_true, Option.map_eq_some_iff] at stepped
  obtain ⟨table, added, rfl⟩ := stepped
  exact ⟨constructed.add_first off leads named' added, rfl⟩

theorem Invariant.refines (invariant : Invariant max state) (positive : 0 < max) :
    Refines max state := by
  obtain ⟨⟨chains, holds⟩, few⟩ := invariant
  obtain ⟨constructed, off⟩ := holds.construct
  refine ⟨holds.map_eq, ?_, fun id => ⟨?_, ?_⟩⟩
  · rw [holds.count_eq positive, Option.map_some, UInt32.toNat_ofNat_of_lt' few]
  · simpa [machine] using add_isSome constructed off id
  · obtain ⟨table, _, removed, _⟩ := holds.remove id
    simp [machine, removed]

/-- There is room for another id, or the id is bound already. -/
theorem card_insert_lt (invariant : Invariant max state) (positive : 0 < max)
    (room : map state.table id max = some none → count state.table max ≠ some 0xffffffff) :
    (state.bindings.insert id this).keys.card < 2 ^ 32 := by
  obtain ⟨⟨chains, holds⟩, few⟩ := invariant
  rw [keys_insert]
  by_cases member : id ∈ state.bindings.keys
  · rwa [Finset.insert_eq_of_mem member]
  · have free : state.bindings.lookup id = none :=
      Finmap.lookup_eq_none.mpr (mt Finmap.mem_keys.mpr member)
    rw [holds.map_eq, free, holds.count_eq positive] at room
    have differs : state.bindings.keys.card ≠ 2 ^ 32 - 1 := fun full => by
      rw [full] at room
      exact room rfl rfl
    rw [Finset.card_insert_of_notMem member]
    omega

/-- In a table that is full, `count` loses its way with another id. -/
theorem not_refines_of_full (invariant : Invariant max state) (positive : 0 < max)
    (full : count state.table max = some 0xffffffff) (free : map state.table id max = some none)
    (holds : Holds max target.table chains target.bindings)
    (bound : target.bindings = state.bindings.insert id this) : ¬ Refines max target := by
  intro refines
  obtain ⟨⟨chains, holds'⟩, few⟩ := invariant
  have absent : id ∉ state.bindings.keys := by
    rw [holds'.map_eq, Option.some_inj] at free
    exact mt Finmap.mem_keys.mp (Finmap.lookup_eq_none.mp free)
  have card : state.bindings.keys.card = 2 ^ 32 - 1 := by
    rw [holds'.count_eq positive, Option.some_inj] at full
    have same := congrArg UInt32.toNat full
    rwa [UInt32.toNat_ofNat_of_lt' few] at same
  have counted := refines.count_eq
  rw [holds.count_eq positive, bound, keys_insert, Finset.card_insert_of_notMem absent,
    card] at counted
  exact absurd counted (by decide)

/-- Only new objects are added. -/
theorem eq_count_of_step {source target : State} {this : Nat}
    (stepped : (machine max).step source (.add this id) = some target) :
    this = source.table.count := by
  by_contra other
  simp [machine, other] at stepped

/-- A step that meets the condition keeps the invariant, and returns what it removes. -/
theorem Invariant.step {source target : State} {action : Action}
    (invariant : Invariant max source) (positive : 0 < max) (met : NotFirst max source action)
    (stepped : (machine max).step source action = some target) :
    Invariant max target ∧ Returned max ⟨source, action, target⟩ := by
  obtain ⟨chains, holds⟩ := invariant.holds
  cases action with
  | add this id =>
    obtain ⟨notFirst, room⟩ := met
    obtain rfl := eq_count_of_step stepped
    obtain ⟨table, chains', steps, holds'⟩ := step_add holds notFirst
    cases stepped.symm.trans steps
    exact ⟨⟨⟨chains', holds'⟩, card_insert_lt invariant positive room⟩,
      fun id same => by cases same⟩
  | remove id =>
    obtain ⟨table, chains', removed, holds'⟩ := holds.remove id
    simp only [machine, removed, Option.map_some, Option.some_inj] at stepped
    subst stepped
    refine ⟨⟨⟨chains', holds'⟩, ?_⟩, fun id' same => ?_⟩
    · dsimp only
      rw [Finmap.keys_erase]
      exact Nat.lt_of_le_of_lt (Finset.card_le_card (Finset.erase_subset _ _)) invariant.few
    · cases same
      simp only [removed, Option.map_some]

/-- A step that breaks the condition leaves a table that no longer serves as the map. -/
theorem not_refines_of_broken {source target : State} {action : Action}
    (invariant : Invariant max source) (positive : 0 < max)
    (broken : ¬ NotFirst max source action)
    (stepped : (machine max).step source action = some target) : ¬ Refines max target := by
  intro refines
  obtain ⟨chains, holds⟩ := invariant.holds
  cases action with
  | add this id =>
    obtain rfl := eq_count_of_step stepped
    by_cases notFirst : ∀ first, source.table.root (slot max id) = some first →
        source.table.id first ≠ some id
    · obtain ⟨free, full⟩ : map source.table id max = some none ∧
          count source.table max = some 0xffffffff := by
        simpa [NotFirst] using not_and.mp broken notFirst
      obtain ⟨table, chains', steps, holds'⟩ := step_add holds notFirst
      cases stepped.symm.trans steps
      exact absurd refines (not_refines_of_full invariant positive full free holds' rfl)
    · push Not at notFirst
      obtain ⟨first, leads, named⟩ := notFirst
      obtain ⟨missing, bound⟩ := step_add_first holds leads named stepped
      rw [refines.map_eq, bound, Finmap.lookup_insert] at missing
      cases missing
  | remove id => exact absurd trivial broken

/-- The invariant holds of the table that is empty. -/
theorem invariant_empty : Invariant max .empty :=
  ⟨⟨fun _ => [], fun _ => rfl, Buckets.empty, fun _ _ member => by cases member⟩,
    by simp [State.empty]⟩

/-- In a run on a table of at least one bucket every id is always mapped to the object added last
under it and not removed since, `count` is the number of such ids, every removal returns the object
it removes and every operation comes to an end, exactly when no object is added under the id of the
first object of its bucket, nor under a new id when `unsigned` can count no more objects. -/
theorem namedObject_map_iff (positive : 0 < max) {moves : List (Move State Action)}
    (run : (machine max).Run moves state) :
    (Machine.Throughout (Refines max) moves state ∧ ∀ move ∈ moves, Returned max move) ↔
      Machine.Meets (NotFirst max) moves := by
  refine run.sound_throughout_iff_meets (Invariant max) ?_
    (fun source action target invariant met stepped => invariant.step positive met stepped)
    (fun state invariant => invariant.refines positive)
    fun source action target invariant broken stepped refines =>
      absurd refines (not_refines_of_broken invariant positive broken stepped)
  rintro state rfl
  exact invariant_empty

instance (max : UInt32) (state : State) : (action : Action) → Decidable (NotFirst max state action)
  | .add _ id =>
    decidable_of_iff ((state.table.root (slot max id)).bind state.table.id ≠ some id ∧
        (map state.table id max = some none → count state.table max ≠ some 0xffffffff))
      (by simp [NotFirst, Option.bind_eq_some_iff])
  | .remove _ => inferInstanceAs (Decidable True)

/-- Two ids share a bucket; the one behind is added again, and the one in front is removed. -/
theorem namedObject_map_iff_replaced :
    ∃ moves state, (machine 2).Run moves state ∧
      map state.table ⟨[0x61], by decide, by decide⟩ 2 = some (some 2) ∧
      map state.table ⟨[0x63], by decide, by decide⟩ 2 = some none ∧
      Machine.Throughout (Refines 2) moves state ∧ ∀ move ∈ moves, Returned 2 move := by
  let played := ((machine 2).restrict (NotFirst 2)).play .empty
    [.add 0 ⟨[0x61], by decide, by decide⟩, .add 1 ⟨[0x63], by decide, by decide⟩,
      .add 2 ⟨[0x61], by decide, by decide⟩, .remove ⟨[0x63], by decide, by decide⟩]
  obtain ⟨moves, restricted⟩ : ((machine 2).restrict (NotFirst 2)).Reachable
      (played.get (by decide)) := Machine.reachable_get rfl _
  obtain ⟨run, meets⟩ := restricted.of_restrict
  obtain ⟨refines, returned⟩ := (namedObject_map_iff (by decide) run).mpr meets
  exact ⟨moves, _, run, by decide, by decide, refines, returned⟩

/-- An object is added under the id of the only one in the table: the id is gone. -/
theorem namedObject_loses_id :
    ∃ moves state, (machine 1).Run moves state ∧
      map state.table ⟨[0x61], by decide, by decide⟩ 1 = some none ∧
      state.bindings.lookup ⟨[0x61], by decide, by decide⟩ = some 1 ∧
      ¬ Machine.Throughout (Refines 1) moves state := by
  let played := (machine 1).play .empty
    [.add 0 ⟨[0x61], by decide, by decide⟩, .add 1 ⟨[0x61], by decide, by decide⟩]
  obtain ⟨moves, run⟩ : (machine 1).Reachable (played.get (by decide)) :=
    Machine.reachable_get rfl _
  have gone : map (played.get (by decide)).table ⟨[0x61], by decide, by decide⟩ 1 = some none := by
    decide
  have bound :
      (played.get (by decide)).bindings.lookup ⟨[0x61], by decide, by decide⟩ = some 1 := by decide
  refine ⟨moves, _, run, gone, bound, fun throughout => ?_⟩
  rw [throughout.1.map_eq, bound] at gone
  cases gone

end NamedObject

end CommonCpp
