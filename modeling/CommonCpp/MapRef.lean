/-
This file models `MapRef`, the shared index of references, and the two containers
built on it: `mapref`, a hash table, and `listref`, a list.

The nodes of an index come from a pool that only grows. A node that is removed goes
to a free list through the same link that its chain used, and is taken from there
before the pool grows again. The nodes in use and the free ones are at all times
exactly those that were ever allocated. A removed node keeps its references until it
is used again.

As a hash table the index has a chain of nodes for each path, and represents the
finite map of keys to values. Keys of three types are hashed by their bytes, in such
a way that equal keys have equal paths. As a list it has one chain and the last node
of it, and represents the values in the order in which they were appended.

Nodes are numbered in the order of their allocation. A walk that passes more nodes
than have been allocated goes round a circle, and has no outcome. The lock is held
for one call, and each call is one step here.
-/

import CommonCpp.Buckets
import CommonCpp.Links
import CommonCpp.Machine

namespace CommonCpp

open Concurrency Memory

namespace MapRef

/-! ### Keys -/

/-- `MapRef::index`: the path of a key is mixed with each of its bytes. -/
def index (key : UInt64) (bytes : List UInt8) : UInt64 :=
  bytes.foldl (fun key byte => key ^^^ ((key <<< 3) ^^^ byte.toUInt64)) key

/-- A type of keys: what it takes for two to be equal, and the path of each. The path is that of
the content equal keys have in common. -/
class MapKey (Key : Type) where
  Content : Type
  decidable : DecidableEq Content
  content : Key → Content
  equal : Key → Key → Bool
  mapkeypath : Key → UInt64
  hash : Content → UInt64
  equal_iff : ∀ first second, equal first second = true ↔ content first = content second
  mapkeypath_eq : ∀ key, mapkeypath key = hash (content key)

open MapKey

instance (Key : Type) [MapKey Key] : DecidableEq (Content Key) := decidable

/-- An `int`. -/
structure IntKey where
  data : UInt32

/-- The bytes of an `int`, the lowest first. -/
def intBytes (data : UInt32) : List UInt8 :=
  [data.toUInt8, (data >>> 8).toUInt8, (data >>> 16).toUInt8, (data >>> 24).toUInt8]

instance : MapKey IntKey where
  Content := UInt32
  decidable := inferInstance
  content key := key.data
  equal first second := first.data == second.data
  mapkeypath key := index 4 (intBytes key.data)
  hash data := index 4 (intBytes data)
  equal_iff _ _ := beq_iff_eq
  mapkeypath_eq _ := rfl

/-- A `const char *`: a buffer, in which the text ends at the first null. -/
structure CharsKey where
  mem : List UInt8

/-- The text of a buffer, `strlen` bytes of it. -/
def CharsKey.text (key : CharsKey) : List UInt8 := key.mem.takeWhile (· ≠ 0)

instance : MapKey CharsKey where
  Content := List UInt8
  decidable := inferInstance
  content := CharsKey.text
  equal first second := first.text == second.text
  mapkeypath key := index 1 key.text
  hash text := index 1 text
  equal_iff _ _ := beq_iff_eq
  mapkeypath_eq _ := rfl

/-- A `const uint8_t *`: an array of bytes. -/
structure BytesKey where
  mem : List UInt8

instance : MapKey BytesKey where
  Content := List UInt8
  decidable := inferInstance
  content := BytesKey.mem
  equal first second := first.mem.length == second.mem.length && first.mem == second.mem
  mapkeypath key := index (UInt64.ofNat key.mem.length) key.mem
  hash mem := index (UInt64.ofNat mem.length) mem
  equal_iff first second := by
    rw [Bool.and_eq_true, beq_iff_eq, beq_iff_eq]
    exact ⟨And.right, fun same => ⟨by rw [same], same⟩⟩
  mapkeypath_eq _ := rfl

/-! ### The code -/

/-- The fields of a `MapRef::Map`, and those of its nodes: the link, and the references to a key
and a value. -/
structure Map (Key Value : Type) where
  size : Nat
  list : Nat → Option Nat
  free : Option Nat
  last : Option Nat
  count : Nat
  alloc : Nat
  next : Nat → Option Nat
  key : Nat → Option Key
  value : Nat → Option Value

variable {Key Value : Type}

/-- `Map(addr, indexes)`. -/
def Map.empty (indexes : Nat) : Map Key Value :=
  ⟨indexes, fun _ => none, none, none, 0, 0, fun _ => none, fun _ => none, fun _ => none⟩

/-- The memory for a node: from the free list, or else from the pool. -/
def allocate (map : Map Key Value) : Nat × Map Key Value :=
  match map.free with
  | some node => (node, { map with free := map.next node })
  | none => (map.alloc, { map with alloc := map.alloc + 1 })

/-- `Map::create`: a new node in front of the chain of a path. -/
def create (map : Map Key Value) (path : Nat) : Nat × Map Key Value :=
  let (node, map) := allocate map
  let root := path % map.size
  (node, { map with
    count := map.count + 1
    next := Function.update map.next node (map.list root)
    list := Function.update map.list root (some node)
    key := Function.update map.key node none
    value := Function.update map.value node none })

/-- `Map::append`: a new node behind the last one. -/
def append (map : Map Key Value) : Nat × Map Key Value :=
  let (node, map) := allocate map
  let map := { map with
    count := map.count + 1
    next := Function.update map.next node none
    key := Function.update map.key node none
    value := Function.update map.value node none }
  let map :=
    match map.last with
    | some last => { map with next := Function.update map.next last (some node) }
    | none => { map with list := Function.update map.list 0 (some node) }
  let map := { map with last := some node }
  (node, { map with next := Function.update map.next node none })

/-- `LinkedObject::delist` from the chain of a path. -/
def delist (map : Map Key Value) (this root : Nat) : Option (Map Key Value) :=
  (walk map.next (fun node => node = this) map.alloc none (map.list root)).map
    fun (prior, node) =>
      match node, prior with
      | none, _ => map
      | some _, none => { map with list := Function.update map.list root (map.next this) }
      | some _, some prior => { map with next := Function.update map.next prior (map.next this) }

/-- `LinkedObject::enlist` on the free list. -/
def enlistFree (map : Map Key Value) (this : Nat) : Map Key Value :=
  { map with next := Function.update map.next this map.free, free := some this }

/-- The last node after the removal of one: the one before it when the last one is removed. -/
def findLast (map : Map Key Value) (this root : Nat) : Option (Option Nat) :=
  if map.last = some this then
    if map.list root = some this then some none
    else
      (walk map.next (fun node => map.next node = some this) map.alloc none (map.list root)).map
        Prod.snd
  else some map.last

/-- `Map::remove`. -/
def remove (map : Map Key Value) (this path : Nat) : Option (Map Key Value) :=
  let root := path % map.size
  let map := { map with count := map.count - 1 }
  (findLast map this root).bind fun last =>
    (delist { map with last } this root).map fun map => enlistFree map this

/-! #### The hash table -/

section Table

variable [MapKey Key]

/-- The loop over the chain of a path up to a node whose key equals the given one. -/
def search (map : Map Key Value) (key : Key) : Option (Option Nat) :=
  (walk map.next (fun node => (map.key node).any fun kv => equal kv key) map.alloc none
    (map.list ((mapkeypath key).toNat % map.size))).map Prod.snd

/-- `mapref::value`. -/
def value (map : Map Key Value) (key : Key) (val : Option Value) : Option (Map Key Value) :=
  (search map key).map fun
    | some node => { map with value := Function.update map.value node val }
    | none =>
      let (node, map) := create map (mapkeypath key).toNat
      { map with
        key := Function.update map.key node (some key)
        value := Function.update map.value node val }

/-- `mapref::at`. -/
def valueAt (map : Map Key Value) (key : Key) : Option (Option Value) :=
  (search map key).map fun node => node.bind map.value

/-- `mapref::erase`, which `mapref::remove` calls. -/
def erase (map : Map Key Value) (key : Key) : Option (Bool × Map Key Value) :=
  (search map key).bind fun
    | some node => (remove map node (mapkeypath key).toNat).map fun map => (true, map)
    | none => some (false, map)

end Table

/-- `MapRef::Instance`: a position in a traversal. -/
structure Instance where
  index : Option Nat
  path : Nat

/-- The loop of `Instance::next` over the paths: `while(++path < map->size)`. -/
def scan (map : Map Key Value) : Nat → Nat → Bool × Instance
  | 0, path => (false, ⟨none, path⟩)
  | fuel + 1, path =>
    if path + 1 < map.size then
      match map.list (path + 1) with
      | some node => (true, ⟨some node, path + 1⟩)
      | none => scan map fuel (path + 1)
    else (false, ⟨none, path + 1⟩)

/-- `Instance::next`. -/
def next (map : Map Key Value) (position : Instance) : Bool × Instance :=
  match position.index.bind map.next with
  | some node => (true, ⟨some node, position.path⟩)
  | none => scan map (map.size + 1) position.path

/-- `Instance::rewind`. -/
def rewind (map : Map Key Value) : Instance :=
  match map.list 0 with
  | some node => ⟨some node, 0⟩
  | none => (next map ⟨none, 0⟩).2

/-- The nodes a traversal visits from a position on: `next` until it returns false. -/
def traverse (map : Map Key Value) : Nat → Instance → Option (List Nat)
  | 0, _ => none
  | fuel + 1, position =>
    match position.index with
    | none => some []
    | some node =>
      match next map position with
      | (true, following) => (traverse map fuel following).map (node :: ·)
      | (false, _) => some [node]

/-! #### The list -/

/-- `MapRef::append`, which `operator<<` calls. -/
def appendValue (map : Map Key Value) (val : Value) : Map Key Value :=
  let (node, map) := append map
  { map with
    key := Function.update map.key node none
    value := Function.update map.value node (some val) }

/-- `listref::erase`, which `listref::remove` calls. -/
def eraseValue (equal : Value → Value → Bool) (map : Map Key Value) (val : Value) :
    Option (Bool × Map Key Value) :=
  (walk map.next (fun node => (map.value node).any fun kv => equal kv val) map.alloc none
    (map.list 0)).bind fun (_, node) =>
      match node with
      | some node => (remove map node 0).map fun map => (true, map)
      | none => some (false, map)

/-- The loop that counts an offset down along the links. -/
def seek (next : Nat → Option Nat) : Nat → Option Nat → Option Nat
  | offset + 1, some node => seek next offset (next node)
  | _, pointer => pointer

/-- `listref::take`. -/
def take (map : Map Key Value) (offset : Nat) : Option (Option Value × Map Key Value) :=
  let node := seek map.next offset (map.list 0)
  node.bind fun node =>
    match map.value node with
    | some val => (remove map node 0).map fun map => (some val, map)
    | none => some (none, map)

/-- `listref::at`. -/
def itemAt (map : Map Key Value) (offset : Nat) : Option Value :=
  (seek map.next offset (map.list 0)).bind map.value

/-! ### The pool -/

variable {map map' : Map Key Value} {chains : Nat → List Nat} {spare spare' chain : List Nat}
  {root node : Nat}

/-- The nodes on the chains of all paths but one. -/
def elsewhere (map : Map Key Value) (chains : Nat → List Nat) (root : Nat) : List Nat :=
  Buckets.entries (Function.update chains root []) map.size

/-- The paths lead through these chains and the free list through the spare nodes. Together they
are the nodes allocated, each once. -/
structure Pool (map : Map Key Value) (chains : Nat → List Nat) (spare : List Nat) : Prop where
  path : ∀ root < map.size, Path map.next (map.list root) (chains root) none
  free : Path map.next map.free spare none
  perm : (Buckets.entries chains map.size ++ spare).Perm (List.range map.alloc)
  count : map.count = (Buckets.entries chains map.size).length

/-- Delisting a node that is on the chain of the path. -/
theorem delist_eq {first last : List Nat}
    (path : Path map.next (map.list root) (first ++ node :: last) none)
    (distinct : (first ++ node :: last).Nodup)
    (enough : (first ++ node :: last).length ≤ map.alloc) :
    delist map node root = some { map with
      next := first.getLast?.elim map.next fun prior =>
        Function.update map.next prior (map.next node)
      list := if first.getLast? = none then Function.update map.list root (map.next node)
        else map.list } := by
  rw [delist, walk_of_mem path distinct enough, Option.map_some]
  cases first.getLast? <;> rfl

namespace Pool

/-- The nodes of one chain, of the others, and the spare ones. -/
theorem split (pool : Pool map chains spare) (inside : root < map.size) :
    (chains root ++ elsewhere map chains root ++ spare).Perm (List.range map.alloc) := by
  have entries := Buckets.entries_update chains (chains root) inside
  rw [Function.update_eq_self] at entries
  exact (entries.symm.append_right spare).trans pool.perm

theorem nodup (pool : Pool map chains spare) (inside : root < map.size) :
    (chains root ++ elsewhere map chains root ++ spare).Nodup :=
  (pool.split inside).nodup_iff.mpr List.nodup_range

theorem nodup_chain (pool : Pool map chains spare) (inside : root < map.size) :
    (chains root).Nodup :=
  ((pool.nodup inside).of_append_left).of_append_left

theorem length_le (pool : Pool map chains spare) (inside : root < map.size) :
    (chains root).length ≤ map.alloc := by
  have lengths := (pool.split inside).length_eq
  rw [List.length_append, List.length_append, List.length_range] at lengths
  omega

theorem count_eq (pool : Pool map chains spare) (inside : root < map.size) :
    map.count = (chains root).length + (elsewhere map chains root).length := by
  have entries := Buckets.entries_update chains (chains root) inside
  rw [Function.update_eq_self] at entries
  rw [pool.count, entries.length_eq, List.length_append]
  rfl

/-- The chain of one path is exchanged for another, and perhaps the free list. -/
theorem exchange (pool : Pool map chains spare) (inside : root < map.size)
    (size : map'.size = map.size) (path : Path map'.next (map'.list root) chain none)
    (others : ∀ other, other ≠ root → map'.list other = map.list other)
    (kept : ∀ node ∈ elsewhere map chains root, map'.next node = map.next node)
    (free : Path map'.next map'.free spare' none)
    (perm : (chain ++ elsewhere map chains root ++ spare').Perm (List.range map'.alloc))
    (count : map'.count = chain.length + (elsewhere map chains root).length) :
    Pool map' (Function.update chains root chain) spare' := by
  have entries := Buckets.entries_update chains chain inside
  rw [← size] at entries
  have rest : Buckets.entries (Function.update chains root []) map'.size =
      elsewhere map chains root := by rw [size, elsewhere]
  rw [rest] at entries
  refine ⟨fun other inside' => ?_, free, (entries.append_right spare').trans perm, ?_⟩
  · by_cases same : other = root
    · rw [same, Function.update_self]
      exact path
    · rw [Function.update_of_ne same, others other same]
      rw [size] at inside'
      refine (pool.path other inside').congr fun node member => kept node ?_
      refine Buckets.mem_entries.mpr ⟨other, inside', ?_⟩
      rw [Function.update_of_ne same]
      exact member
  · rw [count, entries.length_eq, List.length_append]

/-- The node for a new entry is a spare one while there are any, and a new one otherwise. It is on
no chain, and no longer a spare one. -/
theorem allocate (pool : Pool map chains spare) (inside : root < map.size) :
    ∃ node alloc free spare', allocate map = (node, { map with free := free, alloc := alloc }) ∧
      Path map.next free spare' none ∧
      (node :: (chains root ++ (elsewhere map chains root ++ spare'))).Perm (List.range alloc) ∧
      node ∉ chains root ∧
      (∀ other ∈ elsewhere map chains root ++ spare', other ∉ chains root ∧ other ≠ node) ∧
      (map.free ≠ none → alloc = map.alloc) := by
  have free := pool.free
  have perm := pool.split inside
  obtain ⟨node, alloc, free, spare', allocates, onward, perm, reuses⟩ :
      ∃ node alloc free spare',
        MapRef.allocate map = (node, { map with free := free, alloc := alloc }) ∧
        Path map.next free spare' none ∧
        (node :: (chains root ++ elsewhere map chains root ++ spare')).Perm (List.range alloc) ∧
        (map.free ≠ none → alloc = map.alloc) := by
    unfold MapRef.allocate
    cases spare with
    | nil =>
      have none_ : map.free = none := free
      rw [none_]
      refine ⟨map.alloc, map.alloc + 1, none, [], rfl, rfl, ?_, fun some_ => absurd rfl some_⟩
      rw [List.range_succ]
      exact (perm.cons map.alloc).trans (List.perm_append_singleton _ _).symm
    | cons node rest =>
      obtain ⟨leads, onward⟩ := free
      rw [leads]
      exact ⟨node, map.alloc, map.next node, rest, rfl, onward,
        List.perm_middle.symm.trans perm, fun _ => rfl⟩
  rw [List.append_assoc] at perm
  obtain ⟨outside, nodup⟩ := List.nodup_cons.mp (perm.nodup_iff.mpr List.nodup_range)
  refine ⟨node, alloc, free, spare', allocates, onward, perm,
    fun member => outside (List.mem_append_left _ member), fun other member => ⟨?_, ?_⟩, reuses⟩
  · exact fun onChain => (List.nodup_append.mp nodup).2.2 other onChain other member rfl
  · exact fun same => outside (List.mem_append_right _ (same ▸ member))

/-- `Map::create` puts a node that was on no chain in front of the chain of the path. -/
theorem create (pool : Pool map chains spare) {path : Nat} (inside : path % map.size < map.size) :
    ∃ node spare', (create map path).1 = node ∧ (∀ root < map.size, node ∉ chains root) ∧
      Pool (MapRef.create map path).2 (Function.update chains (path % map.size)
        (node :: chains (path % map.size))) spare' ∧
      (MapRef.create map path).2.key = Function.update map.key node none ∧
      (MapRef.create map path).2.value = Function.update map.value node none ∧
      (MapRef.create map path).2.size = map.size ∧ (MapRef.create map path).2.last = map.last ∧
      (map.free ≠ none → (MapRef.create map path).2.alloc = map.alloc) := by
  obtain ⟨node, alloc, free, spare', allocates, onward, perm, offChain, apart, reuses⟩ :=
    pool.allocate inside
  have kept : ∀ (pointer : Option Nat), ∀ other ∈ elsewhere map chains (path % map.size) ++ spare',
      Function.update map.next node pointer other = map.next other := fun pointer other member =>
    Function.update_of_ne (apart other member).2 _ _
  have created : MapRef.create map path = (node, { map with
      free := free
      alloc := alloc
      count := map.count + 1
      next := Function.update map.next node (map.list (path % map.size))
      list := Function.update map.list (path % map.size) (some node)
      key := Function.update map.key node none
      value := Function.update map.value node none }) := by
    simp only [MapRef.create, allocates]
  rw [created]
  refine ⟨node, spare', rfl, fun root inside' member => ?_, ?_, rfl, rfl, rfl, rfl, reuses⟩
  · by_cases same : root = path % map.size
    · exact offChain (same ▸ member)
    · have others : node ∈ elsewhere map chains (path % map.size) := by
        refine Buckets.mem_entries.mpr ⟨root, inside', ?_⟩
        rw [Function.update_of_ne same]
        exact member
      exact (apart node (List.mem_append_left _ others)).2 rfl
  · refine pool.exchange inside rfl ?_ (fun other different => Function.update_of_ne different _ _)
      (fun other member => kept _ other (List.mem_append_left _ member))
      (onward.congr fun other member => kept _ other (List.mem_append_right _ member)) ?_ ?_
    · dsimp only
      rw [Function.update_self]
      exact (pool.path _ inside).push offChain
    · rw [List.append_assoc]
      exact perm
    · dsimp only
      rw [pool.count_eq inside, List.length_cons]
      omega

/-- `Map::remove` takes a node off its chain, and makes it the first spare one. -/
theorem remove (pool : Pool map chains spare) {path : Nat} (inside : path % map.size < map.size)
    {first last : List Nat} (whole : chains (path % map.size) = first ++ node :: last)
    {final : Option Nat}
    (lasts : findLast { map with count := map.count - 1 } node (path % map.size) = some final) :
    ∃ map', remove map node path = some map' ∧
      Pool map' (Function.update chains (path % map.size) (first ++ last)) (node :: spare) ∧
      map'.key = map.key ∧ map'.value = map.value ∧ map'.size = map.size ∧ map'.last = final ∧
      map'.alloc = map.alloc := by
  have chain := pool.path _ inside
  have enough := pool.length_le inside
  have nodup := pool.nodup inside
  have perm := pool.split inside
  have counts := pool.count_eq inside
  rw [whole] at chain enough nodup perm counts
  have distinct := nodup.of_append_left.of_append_left
  have delisted : delist { map with count := map.count - 1, last := final } node
      (path % map.size) = _ := delist_eq chain distinct enough
  rw [MapRef.remove]
  dsimp only
  rw [lasts, Option.bind_some, delisted, Option.map_some]
  refine ⟨_, rfl, ?_, rfl, rfl, rfl, rfl, rfl⟩
  have moved : (first ++ last ++ elsewhere map chains (path % map.size) ++ node :: spare).Perm
      (List.range map.alloc) := by
    refine List.Perm.trans ?_ perm
    rw [List.perm_iff_count]
    intro other
    simp only [List.count_append, List.count_cons]
    omega
  -- the node and those before it are on no other chain, and not spare
  have apart : ∀ other ∈ elsewhere map chains (path % map.size) ++ spare,
      other ≠ node ∧ other ∉ first := by
    intro other member
    rw [List.append_assoc, List.nodup_append] at nodup
    have differs := fun inner inChain => nodup.2.2 inner inChain other member
    exact ⟨(differs node (by simp)).symm, fun inFirst => differs other (by simp [inFirst]) rfl⟩
  have alone : node ∉ first ++ last := (List.nodup_cons.mp (List.nodup_middle.mp distinct)).1
  have kept : ∀ other ∈ elsewhere map chains (path % map.size) ++ spare,
      Function.update (first.getLast?.elim map.next fun prior =>
        Function.update map.next prior (map.next node)) node map.free other = map.next other := by
    intro other member
    obtain ⟨notNode, notFirst⟩ := apart other member
    rw [Function.update_of_ne notNode, Path.detached_of_not_mem notFirst]
  refine pool.exchange inside rfl ?_ (fun other different => ?_)
    (fun other member => kept other (List.mem_append_left _ member)) ?_ moved ?_
  · dsimp only [enlistFree]
    rw [ite_apply, Function.update_self]
    exact (chain.detach distinct).congr fun other member =>
      Function.update_of_ne (ne_of_mem_of_not_mem member alone) _ _
  · dsimp only [enlistFree]
    split
    · exact Function.update_of_ne different _ _
    · rfl
  · refine ⟨rfl, ?_⟩
    dsimp only [enlistFree]
    rw [Function.update_self]
    exact pool.free.congr fun other member => kept other (List.mem_append_right _ member)
  · dsimp only [enlistFree]
    rw [counts, List.length_append, List.length_append, List.length_cons]
    omega

end Pool

/-! ### Traversal -/

/-- The nodes on the chains of the paths behind one. -/
def later (map : Map Key Value) (chains : Nat → List Nat) (path : Nat) : List Nat :=
  (List.range' (path + 1) (map.size - (path + 1))).flatMap chains

theorem later_of_lt (chains : Nat → List Nat) {path : Nat} (inside : path + 1 < map.size) :
    later map chains path = chains (path + 1) ++ later map chains (path + 1) := by
  obtain ⟨rest, sizes⟩ := Nat.exists_eq_add_of_lt inside
  have here : map.size - (path + 1) = rest + 1 := by omega
  have behind : map.size - (path + 1 + 1) = rest := by omega
  rw [later, later, here, behind, List.range'_succ, List.flatMap_cons]

theorem later_of_le (chains : Nat → List Nat) {path : Nat} (outside : map.size ≤ path + 1) :
    later map chains path = [] := by
  rw [later, Nat.sub_eq_zero_of_le outside]
  rfl

theorem entries_eq (chains : Nat → List Nat) (nonempty : 0 < map.size) :
    Buckets.entries chains map.size = chains 0 ++ later map chains 0 := by
  obtain ⟨rest, sizes⟩ := Nat.exists_eq_succ_of_ne_zero (Nat.ne_of_gt nonempty)
  rw [Buckets.entries, later, sizes, List.range_eq_range', List.range'_succ, List.flatMap_cons]
  rfl

/-- A position from which these nodes are still to be visited. -/
def Remaining (map : Map Key Value) (chains : Nat → List Nat) (position : Instance)
    (nodes : List Nat) : Prop :=
  ∃ chain, Path map.next position.index chain none ∧
    nodes = chain ++ later map chains position.path

/-- The loop over the paths stops at the first one with a node. -/
theorem scan_eq (paths : ∀ root < map.size, Path map.next (map.list root) (chains root) none)
    {fuel path : Nat} (enough : map.size ≤ path + fuel) :
    (later map chains path = [] ∧ ∃ path', scan map fuel path = (false, ⟨none, path'⟩)) ∨
      ∃ node path', scan map fuel path = (true, ⟨some node, path'⟩) ∧
        Remaining map chains ⟨some node, path'⟩ (later map chains path) := by
  induction fuel generalizing path with
  | zero => exact Or.inl ⟨later_of_le chains (Nat.le_succ_of_le enough), path, rfl⟩
  | succ fuel inductionHypothesis =>
    unfold scan
    split
    next inside =>
      have chain := paths (path + 1) inside
      cases leads : map.list (path + 1) with
      | some node =>
        rw [leads] at chain
        exact Or.inr ⟨node, path + 1, rfl, chains (path + 1), chain, later_of_lt chains inside⟩
      | none =>
        have empty : chains (path + 1) = [] := by
          rw [leads] at chain
          exact chain.unique rfl
        have skipped : later map chains path = later map chains (path + 1) := by
          rw [later_of_lt chains inside, empty, List.nil_append]
        rw [skipped]
        exact inductionHypothesis (by omega)
    next outside => exact Or.inl ⟨later_of_le chains (by omega), path + 1, rfl⟩

/-- `Instance::next` moves on to the node behind the one visited. -/
theorem next_eq (paths : ∀ root < map.size, Path map.next (map.list root) (chains root) none)
    (position : Instance) {nodes : List Nat}
    (remaining : Remaining map chains ⟨position.index.bind map.next, position.path⟩ nodes) :
    (nodes = [] ∧ ∃ path, next map position = (false, ⟨none, path⟩)) ∨
      ∃ node path, next map position = (true, ⟨some node, path⟩) ∧
        Remaining map chains ⟨some node, path⟩ nodes := by
  obtain ⟨chain, onward, rfl⟩ := remaining
  unfold next
  cases leads : position.index.bind map.next with
  | some node =>
    refine Or.inr ⟨node, position.path, rfl, chain, ?_, rfl⟩
    rw [leads] at onward
    exact onward
  | none =>
    have empty : chain = [] := by
      rw [leads] at onward
      exact onward.unique rfl
    rw [empty, List.nil_append]
    exact scan_eq paths (by omega)

/-- A traversal visits what remains. -/
theorem traverse_eq (paths : ∀ root < map.size, Path map.next (map.list root) (chains root) none)
    {fuel path : Nat} {nodes : List Nat} (enough : nodes.length ≤ fuel)
    (remaining : Remaining map chains ⟨some node, path⟩ nodes) :
    traverse map fuel ⟨some node, path⟩ = some nodes := by
  induction fuel generalizing node path nodes with
  | zero =>
    obtain ⟨chain, onward, rfl⟩ := remaining
    rw [List.length_append] at enough
    have empty : chain = [] := List.eq_nil_of_length_eq_zero (by omega)
    rw [empty] at onward
    cases onward
  | succ fuel inductionHypothesis =>
    obtain ⟨chain, onward, rfl⟩ := remaining
    cases chain with
    | nil => cases onward
    | cons first rest =>
      obtain ⟨same, onward⟩ := onward
      cases same
      have behind : Remaining map chains ⟨(some node).bind map.next, path⟩
          (rest ++ later map chains path) := ⟨rest, onward, rfl⟩
      rw [traverse]
      rcases next_eq paths ⟨some node, path⟩ behind with
        ⟨empty, path', stops⟩ | ⟨node', path', moves, remaining⟩
      · simp only [stops, List.cons_append, empty]
      · have shorter : (rest ++ later map chains path).length ≤ fuel :=
          Nat.le_of_succ_le_succ enough
        simp only [moves, inductionHypothesis shorter remaining, Option.map_some,
          List.cons_append]

/-- A traversal from the start visits the nodes of all chains, and comes to an end. -/
theorem Pool.traverse (pool : Pool map chains spare) (nonempty : 0 < map.size) :
    traverse map (map.alloc + 1) (rewind map) = some (Buckets.entries chains map.size) := by
  have enough : (Buckets.entries chains map.size).length ≤ map.alloc + 1 := by
    have lengths := pool.perm.length_eq
    rw [List.length_append, List.length_range] at lengths
    omega
  have chain := pool.path 0 nonempty
  rw [entries_eq chains nonempty] at enough ⊢
  rw [rewind]
  cases leads : map.list 0 with
  | some node =>
    rw [leads] at chain
    exact traverse_eq pool.path enough ⟨chains 0, chain, rfl⟩
  | none =>
    have empty : chains 0 = [] := by
      rw [leads] at chain
      exact chain.unique rfl
    rw [empty, List.nil_append] at enough ⊢
    have ahead : Remaining map chains ⟨(none : Option Nat).bind map.next, 0⟩
        (later map chains 0) := ⟨[], rfl, rfl⟩
    rcases next_eq pool.path ⟨none, 0⟩ ahead with
      ⟨nothing, path, stops⟩ | ⟨node, path, moves, remaining⟩
    · rw [nothing, stops]
      rfl
    · rw [moves]
      exact traverse_eq pool.path enough remaining

/-! ### The hash table as a finite map -/

section Table

variable [MapKey Key] {bindings : Finmap fun _ : Content Key => Option Value} {key : Key}
  {val : Option Value}

/-- The path of a key in a table of this size. -/
def bucket (size : Nat) (name : Content Key) : Nat := (MapKey.hash name).toNat % size

/-- What the key of a node has in common with the keys equal to it. -/
def name (map : Map Key Value) (node : Nat) : Option (Content Key) := (map.key node).map content

/-- The table is made of these chains, and binds the keys like this. -/
structure Holds (map : Map Key Value) (chains : Nat → List Nat) (spare : List Nat)
    (bindings : Finmap fun _ : Content Key => Option Value) : Prop where
  nonempty : 0 < map.size
  pool : Pool map chains spare
  held : Buckets (bucket map.size) (name map) map.value chains bindings
  last : map.last = none

omit [MapKey Key] in
theorem pool_empty (size : Nat) : Pool (Map.empty size : Map Key Value) (fun _ => []) [] := by
  refine ⟨fun _ _ => rfl, rfl, ?_, ?_⟩ <;> simp [Map.empty, Buckets.entries]

theorem path_eq_bucket (size : Nat) (key : Key) :
    (mapkeypath key).toNat % size = bucket size (content key) := by
  rw [bucket, mapkeypath_eq]

/-- The nodes the loop looks for are those whose keys have the same content. -/
theorem found_iff (map : Map Key Value) (key : Key) (node : Nat) :
    ((map.key node).any fun kv => equal kv key) = true ↔ name map node = some (content key) := by
  rw [name, Option.any_eq_true, Option.map_eq_some_iff]
  exact exists_congr fun kv => and_congr_right fun _ => equal_iff kv key

namespace Holds

theorem inside (holds : Holds map chains spare bindings) (name : Content Key) :
    bucket map.size name < map.size :=
  Nat.mod_lt _ holds.nonempty

theorem empty {size : Nat} (nonempty : 0 < size) :
    Holds (Map.empty size : Map Key Value) (fun _ => []) [] ∅ :=
  ⟨nonempty, pool_empty size, Buckets.empty, rfl⟩

/-- The search misses a key that no node of its chain has, and finds the node that has it. -/
theorem search (holds : Holds map chains spare bindings) (key : Key) :
    (search map key = some none ∧
      ∀ node ∈ chains (bucket map.size (content key)), name map node ≠ some (content key)) ∨
    ∃ first node last, chains (bucket map.size (content key)) = first ++ node :: last ∧
      name map node = some (content key) ∧ MapRef.search map key = some (some node) := by
  have inside := holds.inside (content key)
  have path := holds.pool.path _ inside
  have enough := holds.pool.length_le inside
  rw [MapRef.search, path_eq_bucket]
  rcases walk_cases (fun node => (map.key node).any fun kv => equal kv key) path enough with
    ⟨missed, walked⟩ | ⟨first, node, last, whole, _, found, walked⟩
  · rw [walked, Option.map_some]
    refine Or.inl ⟨rfl, fun node member named => ?_⟩
    rw [← found_iff, missed node member] at named
    cases named
  · rw [walked, Option.map_some]
    exact Or.inr ⟨first, node, last, whole, (found_iff map key node).mp found, rfl⟩

/-- `at` gives the value the key is bound to, and null when it is not bound. -/
theorem valueAt (holds : Holds map chains spare bindings) (key : Key) :
    valueAt map key = some ((bindings.lookup (content key)).join) := by
  rw [MapRef.valueAt]
  rcases holds.search key with ⟨searched, missed⟩ | ⟨first, node, last, whole, named, searched⟩
  · rw [searched, holds.held.lookup_of_missed missed]
    rfl
  · have member : node ∈ chains (bucket map.size (content key)) := by simp [whole]
    rw [searched, holds.held.lookup_of_mem member named]
    rfl

/-- The value of a node that has the key is exchanged. -/
theorem update (holds : Holds map chains spare bindings) {first last : List Nat}
    (whole : chains (bucket map.size (content key)) = first ++ node :: last)
    (named : name map node = some (content key)) (val : Option Value) :
    Holds { map with value := Function.update map.value node val } chains spare
      (bindings.insert (content key) val) := by
  have split : chains (bucket map.size (content key)) = first ++ [node] ++ last := by simp [whole]
  have inserted : Buckets (bucket map.size) (name map) (Function.update map.value node val)
      (Function.update chains (bucket map.size (content key)) (first ++ node :: last))
      (bindings.insert (content key) (Function.update map.value node val node)) := by
    refine holds.held.inserted split (holds.held.others_of_split whole named)
      (fun other member => ?_) named fun index other _ differs => ⟨rfl, ?_⟩
    · rw [List.mem_singleton.mp member]
      exact named
    · refine Function.update_of_ne (fun same => differs ?_) _ _
      rw [same]
      exact named
  rw [← whole, Function.update_eq_self, Function.update_self] at inserted
  exact ⟨holds.nonempty, ⟨holds.pool.path, holds.pool.free, holds.pool.perm, holds.pool.count⟩,
    inserted, holds.last⟩

/-- A key no node has is bound by a new node, which is a spare one while there are any. -/
theorem add (holds : Holds map chains spare bindings)
    (missed : ∀ node ∈ chains (bucket map.size (content key)), name map node ≠ some (content key))
    (val : Option Value) {created : Nat × Map Key Value}
    (creates : create map (mapkeypath key).toNat = created) :
    ∃ chains' spare', Holds { created.2 with
        key := Function.update created.2.key created.1 (some key)
        value := Function.update created.2.value created.1 val } chains' spare'
      (bindings.insert (content key) val) ∧
      (map.free ≠ none → created.2.alloc = map.alloc) := by
  have root := path_eq_bucket map.size key
  have inside := holds.inside (content key)
  rw [← root] at inside
  obtain ⟨node, spare', creates', off, pool, keys, values, sizes, lasts, reuses⟩ :=
    holds.pool.create inside
  rw [creates] at creates' pool keys values sizes lasts reuses
  refine ⟨_, spare', ⟨?_, ⟨pool.path, pool.free, pool.perm, pool.count⟩, ?_, ?_⟩, reuses⟩
  · dsimp only
    rw [sizes]
    exact holds.nonempty
  · dsimp only
    rw [creates', keys, values, sizes, root, Function.update_idem, Function.update_idem]
    have whole : chains (bucket map.size (content key)) =
        [] ++ [] ++ chains (bucket map.size (content key)) := rfl
    have apart : ∀ index, ∀ other ∈ chains index, other ≠ node := by
      intro index other member
      obtain ⟨name', _, rfl⟩ := holds.held.placed index other member
      exact ne_of_mem_of_not_mem member (off _ (holds.inside name'))
    have inserted : Buckets (bucket map.size)
        (fun other => (Function.update map.key node (some key) other).map content)
        (Function.update map.value node val)
        (Function.update chains (bucket map.size (content key))
          ([] ++ node :: chains (bucket map.size (content key))))
        (bindings.insert (content key) (Function.update map.value node val node)) := by
      refine holds.held.inserted whole missed (by simp) ?_ fun index other member _ => ?_
      · rw [Function.update_self, Option.map_some]
      · rw [Function.update_of_ne (apart index other member),
          Function.update_of_ne (apart index other member)]
        exact ⟨rfl, rfl⟩
    rw [Function.update_self] at inserted
    exact inserted
  · dsimp only
    rw [lasts]
    exact holds.last

/-- `value` binds the key, and grows the pool only when no node is free. -/
theorem value (holds : Holds map chains spare bindings) (key : Key) (val : Option Value) :
    ∃ map' chains' spare', value map key val = some map' ∧
      Holds map' chains' spare' (bindings.insert (content key) val) ∧
      (map.free ≠ none → map'.alloc = map.alloc) := by
  rw [MapRef.value]
  rcases holds.search key with ⟨searched, missed⟩ | ⟨first, node, last, whole, named, searched⟩
  · obtain ⟨chains', spare', holds', reuses⟩ := holds.add missed val rfl
    rw [searched]
    exact ⟨_, chains', spare', rfl, holds', reuses⟩
  · rw [searched]
    exact ⟨_, chains, spare, rfl, holds.update whole named val, fun _ => rfl⟩

/-- `remove` unbinds the key, and returns whether it was bound. -/
theorem erase (holds : Holds map chains spare bindings) (key : Key) :
    ∃ map' chains' spare', erase map key =
        some ((bindings.lookup (content key)).isSome, map') ∧
      Holds map' chains' spare' (bindings.erase (content key)) := by
  rw [MapRef.erase]
  rcases holds.search key with ⟨searched, missed⟩ | ⟨first, node, last, whole, named, searched⟩
  · rw [searched, holds.held.lookup_of_missed missed, holds.held.erase_of_missed missed]
    exact ⟨map, chains, spare, rfl, holds⟩
  · have root := path_eq_bucket map.size key
    have inside := holds.inside (content key)
    have member : node ∈ chains (bucket map.size (content key)) := by simp [whole]
    have bound := holds.held.lookup_of_mem member named
    have whole' := whole
    rw [← root] at inside whole'
    have lasts : findLast { map with count := map.count - 1 } node
        ((mapkeypath key).toNat % map.size) = some none := by
      simp [findLast, holds.last]
    obtain ⟨map', removed, pool, keys, values, sizes, final, _⟩ :=
      holds.pool.remove inside whole' lasts
    rw [searched, Option.bind_some]
    dsimp only
    rw [removed, Option.map_some, bound]
    refine ⟨map', _, _, rfl, ?_, pool, ?_, final⟩
    · rw [sizes]
      exact holds.nonempty
    · have names : name map' = name map := by
        funext other
        rw [name, name, keys]
      rw [root, sizes, names, values]
      exact holds.held.erased whole named

end Holds

/-! #### Runs -/

/-- A table, and the finite map it is used as. -/
structure TableState (Key Value : Type) [MapKey Key] where
  map : Map Key Value
  bindings : Finmap fun _ : Content Key => Option Value

/-- The calls that change a table. -/
inductive TableAction (Key Value : Type)
  | value (key : Key) (val : Option Value)
  | remove (key : Key)

/-- A call on the table, and what it stands for: the key is bound to the value, or no longer
bound. -/
def tableStep (state : TableState Key Value) :
    TableAction Key Value → Option (TableState Key Value)
  | .value key val => (value state.map key val).map fun map =>
      ⟨map, state.bindings.insert (content key) val⟩
  | .remove key => (erase state.map key).map fun (_, map) =>
      ⟨map, state.bindings.erase (content key)⟩

/-- The machine of `mapref(paths)`. -/
def mapref (Key Value : Type) [MapKey Key] (paths : Nat) :
    Machine (TableState Key Value) (TableAction Key Value) where
  Init state := state = ⟨Map.empty paths, ∅⟩
  step := tableStep

/-- These nodes show every binding, and each once. -/
structure Shows (state : TableState Key Value) (visited : List Nat) : Prop where
  once : (visited.map (name state.map)).Nodup
  bound : ∀ node ∈ visited, ∃ key, name state.map node = some key ∧
    state.bindings.lookup key = some (state.map.value node)
  every : ∀ key ∈ state.bindings, ∃ node ∈ visited, name state.map node = some key

/-- The table serves as the finite map: every call comes to an end and returns what the map gives,
a traversal shows the bindings, and the nodes in use and the free ones are those allocated. A new
node is not allocated while there is a free one. -/
structure Refines (state : TableState Key Value) : Prop where
  at_eq : ∀ key, valueAt state.map key = some ((state.bindings.lookup (content key)).join)
  stores : ∀ key val, ∃ map, value state.map key val = some map ∧
    (state.map.free ≠ none → map.alloc = state.map.alloc)
  removes : ∀ key, ∃ map,
    erase state.map key = some ((state.bindings.lookup (content key)).isSome, map)
  count_eq : state.map.count = state.bindings.keys.card
  traversal : ∃ visited,
    traverse state.map (state.map.alloc + 1) (rewind state.map) = some visited ∧
      Shows state visited
  pool : ∃ chains spare, Pool state.map chains spare

theorem Holds.shows {state : TableState Key Value}
    (holds : Holds state.map chains spare state.bindings) :
    Shows state (Buckets.entries chains state.map.size) := by
  have lookup := holds.held.lookup_iff_entries holds.inside
  refine ⟨holds.held.entries_once, fun node member => ?_, fun key bound => ?_⟩
  · obtain ⟨root, _, onChain⟩ := Buckets.mem_entries.mp member
    obtain ⟨key, named, _⟩ := holds.held.placed root node onChain
    exact ⟨key, named, (lookup key _).mpr ⟨node, member, named, rfl⟩⟩
  · obtain ⟨val, found⟩ := Finmap.mem_iff.mp bound
    obtain ⟨node, member, named, _⟩ := (lookup key val).mp found
    exact ⟨node, member, named⟩

theorem Holds.refines {state : TableState Key Value}
    (holds : Holds state.map chains spare state.bindings) : Refines state where
  at_eq := holds.valueAt
  stores key val := by
    obtain ⟨map, _, _, stored, _, reuses⟩ := holds.value key val
    exact ⟨map, stored, reuses⟩
  removes key := by
    obtain ⟨map, _, _, erased, _⟩ := holds.erase key
    exact ⟨map, erased⟩
  count_eq := by rw [holds.pool.count, holds.held.card_keys holds.inside]
  traversal := ⟨_, holds.pool.traverse holds.nonempty, holds.shows⟩
  pool := ⟨chains, spare, holds.pool⟩

/-- What holds of a table in use. -/
def TableInvariant (state : TableState Key Value) : Prop :=
  ∃ chains spare, Holds state.map chains spare state.bindings

theorem tableStep_invariant {source target : TableState Key Value}
    {action : TableAction Key Value} (invariant : TableInvariant source)
    (stepped : tableStep source action = some target) : TableInvariant target := by
  obtain ⟨chains, spare, holds⟩ := invariant
  cases action with
  | value key val =>
    obtain ⟨map, chains', spare', stored, holds', _⟩ := holds.value key val
    rw [tableStep, stored] at stepped
    cases stepped
    exact ⟨chains', spare', holds'⟩
  | remove key =>
    obtain ⟨map, chains', spare', erased, holds'⟩ := holds.erase key
    rw [tableStep, erased] at stepped
    cases stepped
    exact ⟨chains', spare', holds'⟩

/-- After every sequence of calls on a table of at least one path, it serves as the finite map the
calls should leave. -/
theorem mapref_refines {paths : Nat} (positive : 0 < paths) {state : TableState Key Value}
    (reachable : (mapref Key Value paths).Reachable state) : Refines state := by
  have invariant : TableInvariant state := by
    refine reachable.invariant (fun state initial => ?_)
      fun source action target => tableStep_invariant
    obtain rfl := initial
    exact ⟨_, _, Holds.empty positive⟩
  obtain ⟨chains, spare, holds⟩ := invariant
  exact holds.refines

end Table

/-- The buffers of equal keys differ behind the text. Two keys share a path; one is removed, and a
third takes its node. -/
theorem mapref_refines_reused :
    ∃ state : TableState CharsKey Nat, (mapref CharsKey Nat 2).Reachable state ∧
      state.map.alloc = 2 ∧ state.map.count = 2 ∧
      valueAt state.map ⟨[0x61, 0, 0x39]⟩ = some (some 4) ∧ Refines state := by
  let played := (mapref CharsKey Nat 2).play ⟨Map.empty 2, ∅⟩
    [.value ⟨[0x61, 0, 0x37]⟩ (some 3), .value ⟨[0x63, 0]⟩ none,
      .value ⟨[0x61, 0, 0x38]⟩ (some 4), .remove ⟨[0x63, 0, 0x39]⟩, .value ⟨[0x62, 0]⟩ (some 5)]
  have reachable : (mapref CharsKey Nat 2).Reachable (played.get (by decide)) :=
    Machine.reachable_get rfl _
  exact ⟨_, reachable, by decide, by decide, by decide, mapref_refines (by decide) reachable⟩

/-! ### The list as a sequence -/

/-- The loop that counts an offset down ends at the node there. -/
theorem seek_eq {links : Nat → Option Nat} {pointer : Option Nat} {nodes : List Nat}
    (path : Path links pointer nodes none) (offset : Nat) :
    seek links offset pointer = nodes[offset]? := by
  induction nodes generalizing pointer offset with
  | nil =>
    cases path
    cases offset <;> rfl
  | cons first rest inductionHypothesis =>
    obtain ⟨rfl, onward⟩ := path
    cases offset with
    | zero => rfl
    | succ offset => exact inductionHypothesis onward offset

/-- After the removal of a node the last one is the last of those that stay. -/
theorem findLast_eq {first behind : List Nat}
    (path : Path map.next (map.list root) (first ++ node :: behind) none)
    (distinct : (first ++ node :: behind).Nodup)
    (enough : (first ++ node :: behind).length ≤ map.alloc)
    (last : map.last = (first ++ node :: behind).getLast?) :
    findLast map node root = some (first ++ behind).getLast? := by
  have alone := (List.nodup_cons.mp (List.nodup_middle.mp distinct)).1
  rw [findLast, last]
  rcases List.eq_nil_or_concat' behind with rfl | ⟨middle, final, rfl⟩
  · rw [if_pos List.getLast?_concat, List.append_nil]
    rw [List.append_nil] at alone
    rcases List.eq_nil_or_concat' first with rfl | ⟨earlier, prior, rfl⟩
    · rw [if_pos path.1]
      rfl
    · obtain ⟨middle, toPrior, leads, _⟩ := Path.append_iff.mp path
      subst leads
      obtain ⟨start, starts⟩ : ∃ start, (earlier ++ [prior]).head? = some start := by
        cases earlier <;> exact ⟨_, rfl⟩
      have elsewhere : map.list root ≠ some node := by
        rw [toPrior.head_eq, starts, Option.some_or]
        exact fun same => alone (Option.some_inj.mp same ▸ List.mem_of_head? starts)
      have passed : ∀ other ∈ earlier, decide (map.next other = some node) = false := by
        intro other member
        obtain ⟨following, within, onward⟩ := toPrior.leads_within other member
        refine decide_eq_false fun stops => alone ?_
        rw [onward] at stops
        exact Option.some_inj.mp stops ▸ within
      obtain ⟨_, _, toNode⟩ := Path.append_iff.mp toPrior
      have stops : decide (map.next prior = some node) = true := decide_eq_true toNode.2
      have path' : Path map.next (map.list root) (earlier ++ prior :: [node]) none := by
        simpa using path
      have short : earlier.length < map.alloc := by
        simp only [List.length_append, List.length_cons] at enough
        omega
      rw [if_neg elsewhere, walk_of_found path' passed stops short none]
      simp
  · have whole : first ++ node :: (middle ++ [final]) = first ++ node :: middle ++ [final] := by
      simp
    have differs : some final ≠ some node := fun same =>
      alone (by simp [← Option.some_inj.mp same])
    rw [whole, List.getLast?_concat, if_neg differs, ← List.append_assoc, List.getLast?_concat]

/-- `Map::append` puts a node that was on no chain behind the last one. -/
theorem Pool.append (pool : Pool map chains spare) (inside : 0 < map.size)
    (last : map.last = (chains 0).getLast?) :
    ∃ node spare', (append map).1 = node ∧ node ∉ chains 0 ∧
      Pool (MapRef.append map).2 (Function.update chains 0 (chains 0 ++ [node])) spare' ∧
      (MapRef.append map).2.value = Function.update map.value node none ∧
      (MapRef.append map).2.size = map.size ∧ (MapRef.append map).2.last = some node := by
  obtain ⟨node, alloc, free, spare', allocates, onward, perm, offChain, apart, _⟩ :=
    pool.allocate inside
  have appended : MapRef.append map = (node, { map with
      free := free
      alloc := alloc
      count := map.count + 1
      next := Function.update ((chains 0).getLast?.elim (Function.update map.next node none)
        fun final => Function.update (Function.update map.next node none) final (some node))
        node none
      list := if (chains 0).getLast? = none then Function.update map.list 0 (some node)
        else map.list
      last := some node
      key := Function.update map.key node none
      value := Function.update map.value node none }) := by
    simp only [MapRef.append, allocates, last]
    cases (chains 0).getLast? <;> rfl
  have moved : (chains 0 ++ [node] ++ elsewhere map chains 0 ++ spare').Perm
      (List.range alloc) := by
    refine List.Perm.trans ?_ perm
    rw [List.perm_iff_count]
    intro other
    simp only [List.count_append, List.count_cons, List.count_nil]
    omega
  have kept : ∀ other ∈ elsewhere map chains 0 ++ spare',
      (MapRef.append map).2.next other = map.next other := by
    intro other member
    obtain ⟨notOn, differs⟩ := apart other member
    rw [appended]
    exact (Path.attached_of_not_mem notOn differs _).trans (Function.update_of_ne differs _ _)
  have path : Path (Function.update map.next node none) (map.list 0) (chains 0) none :=
    (pool.path 0 inside).congr fun other member =>
      Function.update_of_ne (ne_of_mem_of_not_mem member offChain) _ _
  rw [appended] at kept ⊢
  refine ⟨node, spare', rfl, offChain, pool.exchange inside rfl ?_ (fun other different => ?_)
    (fun other member => kept other (List.mem_append_left _ member))
    (onward.congr fun other member => kept other (List.mem_append_right _ member)) moved ?_,
    rfl, rfl, rfl⟩
  · dsimp only
    rw [ite_apply, Function.update_self]
    exact path.attach (pool.nodup_chain inside) offChain
  · dsimp only
    split
    · exact Function.update_of_ne different _ _
    · rfl
  · dsimp only
    rw [pool.count_eq inside, List.length_append, List.length_singleton]
    omega

section Sequence

variable {equal : Value → Value → Bool} {items : List Value} {val : Value}

/-- The nodes of the only chain hold the items in order, and the last of them is known. -/
structure Lists (map : Map Key Value) (chains : Nat → List Nat) (spare : List Nat)
    (items : List Value) : Prop where
  size : map.size = 1
  pool : Pool map chains spare
  values : (chains 0).map map.value = items.map some
  last : map.last = (chains 0).getLast?

namespace Lists

theorem empty : Lists (Map.empty 1 : Map Key Value) (fun _ => []) [] [] :=
  ⟨rfl, pool_empty 1, rfl, rfl⟩

theorem inside (lists : Lists map chains spare items) : 0 < map.size := by
  rw [lists.size]
  exact Nat.zero_lt_one

theorem path (lists : Lists map chains spare items) :
    Path map.next (map.list 0) (chains 0) none :=
  lists.pool.path 0 lists.inside

theorem length_eq (lists : Lists map chains spare items) :
    (chains 0).length = items.length := by
  simpa using congrArg List.length lists.values

theorem count_eq (lists : Lists map chains spare items) : map.count = items.length := by
  rw [lists.pool.count, lists.size, ← lists.length_eq, Buckets.entries]
  simp

/-- The items before and behind a node are those of the nodes before and behind. -/
theorem split (lists : Lists map chains spare items) {first last : List Nat}
    (whole : chains 0 = first ++ node :: last) :
    ∃ before val behind, items = before ++ val :: behind ∧ map.value node = some val ∧
      first.map map.value = before.map some ∧ last.map map.value = behind.map some := by
  have values := lists.values
  rw [whole, List.map_append, List.map_cons] at values
  obtain ⟨before, rest, rfl, firsts, rests⟩ := List.map_eq_append_iff.mp values.symm
  obtain ⟨val, behind, rfl, here, lasts⟩ := List.map_eq_cons_iff.mp rests
  exact ⟨before, val, behind, rfl, here.symm, firsts.symm, lasts.symm⟩

/-- `append` puts the value at the end. -/
theorem append (lists : Lists map chains spare items) (val : Value) :
    ∃ chains' spare', Lists (appendValue map val) chains' spare' (items ++ [val]) := by
  obtain ⟨node, spare', appends, off, pool, values, sizes, last⟩ :=
    lists.pool.append lists.inside lists.last
  refine ⟨_, spare', sizes.trans lists.size, ⟨pool.path, pool.free, pool.perm, pool.count⟩, ?_, ?_⟩
  · rw [appendValue]
    dsimp only
    rw [appends, values, Function.update_idem, Function.update_self, List.map_append,
      List.map_append, ← lists.values]
    congr 1
    · refine List.map_congr_left fun other member => Function.update_of_ne ?_ _ _
      exact ne_of_mem_of_not_mem member off
    · simp
  · rw [Function.update_self, List.getLast?_concat]
    exact last

/-- `Map::remove` takes the value of one node off the list. -/
theorem remove (lists : Lists map chains spare items) {first rest : List Nat}
    (whole : chains 0 = first ++ node :: rest) {before behind : List Value}
    (firsts : first.map map.value = before.map some)
    (rests : rest.map map.value = behind.map some) :
    ∃ map' chains' spare', remove map node 0 = some map' ∧
      Lists map' chains' spare' (before ++ behind) := by
  have inside := lists.inside
  have distinct := lists.pool.nodup_chain inside
  have enough := lists.pool.length_le inside
  have path := lists.path
  have last := lists.last
  rw [whole] at distinct enough path last
  have found : findLast { map with count := map.count - 1 } node (0 % map.size) =
      some (first ++ rest).getLast? := by
    rw [Nat.zero_mod]
    exact findLast_eq path distinct enough last
  have whole' : chains (0 % map.size) = first ++ node :: rest := by
    rw [Nat.zero_mod]
    exact whole
  obtain ⟨map', removed, pool, _, values, sizes, final, _⟩ :=
    lists.pool.remove (Nat.mod_lt 0 inside) whole' found
  rw [Nat.zero_mod] at pool
  refine ⟨map', _, _, removed, sizes.trans lists.size, pool, ?_, ?_⟩
  · rw [Function.update_self, values, List.map_append, List.map_append, firsts, rests]
  · rw [Function.update_self, final]

/-- `remove` deletes the first value equal to the given one, and returns whether there is one. -/
theorem eraseValue (lists : Lists map chains spare items) (equal : Value → Value → Bool)
    (val : Value) :
    ∃ map' chains' spare', eraseValue equal map val =
        some (items.any (equal · val), map') ∧
      Lists map' chains' spare' (items.eraseP (equal · val)) := by
  have path := lists.path
  have enough := lists.pool.length_le lists.inside
  rw [MapRef.eraseValue]
  rcases walk_cases (fun node => (map.value node).any fun kv => equal kv val) path enough with
    ⟨missed, walked⟩ | ⟨first, node, last, whole, passed, found, walked⟩
  · have unequal : ∀ item ∈ items, equal item val = false := by
      intro item member
      have held : some item ∈ (chains 0).map map.value := by
        rw [lists.values]
        exact List.mem_map_of_mem member
      obtain ⟨node, onChain, holds⟩ := List.mem_map.mp held
      simpa [holds] using missed node onChain
    have none_ : items.any (equal · val) = false := List.any_eq_false.mpr (by simpa using unequal)
    rw [walked, none_, List.eraseP_of_forall_not (by simpa using unequal)]
    exact ⟨map, chains, spare, rfl, lists⟩
  · obtain ⟨before, item, behind, rfl, holds, firsts, lasts⟩ := lists.split whole
    obtain ⟨map', chains', spare', removed, lists'⟩ := lists.remove whole firsts lasts
    have same : equal item val = true := by simpa [holds] using found
    have erased : (item :: behind).eraseP (equal · val) = behind := List.eraseP_cons_of_pos same
    have unequal : ∀ other ∈ before, ¬ equal other val = true := by
      intro other member
      have held : some other ∈ first.map map.value := by
        rw [firsts]
        exact List.mem_map_of_mem member
      obtain ⟨node', onChain, holds'⟩ := List.mem_map.mp held
      simpa [holds'] using passed node' onChain
    rw [walked, Option.bind_some]
    dsimp only
    rw [removed, List.eraseP_append_right _ unequal, erased]
    refine ⟨map', chains', spare', ?_, lists'⟩
    simp [same]

/-- `at` returns the value at an offset. -/
theorem itemAt (lists : Lists map chains spare items) {offset : Nat}
    (inside : offset < items.length) : itemAt map offset = items[offset]? := by
  have held := congrArg (·[offset]?) lists.values
  simp only [List.getElem?_map] at held
  rw [MapRef.itemAt, seek_eq lists.path, List.getElem?_eq_getElem inside]
  rw [List.getElem?_eq_getElem inside, Option.map_some] at held
  obtain ⟨node, here, holds⟩ := Option.map_eq_some_iff.mp held
  rw [here, Option.bind_some, holds]

/-- `take` returns the value at an offset, and deletes it. -/
theorem take (lists : Lists map chains spare items) {offset : Nat}
    (inside : offset < items.length) :
    ∃ map' chains' spare', take map offset = some (items[offset]?, map') ∧
      Lists map' chains' spare' (items.eraseIdx offset) := by
  have inside' : offset < (chains 0).length := by
    rw [lists.length_eq]
    exact inside
  have whole : chains 0 = (chains 0).take offset ++ (chains 0)[offset] ::
      (chains 0).drop (offset + 1) := by simp
  obtain ⟨before, val, behind, rfl, holds, firsts, lasts⟩ := lists.split whole
  obtain ⟨map', chains', spare', removed, lists'⟩ := lists.remove whole firsts lasts
  have length : before.length = offset := by
    have lengths := congrArg List.length firsts
    rw [List.length_map, List.length_map, List.length_take] at lengths
    omega
  refine ⟨map', chains', spare', ?_, ?_⟩
  · rw [MapRef.take, seek_eq lists.path, List.getElem?_eq_getElem inside', Option.bind_some, holds]
    dsimp only
    rw [removed, Option.map_some]
    simp [← length]
  · have erased : (before ++ val :: behind).eraseIdx offset = before ++ behind := by
      simp [← length, List.eraseIdx_append_of_length_le]
    rw [erased]
    exact lists'

end Lists

/-! #### Runs -/

/-- A list, and the sequence of values it is used as. -/
structure ListState (Key Value : Type) where
  map : Map Key Value
  items : List Value

/-- The calls that change a list. -/
inductive ListAction (Value : Type)
  | append (val : Value)
  | remove (val : Value)
  | take (offset : Nat)

/-- A call on the list, and what it stands for. An offset is below the length. -/
def listStep (equal : Value → Value → Bool) (state : ListState Key Value) :
    ListAction Value → Option (ListState Key Value)
  | .append val => some ⟨appendValue state.map val, state.items ++ [val]⟩
  | .remove val => (eraseValue equal state.map val).map fun (_, map) =>
      ⟨map, state.items.eraseP (equal · val)⟩
  | .take offset =>
    if offset < state.items.length then
      (take state.map offset).map fun (_, map) => ⟨map, state.items.eraseIdx offset⟩
    else none

/-- The machine of a `listref`, which is a `MapRef` of one path. -/
def listref (Key : Type) (equal : Value → Value → Bool) :
    Machine (ListState Key Value) (ListAction Value) where
  Init state := state = ⟨Map.empty 1, []⟩
  step := listStep equal

/-- The nodes lead from the first of the list through all items in order, the last one is known,
and every call comes to an end and returns what the sequence gives. -/
structure Sequenced (equal : Value → Value → Bool) (state : ListState Key Value) : Prop where
  nodes : ∃ nodes, Path state.map.next (state.map.list 0) nodes none ∧
    nodes.map state.map.value = state.items.map some ∧ state.map.last = nodes.getLast?
  count_eq : state.map.count = state.items.length
  at_eq : ∀ offset < state.items.length, itemAt state.map offset = state.items[offset]?
  takes : ∀ offset < state.items.length, ∃ map,
    take state.map offset = some (state.items[offset]?, map)
  removes : ∀ val, ∃ map,
    eraseValue equal state.map val = some (state.items.any (equal · val), map)

theorem Lists.sequenced {state : ListState Key Value}
    (lists : Lists state.map chains spare state.items) : Sequenced equal state where
  nodes := ⟨chains 0, lists.path, lists.values, lists.last⟩
  count_eq := lists.count_eq
  at_eq _ inside := lists.itemAt inside
  takes offset inside := by
    obtain ⟨map, _, _, taken, _⟩ := lists.take inside
    exact ⟨map, taken⟩
  removes val := by
    obtain ⟨map, _, _, erased, _⟩ := lists.eraseValue equal val
    exact ⟨map, erased⟩

/-- What holds of a list in use. -/
def ListInvariant (state : ListState Key Value) : Prop :=
  ∃ chains spare, Lists state.map chains spare state.items

theorem listStep_invariant {source target : ListState Key Value} {action : ListAction Value}
    (invariant : ListInvariant source) (stepped : listStep equal source action = some target) :
    ListInvariant target := by
  obtain ⟨chains, spare, lists⟩ := invariant
  cases action with
  | append val =>
    obtain ⟨chains', spare', lists'⟩ := lists.append val
    cases stepped
    exact ⟨chains', spare', lists'⟩
  | remove val =>
    obtain ⟨map, chains', spare', erased, lists'⟩ := lists.eraseValue equal val
    rw [listStep, erased] at stepped
    cases stepped
    exact ⟨chains', spare', lists'⟩
  | take offset =>
    rw [listStep] at stepped
    split at stepped
    next inside =>
      obtain ⟨map, chains', spare', taken, lists'⟩ := lists.take inside
      rw [taken] at stepped
      cases stepped
      exact ⟨chains', spare', lists'⟩
    next => cases stepped

/-- After every sequence of calls, a list is the sequence of values the calls should leave. -/
theorem listref_sequenced {state : ListState Key Value}
    (reachable : (listref Key equal).Reachable state) : Sequenced equal state := by
  have invariant : ListInvariant state := by
    refine reachable.invariant (fun state initial => ?_)
      fun source action target => listStep_invariant
    obtain rfl := initial
    exact ⟨_, _, Lists.empty⟩
  obtain ⟨chains, spare, lists⟩ := invariant
  exact lists.sequenced

end Sequence

/-- The last value of three is removed, then the first is taken, and a value is appended in a node
that was free. -/
theorem listref_sequenced_appended :
    ∃ state : ListState Unit Nat, (listref Unit (· == ·)).Reachable state ∧
      state.items = [5, 9] ∧ state.map.alloc = 3 ∧ state.map.last = some 0 ∧
      Sequenced (· == ·) state := by
  let played := (listref Unit ((· == ·) : Nat → Nat → Bool)).play ⟨Map.empty 1, []⟩
    [.append 3, .append 5, .append 7, .remove 7, .take 0, .append 9]
  have reachable : (listref Unit (· == ·)).Reachable (played.get (by decide)) :=
    Machine.reachable_get rfl _
  exact ⟨_, reachable, by decide, by decide, by decide, listref_sequenced reachable⟩

end MapRef

end CommonCpp
