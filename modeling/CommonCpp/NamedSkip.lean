/-
This file models how all objects of a `NamedObject` hash table are passed: `skip`,
which leads from an object to the next one, and `index`, which makes an array of the
objects.

`skip` goes along the chain of an object, and from the last one of a chain on to the
first bucket behind that is not empty. It does not remember the bucket, but finds it
again from the id of the object. So it passes every object once when each is in the
bucket of its id. Ids need not be distinct for this.

`count` and `index` are in `unsigned` arithmetic. With 4294967295 objects `index` adds
one to their number, allocates an array of no size, and writes beyond its end. With more
objects their number is wrong. A write beyond the end of the array has no outcome here,
nor has `skip` at an object without an id.
-/

import Mathlib.Data.Nat.Bitwise
import Mathlib.Data.Nat.Digits.Defs
import CommonCpp.NamedObject

namespace CommonCpp

open Concurrency Memory

namespace NamedObject

/-! ### The code -/

/-- `while(key < max && !idx[key]) ++key;`, which goes round less often than there are buckets. -/
def nextBucket (idx : Nat → Option Nat) (max : UInt32) : Nat → UInt32 → UInt32
  | 0, key => key
  | rounds + 1, key =>
    if key < max ∧ idx key.toNat = none then nextBucket idx max rounds (key + 1) else key

/-- The first object from this bucket on. -/
def firstFrom (idx : Nat → Option Nat) (max key : UInt32) : Option Nat :=
  let key := nextBucket idx max max.toNat key
  if key ≥ max then none else idx key.toNat

/-- `skip(idx, rec, max)`. -/
def skip (table : Table) (rec : Option Nat) (max : UInt32) : Option (Option Nat) :=
  match rec with
  | none => some (firstFrom table.root max 0)
  | some rec =>
    match table.next rec with
    | none => (table.id rec).map fun id => firstFrom table.root max (keyindex id max + 1)
    | some next => some (some next)

/-- The loop of `index`, which writes one object after the other, and null behind them. -/
def fill (table : Table) (max : UInt32) :
    Nat → List (Option Nat) → UInt32 → Option Nat → Option (List (Option Nat))
  | 0, _, _, _ => none
  | rounds + 1, op, pos, node =>
    if pos.toNat < op.length then
      match node with
      | some object =>
        (skip table (some object) max).bind fun node =>
          fill table max rounds (op.set pos.toNat (some object)) (pos + 1) node
      | none => some (op.set pos.toNat none)
    else none

/-- `index(idx, max)`, with what is in the array when it is allocated. -/
def index (fresh : Nat → Option Nat) (table : Table) (max : UInt32) :
    Option (List (Option Nat)) :=
  (count table max).bind fun count =>
    let op := (List.range (count + 1).toNat).map fresh
    (skip table none max).bind fun node => fill table max (op.length + 1) op 0 node

/-! ### What is passed -/

/-- Skipping from this object on passes the objects of a list, and then returns null. -/
def Passes (table : Table) (max : UInt32) : Option Nat → List Nat → Prop
  | node, [] => node = none
  | node, object :: rest =>
    node = some object ∧ ∃ next, skip table (some object) max = some next ∧
      Passes table max next rest

/-- Every object of the table is passed once, and then null is returned; the array holds just these
objects, and null behind them; and `count` is their number. -/
structure Enumerates (fresh : Nat → Option Nat) (table : Table) (max : UInt32)
    (chains : Nat → List Nat) (objects : List Nat) : Prop where
  passes : ∃ first, skip table none max = some first ∧ Passes table max first objects
  once : objects.Nodup
  all : ∀ node, node ∈ objects ↔ ∃ key < max.toNat, node ∈ chains key
  index_eq : index fresh table max = some (objects.map some ++ [none])
  count_eq : (count table max).map UInt32.toNat = some objects.length

/-- The buckets lead through chains of objects that have been constructed, each in the bucket of
its id. -/
structure Chained (max : UInt32) (table : Table) (chains : Nat → List Nat) : Prop where
  path : ∀ key < max.toNat, Path table.next (table.root key) (chains key) none
  placed : ∀ key < max.toNat, ∀ node ∈ chains key, ∃ id, table.id node = some id ∧
    (keyindex id max).toNat = key
  bounded : ∀ key < max.toNat, ∀ node ∈ chains key, node < table.count

variable {max : UInt32} {table : Table} {chains : Nat → List Nat} {fresh : Nat → Option Nat}

/-! ### Skipping -/

theorem toNat_add_one {key : UInt32} {bound : Nat} (less : key.toNat < bound)
    (word : bound < 2 ^ 32) : (key + 1).toNat = key.toNat + 1 := by
  rw [UInt32.toNat_add]
  exact Nat.mod_eq_of_lt (show key.toNat + 1 < 2 ^ 32 by omega)

/-- The loop ends at the first bucket that is not empty, or behind the last one. -/
theorem nextBucket_eq (idx : Nat → Option Nat) {rounds : Nat} {key : UInt32}
    (enough : max.toNat - key.toNat ≤ rounds) :
    (if nextBucket idx max rounds key ≥ max then none
      else idx (nextBucket idx max rounds key).toNat) =
      (List.range' key.toNat (max.toNat - key.toNat)).findSome? idx := by
  induction rounds generalizing key with
  | zero =>
    have behind : max.toNat - key.toNat = 0 := Nat.le_zero.mp enough
    rw [nextBucket, if_pos (UInt32.le_iff_toNat_le.mpr (Nat.sub_eq_zero_iff_le.mp behind)), behind]
    rfl
  | succ rounds inductionHypothesis =>
    by_cases less : key < max
    · have less' := UInt32.lt_iff_toNat_lt.mp less
      have rest : max.toNat - key.toNat = max.toNat - (key.toNat + 1) + 1 := by omega
      rw [rest, List.range'_succ, List.findSome?_cons]
      cases bucket : idx key.toNat with
      | none =>
        have onward : nextBucket idx max (rounds + 1) key = nextBucket idx max rounds (key + 1) :=
          if_pos ⟨less, bucket⟩
        have one := toNat_add_one less' max.toNat_lt
        rw [onward, inductionHypothesis (by omega), one]
      | some first =>
        have here : nextBucket idx max (rounds + 1) key = key := by
          rw [nextBucket, bucket, if_neg fun empty => Option.some_ne_none first empty.2]
        rw [here, if_neg (UInt32.not_le.mpr less), bucket]
    · have behind : max ≤ key := UInt32.not_lt.mp less
      have here : nextBucket idx max (rounds + 1) key = key := if_neg fun inside => less inside.1
      rw [here, if_pos behind, Nat.sub_eq_zero_of_le (UInt32.le_iff_toNat_le.mp behind)]
      rfl

theorem firstFrom_eq (idx : Nat → Option Nat) (key : UInt32) :
    firstFrom idx max key = (List.range' key.toNat (max.toNat - key.toNat)).findSome? idx :=
  nextBucket_eq idx (Nat.sub_le _ _)

namespace Chained

theorem length_le (chained : Chained max table chains) {key : Nat} (inside : key < max.toNat) :
    (chains key).length ≤ table.count :=
  length_le_of_lt (chained.path key inside).nodup (chained.bounded key inside)

/-- Behind an object comes the next one of its chain, or the first one of the buckets behind. -/
theorem skip_eq (chained : Chained max table chains) {key node : Nat} (inside : key < max.toNat)
    (member : node ∈ chains key) :
    skip table (some node) max = some ((table.next node).or
      ((List.range' (key + 1) (max.toNat - (key + 1))).findSome? table.root)) := by
  obtain ⟨id, named, rfl⟩ := chained.placed key inside node member
  rw [skip]
  cases next : table.next node with
  | some next => rfl
  | none =>
    rw [named, Option.map_some, firstFrom_eq, toNat_add_one inside max.toNat_lt, Option.none_or]

end Chained

/-- What a path leads through is what skipping passes. -/
theorem passes_of_path {next : Nat → Option Nat} {pointer : Option Nat} {list : List Nat}
    (path : Path next pointer list none)
    (skips : ∀ node ∈ list, skip table (some node) max = some (next node)) :
    Passes table max pointer list := by
  induction list generalizing pointer with
  | nil => exact path
  | cons node rest inductionHypothesis =>
    obtain ⟨rfl, onward⟩ := path
    obtain ⟨here, later⟩ := List.forall_mem_cons.mp skips
    exact ⟨rfl, _, here, inductionHypothesis onward later⟩

namespace Chained

/-- Skipping leads through the chains of all buckets, one after the other. -/
theorem exists_path (chained : Chained max table chains) :
    ∃ next first, skip table none max = some first ∧
      Path next first (Buckets.entries chains max.toNat) none ∧
      ∀ node ∈ Buckets.entries chains max.toNat, skip table (some node) max = some (next node) := by
  let next (node : Nat) : Option Nat := (skip table (some node) max).join
  refine ⟨next, _, rfl, ?_, ?_⟩
  · rw [firstFrom_eq, UInt32.toNat_zero, Nat.sub_zero, Buckets.entries, List.range_eq_range']
    refine Path.scan (fun key inside => chained.path key (by simpa using inside)) ?_
    intro key _ inside node member
    rw [Nat.zero_add] at inside ⊢
    simp only [next, chained.skip_eq inside member, Option.join_some]
  · intro node member
    obtain ⟨key, inside, member⟩ := Buckets.mem_entries.mp member
    simp only [next, chained.skip_eq inside member, Option.join_some]

end Chained

/-! ### The array -/

/-- The loop writes the objects that are passed, and null behind them, while there is room. -/
theorem fill_eq {rounds : Nat} {op written : List (Option Nat)} {node : Option Nat}
    {objects : List Nat} {pos : UInt32} (passes : Passes table max node objects)
    (position : pos.toNat = written.length) (whole : (written ++ op).length < 2 ^ 32)
    (room : op.length = objects.length + 1) (enough : objects.length < rounds) :
    fill table max rounds (written ++ op) pos node =
      some (written ++ objects.map some ++ [none]) := by
  induction objects generalizing rounds op written node pos with
  | nil =>
    cases passes
    obtain ⟨last, rfl⟩ := List.length_eq_one_iff.mp room
    cases rounds with
    | zero => cases enough
    | succ rounds =>
      have inside : pos.toNat < (written ++ [last]).length := by
        rw [position, List.length_append]
        exact Nat.lt_succ_self _
      rw [fill, if_pos inside, position]
      simp
  | cons object rest inductionHypothesis =>
    obtain ⟨rfl, next, skips, onward⟩ := passes
    cases rounds with
    | zero => cases enough
    | succ rounds =>
      cases op with
      | nil => cases room
      | cons fresh op =>
        have inside : pos.toNat < (written ++ fresh :: op).length := by
          rw [position, List.length_append, List.length_cons]
          omega
        have written' : (written ++ fresh :: op).set pos.toNat (some object) =
            (written ++ [some object]) ++ op := by
          rw [position]
          simp
        have position' : (pos + 1).toNat = (written ++ [some object]).length := by
          rw [toNat_add_one inside whole, position, List.length_append, List.length_singleton]
        have whole' : (written ++ [some object] ++ op).length < 2 ^ 32 := by
          simpa [Nat.add_comm] using whole
        rw [fill, if_pos inside, skips, Option.bind_some, written',
          inductionHypothesis onward position' whole' (Nat.succ.inj room)
            (Nat.lt_of_succ_lt_succ enough)]
        simp

/-! ### Enumeration -/

section Enumeration

variable (two : 2 ≤ max) (chained : Chained max table chains)
include two chained

theorem count_chained :
    count table max = some (UInt32.ofNat (Buckets.entries chains max.toNat).length) := by
  rw [count, if_neg (UInt32.not_lt.mpr two),
    countFrom_eq chained.path (fun key inside => chained.length_le inside), UInt32.zero_add]

/-- With fewer than 4294967295 objects all of them are passed, and written to the array. -/
theorem enumerates_of_few (few : (Buckets.entries chains max.toNat).length + 1 < 2 ^ 32)
    (fresh : Nat → Option Nat) :
    Enumerates fresh table max chains (Buckets.entries chains max.toNat) := by
  obtain ⟨next, first, starts, path, skips⟩ := chained.exists_path
  have passes := passes_of_path path skips
  have counted := count_chained two chained
  have number : (UInt32.ofNat (Buckets.entries chains max.toNat).length).toNat =
      (Buckets.entries chains max.toNat).length :=
    UInt32.toNat_ofNat_of_lt' (Nat.lt_of_succ_lt few)
  refine ⟨⟨first, starts, passes⟩, path.nodup, fun node => Buckets.mem_entries, ?_, ?_⟩
  · have allocated : ((List.range (UInt32.ofNat (Buckets.entries chains max.toNat).length +
        1).toNat).map fresh).length = (Buckets.entries chains max.toNat).length + 1 := by
      rw [List.length_map, List.length_range, toNat_add_one (Nat.lt_succ_of_le number.le) few,
        number]
    have start : (0 : UInt32).toNat = ([] : List (Option Nat)).length := rfl
    rw [index, counted, Option.bind_some, starts, Option.bind_some]
    exact fill_eq passes start (by rwa [List.nil_append, allocated]) allocated
      (by rw [allocated]; omega)
  · rw [counted, Option.map_some, number]

/-- With 4294967295 objects the array has no room for the first one. -/
theorem index_full (full : (Buckets.entries chains max.toNat).length + 1 = 2 ^ 32)
    (fresh : Nat → Option Nat) : index fresh table max = none := by
  obtain ⟨next, first, starts, path, skips⟩ := chained.exists_path
  have number : (UInt32.ofNat (Buckets.entries chains max.toNat).length).toNat =
      (Buckets.entries chains max.toNat).length :=
    UInt32.toNat_ofNat_of_lt' (Nat.lt_of_succ_le (Nat.le_of_eq full))
  have wraps : UInt32.ofNat (Buckets.entries chains max.toNat).length + 1 = 0 := by
    rw [← UInt32.toNat_inj, UInt32.toNat_add, number, UInt32.toNat_one, UInt32.toNat_zero, full]
    rfl
  rw [index, count_chained two chained, Option.bind_some, wraps, starts]
  rfl

/-- When the objects are passed and counted, and the array has room for them, there are fewer. -/
theorem few_of_enumerates {fresh : Nat → Option Nat} {objects : List Nat}
    (enumerates : Enumerates fresh table max chains objects) :
    (Buckets.entries chains max.toNat).length + 1 < 2 ^ 32 := by
  obtain ⟨next, first, starts, path, skips⟩ := chained.exists_path
  have same : objects.length = (Buckets.entries chains max.toNat).length := by
    refine ((List.perm_ext_iff_of_nodup enumerates.once path.nodup).mpr fun node => ?_).length_eq
    rw [enumerates.all, Buckets.mem_entries]
  have counted := enumerates.count_eq
  rw [count_chained two chained, Option.map_some, Option.some_inj, same] at counted
  have word : (Buckets.entries chains max.toNat).length < 2 ^ 32 := by
    rw [← counted]
    exact UInt32.toNat_lt _
  refine Nat.lt_of_le_of_ne word fun full => ?_
  have indexed := enumerates.index_eq
  rw [index_full two chained full] at indexed
  cases indexed

end Enumeration

/-- In a table of at least two buckets, whose objects are each in the bucket of their id, every
object is passed once, the array has just these objects, and their number is that of `count`,
exactly when there are fewer than 4294967295 objects. -/
theorem enumerates_iff (two : 2 ≤ max) (chained : Chained max table chains)
    (fresh : Nat → Option Nat) :
    (∃ objects, Enumerates fresh table max chains objects) ↔
      (Buckets.entries chains max.toNat).length < 4294967295 := by
  constructor
  · rintro ⟨objects, enumerates⟩
    exact Nat.lt_of_succ_lt_succ (few_of_enumerates two chained enumerates)
  · intro few
    exact ⟨_, enumerates_of_few two chained (Nat.succ_lt_succ few) fresh⟩

/-- The objects of a table are no more than have been constructed. -/
theorem Chained.length_entries_le (chained : Chained max table chains) :
    (Buckets.entries chains max.toNat).length ≤ table.count := by
  obtain ⟨next, first, _, path, _⟩ := chained.exists_path
  refine length_le_of_lt path.nodup fun node member => ?_
  obtain ⟨key, inside, member⟩ := Buckets.mem_entries.mp member
  exact chained.bounded key inside node member

/-- Tables that hold bindings have their objects in the buckets of the ids. -/
theorem Holds.chained {bindings : Finmap fun _ : Id => Nat}
    (holds : Holds max table chains bindings) (two : 2 ≤ max) : Chained max table chains := by
  refine ⟨fun key _ => holds.path key, fun key _ node member => ?_,
    fun key _ node member => holds.bounded key node member⟩
  obtain ⟨id, named, placed⟩ := holds.held.placed key node member
  rw [slot, if_neg (UInt32.not_lt.mpr two)] at placed
  exact ⟨id, named, placed⟩

/-- Three objects are added to a table of three buckets, of which one stays empty. -/
theorem enumerates_iff_three :
    ∃ state, (machine 3).Reachable state ∧
      skip state.table none 3 = some (some 2) ∧ skip state.table (some 2) 3 = some (some 1) ∧
      skip state.table (some 1) 3 = some (some 0) ∧ skip state.table (some 0) 3 = some none ∧
      ∃ chains objects, Enumerates (fun _ => none) state.table 3 chains objects := by
  let played := ((machine 3).restrict (NotFirst 3)).play .empty
    [.add 0 ⟨[0x62], by decide, by decide⟩, .add 1 ⟨[0x65], by decide, by decide⟩,
      .add 2 ⟨[0x63], by decide, by decide⟩]
  obtain ⟨moves, restricted⟩ : ((machine 3).restrict (NotFirst 3)).Reachable
      (played.get (by decide)) := Machine.reachable_get rfl _
  obtain ⟨run, meets⟩ := restricted.of_restrict
  have two : (2 : UInt32) ≤ 3 := by decide
  have invariant : Invariant 3 (played.get (by decide)) :=
    run.invariant_of_meets (by rintro _ rfl; exact invariant_empty)
      (fun source action target invariant met stepped =>
        (invariant.step (by decide) met stepped).1) meets
  obtain ⟨chains, holds⟩ := invariant.holds
  have chained := holds.chained two
  have few := Nat.lt_of_le_of_lt chained.length_entries_le
    (show (played.get (by decide)).table.count < 4294967295 by decide)
  exact ⟨_, ⟨moves, run⟩, by decide, by decide, by decide, by decide, chains,
    (enumerates_iff two chained _).mpr few⟩

/-! ### A table that is too large -/

/-- The bytes of a number: its decimal digits, and an `a`. -/
def numbered (number : Nat) : List UInt8 :=
  (Nat.digits 10 number).map (fun digit => UInt8.ofNat (0x30 + digit)) ++ [0x61]

theorem digit_eq {number digit : Nat} (member : digit ∈ Nat.digits 10 number) :
    (UInt8.ofNat (0x30 + digit)).toNat = 0x30 + digit := by
  have small : digit < 10 := Nat.digits_lt_base (by decide) member
  exact UInt8.toNat_ofNat_of_lt' (show 0x30 + digit < 2 ^ 8 by omega)

/-- The id with these bytes. -/
def numberedId (number : Nat) : Id where
  bytes := numbered number
  named := by simp [numbered]
  ended := by
    intro member
    rcases List.mem_append.mp member with digits | last
    · obtain ⟨digit, member, null⟩ := List.mem_map.mp digits
      have value := digit_eq member
      rw [null, UInt8.toNat_zero] at value
      omega
    · simp at last

theorem numberedId_injective : Function.Injective numberedId := by
  intro number number' same
  have digits := List.append_cancel_right (Id.mk.inj same)
  have read (number : Nat) :
      ((Nat.digits 10 number).map fun digit => UInt8.ofNat (0x30 + digit)).map
        (fun byte => byte.toNat - 0x30) = Nat.digits 10 number := by
    rw [List.map_map]
    refine (List.map_congr_left fun digit member => ?_).trans (List.map_id _)
    rw [Function.comp_apply, digit_eq member, Nat.add_sub_cancel_left]
    rfl
  have same' := congrArg (List.map fun byte => byte.toNat - 0x30) digits
  rw [read, read] at same'
  exact Nat.digits_inj_iff.mp same'

/-- The last byte decides between two buckets. -/
theorem keyindex_numberedId (number : Nat) : (keyindex (numberedId number) 2).toNat = 1 := by
  simp only [keyindex, numberedId, numbered, List.foldl_append, List.foldl_cons, List.foldl_nil]
  generalize List.foldl _ _ _ = val
  have last : ((0x61 &&& 0x1f : UInt8).toUInt32).toNat = 1 := by decide
  have two : (2 : UInt32).toNat = 2 := rfl
  have even : (val <<< 1).toNat % 2 = 0 := by
    have one : (1 : UInt32).toNat % 32 = 1 := rfl
    rw [UInt32.toNat_shiftLeft, one, Nat.shiftLeft_eq]
    omega
  rw [UInt32.toNat_mod, UInt32.toNat_xor, last, two, Nat.xor_mod_two_eq]
  omega

/-- A table of two buckets, with one chain of this many objects. -/
def line (total : Nat) : Table where
  count := total
  next node := if node + 1 < total then some (node + 1) else none
  id node := some (numberedId node)
  root key := if key = 1 ∧ 0 < total then some 0 else none

theorem path_line {total start : Nat} (length : Nat) (whole : start + length = total) :
    Path (line total).next (if start < total then some start else none)
      (List.range' start length) none := by
  induction length generalizing start with
  | zero => exact if_neg (by omega)
  | succ length inductionHypothesis =>
    exact ⟨if_pos (by omega), inductionHypothesis (by omega)⟩

/-- The chains of the table. -/
def lineChains (total key : Nat) : List Nat :=
  if key = 1 then List.range total else []

theorem chained_line (total : Nat) : Chained 2 (line total) (lineChains total) := by
  have member_iff {key node : Nat} :
      node ∈ lineChains total key ↔ key = 1 ∧ node < total := by
    unfold lineChains
    split
    next one => simp [one]
    next other => simp [other]
  refine ⟨fun key _ => ?_, fun key _ node member => ?_, fun key _ node member => ?_⟩
  · by_cases one : key = 1
    · have path := path_line total (Nat.zero_add total)
      rw [lineChains, if_pos one, List.range_eq_range']
      simpa [line, one] using path
    · rw [lineChains, if_neg one]
      exact if_neg fun both => one both.1
  · obtain ⟨rfl, _⟩ := member_iff.mp member
    exact ⟨_, rfl, keyindex_numberedId node⟩
  · exact (member_iff.mp member).2

theorem length_line (total : Nat) :
    (Buckets.entries (lineChains total) (2 : UInt32).toNat).length = total := by
  have two : (2 : UInt32).toNat = 2 := rfl
  simp [two, Buckets.entries, lineChains, List.range_succ]

/-- As many objects as wrap the size of the array around. -/
theorem line_beyond_array {total : Nat} (full : total + 1 = 2 ^ 32) (fresh : Nat → Option Nat) :
    index fresh (line total) 2 = none ∧
      ¬ ∃ objects, Enumerates fresh (line total) 2 (lineChains total) objects := by
  have chained := chained_line total
  have number := length_line total
  have two : (2 : UInt32) ≤ 2 := Nat.le_refl 2
  constructor
  · exact index_full two chained (by rw [number, full]) fresh
  · rintro ⟨objects, enumerates⟩
    have few := few_of_enumerates two chained enumerates
    rw [number, full] at few
    exact Nat.lt_irrefl _ few

/-- With 4294967295 objects of different ids `index` writes beyond the array. -/
theorem index_beyond_array :
    ∃ table chains, Chained 2 table chains ∧ Function.Injective table.id ∧
      (Buckets.entries chains (2 : UInt32).toNat).length = 4294967295 ∧
      ∀ fresh, index fresh table 2 = none ∧
        ¬ ∃ objects, Enumerates fresh table 2 chains objects := by
  refine ⟨line 4294967295, lineChains 4294967295, chained_line _, fun node node' same => ?_,
    length_line _, line_beyond_array (by decide)⟩
  exact numberedId_injective (Option.some_inj.mp same)

end NamedObject

end CommonCpp
