/-
This file models `keydata::set` in a keyfile whose pages may run out, and finds what is
left of the section when a call throws.

A call asks for the object of the key first, takes the old object of the key off the
index, and puts the new one at its end before it copies the key and then the value.
When the first request throws nothing has been done. When a copy throws, the old object
is gone, and the new one stays on the index with texts that were never set.

A section here is one that a run of keyfiles has led to. A text that has not been set
may not be read. The pages may be used to any extent, and what the heap returns when it
is asked for a page is part of a call.
-/

import CommonCpp.KeyfileMerge
import CommonCpp.Memalloc

namespace CommonCpp

open Concurrency KeyLog Memory

namespace Keydata

open Keyfile (Heap Store)
open Memalloc (attempt attempt_cases Refused)

/-! ### The code -/

/-- `sizeof(keydata::keyvalue)`: the virtual table, `Next`, `id` and `value`. -/
def keyvalueSize : Nat := 32

/-- The page size of a keyfile, and the limit of its pages. -/
structure Paging where
  pagesize : Nat
  limit : Nat

/-- What the heap returns for the requests of a call, if it is asked for a page. -/
structure Pages where
  forObject : Option Nat
  forId : Option Nat
  forValue : Option Nat

/-- What a call leaves: the sections, the pages, and the objects whose texts have not been set. -/
structure Left (File : Type) where
  heap : Heap File
  memory : Memalloc.State
  noId : List Nat
  noValue : List Nat

variable {File : Type}

/-- `_alloc`, and what a call goes on with when it does not throw. -/
def alloc {Result : Type} (paging : Paging) (size : Nat) (page : Option Nat)
    (memory : Memalloc.State) (thrown : String → Result) (onward : Memalloc.State → Result) :
    Result :=
  attempt (Memalloc.alloc paging.pagesize paging.limit size page memory) thrown onward

/-- The constructor of a `keyvalue`, whose base puts it on the index. -/
def keyvalueIn (paging : Paging) (pages : Pages) (memory : Memalloc.State) (heap : Heap File)
    (this : Nat) (key : Text) (value : Option Text) : Left File × Except String Unit :=
  let keys := heap.keyvalues
  let heap :=
    { heap with keys := heap.keys.construct keys this, keyvalues := heap.keyvalues + 1 }
  alloc paging (key.length + 1) pages.forId memory
    (fun text => (⟨heap, memory, [keys], [keys]⟩, .error text)) fun memory =>
      let heap := { heap with id := Function.update heap.id keys key }
      match value with
      | some value =>
        alloc paging (value.length + 1) pages.forValue memory
          (fun text => (⟨heap, memory, [], [keys]⟩, .error text)) fun memory =>
            let heap := { heap with value := Function.update heap.value keys value }
            (⟨heap, memory, [], []⟩, .ok ())
      | none =>
        let heap := { heap with value := Function.update heap.value keys [] }
        (⟨heap, memory, [], []⟩, .ok ())

/-- `set`, in a section all of whose texts are set. -/
def setIn (folding : Comparison Text) (paging : Paging) (pages : Pages) (memory : Memalloc.State)
    (heap : Heap File) (this : Nat) (key : Text) (value : Option Text) :
    Option (Left File × Except String Unit) :=
  alloc paging keyvalueSize pages.forObject memory
    (fun text => some (⟨heap, memory, [], []⟩, .error text)) fun memory =>
      (clear folding heap this key).map fun heap =>
        keyvalueIn paging pages memory heap this key value

/-- `get` of what a call has left. -/
def Left.get (folding : Comparison Text) (left : Left File) (this : Nat) (key : Text) :
    Option (Option Text) :=
  (walk left.heap.keys.next
    (fun keys => keys ∈ left.noId || folding.same key (left.heap.id keys)) left.heap.keyvalues none
      (left.heap.keys.head this)).bind fun (_, keys) =>
    match keys with
    | none => some none
    | some keys =>
      if keys ∈ left.noId ∨ keys ∈ left.noValue then none else some (some (left.heap.value keys))

/-- The keys and values along the index of what a call has left. -/
def Left.entries (left : Left File) (this : Nat) : Option (List (Text × Text)) :=
  (passed left.heap.keys.next left.heap.keyvalues (left.heap.keys.head this)).bind fun list =>
    if ∀ keys ∈ list, keys ∉ left.noId ∧ keys ∉ left.noValue then
      some (list.map left.heap.entry)
    else none

/-! ### Calls that do not throw -/

variable {folding : Comparison Text} {paging : Paging} {pages : Pages}
  {memory : Memalloc.State} {heap : Heap File} {this : Nat} {key : Text} {value : Option Text}
  {left : Left File}

/-- A constructor that does not throw is that of a keyfile whose allocations succeed. One that
throws has put its object on the index, and has not set its value. -/
theorem keyvalueIn_cases {outcome : Except String Unit}
    (built : keyvalueIn paging pages memory heap this key value = (left, outcome)) :
    outcome = .ok () ∧ left.heap = keyvalue heap this key value ∧ left.noId = [] ∧
        left.noValue = [] ∨
      (∃ text, outcome = .error text) ∧
        left.heap.keys = heap.keys.construct heap.keyvalues this ∧
        left.heap.keyvalues = heap.keyvalues + 1 ∧ heap.keyvalues ∈ left.noValue := by
  rw [keyvalueIn, alloc] at built
  rcases attempt_cases paging.pagesize paging.limit (key.length + 1) pages.forId memory
    _ _ with ⟨_, text, threw⟩ | ⟨_, memory', took⟩
  · rw [threw] at built
    cases built
    exact Or.inr ⟨⟨text, rfl⟩, rfl, rfl, List.mem_singleton_self _⟩
  · rw [took] at built
    cases value with
    | none =>
      cases built
      exact Or.inl ⟨rfl, rfl, rfl, rfl⟩
    | some value =>
      dsimp only at built
      rw [alloc] at built
      rcases attempt_cases paging.pagesize paging.limit (value.length + 1) pages.forValue memory'
        _ _ with ⟨_, text, threw⟩ | ⟨_, memory'', took⟩
      · rw [threw] at built
        cases built
        exact Or.inr ⟨⟨text, rfl⟩, rfl, rfl, List.mem_singleton_self _⟩
      · rw [took] at built
        cases built
        exact Or.inl ⟨rfl, rfl, rfl, rfl⟩

/-- Where all texts are set, the keys and values are those of the section. -/
theorem entries_set (heap : Heap File) (memory : Memalloc.State) (this : Nat) :
    Left.entries ⟨heap, memory, [], []⟩ this = Keydata.entries heap this := by
  rw [Left.entries, Keydata.entries]
  cases passed heap.keys.next heap.keyvalues (heap.keys.head this) with
  | none => rfl
  | some list => simp

theorem get_set (folding : Comparison Text) (heap : Heap File) (memory : Memalloc.State)
    (this : Nat) (key : Text) :
    Left.get folding ⟨heap, memory, [], []⟩ this key = Keydata.get folding heap this key := by
  rw [Left.get, Keydata.get, find, Option.map_map]
  simp only [List.not_mem_nil, decide_false, Bool.false_or]
  cases walk heap.keys.next (fun keys => folding.same key (heap.id keys)) heap.keyvalues none
      (heap.keys.head this) with
  | none => rfl
  | some stopped =>
    obtain ⟨prior, keys⟩ := stopped
    cases keys with
    | none => rfl
    | some keys => simp

/-! ### Calls that throw -/

/-- A section lists the same keys with the same values as before a call, and finds the same value
of every key. -/
structure Intact (folding : Comparison Text) (before : Heap File) (left : Left File)
    (this : Nat) : Prop where
  lists : ∃ entries entries', Keydata.entries before this = some entries ∧
    left.entries this = some entries' ∧ entries'.Perm entries
  finds : ∀ key, left.get folding this key = Keydata.get folding before this key

theorem keyvalueIn_error {text : String}
    (built : keyvalueIn paging pages memory heap this key value = (left, .error text)) :
    left.heap.keys = heap.keys.construct heap.keyvalues this ∧
      left.heap.keyvalues = heap.keyvalues + 1 ∧ heap.keyvalues ∈ left.noValue := by
  obtain ⟨returned, -⟩ | ⟨-, kept⟩ := keyvalueIn_cases built
  · cases returned
  · exact kept

/-- The request for the object throws. -/
def ObjectRefused (paging : Paging) (pages : Pages) (memory : Memalloc.State) : Prop :=
  Refused paging.pagesize paging.limit keyvalueSize pages.forObject memory

instance (paging : Paging) (pages : Pages) (memory : Memalloc.State) :
    Decidable (ObjectRefused paging pages memory) :=
  inferInstanceAs (Decidable (Refused _ _ _ _ _))

/-- A call that throws has done nothing when it was the request for the object that threw.
Otherwise it has taken the old object of the key off, and has put the new one on the index. -/
theorem setIn_error {text : String}
    (thrown : setIn folding paging pages memory heap this key value = some (left, .error text)) :
    (ObjectRefused paging pages memory ∧ left = ⟨heap, memory, [], []⟩) ∨
      (¬ ObjectRefused paging pages memory ∧
        ∃ cleared, clear folding heap this key = some cleared ∧
          left.heap.keys = cleared.keys.construct cleared.keyvalues this ∧
          left.heap.keyvalues = cleared.keyvalues + 1 ∧ cleared.keyvalues ∈ left.noValue) := by
  rw [setIn, alloc] at thrown
  rcases attempt_cases paging.pagesize paging.limit keyvalueSize pages.forObject memory
    _ _ with ⟨refused, text, threw⟩ | ⟨taken, memory', took⟩
  · rw [threw] at thrown
    cases thrown
    exact Or.inl ⟨refused, rfl⟩
  · rw [took] at thrown
    obtain ⟨cleared, clears, built⟩ := Option.map_eq_some_iff.mp thrown
    exact Or.inr ⟨taken, cleared, clears, keyvalueIn_error built⟩

/-- The values of a section that lists an object without one may not be read. -/
theorem entries_unset {lists : List Nat} {keys : Nat}
    (path : Path left.heap.keys.next (left.heap.keys.head this) lists none)
    (short : lists.length ≤ left.heap.keyvalues) (member : keys ∈ lists)
    (unset : keys ∈ left.noValue) : left.entries this = none := by
  have some_ : ¬ ∀ keys ∈ lists, keys ∉ left.noId ∧ keys ∉ left.noValue :=
    fun set => (set keys member).2 unset
  rw [Left.entries, passed_of_path path short, Option.bind_some, if_neg some_]

/-- A call that throws leaves the keys and values of every section as they were, exactly when it is
the request for the object that throws. -/
theorem set_throws_iff [DecidableEq File] {state : Keyfile.State File} {text : String}
    (reachable : (Keyfile.machine folding).Reachable state)
    (thrown : setIn folding paging pages memory state.heap this key value =
      some (left, .error text)) :
    Intact folding state.heap left this ↔ ObjectRefused paging pages memory := by
  obtain ⟨valid, lists, represents⟩ := Keyfile.represents_of_reachable reachable
  rcases setIn_error thrown with ⟨refused, rfl⟩ | ⟨taken, cleared, clears, keys, count, unset⟩
  · refine iff_of_true ⟨?_, fun key => get_set folding state.heap memory this key⟩ refused
    rw [entries_set, represents.entries_eq]
    exact ⟨_, _, rfl, rfl, List.Perm.refl _⟩
  · refine iff_of_false (fun intact => ?_) taken
    obtain ⟨heap', lists', clears', after, _⟩ := represents.clear this key
    rw [clears, Option.some_inj] at clears'
    subst clears'
    have outside : ∀ other, cleared.keyvalues ∉ lists' other := fun other member =>
      Nat.lt_irrefl _ (after.allocated other _ member)
    have listed := after.keys.construct outside this
    rw [← keys] at listed
    have path := listed.path this
    rw [Function.update_self] at path
    have short : (lists' this ++ [cleared.keyvalues]).length ≤ left.heap.keyvalues := by
      rw [List.length_append, List.length_singleton, count]
      exact Nat.succ_le_succ (after.short this)
    have unread := entries_unset path short (List.mem_append_right _ (List.mem_singleton_self _))
      unset
    obtain ⟨_, entries', _, read, _⟩ := intact.lists
    rw [unread] at read
    cases read

theorem spelling_refl (key : Text) : decide (key = key) = true := decide_eq_true rfl

theorem spelling_symm {key key' : Text} (same : decide (key = key') = true) :
    decide (key' = key) = true :=
  decide_eq_true (of_decide_eq_true same).symm

theorem spelling_trans {key key' key'' : Text} (same : decide (key = key') = true)
    (same' : decide (key' = key'') = true) : decide (key = key'') = true :=
  decide_eq_true ((of_decide_eq_true same).trans (of_decide_eq_true same'))

/-- Keys compared as they are spelt. -/
def spelling : Comparison Text :=
  ⟨fun key key' => key = key', spelling_refl, @spelling_symm, @spelling_trans⟩

/-- A keyfile with a section in which one key has a value. -/
def written : Option (Keyfile.State Unit) :=
  (Keyfile.machine spelling).play
    ⟨Keyfile.constructed Unit, ⟨fun _ => [], fun _ => [], fun _ => none, fun _ => [], 0⟩⟩
    [.create () [0x53], .set 0 [0x6b] (some [1])]

theorem written_isSome : written.isSome := by decide

/-- No page has room for another object, and the heap has no other page. -/
theorem set_throws_iff_full :
    ∃ (state : Keyfile.State Unit) (left : Left Unit) (text : String),
      (Keyfile.machine spelling).Reachable state ∧
      setIn spelling ⟨256, 0⟩ ⟨none, none, none⟩ ⟨[⟨4096, 248⟩], 1, []⟩ state.heap 0 [0x6b]
        (some [2]) = some (left, .error text) ∧
      Left.get spelling left 0 [0x6b] = some (some [1]) ∧ Intact spelling state.heap left 0 := by
  have reachable : (Keyfile.machine spelling).Reachable (written.get written_isSome) :=
    Machine.reachable_get rfl _
  have refused : ObjectRefused ⟨256, 0⟩ ⟨none, none, none⟩ ⟨[⟨4096, 248⟩], 1, []⟩ := by decide
  have thrown : setIn spelling ⟨256, 0⟩ ⟨none, none, none⟩ ⟨[⟨4096, 248⟩], 1, []⟩
      (written.get written_isSome).heap 0 [0x6b] (some [2]) =
        some (⟨(written.get written_isSome).heap, ⟨[⟨4096, 248⟩], 1, []⟩, [], []⟩,
          .error "std::bad_alloc") := rfl
  refine ⟨_, _, _, reachable, thrown, ?_, (set_throws_iff reachable thrown).mpr refused⟩
  rw [get_set]
  decide

/-- A value longer than a page takes the old value of its key along. -/
theorem set_throws_lost :
    ∃ (state : Keyfile.State Unit) (left : Left Unit) (text : String),
      (Keyfile.machine spelling).Reachable state ∧
      setIn spelling ⟨256, 0⟩ ⟨none, none, none⟩ ⟨[⟨4096, 128⟩], 1, []⟩ state.heap 0 [0x6b]
        (some (List.replicate 240 2)) = some (left, .error text) ∧
      Keydata.get spelling state.heap 0 [0x6b] = some (some [1]) ∧
      Left.get spelling left 0 [0x6b] = none ∧ ¬ Intact spelling state.heap left 0 := by
  have reachable : (Keyfile.machine spelling).Reachable (written.get written_isSome) :=
    Machine.reachable_get rfl _
  have performed : (setIn spelling ⟨256, 0⟩ ⟨none, none, none⟩ ⟨[⟨4096, 128⟩], 1, []⟩
      (written.get written_isSome).heap 0 [0x6b] (some (List.replicate 240 2))).map
        (fun result => (result.2, Left.get spelling result.1 0 [0x6b])) =
      some (.error "Larger than pagesize", none) := by decide +kernel
  obtain ⟨⟨left, outcome⟩, performed, left_⟩ := Option.map_eq_some_iff.mp performed
  simp only [Prod.mk.injEq] at left_
  obtain ⟨thrown, lost⟩ := left_
  have kept : Keydata.get spelling (written.get written_isSome).heap 0 [0x6b] =
      some (some [1]) := by decide
  refine ⟨_, left, _, reachable, thrown ▸ performed, kept, lost, fun intact => ?_⟩
  have found := intact.finds [0x6b]
  rw [kept, lost] at found
  cases found

end Keydata

end CommonCpp
