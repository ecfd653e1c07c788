/-
This file models `push` and `add` of an `ObjectPager` whose pages may run out, and
finds what is left of the pager when a call throws.

Either call asks its pages twice: for a member of the chain, and for the object the
member points to. The member is put into the chain and counted as soon as it is
there. When the first request throws nothing has been done; when the second does, the
pager has one more member, which points to no object.

The pages are those of a `memalloc`, and what the heap returns when it is asked for a
page is part of a call. Calls that do not throw are those of a pager whose
allocations succeed.
-/

import CommonCpp.Memalloc
import CommonCpp.Pager

namespace CommonCpp

namespace ObjectPager

open Memalloc (attempt attempt_cases Refused)
open Pager (Outcome increment)

/-! ### The code -/

/-- `sizeof(member)`: the virtual table, `Next` and `mem`. -/
def memberSize : Nat := 24

/-- What a pager is constructed for: its page size, the limit of its pages, and the size of its
objects. -/
structure Sizes where
  pagesize : Nat
  limit : Nat
  typesize : Nat

/-- The chain, whose members point to their objects or to nothing, and the pages. -/
structure State where
  chain : Pager.State (Option Nat)
  memory : Memalloc.State

/-- What the heap returns for the two requests of a call, if it is asked for a page. -/
structure Heap where
  forMember : Option Nat
  forObject : Option Nat

/-- `_alloc`, and what a call goes on with when it does not throw. When it does, the call throws too
and leaves the pager as it is by then. -/
def alloc (sizes : Sizes) (size : Nat) (page : Option Nat) (state : State)
    (onward : Memalloc.State → Option (State × Outcome (Option Nat))) :
    Option (State × Outcome (Option Nat)) :=
  attempt (Memalloc.alloc sizes.pagesize sizes.limit size page state.memory)
    (fun text => some (state, .thrown text)) onward

def push (sizes : Sizes) (heap : Heap) (state : State) : Option (State × Outcome (Option Nat)) :=
  alloc sizes memberSize heap.forMember state fun memory =>
    let node := state.chain.allocated
    let chain :=
      { state.chain with
        text := Function.update state.chain.text node none
        allocated := state.chain.allocated + 1
        next := Function.update state.chain.next node state.chain.root
        root := some node
        last := if state.chain.last = none then some node else state.chain.last
        members := increment state.chain.members }
    alloc sizes sizes.typesize heap.forObject ⟨chain, memory⟩ fun memory =>
      let mem := memory.latest
      let chain := { chain with text := Function.update chain.text node mem, index := none }
      some (⟨chain, memory⟩, .item mem)

/-- `node->mem = memalloc::_alloc(typesize)`, with which `add` ends. -/
def fill (sizes : Sizes) (heap : Heap) (node : Nat) (state : State) :
    Option (State × Outcome (Option Nat)) :=
  alloc sizes sizes.typesize heap.forObject state fun memory =>
    let mem := memory.latest
    let chain := { state.chain with text := Function.update state.chain.text node mem }
    some (⟨chain, memory⟩, .item mem)

def add (sizes : Sizes) (heap : Heap) (state : State) : Option (State × Outcome (Option Nat)) :=
  alloc sizes memberSize heap.forMember state fun memory =>
    let node := state.chain.allocated
    let members := state.chain.members
    let chain :=
      { state.chain with
        text := Function.update state.chain.text node none
        allocated := state.chain.allocated + 1
        index := none
        members := increment state.chain.members }
    if members ≠ 0 then
      match chain.last with
      | none => none
      | some final =>
        let chain := { chain with next := Function.update chain.next node none }
        let chain := { chain with next := Function.update chain.next final (some node) }
        fill sizes heap node ⟨{ chain with last := some node }, memory⟩
    else
      let chain := { chain with next := Function.update chain.next node chain.root }
      fill sizes heap node ⟨{ chain with root := some node, last := some node }, memory⟩

inductive Call
  | push
  | add

/-- The state after a call, and its answer. -/
def perform (sizes : Sizes) (heap : Heap) (state : State) :
    Call → Option (State × Outcome (Option Nat))
  | .push => push sizes heap state
  | .add => add sizes heap state

/-- The answers of the pager. -/
def objects : Pager.Flavour (Option Nat) (Option Nat) where
  item object := object
  added object := .item object
  outside := .null
  noMembers := .null
  noRoot := .null

/-- The call of a pager whose allocations succeed. -/
def Call.action (object : Option Nat) : Call → Pager.Action (Option Nat)
  | .push => .push object
  | .add => .add object

/-! ### Calls that do not throw -/

variable {sizes : Sizes} {heap : Heap} {state after : State} {call : Call}

section Requests

variable {size : Nat} {page : Option Nat}
  {onward : Memalloc.State → Option (State × Outcome (Option Nat))}

/-- A call that has not thrown has gone on. -/
theorem alloc_item {mem : Option Nat}
    (done : alloc sizes size page state onward = some (after, .item mem)) :
    ∃ memory, onward memory = some (after, .item mem) := by
  rcases attempt_cases sizes.pagesize sizes.limit size page state.memory
    (fun text => some (state, Outcome.thrown text)) onward with
    ⟨_, text, thrown⟩ | ⟨_, memory, taken⟩
  · rw [alloc, thrown] at done
    cases done
  · rw [alloc, taken] at done
    exact ⟨memory, done⟩

/-- A call that throws has done nothing more, or has gone on. -/
theorem alloc_thrown {text : String}
    (thrown : alloc sizes size page state onward = some (after, .thrown text)) :
    (Refused sizes.pagesize sizes.limit size page state.memory ∧ after = state) ∨
      (¬ Refused sizes.pagesize sizes.limit size page state.memory ∧
        ∃ memory, onward memory = some (after, .thrown text)) := by
  rcases attempt_cases sizes.pagesize sizes.limit size page state.memory
    (fun text => some (state, Outcome.thrown text)) onward with
    ⟨refused, text', threw⟩ | ⟨taken, memory, took⟩
  · rw [alloc, threw] at thrown
    cases thrown
    exact Or.inl ⟨refused, rfl⟩
  · rw [alloc, took] at thrown
    exact Or.inr ⟨taken, memory, thrown⟩

end Requests

/-- A call that does not throw does with its object what a pager does whose allocations succeed. -/
theorem perform_item {mem : Option Nat}
    (performed : perform sizes heap state call = some (after, .item mem)) :
    Pager.perform objects state.chain (call.action mem) = some (after.chain, .item mem) := by
  cases call with
  | push =>
    rw [perform, push] at performed
    obtain ⟨memory, linked⟩ := alloc_item performed
    obtain ⟨memory', filled⟩ := alloc_item linked
    cases filled
    simp only [Pager.perform, Pager.push, Call.action, objects, Function.update_idem]
  | add =>
    rw [perform, add] at performed
    obtain ⟨memory, linked⟩ := alloc_item performed
    simp only [Pager.perform, Pager.add, Call.action, objects]
    dsimp only at linked
    split at linked
    next some_ =>
      rw [if_pos some_]
      cases last : state.chain.last with
      | none =>
        rw [last] at linked
        cases linked
      | some final =>
        rw [last] at linked
        obtain ⟨memory', filled⟩ := alloc_item linked
        cases filled
        simp only [Option.map_some, Function.update_idem]
    next none_ =>
      rw [if_neg none_]
      obtain ⟨memory', filled⟩ := alloc_item linked
      cases filled
      simp only [Option.map_some, Function.update_idem]

/-! ### Calls that throw -/

/-- The pager is as it was before, as far as its users can tell: the members, the two ends, and
what `get` and `list` answer. -/
structure Intact (before after : Pager.State (Option Nat)) : Prop where
  members : after.members = before.members
  root : after.root = before.root
  last : after.last = before.last
  gets : ∀ ind, Pager.get objects after ind = Pager.get objects before ind
  lists : (Pager.list after).map Prod.snd = (Pager.list before).map Prod.snd

theorem Intact.refl (chain : Pager.State (Option Nat)) : Intact chain chain :=
  ⟨rfl, rfl, rfl, fun _ => rfl, rfl⟩

theorem increment_ne (members : Nat) : increment members ≠ members := by
  intro same
  rcases Nat.lt_or_ge (members + 1) (2 ^ 32) with small | large
  · rw [Pager.increment_of_lt small] at same
    exact Nat.succ_ne_self members same
  · have below : increment members < 2 ^ 32 := Nat.mod_lt _ (Nat.two_pow_pos 32)
    have last : members + 1 = 2 ^ 32 := Nat.le_antisymm (same ▸ below) large
    rw [increment, last, Nat.mod_self] at same
    rw [← same] at last
    cases last

/-- The request for the member throws. -/
def MemberRefused (sizes : Sizes) (heap : Heap) (state : State) : Prop :=
  Refused sizes.pagesize sizes.limit memberSize heap.forMember state.memory

instance (sizes : Sizes) (heap : Heap) (state : State) :
    Decidable (MemberRefused sizes heap state) :=
  inferInstanceAs (Decidable (Refused _ _ _ _ _))

/-- The last request of `add` has no effect on the members, whether it throws or not. -/
theorem members_fill {node : Nat} {outcome : Outcome (Option Nat)}
    (filled : fill sizes heap node state = some (after, outcome)) :
    after.chain.members = state.chain.members := by
  rw [fill, alloc] at filled
  rcases attempt_cases sizes.pagesize sizes.limit sizes.typesize heap.forObject state.memory
    (fun text => some (state, Outcome.thrown text)) _ with ⟨_, text, threw⟩ | ⟨_, memory, took⟩
  · rw [threw] at filled
    cases filled
    rfl
  · rw [took] at filled
    cases filled
    rfl

/-- A call that throws has done nothing when it was the request for the member that threw, and has
counted the member otherwise. -/
theorem perform_thrown {text : String}
    (thrown : perform sizes heap state call = some (after, .thrown text)) :
    (MemberRefused sizes heap state ∧ after = state) ∨
      (¬ MemberRefused sizes heap state ∧
        after.chain.members = increment state.chain.members) := by
  cases call with
  | push =>
    rw [perform, push] at thrown
    refine (alloc_thrown thrown).imp_right fun ⟨taken, memory, linked⟩ => ⟨taken, ?_⟩
    rcases alloc_thrown linked with ⟨_, left⟩ | ⟨_, _, filled⟩
    · rw [left]
    · cases filled
  | add =>
    rw [perform, add] at thrown
    refine (alloc_thrown thrown).imp_right fun ⟨taken, memory, linked⟩ => ⟨taken, ?_⟩
    dsimp only at linked
    split at linked
    · split at linked
      · cases linked
      · exact members_fill linked
    · exact members_fill linked

/-- A `push` or an `add` that throws leaves every pager as it was, exactly when it is the request
for the member that throws. -/
theorem pager_throws_iff {text : String}
    (thrown : perform sizes heap state call = some (after, .thrown text)) :
    Intact state.chain after.chain ↔ MemberRefused sizes heap state := by
  rcases perform_thrown thrown with ⟨refused, left⟩ | ⟨taken, counted⟩
  · rw [left]
    exact iff_of_true (Intact.refl _) refused
  · refine iff_of_false (fun intact => ?_) taken
    rw [intact.members] at counted
    exact absurd counted.symm (increment_ne _)

/-- A pager for objects of 300 bytes with pages of 256. -/
def large : Sizes := ⟨256, 0, 300⟩

/-- A pager with the limit of one page, in which less is left than a member needs. -/
def full : State := ⟨Pager.constructed fun _ => none, ⟨[⟨4096, 248⟩], 1, []⟩⟩

/-- A page that is full is reached at its limit. -/
theorem pager_throws_iff_full :
    ∃ after, perform ⟨256, 1, 16⟩ ⟨none, none⟩ full .add = some (after, .thrown "pager exhausted") ∧
      Intact full.chain after.chain := by
  have thrown : perform ⟨256, 1, 16⟩ ⟨none, none⟩ full .add =
      some (full, .thrown "pager exhausted") := rfl
  exact ⟨full, thrown, (pager_throws_iff thrown).mpr (by decide)⟩

/-- A pager that has been constructed. -/
def empty : State := ⟨Pager.constructed fun _ => none, ⟨[], 0, []⟩⟩

/-- An object larger than a page leaves a member without an object behind. -/
theorem pager_throws_linked :
    ∃ after, perform large ⟨some 4096, none⟩ empty .add =
        some (after, .thrown "Larger than pagesize") ∧
      Pager.get objects empty.chain 0 = some .null ∧
      Pager.get objects after.chain 0 = some (.item none) ∧ ¬ Intact empty.chain after.chain := by
  have performed : (perform large ⟨some 4096, none⟩ empty .add).map
      (fun result => (result.2, Pager.get objects result.1.chain 0, result.1.chain.members)) =
        some (.thrown "Larger than pagesize", some (.item none), 1) := by decide
  obtain ⟨⟨after, outcome⟩, performed, left⟩ := Option.map_eq_some_iff.mp performed
  simp only [Prod.mk.injEq] at left
  obtain ⟨thrown, got, members⟩ := left
  refine ⟨after, thrown ▸ performed, by decide, got, fun intact => ?_⟩
  rw [intact.members] at members
  exact absurd members (by decide)

end ObjectPager

end CommonCpp
