/-
This file models `StringPager` and `ObjectPager`, lists that are kept in the pages of
a `memalloc`, and finds when they serve as double-ended lists.

Both keep their items in a chain from `root` to `last`, count them in an `unsigned`,
and gather an array of them on demand. The array is kept until an item is added or
removed. They differ in what a call answers that finds nothing: a `StringPager`
throws, an `ObjectPager` returns null. The chain is the list of what was added, in
order, and the answers are those of the list, as long as the array has room: the
number of its slots is the count plus one, which wraps around to 0 when 2^32 - 1
items have been added, and then the array is written beyond its end.

Allocations succeed. Nodes are numbered in the order of their allocation. A call that
follows a null pointer, or writes beyond an array, has no outcome, and neither has a
walk that passes more nodes than have been allocated.
-/

import Mathlib.Algebra.Group.Nat.Defs
import Mathlib.Data.List.Perm.Subperm
import CommonCpp.Links
import CommonCpp.Machine

namespace CommonCpp

open Concurrency Memory

namespace Pager

/-! ### The code -/

/-- What a call returns or throws. -/
inductive Outcome (Item : Type)
  | done
  | item (item : Item)
  | items (items : List Item)
  | null
  | thrown (text : String)
  deriving DecidableEq

/-- What the two classes do differently: the item they make of what they are given, and the answers
to an `add` or `push`, to a `get` outside of the list, and to a `pull` and a `pop` when there is
nothing. -/
structure Flavour (Given Item : Type) where
  item : Given → Item
  added : Item → Outcome Item
  outside : Outcome Item
  noMembers : Outcome Item
  noRoot : Outcome Item

/-- A `StringPager` is given texts. A null pointer is taken for an empty text. -/
def stringPager : Flavour (Option (List UInt8)) (List UInt8) where
  item text := text.getD []
  added _ := .done
  outside := .thrown "stringpager outside range"
  noMembers := .thrown "no members"
  noRoot := .thrown "no root"

/-- An `ObjectPager` is given the objects that it allocates for its members, and returns them. -/
def objectPager : Flavour Nat Nat where
  item object := object
  added object := .item object
  outside := .null
  noMembers := .null
  noRoot := .null

/-- The fields of a pager, and those of its nodes. -/
structure State (Item : Type) where
  members : Nat
  root : Option Nat
  last : Option Nat
  next : Nat → Option Nat
  text : Nat → Item
  index : Option (List Item)
  allocated : Nat

inductive Action (Given : Type)
  | add (given : Given)
  | push (given : Given)
  | pull
  | pop
  | clear
  | get (ind : Nat)
  | list

section Code

variable {Given Item : Type}

/-- `members++` and `++members`. -/
def increment (members : Nat) : Nat := (members + 1) % 2 ^ 32

/-- `--members`. -/
def decrement (members : Nat) : Nat := (members + 2 ^ 32 - 1) % 2 ^ 32

def clear (state : State Item) : State Item :=
  { state with members := 0, root := none, last := none, index := none }

def add (state : State Item) (item : Item) : Option (State Item) :=
  let node := state.allocated
  let state :=
    { state with
      text := Function.update state.text node item
      index := none
      allocated := state.allocated + 1 }
  if state.members ≠ 0 then
    match state.last with
    | none => none
    | some final =>
      let state := { state with next := Function.update state.next node none }
      let state := { state with next := Function.update state.next final (some node) }
      some { state with members := increment state.members, last := some node }
  else
    let state := { state with next := Function.update state.next node state.root }
    some
      { state with
        members := increment state.members
        root := some node
        last := some node }

def push (state : State Item) (item : Item) : State Item :=
  let node := state.allocated
  { state with
    text := Function.update state.text node item
    allocated := state.allocated + 1
    next := Function.update state.next node state.root
    root := some node
    last := if state.last = none then some node else state.last
    members := increment state.members
    index := none }

def pull (flavour : Flavour Given Item) (state : State Item) :
    Option (State Item × Outcome Item) :=
  if state.members = 0 then some (state, flavour.noMembers)
  else
    match state.root with
    | none => none
    | some mem =>
      let state := { state with members := decrement state.members }
      let state :=
        if state.members = 0 then { state with root := none, last := none }
        else { state with root := state.next mem }
      some ({ state with index := none }, .item (state.text mem))

def pop (flavour : Flavour Given Item) (state : State Item) :
    Option (State Item × Outcome Item) :=
  if state.root = none then some (state, flavour.noRoot)
  else
    match state.last with
    | none => none
    | some final =>
      let state := { state with index := none }
      if state.root = some final then
        some ({ state with root := none, last := none, members := 0 }, .item (state.text final))
      else
        (walk state.next (fun node => state.next node = some final) state.allocated none
          state.root).map fun (_, found) =>
            match found with
            | some node =>
              ({ state with
                  last := some node
                  next := Function.update state.next node none
                  members := decrement state.members }, .item (state.text final))
            | none => (state, .null)

/-- The loop of `list`, which gathers the items of the chain. -/
def gather (next : Nat → Option Nat) (text : Nat → Item) :
    Nat → Option Nat → Option (List Item)
  | _, none => some []
  | 0, some _ => none
  | fuel + 1, some node => (gather next text fuel (next node)).map (text node :: ·)

def list (state : State Item) : Option (State Item × Outcome Item) :=
  match state.index with
  | some items => some (state, .items items)
  | none =>
    (gather state.next state.text state.allocated state.root).bind fun items =>
      if items.length + 1 ≤ increment state.members then
        some ({ state with index := some items }, .items items)
      else none

/-- The loop of `get`, which moves on as often as it is told. -/
def seek (next : Nat → Option Nat) : Nat → Option Nat → Option Nat
  | 0, pointer => pointer
  | ind + 1, pointer => seek next ind (pointer.bind next)

def get (flavour : Flavour Given Item) (state : State Item) (ind : Nat) :
    Option (Outcome Item) :=
  if ind ≥ state.members then some flavour.outside
  else (seek state.next ind state.root).map fun node => .item (state.text node)

/-- The state after a call, and its answer. -/
def perform (flavour : Flavour Given Item) (state : State Item) :
    Action Given → Option (State Item × Outcome Item)
  | .add given =>
    (add state (flavour.item given)).map fun state => (state, flavour.added (flavour.item given))
  | .push given =>
    some (push state (flavour.item given), flavour.added (flavour.item given))
  | .pull => pull flavour state
  | .pop => pop flavour state
  | .clear => some (clear state, .done)
  | .get ind => (get flavour state ind).map fun outcome => (state, outcome)
  | .list => list state

/-- The pager after construction. -/
def constructed (text : Nat → Item) : State Item :=
  ⟨0, none, none, fun _ => none, text, none, 0⟩

/-- The runs of a pager from its constructor on. -/
def machine (flavour : Flavour Given Item) : Machine (State Item) (Action Given) where
  Init state := ∃ text, state = constructed text
  step state action := (perform flavour state action).map Prod.fst

end Code

/-! ### The list -/

section Lists

variable {Given Item : Type}

/-- The list after a call. -/
def intended (flavour : Flavour Given Item) (items : List Item) : Action Given → List Item
  | .add given => items ++ [flavour.item given]
  | .push given => flavour.item given :: items
  | .pull => items.tail
  | .pop => items.dropLast
  | .clear => []
  | .get _ => items
  | .list => items

/-- What a list answers to a call. -/
def answer (flavour : Flavour Given Item) (items : List Item) : Action Given → Outcome Item
  | .add given => flavour.added (flavour.item given)
  | .push given => flavour.added (flavour.item given)
  | .pull => items.head?.elim flavour.noMembers .item
  | .pop => items.getLast?.elim flavour.noRoot .item
  | .clear => .done
  | .get ind => items[ind]?.elim flavour.outside .item
  | .list => .items items

/-- These nodes are the chain from `root` to `last`, `members` counts them, and an array that has
been gathered holds their items. -/
structure Chained (state : State Item) (nodes : List Nat) : Prop where
  path : Path state.next state.root nodes none
  once : nodes.Nodup
  known : ∀ node ∈ nodes, node < state.allocated
  last : state.last = nodes.getLast?
  members : state.members = nodes.length
  index : ∀ items, state.index = some items → items = nodes.map state.text

/-- The pager holds the list. -/
def Holds (state : State Item) (items : List Item) : Prop :=
  ∃ nodes, Chained state nodes ∧ nodes.map state.text = items

/-- The pager holds a list, and every call has an outcome. -/
def Sound (flavour : Flavour Given Item) (state : State Item) : Prop :=
  (∃ items, Holds state items) ∧ ∀ action, (perform flavour state action).isSome = true

/-- The call leaves the list it is for, and answers as the list does. -/
def Refines (flavour : Flavour Given Item) (move : Move (State Item) (Action Given)) : Prop :=
  ∀ items, Holds move.source items → Holds move.target (intended flavour items move.action) ∧
    (perform flavour move.source move.action).map Prod.snd =
      some (answer flavour items move.action)

/-- An item is added while the array of one more has room. -/
def Counted (state : State Item) : Action Given → Prop
  | .add _ => state.members + 2 < 2 ^ 32
  | .push _ => state.members + 2 < 2 ^ 32
  | _ => True

instance (state : State Item) : (action : Action Given) → Decidable (Counted state action)
  | .add _ => inferInstanceAs (Decidable (state.members + 2 < 2 ^ 32))
  | .push _ => inferInstanceAs (Decidable (state.members + 2 < 2 ^ 32))
  | .pull => inferInstanceAs (Decidable True)
  | .pop => inferInstanceAs (Decidable True)
  | .clear => inferInstanceAs (Decidable True)
  | .get _ => inferInstanceAs (Decidable True)
  | .list => inferInstanceAs (Decidable True)

variable {flavour : Flavour Given Item} {state : State Item} {nodes : List Nat}

/-! #### Loops -/

theorem gather_of_path {next : Nat → Option Nat} (text : Nat → Item) {pointer : Option Nat}
    (path : Path next pointer nodes none) {fuel : Nat} (enough : nodes.length ≤ fuel) :
    gather next text fuel pointer = some (nodes.map text) := by
  induction nodes generalizing pointer fuel with
  | nil =>
    cases path
    cases fuel <;> rfl
  | cons node rest inductionHypothesis =>
    obtain ⟨rfl, onward⟩ := path
    cases fuel with
    | zero => cases enough
    | succ fuel =>
      rw [gather, inductionHypothesis onward (Nat.le_of_succ_le_succ enough)]
      rfl

theorem seek_of_path {next : Nat → Option Nat} {pointer : Option Nat}
    (path : Path next pointer nodes none) (ind : Nat) : seek next ind pointer = nodes[ind]? := by
  induction ind generalizing pointer nodes with
  | zero =>
    rw [seek, path.head_eq, Option.or_none, List.head?_eq_getElem?]
  | succ ind inductionHypothesis =>
    cases nodes with
    | nil =>
      cases path
      have path : Path next none [] none := rfl
      exact inductionHypothesis path
    | cons node rest =>
      obtain ⟨rfl, onward⟩ := path
      rw [seek, List.getElem?_cons_succ]
      exact inductionHypothesis onward

theorem increment_of_lt {members : Nat} (small : members + 1 < 2 ^ 32) :
    increment members = members + 1 :=
  Nat.mod_eq_of_lt small

theorem decrement_succ {members : Nat} (small : members < 2 ^ 32) :
    decrement (members + 1) = members := by
  unfold decrement
  omega

/-! #### Calls -/

namespace Chained

theorem constructed (text : Nat → Item) : Chained (constructed text) [] :=
  ⟨rfl, List.nodup_nil, fun _ member => (by cases member), rfl, rfl, fun _ none => (by cases none)⟩

theorem length_le (chained : Chained state nodes) : nodes.length ≤ state.allocated :=
  length_le_of_lt chained.once chained.known

theorem root_eq (chained : Chained state nodes) : state.root = nodes.head? := by
  rw [chained.path.head_eq, Option.or_none]

/-- A node that is allocated next is on no chain. -/
theorem fresh (chained : Chained state nodes) : state.allocated ∉ nodes := fun member =>
  absurd (chained.known _ member) (Nat.lt_irrefl _)

theorem map_fresh (chained : Chained state nodes) (item : Item) :
    nodes.map (Function.update state.text state.allocated item) = nodes.map state.text :=
  List.map_congr_left fun _ member =>
    Function.update_of_ne (ne_of_mem_of_not_mem member chained.fresh) _ _

theorem clear (_ : Chained state nodes) : Chained (clear state) [] :=
  ⟨rfl, List.nodup_nil, fun _ member => (by cases member), rfl, rfl, fun _ none => (by cases none)⟩

theorem push (chained : Chained state nodes) (small : state.members + 1 < 2 ^ 32) (item : Item) :
    Chained (push state item) (state.allocated :: nodes) where
  path := chained.path.push chained.fresh
  once := List.nodup_cons.mpr ⟨chained.fresh, chained.once⟩
  known := List.forall_mem_cons.mpr ⟨Nat.lt_succ_self _, fun node member =>
    Nat.lt_succ_of_lt (chained.known node member)⟩
  last := by
    rw [List.getLast?_cons, ← chained.last]
    cases last : state.last <;> simp [Pager.push, last]
  members := by
    rw [List.length_cons, ← chained.members]
    exact increment_of_lt small
  index _ none := by cases none

theorem add (chained : Chained state nodes) (small : state.members + 1 < 2 ^ 32) (item : Item) :
    ∃ target, add state item = some target ∧ Chained target (nodes ++ [state.allocated]) ∧
      target.text = Function.update state.text state.allocated item := by
  have known : ∀ node ∈ nodes ++ [state.allocated], node < state.allocated + 1 := by
    intro node member
    rcases List.mem_append.mp member with old | new
    · exact Nat.lt_succ_of_lt (chained.known node old)
    · rw [List.mem_singleton.mp new]
      exact Nat.lt_succ_self _
  have once : (nodes ++ [state.allocated]).Nodup :=
    List.nodup_append.mpr ⟨chained.once, List.nodup_singleton _, fun node member other new =>
      List.mem_singleton.mp new ▸ ne_of_mem_of_not_mem member chained.fresh⟩
  have counted : increment state.members = (nodes ++ [state.allocated]).length := by
    rw [increment_of_lt small, List.length_append, ← chained.members]
    rfl
  have attached := chained.path.attach chained.once chained.fresh
  have members := chained.members
  have last := chained.last
  rcases List.eq_nil_or_concat' nodes with rfl | ⟨earlier, final, rfl⟩
  · have root := chained.root_eq
    have none_ : ¬ state.members ≠ 0 := by simp [members]
    simp only [Pager.add, if_neg none_]
    refine ⟨_, rfl, ⟨⟨rfl, ?_⟩, once, known, rfl, counted, fun _ none => (by cases none)⟩, rfl⟩
    exact (Function.update_self _ _ _).trans root
  · rw [List.getLast?_concat] at last attached
    have apart : final ≠ state.allocated :=
      ne_of_mem_of_not_mem (List.mem_append_right _ (List.mem_singleton_self _)) chained.fresh
    have many : state.members ≠ 0 := by
      rw [members, List.length_append]
      exact Nat.succ_ne_zero _
    simp only [Pager.add, last, if_pos many]
    refine ⟨_, rfl, ⟨?_, once, known, ?_, counted, fun _ none => (by cases none)⟩, rfl⟩
    · rw [if_neg (Option.some_ne_none final), Option.elim_some,
        Function.update_comm apart] at attached
      exact attached
    · rw [List.getLast?_concat]

/-- Pulling takes the first node off the chain. -/
theorem pull (chained : Chained state nodes) (small : state.members < 2 ^ 32)
    (flavour : Flavour Given Item) :
    ∃ target, pull flavour state =
        some (target, (nodes.map state.text).head?.elim flavour.noMembers .item) ∧
      Chained target nodes.tail ∧ target.text = state.text := by
  have members := chained.members
  have root := chained.root_eq
  cases nodes with
  | nil => exact ⟨state, by simp [Pager.pull, members], chained, rfl⟩
  | cons node rest =>
    have counted : decrement state.members = rest.length := by
      rw [members, List.length_cons] at small ⊢
      exact decrement_succ (by omega)
    obtain ⟨_, onward⟩ := chained.path
    have once := (List.nodup_cons.mp chained.once).2
    have known : ∀ other ∈ rest, other < state.allocated := fun other member =>
      chained.known other (List.mem_cons_of_mem _ member)
    have some_ : state.members ≠ 0 := by simp [members]
    simp only [Pager.pull, if_neg some_, root, List.head?_cons, counted]
    cases rest with
    | nil =>
      exact ⟨_, rfl, ⟨rfl, once, known, rfl, rfl, fun _ none => (by cases none)⟩, rfl⟩
    | cons second tail =>
      refine ⟨_, rfl, ⟨onward, once, known, ?_, rfl, fun _ none => (by cases none)⟩, rfl⟩
      exact chained.last.trans List.getLast?_cons_cons

/-- Popping takes the last node off the chain, which leads to it from the one before. -/
theorem pop (chained : Chained state nodes) (small : state.members < 2 ^ 32)
    (flavour : Flavour Given Item) :
    ∃ target, pop flavour state =
        some (target, (nodes.map state.text).getLast?.elim flavour.noRoot .item) ∧
      Chained target nodes.dropLast ∧ target.text = state.text := by
  have members := chained.members
  have root := chained.root_eq
  have last := chained.last
  rcases List.eq_nil_or_concat' nodes with rfl | ⟨earlier, final, rfl⟩
  · have none_ : state.root = none := root
    exact ⟨state, by rw [Pager.pop, if_pos none_]; rfl, chained, rfl⟩
  · rw [List.getLast?_concat] at last
    rw [List.map_append, List.map_singleton, List.getLast?_concat, List.dropLast_concat]
    rcases List.eq_nil_or_concat' earlier with rfl | ⟨first, prior, rfl⟩
    · have single : state.root = some final := root
      have some_ : state.root ≠ none := by simp [single]
      simp only [Pager.pop, if_neg some_, last, if_pos single]
      exact ⟨_, rfl, ⟨rfl, List.nodup_nil, fun _ member => (by cases member), rfl, rfl,
        fun _ none => (by cases none)⟩, rfl⟩
    · obtain ⟨middle, toPrior, leads, ends⟩ := Path.append_iff.mp chained.path
      obtain ⟨onceFirst, _, apart⟩ := List.nodup_append.mp chained.once
      have notFinal : ∀ node ∈ first ++ [prior], node ≠ final := fun node member =>
        apart node member final (List.mem_singleton_self _)
      have counted : decrement state.members = (first ++ [prior]).length := by
        have length : (first ++ [prior] ++ [final]).length = (first ++ [prior]).length + 1 :=
          List.length_append
        rw [members, length] at small ⊢
        exact decrement_succ (Nat.lt_of_succ_lt small)
      have beyond : state.next prior = some final := by
        obtain ⟨_, _, _, onward⟩ := Path.append_iff.mp toPrior
        exact onward.trans leads
      have passed : ∀ node ∈ first, decide (state.next node = some final) = false := by
        intro node member
        obtain ⟨other, within, onward⟩ := toPrior.leads_within node member
        rw [onward, decide_eq_false_iff_not, Option.some_inj]
        exact notFinal other within
      have walked : walk state.next (fun node => state.next node = some final) state.allocated none
          state.root = some (first.getLast?.or none, some prior) := by
        have path := chained.path
        have enough := chained.length_le
        rw [List.append_assoc] at path
        simp only [List.length_append, List.length_singleton] at enough
        exact walk_of_found path passed (decide_eq_true beyond) (by omega) none
      have some_ : state.root ≠ none := by
        rw [root]
        simp
      have notSingle : state.root ≠ some final := by
        intro single
        rw [root, List.head?_append_of_ne_nil _ (by simp)] at single
        exact notFinal final (List.mem_of_head? single) rfl
      simp only [Pager.pop, if_neg some_, last, if_neg notSingle, walked, Option.map_some]
      refine ⟨_, rfl, ⟨?_, onceFirst, ?_, ?_, counted, fun _ none => (by cases none)⟩, rfl⟩
      · refine toPrior.relink (fun node member => Function.update_of_ne ?_ _ _)
          (Function.update_self _ _ _)
        exact (List.nodup_append.mp onceFirst).2.2 node member prior (List.mem_singleton_self _)
      · exact fun node member => chained.known node (List.mem_append_left _ member)
      · rw [List.getLast?_concat]

/-- Listing keeps the chain, when the array has room. -/
theorem list (chained : Chained state nodes) (small : state.members + 1 < 2 ^ 32) :
    ∃ target, list state = some (target, .items (nodes.map state.text)) ∧
      Chained target nodes ∧ target.text = state.text := by
  unfold Pager.list
  cases gathered : state.index with
  | some items =>
    exact ⟨state, by rw [chained.index items gathered], chained, rfl⟩
  | none =>
    refine ⟨{ state with index := some (nodes.map state.text) }, ?_, ⟨chained.path, chained.once,
      chained.known, chained.last, chained.members, ?_⟩, rfl⟩
    · have room : (nodes.map state.text).length + 1 ≤ increment state.members := by
        have members := chained.members
        rw [List.length_map, increment_of_lt small]
        omega
      simp only [gather_of_path state.text chained.path chained.length_le, Option.bind_some,
        if_pos room]
    · intro items same
      cases same
      rfl

theorem get (chained : Chained state nodes) (flavour : Flavour Given Item) (ind : Nat) :
    get flavour state ind = some ((nodes.map state.text)[ind]?.elim flavour.outside .item) := by
  unfold Pager.get
  rw [chained.members, seek_of_path chained.path, List.getElem?_map]
  split
  next outside => simp [List.getElem?_eq_none outside]
  next inside => simp [List.getElem?_eq_getElem (Nat.lt_of_not_le inside)]

/-- A call leaves the list it is for and answers as the list does. -/
theorem perform (chained : Chained state nodes) (small : state.members + 1 < 2 ^ 32)
    (flavour : Flavour Given Item) (action : Action Given) :
    ∃ target nodes', Pager.perform flavour state action =
        some (target, answer flavour (nodes.map state.text) action) ∧ Chained target nodes' ∧
      nodes'.map target.text = intended flavour (nodes.map state.text) action := by
  cases action with
  | add given =>
    obtain ⟨target, added, after, text⟩ := chained.add small (flavour.item given)
    refine ⟨target, _, by rw [Pager.perform, added]; rfl, after, ?_⟩
    rw [text, List.map_append, chained.map_fresh, List.map_singleton, Function.update_self]
    rfl
  | push given =>
    refine ⟨_, _, rfl, chained.push small (flavour.item given), ?_⟩
    rw [List.map_cons]
    exact congrArg₂ List.cons (Function.update_self _ _ _) (chained.map_fresh _)
  | pull =>
    obtain ⟨target, pulled, after, text⟩ := chained.pull (Nat.lt_of_succ_lt small) flavour
    exact ⟨target, _, pulled, after, by rw [text, List.map_tail]; rfl⟩
  | pop =>
    obtain ⟨target, popped, after, text⟩ := chained.pop (Nat.lt_of_succ_lt small) flavour
    exact ⟨target, _, popped, after, by rw [text, List.map_dropLast]; rfl⟩
  | clear => exact ⟨_, _, rfl, chained.clear, rfl⟩
  | get ind => exact ⟨state, nodes, by rw [Pager.perform, chained.get]; rfl, chained, rfl⟩
  | list =>
    obtain ⟨target, listed, after, text⟩ := chained.list small
    exact ⟨target, nodes, listed, after, by rw [text]; rfl⟩

/-- An array of all the items there can be has no slot for the null pointer behind them. -/
theorem list_eq_none (chained : Chained state nodes) (full : state.members + 1 = 2 ^ 32)
    (index : state.index = none) : Pager.list state = none := by
  have none_ : increment state.members = 0 := by
    unfold increment
    omega
  simp [Pager.list, index, gather_of_path state.text chained.path chained.length_le, none_]

end Chained

/-- What is kept while items are added within the bound. -/
def Small (state : State Item) : Prop :=
  (∃ nodes, Chained state nodes) ∧ state.members + 1 < 2 ^ 32

theorem Small.sound (small : Small state) (flavour : Flavour Given Item) : Sound flavour state := by
  obtain ⟨⟨nodes, chained⟩, bounded⟩ := small
  refine ⟨⟨_, nodes, chained, rfl⟩, fun action => ?_⟩
  obtain ⟨target, _, performed, _⟩ := chained.perform bounded flavour action
  rw [performed]
  rfl

theorem Small.refines (small : Small state) {action : Action Given} {target : State Item}
    (stepped : (machine flavour).step state action = some target) :
    Refines flavour ⟨state, action, target⟩ := by
  rintro items ⟨nodes, chained, rfl⟩
  obtain ⟨target', nodes', performed, after, left⟩ := chained.perform small.2 flavour action
  simp only [machine, performed, Option.map_some, Option.some_inj] at stepped
  subst stepped
  exact ⟨⟨nodes', after, left⟩, by rw [performed]; rfl⟩

/-- The length of the list after a call. -/
theorem length_intended_le (items : List Item) (action : Action Given)
    (small : items.length + 1 < 2 ^ 32)
    (counted : (∀ given, action ≠ .add given ∧ action ≠ .push given) ∨ items.length + 2 < 2 ^ 32) :
    (intended flavour items action).length + 1 < 2 ^ 32 := by
  cases action <;> simp [intended] at counted ⊢ <;> omega

theorem Small.step (small : Small state) {action : Action Given} (counted : Counted state action)
    {target : State Item} (stepped : (machine flavour).step state action = some target) :
    Small target := by
  obtain ⟨⟨nodes, chained⟩, bounded⟩ := small
  obtain ⟨target', nodes', performed, after, left⟩ := chained.perform bounded flavour action
  simp only [machine, performed, Option.map_some, Option.some_inj] at stepped
  subst stepped
  refine ⟨⟨nodes', after⟩, ?_⟩
  have length : (nodes.map state.text).length = state.members := by
    rw [List.length_map, chained.members]
  have within : (intended flavour (nodes.map state.text) action).length + 1 < 2 ^ 32 := by
    refine length_intended_le _ action (by rw [length]; exact bounded) ?_
    rw [length]
    cases action with
    | add given => exact Or.inr counted
    | push given => exact Or.inr counted
    | _ => exact Or.inl fun given => ⟨nofun, nofun⟩
  rw [← left, List.length_map, ← after.members] at within
  exact within

/-- One item more than there is room for leaves a pager that cannot be listed. -/
theorem list_eq_none_of_not_counted (small : Small state) {action : Action Given}
    (full : ¬ Counted state action) {target : State Item}
    (stepped : (machine flavour).step state action = some target) :
    target.members + 1 = 2 ^ 32 ∧ list target = none := by
  obtain ⟨⟨nodes, chained⟩, bounded⟩ := small
  suffices after : (∃ nodes', Chained target nodes') ∧ target.members + 1 = 2 ^ 32 ∧
      target.index = none by
    obtain ⟨⟨nodes', chained'⟩, full', index⟩ := after
    exact ⟨full', chained'.list_eq_none full' index⟩
  cases action with
  | add given =>
    have last : state.members + 2 = 2 ^ 32 := by
      simp only [Counted] at full
      omega
    obtain ⟨target', added, after, _⟩ := chained.add bounded (flavour.item given)
    simp only [machine, Pager.perform, added, Option.map_some, Option.some_inj] at stepped
    subst stepped
    refine ⟨⟨_, after⟩, ?_, ?_⟩
    · rw [after.members, List.length_append, ← chained.members]
      exact last
    · unfold Pager.add at added
      dsimp only at added
      split at added
      · split at added
        · cases added
        · cases added
          rfl
      · cases added
        rfl
  | push given =>
    have last : state.members + 2 = 2 ^ 32 := by
      simp only [Counted] at full
      omega
    cases stepped
    have after := chained.push bounded (flavour.item given)
    refine ⟨⟨_, after⟩, ?_, rfl⟩
    rw [after.members, List.length_cons, ← chained.members]
    exact last
  | _ => exact absurd trivial full

theorem not_sound_of_list_eq_none (unlisted : list state = none) : ¬ Sound flavour state := by
  intro sound
  have listed := sound.2 .list
  rw [perform, unlisted] at listed
  cases listed

/-- In a run of a pager of either class it always holds a list and every call answers as the list
does, exactly when no item is added beyond 2^32 - 2. -/
theorem sound_refines_iff {moves : List (Move (State Item) (Action Given))} {state : State Item}
    (run : (machine flavour).Run moves state) :
    (Machine.Throughout (Sound flavour) moves state ∧ ∀ move ∈ moves, Refines flavour move) ↔
      Machine.Meets Counted moves := by
  refine run.sound_throughout_iff_meets Small ?_ ?_ (fun _ small => small.sound flavour) ?_
  · rintro state ⟨text, rfl⟩
    exact ⟨⟨[], Chained.constructed text⟩, (by decide : 0 + 1 < 2 ^ 32)⟩
  · exact fun source action target small counted stepped =>
      ⟨small.step counted stepped, small.refines stepped⟩
  · exact fun source action target small full stepped sound =>
      absurd sound (not_sound_of_list_eq_none (list_eq_none_of_not_counted small full stepped).2)

end Lists

/-- As many items as there is room for can be added. -/
theorem run_adds {Given Item : Type} (flavour : Flavour Given Item) (given : Given)
    (text : Nat → Item) (times : Nat) (bounded : times + 1 < 2 ^ 32) :
    ∃ moves, ∃ state : State Item, (machine flavour).Run moves state ∧ Small state ∧
      state.members = times := by
  induction times with
  | zero =>
    exact ⟨[], constructed text, .start ⟨text, rfl⟩, ⟨⟨[], Chained.constructed text⟩, bounded⟩, rfl⟩
  | succ times inductionHypothesis =>
    obtain ⟨moves, state, run, small, members⟩ := inductionHypothesis (Nat.lt_of_succ_lt bounded)
    obtain ⟨nodes, chained⟩ := small.1
    obtain ⟨target, nodes', performed, after, left⟩ :=
      chained.perform small.2 flavour (.add given)
    have stepped : (machine flavour).step state (.add given) = some target := by
      simp only [machine, performed, Option.map_some]
    have counted : Counted state (.add given) := by
      rw [Counted, members]
      exact bounded
    refine ⟨_, target, run.next _ stepped, small.step counted stepped, ?_⟩
    have length := congrArg List.length left
    rw [List.length_map, intended, List.length_append, List.length_map, ← chained.members,
      members] at length
    rw [after.members, length]
    rfl

/-- In a run of a `StringPager` or of an `ObjectPager` the pager always holds a list, every call has
an outcome, leaves the list it is for and answers as the list does, exactly when an item is only
added while there are less than 2^32 - 2. -/
theorem pager_refines_iff {texts : List (Move (State (List UInt8)) (Action (Option (List UInt8))))}
    {strings : State (List UInt8)} (runStrings : (machine stringPager).Run texts strings)
    {moves : List (Move (State Nat) (Action Nat))} {objects : State Nat}
    (runObjects : (machine objectPager).Run moves objects) :
    ((Machine.Throughout (Sound stringPager) texts strings ∧
      ∀ move ∈ texts, Refines stringPager move) ↔ Machine.Meets Counted texts) ∧
    ((Machine.Throughout (Sound objectPager) moves objects ∧
      ∀ move ∈ moves, Refines objectPager move) ↔ Machine.Meets Counted moves) :=
  ⟨sound_refines_iff runStrings, sound_refines_iff runObjects⟩

/-- Three texts at both ends, listed before and after; then the first and the last are taken. Three
objects, of which the last is taken. -/
theorem pager_refines_iff_listed :
    ∃ texts strings moves objects, (machine stringPager).Run texts strings ∧
      (machine objectPager).Run moves objects ∧
      (perform stringPager strings .list).map Prod.snd = some (.items [[2]]) ∧
      (perform objectPager objects .list).map Prod.snd = some (.items [64, 32]) ∧
      (Machine.Throughout (Sound stringPager) texts strings ∧
        ∀ move ∈ texts, Refines stringPager move) ∧
      Machine.Throughout (Sound objectPager) moves objects ∧
        ∀ move ∈ moves, Refines objectPager move := by
  let playedTexts := ((machine stringPager).restrict Counted).play (constructed fun _ => [])
    [.add (some [2]), .push (some [1]), .list, .add none, .list, .get 2, .pull, .pop, .get 1]
  let playedMoves := ((machine objectPager).restrict Counted).play (constructed fun _ => 0)
    [.add 32, .push 64, .add 96, .list, .pop]
  obtain ⟨texts, restrictedTexts⟩ : ((machine stringPager).restrict Counted).Reachable
      (playedTexts.get (by decide)) :=
    Machine.reachable_of_play ⟨_, rfl⟩ (Option.some_get _).symm
  obtain ⟨moves, restrictedMoves⟩ : ((machine objectPager).restrict Counted).Reachable
      (playedMoves.get (by decide)) :=
    Machine.reachable_of_play ⟨_, rfl⟩ (Option.some_get _).symm
  obtain ⟨runStrings, countedTexts⟩ := restrictedTexts.of_restrict
  obtain ⟨runObjects, countedMoves⟩ := restrictedMoves.of_restrict
  obtain ⟨strings, objects⟩ := pager_refines_iff runStrings runObjects
  exact ⟨texts, _, moves, _, runStrings, runObjects, by decide, by decide,
    strings.mpr countedTexts, objects.mpr countedMoves⟩

/-- A pager to which 2^32 - 1 texts have been added cannot be listed: its array has no slots. -/
theorem pager_overflows :
    ∃ moves state, (machine stringPager).Run moves state ∧ state.members = 2 ^ 32 - 1 ∧
      perform stringPager state .list = none ∧
      ¬ Machine.Throughout (Sound stringPager) moves state := by
  obtain ⟨moves, state, run, small, members⟩ :=
    run_adds stringPager none (fun _ => []) (2 ^ 32 - 2) (by decide)
  obtain ⟨nodes, chained⟩ := small.1
  obtain ⟨target, _, performed, _⟩ := chained.perform small.2 stringPager (.add none)
  have stepped : (machine stringPager).step state (.add none) = some target := by
    simp only [machine, performed, Option.map_some]
  have full : ¬ Counted state (.add (none : Option (List UInt8))) := by
    rw [Counted, members]
    decide
  obtain ⟨count, unlisted⟩ := list_eq_none_of_not_counted small full stepped
  exact ⟨_, target, run.next _ stepped, by omega, unlisted,
    fun throughout => not_sound_of_list_eq_none unlisted throughout.1⟩

end Pager

end CommonCpp
