/-
This file models `StringPager::sort`, and finds when a pager stays usable after it.

`sort` gathers the nodes of the chain in an array, lets `qsort` order them by their
texts, and links them anew from the back. It does not look at `last`, which goes on
naming the node that was last before. So the next `add` puts its text behind a node
in the middle of the chain and cuts off what follows, and the next `pop` takes the
wrong text. The pager is a list in sorted order exactly when `qsort` leaves that node
in the last place, as it does when its text is the greatest.

The comparison of texts and `qsort` are parameters. Of `qsort` it is assumed that it
sorts by a comparison that is total and transitive, and of the texts that they are
compared so; which of two equal texts comes first is left open.
-/

import Mathlib.Data.List.Sort
import CommonCpp.Pager

namespace CommonCpp

open Concurrency Memory

namespace Pager

abbrev Text := List UInt8

/-! ### The code -/

/-- `String::collate`: negative, zero or positive as the first text comes before the second, is
equal to it or comes behind it. -/
abbrev Collate := Text → Text → Int

/-- `qsort` of an array of nodes by a comparison. -/
abbrev Qsort := (Nat → Nat → Int) → List Nat → List Nat

inductive SortAction
  | call (action : Action (Option Text))
  | sort

/-- The comparison of two nodes. -/
def ncompare (collate : Collate) (state : State Text) (first second : Nat) : Int :=
  collate (state.text first) (state.text second)

/-- The loop of `sort` that gathers as many nodes as are counted. -/
def members (next : Nat → Option Nat) : Nat → Option Nat → List Nat
  | count + 1, some node => node :: members next count (next node)
  | _, _ => []

/-- The nodes in sorted order. -/
def sorted (collate : Collate) (qsort : Qsort) (state : State Text) : List Nat :=
  qsort (ncompare collate state) (members state.next state.members state.root)

/-- The loop of `sort` that puts the nodes of the array on an empty chain, the last one first. -/
def enlistAll (next : Nat → Option Nat) : List Nat → Option Nat × (Nat → Option Nat)
  | [] => (none, next)
  | node :: rest =>
    let (root, next) := enlistAll next rest
    (some node, Function.update next node root)

def sort (collate : Collate) (qsort : Qsort) (state : State Text) : State Text :=
  if state.members = 0 then state
  else
    let (root, next) := enlistAll state.next (sorted collate qsort state)
    { state with root := root, next := next, index := none }

/-- The runs of a `StringPager` that is also sorted. -/
def sortMachine (collate : Collate) (qsort : Qsort) : Machine (State Text) SortAction where
  Init := (machine stringPager).Init
  step state
    | .call action => (machine stringPager).step state action
    | .sort => some (sort collate qsort state)

/-! ### The sorted list -/

/-- Texts are compared by a total and transitive order. -/
structure Collation (collate : Collate) : Prop where
  total : ∀ first second, collate first second ≤ 0 ∨ collate second first ≤ 0
  trans : ∀ first second third, collate first second ≤ 0 → collate second third ≤ 0 →
    collate first third ≤ 0

/-- `qsort` permutes an array, and sorts it by a total and transitive comparison. -/
structure Sorting (qsort : Qsort) : Prop where
  perm : ∀ compare nodes, (qsort compare nodes).Perm nodes
  sorts : ∀ compare nodes,
    (∀ first second, compare first second ≤ 0 ∨ compare second first ≤ 0) →
    (∀ first second third, compare first second ≤ 0 → compare second third ≤ 0 →
      compare first third ≤ 0) →
    (qsort compare nodes).Pairwise fun first second => compare first second ≤ 0

/-- Sorting leaves the pager with the same texts in order; every other call leaves the list it is
for and answers as the list does. -/
def Serves (collate : Collate) (move : Move (State Text) SortAction) : Prop :=
  match move.action with
  | .call action => Refines stringPager ⟨move.source, action, move.target⟩
  | .sort => ∀ items, Holds move.source items → ∃ items', items'.Perm items ∧
      items'.Pairwise (fun first second => collate first second ≤ 0) ∧ Holds move.target items'

/-- The pager is empty, or `qsort` leaves the last node in the last place. -/
def Lasting (collate : Collate) (qsort : Qsort) (state : State Text) : Prop :=
  state.members = 0 ∨ (sorted collate qsort state).getLast? = state.last

/-- Texts are added within the bound, and the pager is sorted when the last text stays last. -/
def Careful (collate : Collate) (qsort : Qsort) (state : State Text) : SortAction → Prop
  | .call action => Counted state action
  | .sort => Lasting collate qsort state

instance (collate : Collate) (qsort : Qsort) (state : State Text) : (action : SortAction) →
    Decidable (Careful collate qsort state action)
  | .call action => inferInstanceAs (Decidable (Counted state action))
  | .sort => inferInstanceAs (Decidable (state.members = 0 ∨
      (sorted collate qsort state).getLast? = state.last))

section Sorted

variable {collate : Collate} {qsort : Qsort} {state : State Text} {nodes : List Nat}

theorem members_of_path {next : Nat → Option Nat} {pointer : Option Nat}
    (path : Path next pointer nodes none) : members next nodes.length pointer = nodes := by
  induction nodes generalizing pointer with
  | nil => rfl
  | cons node rest inductionHypothesis =>
    obtain ⟨rfl, onward⟩ := path
    rw [List.length_cons, members, inductionHypothesis onward]

/-- Nodes that have been put on an empty chain are what it leads through. -/
theorem path_enlistAll (next : Nat → Option Nat) (once : nodes.Nodup) :
    Path (enlistAll next nodes).2 (enlistAll next nodes).1 nodes none := by
  induction nodes with
  | nil => rfl
  | cons node rest inductionHypothesis =>
    obtain ⟨outside, once⟩ := List.nodup_cons.mp once
    exact (inductionHypothesis once).push outside

namespace Chained

theorem sorted_eq (chained : Chained state nodes) :
    sorted collate qsort state = qsort (ncompare collate state) nodes := by
  rw [sorted, chained.members, members_of_path chained.path]

theorem sorted_perm (chained : Chained state nodes) (sorting : Sorting qsort) (collate : Collate) :
    (sorted collate qsort state).Perm nodes := by
  rw [chained.sorted_eq]
  exact sorting.perm _ nodes

theorem sorted_pairwise (chained : Chained state nodes) (sorting : Sorting qsort)
    (collation : Collation collate) :
    (sorted collate qsort state).Pairwise fun first second =>
      collate (state.text first) (state.text second) ≤ 0 := by
  rw [chained.sorted_eq]
  exact sorting.sorts _ nodes (fun _ _ => collation.total _ _)
    fun _ _ _ => collation.trans _ _ _

/-- After sorting, the chain leads through the nodes in sorted order. -/
theorem sort_path (chained : Chained state nodes) (sorting : Sorting qsort) (collate : Collate)
    (some_ : state.members ≠ 0) :
    Path (sort collate qsort state).next (sort collate qsort state).root
      (sorted collate qsort state) none := by
  have once := (chained.sorted_perm sorting collate).nodup_iff.mpr chained.once
  rw [sort, if_neg some_]
  exact path_enlistAll state.next once

/-- Sorting keeps a whole chain when the last node stays last. -/
theorem sort (chained : Chained state nodes) (sorting : Sorting qsort)
    (lasting : Lasting collate qsort state) (some_ : state.members ≠ 0) :
    Chained (sort collate qsort state) (sorted collate qsort state) := by
  have perm := chained.sorted_perm sorting collate
  have path := chained.sort_path sorting collate some_
  have ends := (lasting.resolve_left some_).symm
  simp only [Pager.sort, if_neg some_] at path ⊢
  refine ⟨path, perm.nodup_iff.mpr chained.once, ?_, ends, ?_, fun _ none => (by cases none)⟩
  · exact fun node member => chained.known node (perm.mem_iff.mp member)
  · exact chained.members.trans perm.length_eq.symm

/-- A last node that does not stay last is still taken for the last one. -/
theorem not_chained_sort (chained : Chained state nodes) (sorting : Sorting qsort)
    (moved : ¬ Lasting collate qsort state) (nodes' : List Nat) :
    ¬ Chained (Pager.sort collate qsort state) nodes' := by
  intro chained'
  obtain ⟨some_, moved⟩ := not_or.mp moved
  have same := (chained.sort_path sorting collate some_).unique chained'.path
  have last := chained'.last
  rw [← same] at last
  simp only [Pager.sort, if_neg some_] at last
  exact moved last.symm

end Chained

/-! #### Runs -/

theorem Small.sort (small : Small state) (sorting : Sorting qsort)
    (lasting : Lasting collate qsort state) : Small (sort collate qsort state) := by
  obtain ⟨⟨nodes, chained⟩, bounded⟩ := small
  by_cases none_ : state.members = 0
  · rw [Pager.sort, if_pos none_]
    exact ⟨⟨nodes, chained⟩, bounded⟩
  · refine ⟨⟨_, chained.sort sorting lasting none_⟩, ?_⟩
    rw [Pager.sort, if_neg none_]
    exact bounded

theorem serves_sort (sorting : Sorting qsort) (collation : Collation collate)
    (lasting : Lasting collate qsort state) :
    Serves collate ⟨state, .sort, sort collate qsort state⟩ := by
  rintro items ⟨nodes, chained, rfl⟩
  by_cases none_ : state.members = 0
  · have empty : nodes = [] := by
      rw [chained.members] at none_
      exact List.eq_nil_of_length_eq_zero none_
    refine ⟨nodes.map state.text, List.Perm.refl _, ?_, ?_⟩
    · rw [empty]
      exact List.Pairwise.nil
    · dsimp only
      rw [Pager.sort, if_pos none_]
      exact ⟨nodes, chained, rfl⟩
  · refine ⟨(sorted collate qsort state).map state.text, ?_, ?_, _,
      chained.sort sorting lasting none_, ?_⟩
    · exact (chained.sorted_perm sorting collate).map state.text
    · exact List.pairwise_map.mpr (chained.sorted_pairwise sorting collation)
    · dsimp only
      rw [Pager.sort, if_neg none_]

/-- In a run of a `StringPager` it always holds a list, sorting leaves the same texts in order, and
every other call leaves the list it is for and answers as the list does, exactly when texts are
added within the bound and the pager is only sorted when its last text stays last. -/
theorem stringPager_sorted_iff (sorting : Sorting qsort) (collation : Collation collate)
    {moves : List (Move (State Text) SortAction)} {state : State Text}
    (run : (sortMachine collate qsort).Run moves state) :
    (Machine.Throughout (Sound stringPager) moves state ∧ ∀ move ∈ moves, Serves collate move) ↔
      Machine.Meets (Careful collate qsort) moves := by
  refine run.sound_throughout_iff_meets Small ?_ ?_ (fun _ small => small.sound stringPager) ?_
  · rintro state ⟨text, rfl⟩
    exact ⟨⟨[], Chained.constructed text⟩, (by decide : 0 + 1 < 2 ^ 32)⟩
  · rintro source action target small careful stepped
    cases action with
    | call action => exact ⟨small.step careful stepped, small.refines stepped⟩
    | sort =>
      cases stepped
      exact ⟨small.sort sorting careful, serves_sort sorting collation careful⟩
  · rintro source action target small careless stepped sound
    cases action with
    | call action =>
      exact absurd sound
        (not_sound_of_list_eq_none (list_eq_none_of_not_counted small careless stepped).2)
    | sort =>
      cases stepped
      obtain ⟨⟨nodes, chained⟩, _⟩ := small
      obtain ⟨⟨items, nodes', chained', _⟩, _⟩ := sound
      exact absurd chained' (chained.not_chained_sort sorting careless nodes')

end Sorted

/-! ### One comparison -/

/-- The order of texts of one character. -/
def collateFirst : Collate := fun first second =>
  (first.headD 0).toNat - (second.headD 0).toNat

theorem collation_collateFirst : Collation collateFirst := by
  constructor <;> intros <;> unfold collateFirst at * <;> omega

/-- Sorting by insertion. -/
def qsortByInsertion : Qsort := fun compare nodes =>
  nodes.insertionSort fun first second => compare first second ≤ 0

theorem sorting_qsortByInsertion : Sorting qsortByInsertion where
  perm _ _ := List.perm_insertionSort _ _
  sorts compare nodes total trans := by
    have : Std.Total fun first second => compare first second ≤ 0 := ⟨total⟩
    have : IsTrans Nat fun first second => compare first second ≤ 0 := ⟨trans⟩
    exact List.pairwise_insertionSort _ nodes

/-- Three texts of which the last is the greatest are sorted; then another one is added behind them
and popped, and the first one pulled. -/
theorem stringPager_sorted_iff_greatest :
    ∃ moves state, (sortMachine collateFirst qsortByInsertion).Run moves state ∧
      (perform stringPager state .list).map Prod.snd = some (.items [[98], [99]]) ∧
      Machine.Throughout (Sound stringPager) moves state ∧
        ∀ move ∈ moves, Serves collateFirst move := by
  let played := ((sortMachine collateFirst qsortByInsertion).restrict
    (Careful collateFirst qsortByInsertion)).play (constructed fun _ => [])
      [.call (.add (some [98])), .call (.add (some [97])), .call (.add (some [99])), .sort,
        .call (.add (some [100])), .call .pop, .call .pull]
  obtain ⟨moves, restricted⟩ : ((sortMachine collateFirst qsortByInsertion).restrict
      (Careful collateFirst qsortByInsertion)).Reachable (played.get (by decide)) :=
    Machine.reachable_of_play ⟨_, rfl⟩ (Option.some_get _).symm
  obtain ⟨run, careful⟩ := restricted.of_restrict
  exact ⟨moves, _, run, by decide, (stringPager_sorted_iff sorting_qsortByInsertion
    collation_collateFirst run).mpr careful⟩

/-- The text "b" and then "a" are added and sorted. A third text, "c", is added behind "a", and "b"
is lost, though it is counted. -/
theorem stringPager_loses_text :
    ∃ moves state, (sortMachine collateFirst qsortByInsertion).Run moves state ∧
      state.members = 3 ∧
      (perform stringPager state .list).map Prod.snd = some (.items [[97], [99]]) ∧
      ¬ Machine.Throughout (Sound stringPager) moves state := by
  let played := (sortMachine collateFirst qsortByInsertion).play (constructed fun _ => [])
    [.call (.add (some [98])), .call (.add (some [97])), .sort, .call (.add (some [99]))]
  obtain ⟨moves, run⟩ : (sortMachine collateFirst qsortByInsertion).Reachable
      (played.get (by decide)) := Machine.reachable_of_play ⟨_, rfl⟩ (Option.some_get _).symm
  refine ⟨moves, _, run, by decide, by decide, fun throughout => ?_⟩
  have unanswered : perform stringPager (played.get (by decide)) (.get 2) = none := by decide
  have answered := throughout.1.2 (.get 2)
  rw [unanswered] at answered
  cases answered

end Pager

end CommonCpp
