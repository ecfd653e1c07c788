/-
This file models `ArrayRef::get`, which reads an element of an array by its position,
the oldest element of a stack or of a queue being at position zero.

The position is moved up by the head and taken back when it passes the last slot, and
what it finds must lie before the tail. When the tail is behind the head, the slots
from the head to the last are past the tail although they are in use, and `get` finds
nothing in them: it answers with null for every element that has not wrapped around.
-/

import CommonCpp.ArrayRef

namespace CommonCpp

open Concurrency Counted Memory

namespace ArrayRef

/-! ### The code -/

variable {size : Nat} {Typeref : Type} [DecidableEq Typeref]

omit [DecidableEq Typeref] in
/-- `ArrayRef::get`. -/
def getAt (state : State size Typeref) (index : Nat) : Option Nat :=
  if index ≥ size ∨ state.head = state.tail then none
  else
    let index := index + state.head
    if state.head ≤ state.tail ∧ index ≥ state.tail then none
    else
      let index := if index ≥ size then index - size else index
      if index ≥ state.tail then none else get state index

/-! ### The elements -/

/-- What a call is for, nulls included: a `push` appends unless the array is full, `pull` and `pop`
take a slot, and `reset` empties the array. -/
def queued (mode : Mode) (state : State size Typeref) :
    Action Typeref → List (Option Nat) → List (Option Nat)
  | .push object, cells =>
    if cells.length < size - 1 then cells ++ [state.refs.ref (.inr object)] else cells
  | .pull _, cells | .pop, cells => remaining mode cells
  | .reset object, cells => if state.refs.ref (.inr object) = none then cells else []
  | _, cells => cells

/-- The slots the calls of a run should leave filled, the oldest first. -/
def elements (mode : Mode) : List (Move (State size Typeref) (Action Typeref)) → List (Option Nat)
  | [] => []
  | move :: earlier => queued mode move.source move.action (elements mode earlier)

variable {mode : Mode} {state : State size Typeref} {cells : List (Option Nat)}

namespace Rings

/-- `reset` to an element leaves a stack or a queue empty. -/
theorem reset (holds : Rings state cells) (kind : mode = .queue ∨ mode = .stack)
    (object : Option Nat) :
    Rings (reset mode state object) (if object = none then cells else []) := by
  cases object with
  | none => exact holds
  | some item =>
    have inside : 0 < size := Nat.zero_lt_of_lt holds.head
    have emptied : ArrayRef.reset mode state (some item) =
        { state with head := 0, tail := 0 } := by
      rcases kind with rfl | rfl <;> rfl
    rw [emptied, if_neg (Option.some_ne_none item)]
    exact ⟨inside, (Nat.zero_mod size).symm, Nat.zero_le _, rfl⟩

/-- Every call leaves the slots it is for. -/
theorem step (holds : Rings state cells) (kind : mode = .queue ∨ mode = .stack)
    (action : Action Typeref) :
    Rings (perform mode state action) (queued mode state action cells) := by
  cases action with
  | push this => exact holds.push kind _
  | pull this => exact holds.pull kind this
  | pop => exact holds.pop kind
  | reset this => exact holds.reset kind _
  | clear => exact holds
  | create data => exact holds.congr rfl rfl rfl
  | hold this object => exact holds.congr (get_held state this object) rfl rfl
  | release this => exact holds.congr (get_cleared state this) rfl rfl

end Rings

/-- In every run the slots from the head on are those the calls should leave filled. -/
theorem rings_of_run (kind : mode = .queue ∨ mode = .stack) (large : 2 ≤ size)
    {moves : List (Move (State size Typeref) (Action Typeref))}
    (run : (machine mode size Typeref).Run moves state) :
    Rings state (elements mode moves) := by
  induction run with
  | @start state initial =>
    obtain rfl := initial
    have notArray : mode ≠ .array := by rcases kind with rfl | rfl <;> decide
    refine ⟨Nat.lt_of_lt_of_le Nat.zero_lt_two large, ?_, Nat.zero_le _, rfl⟩
    simp [elements, notArray]
  | next run action stepped inductionHypothesis =>
    obtain ⟨_, rfl⟩ := step_eq_perform stepped
    exact inductionHypothesis.step kind action

/-! ### Reading by position -/

/-- The element at a position, the oldest at zero, and null past the last one. -/
def elementAt (state : State size Typeref) (cells : List (Option Nat)) (index : Nat) :
    Option Nat :=
  if index < count state then (cells[index]?).join else none

/-- The slot of the position is in use between the head and the last slot of an array whose tail
has wrapped. -/
def Missed (state : State size Typeref) (index : Nat) : Prop :=
  state.tail < state.head ∧ state.head + index < size ∧ get state (state.head + index) ≠ none

namespace Rings

omit [DecidableEq Typeref]

/-- The element at a position is in the slot that many slots from the head. -/
theorem elementAt_eq (holds : Rings state cells) (index : Nat) :
    elementAt state cells index =
      if index < cells.length then get state ((state.head + index) % size) else none := by
  unfold elementAt
  rw [holds.count_eq]
  split
  next inside =>
    have cell : cells[index]? = some (get state ((state.head + index) % size)) := by
      rw [← holds.cells, window, List.getElem?_map, List.getElem?_range inside]
      rfl
    rw [cell]
    rfl
  next => rfl

/-- As long as the tail has not wrapped, `get` finds what is at the position. -/
theorem getAt_ordered (holds : Rings state cells) (ordered : state.head ≤ state.tail)
    (index : Nat) : getAt state index = elementAt state cells index := by
  have ends := holds.count_eq
  rw [count, if_pos ordered] at ends
  have last := holds.tail_lt
  rw [holds.elementAt_eq]
  unfold getAt
  by_cases inside : index < cells.length
  · have among : ¬ (index ≥ size ∨ state.head = state.tail) := by omega
    have before : ¬ (state.head ≤ state.tail ∧ index + state.head ≥ state.tail) := by omega
    have fits : ¬ index + state.head ≥ size := by omega
    have found : ¬ index + state.head ≥ state.tail := by omega
    rw [if_neg among, if_neg before, if_neg fits, if_neg found, if_pos inside,
      Nat.mod_eq_of_lt (by omega), Nat.add_comm]
  · rw [if_neg inside]
    split
    · rfl
    · have past : state.head ≤ state.tail ∧ index + state.head ≥ state.tail := by omega
      rw [if_pos past]

/-- When the tail has wrapped, `get` finds nothing up to the last slot, and what is at the position
behind it. -/
theorem getAt_wrapped (holds : Rings state cells) (wrapped : state.tail < state.head)
    (index : Nat) :
    getAt state index =
      if state.head + index < size then none else elementAt state cells index := by
  have ends := holds.count_eq
  rw [count, if_neg (Nat.not_le_of_lt wrapped)] at ends
  have head := holds.head
  have room := holds.room
  rw [holds.elementAt_eq]
  unfold getAt
  by_cases large : index ≥ size
  · rw [if_pos (Or.inl large), if_neg (by omega), if_neg (by omega)]
  · have among : ¬ (index ≥ size ∨ state.head = state.tail) := by omega
    have apart : ¬ (state.head ≤ state.tail ∧ index + state.head ≥ state.tail) := by omega
    rw [if_neg among, if_neg apart]
    by_cases before : state.head + index < size
    · have fits : ¬ index + state.head ≥ size := by omega
      have past : index + state.head ≥ state.tail := by omega
      rw [if_neg fits, if_pos past, if_pos before]
    · have passes : index + state.head ≥ size := by omega
      have slot : (state.head + index) % size = index + state.head - size := by
        rw [Nat.mod_eq_sub_mod (by omega), Nat.mod_eq_of_lt (by omega), Nat.add_comm]
      rw [if_pos passes, if_neg before, slot]
      by_cases inside : index < cells.length
      · rw [if_neg (by omega), if_pos inside]
      · rw [if_pos (by omega), if_neg inside]

/-- `get` answers with the element at the position unless the element is missed. -/
theorem getAt_iff (holds : Rings state cells) (index : Nat) :
    getAt state index = elementAt state cells index ↔ ¬ Missed state index := by
  rcases Nat.lt_or_ge state.tail state.head with wrapped | ordered
  · rw [holds.getAt_wrapped wrapped]
    have ends := holds.count_eq
    rw [count, if_neg (Nat.not_le_of_lt wrapped)] at ends
    by_cases before : state.head + index < size
    · have inside : index < cells.length := by omega
      rw [if_pos before, holds.elementAt_eq, if_pos inside, Nat.mod_eq_of_lt before]
      have missed : Missed state index ↔ get state (state.head + index) ≠ none :=
        ⟨fun missed => missed.2.2, fun filled => ⟨wrapped, before, filled⟩⟩
      rw [missed, not_not]
      exact eq_comm
    · rw [if_neg before]
      exact iff_of_true rfl fun missed => before missed.2.1
  · exact iff_of_true (holds.getAt_ordered ordered index)
      fun missed => Nat.not_lt_of_le ordered missed.1

end Rings

/-- In every run on an array of at least two slots that serves as a queue or a stack, and at every
position, `get` answers with the element at the position, and with null from `count` on, exactly
when the tail has not wrapped below the head, or the position has wrapped too, or the element is
null itself. -/
theorem arrayRef_get (kind : mode = .queue ∨ mode = .stack) (large : 2 ≤ size)
    {moves : List (Move (State size Typeref) (Action Typeref))}
    (run : (machine mode size Typeref).Run moves state) (index : Nat) :
    getAt state index = elementAt state (elements mode moves) index ↔ ¬ Missed state index :=
  (rings_of_run kind large run).getAt_iff index

/-- A queue of three slots that has wrapped: its tail is at one and its head at two. -/
def wrappedCalls : List (Action (Fin 2)) :=
  let first : Fin 2 := ⟨0, Nat.zero_lt_two⟩
  [.create [], .hold first (some 0), .push first, .push first, .pop, .pop, .push first, .push first]

/-- The state of an array that has been created empty. -/
def created : State 3 (Fin 2) :=
  ⟨⟨⟨0, fun _ => 0, fun _ => 0, fun _ => []⟩, fun _ => true, fun _ => none⟩, 0, 0⟩

/-- Behind the end of the array the second element is found. -/
theorem arrayRef_get_second :
    ∃ moves, ∃ state : State 3 (Fin 2), (machine .queue 3 (Fin 2)).Run moves state ∧
      getAt state 1 = elementAt state (elements .queue moves) 1 ∧ getAt state 1 = some 0 := by
  let played := (machine .queue 3 (Fin 2)).play created wrappedCalls
  obtain ⟨moves, run⟩ : (machine .queue 3 (Fin 2)).Reachable (played.get (by decide)) :=
    Machine.reachable_get rfl _
  refine ⟨moves, _, run, (arrayRef_get (Or.inl rfl) (by decide) run 1).mpr ?_, by decide⟩
  exact fun missed => absurd missed.2.1 (by decide)

/-- The oldest of its two elements, which is in the last slot, is not. -/
theorem arrayRef_get_missed :
    ∃ moves, ∃ state : State 3 (Fin 2), (machine .queue 3 (Fin 2)).Run moves state ∧
      elements .queue moves = [some 0, some 0] ∧ count state = 2 ∧ getAt state 0 = none ∧
      ¬ getAt state 0 = elementAt state (elements .queue moves) 0 := by
  let played := (machine .queue 3 (Fin 2)).play created wrappedCalls
  obtain ⟨moves, run⟩ : (machine .queue 3 (Fin 2)).Reachable (played.get (by decide)) :=
    Machine.reachable_get rfl _
  have rings := rings_of_run (Or.inl rfl) (by decide) run
  have contents : elements .queue moves = [some 0, some 0] := by
    have counted := rings.count_eq
    have two : count (played.get (by decide)) = 2 := by decide
    have slots := rings.cells
    rw [← counted, two] at slots
    exact slots.symm.trans (by decide)
  refine ⟨moves, _, run, contents, by decide, by decide, ?_⟩
  rw [contents]
  decide

end ArrayRef

end CommonCpp
