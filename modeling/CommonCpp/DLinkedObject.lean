/-
This file models `DLinkedObject`, the objects that are linked both ways on the
list of an `OrderedIndex`, and finds when the lists stay whole.

An object knows its neighbours and the index it is on; the index knows its first
and its last object. Enlisting and delisting repair every link they touch.
`insertHead` and `insertTail` do not: they lead the receiver and the inserted
object to each other, but not the neighbour on the far side, which goes on leading
to the receiver. The lists stay whole exactly when such an insertion is made at the
end of a list, where there is no such neighbour.
-/

import CommonCpp.Links
import CommonCpp.Machine

namespace CommonCpp

open Concurrency Memory

namespace DLinkedObject

/-! ### The code -/

/-- The links of all objects, and the ends of all indexes. -/
structure State (Object Root : Type) where
  root : Object → Option Root
  next : Object → Option Object
  prev : Object → Option Object
  head : Root → Option Object
  tail : Root → Option Object

/-- No object is on a list. -/
def State.unlinked {Object Root : Type} : State Object Root :=
  ⟨fun _ => none, fun _ => none, fun _ => none, fun _ => none, fun _ => none⟩

inductive Action (Object Root : Type)
  | enlistHead (this : Object) (root : Root)
  | enlistTail (this : Object) (root : Root)
  | insertHead (this object : Object)
  | insertTail (this object : Object)
  | delist (this : Object)

section Code

variable {Object Root : Type} [DecidableEq Object] [DecidableEq Root]

def delist (state : State Object Root) (this : Object) : State Object Root :=
  match state.root this with
  | none => state
  | some root =>
    let state := match state.prev this with
      | some prior => { state with next := Function.update state.next prior (state.next this) }
      | none =>
        if state.head root = some this then
          { state with head := Function.update state.head root (state.next this) }
        else state
    let state := match state.next this with
      | some following =>
        { state with prev := Function.update state.prev following (state.prev this) }
      | none =>
        if state.tail root = some this then
          { state with tail := Function.update state.tail root (state.prev this) }
        else state
    { state with
      root := Function.update state.root this none
      next := Function.update state.next this none
      prev := Function.update state.prev this none }

/-- `if(Root) delist()`, with which an object comes off its list before it goes to another. -/
def comeOff (state : State Object Root) (this : Object) : State Object Root :=
  if state.root this ≠ none then delist state this else state

/-- `enlistHead` after the object has come off its list. -/
def attachHead (state : State Object Root) (this : Object) (root : Root) : State Object Root :=
  let state :=
    { state with
      root := Function.update state.root this (some root)
      prev := Function.update state.prev this none
      next := Function.update state.next this none }
  if state.tail root = none then
    { state with
      tail := Function.update state.tail root (some this)
      head := Function.update state.head root (some this) }
  else
    let state := { state with next := Function.update state.next this (state.head root) }
    let state := match state.next this with
      | some following => { state with prev := Function.update state.prev following (some this) }
      | none => state
    { state with head := Function.update state.head root (some this) }

def enlistHead (state : State Object Root) (this : Object) (root : Root) : State Object Root :=
  attachHead (comeOff state this) this root

/-- `enlistTail` after the object has come off its list. -/
def attachTail (state : State Object Root) (this : Object) (root : Root) : State Object Root :=
  let state :=
    { state with
      root := Function.update state.root this (some root)
      next := Function.update state.next this none
      prev := Function.update state.prev this none }
  if state.head root = none then
    { state with
      head := Function.update state.head root (some this)
      tail := Function.update state.tail root (some this) }
  else
    let state := { state with prev := Function.update state.prev this (state.tail root) }
    let state := match state.prev this with
      | some prior => { state with next := Function.update state.next prior (some this) }
      | none => state
    { state with tail := Function.update state.tail root (some this) }

def enlistTail (state : State Object Root) (this : Object) (root : Root) : State Object Root :=
  attachTail (comeOff state this) this root

/-- `insertHead` after the inserted object has come off its list. The receiver is on the list of
the given index. -/
def placeHead (state : State Object Root) (this object : Object) (root : Root) :
    State Object Root :=
  let state := match state.prev this with
    | some prior =>
      { state with
        next := Function.update state.next object (some this)
        prev := Function.update state.prev object (some prior) }
    | none =>
      { state with
        head := Function.update state.head root (some object)
        prev := Function.update state.prev object none }
  let state :=
    { state with
      root := Function.update state.root object (some root)
      next := Function.update state.next object (some this) }
  { state with prev := Function.update state.prev this (some object) }

/-- `insertHead`, for a receiver that is on a list. -/
def insertHead (state : State Object Root) (this object : Object) : Option (State Object Root) :=
  let state := comeOff state object
  (state.root this).map (placeHead state this object)

/-- `insertTail` after the inserted object has come off its list. -/
def placeTail (state : State Object Root) (this object : Object) (root : Root) :
    State Object Root :=
  let state := match state.next this with
    | some following =>
      { state with
        prev := Function.update state.prev object (some this)
        next := Function.update state.next object (some following) }
    | none =>
      { state with
        tail := Function.update state.tail root (some object)
        next := Function.update state.next object none }
  let state :=
    { state with
      root := Function.update state.root object (some root)
      prev := Function.update state.prev object (some this) }
  { state with next := Function.update state.next this (some object) }

/-- `insertTail`, for a receiver that is on a list. -/
def insertTail (state : State Object Root) (this object : Object) : Option (State Object Root) :=
  let state := comeOff state object
  (state.root this).map (placeTail state this object)

/-- The step of an operation. An insertion has a receiver that is on a list, and another object to
insert. -/
def step (state : State Object Root) : Action Object Root → Option (State Object Root)
  | .enlistHead this root => some (enlistHead state this root)
  | .enlistTail this root => some (enlistTail state this root)
  | .insertHead this object =>
    if object = this then none else insertHead state this object
  | .insertTail this object =>
    if object = this then none else insertTail state this object
  | .delist this => some (delist state this)

/-- The runs of any objects and any indexes, from their constructors on. -/
def machine (Object Root : Type) [DecidableEq Object] [DecidableEq Root] :
    Machine (State Object Root) (Action Object Root) where
  Init state := state = .unlinked
  step := step

end Code

/-! ### The lists -/

section Lists

variable {Object Root : Type}

/-- The state holds these lists: each is what its index leads through from `head` by `next`, and
backwards from `tail` by `prev`, and an object is on the list of its root, once, and on no other. -/
structure Lists (state : State Object Root) (lists : Root → List Object) : Prop where
  forwards : ∀ root, Path state.next (state.head root) (lists root) none
  backwards : ∀ root, Path state.prev (state.tail root) (lists root).reverse none
  rooted : ∀ root object, object ∈ lists root ↔ state.root object = some root
  once : ∀ root, (lists root).Nodup

theorem lists_unlinked : Lists (.unlinked : State Object Root) fun _ => [] :=
  ⟨fun _ => rfl, fun _ => rfl, fun _ _ => by simp [State.unlinked], fun _ => List.nodup_nil⟩

/-- A list with an object put directly before another. -/
def insertBefore [DecidableEq Object] (this object : Object) (list : List Object) : List Object :=
  list.flatMap fun other => if other = this then [object, other] else [other]

/-- A list with an object put directly after another. -/
def insertAfter [DecidableEq Object] (this object : Object) (list : List Object) : List Object :=
  list.flatMap fun other => if other = this then [other, object] else [other]

/-- The lists without an object. -/
def remove [DecidableEq Object] (object : Object) (lists : Root → List Object) :
    Root → List Object :=
  fun root => (lists root).erase object

/-- What an operation is for: the lists it should leave. -/
def intended [DecidableEq Object] [DecidableEq Root] :
    Action Object Root → (Root → List Object) → Root → List Object
  | .enlistHead this root, lists =>
    Function.update (remove this lists) root (this :: remove this lists root)
  | .enlistTail this root, lists =>
    Function.update (remove this lists) root (remove this lists root ++ [this])
  | .insertHead this object, lists => fun root =>
    insertBefore this object (remove object lists root)
  | .insertTail this object, lists => fun root =>
    insertAfter this object (remove object lists root)
  | .delist this, lists => remove this lists

/-- The step leaves the lists its operation is for. -/
def Intended [DecidableEq Object] [DecidableEq Root]
    (move : Move (State Object Root) (Action Object Root)) : Prop :=
  ∀ lists, Lists move.source lists → Lists move.target (intended move.action lists)

/-- An object is inserted with `insertHead` before the first object of a list, and with
`insertTail` after the last one, the inserted object itself left aside. -/
def AtEnd (state : State Object Root) : Action Object Root → Prop
  | .insertHead this object => state.prev this = none ∨
      state.prev this = some object ∧ state.prev object = none
  | .insertTail this object => state.next this = none ∨
      state.next this = some object ∧ state.next object = none
  | _ => True

instance [DecidableEq Object] (state : State Object Root) : (action : Action Object Root) →
    Decidable (AtEnd state action)
  | .insertHead this object => inferInstanceAs (Decidable (state.prev this = none ∨
      state.prev this = some object ∧ state.prev object = none))
  | .insertTail this object => inferInstanceAs (Decidable (state.next this = none ∨
      state.next this = some object ∧ state.next object = none))
  | .enlistHead _ _ => inferInstanceAs (Decidable True)
  | .enlistTail _ _ => inferInstanceAs (Decidable True)
  | .delist _ => inferInstanceAs (Decidable True)

variable {state target : State Object Root} {lists : Root → List Object}

/-! #### Both ways at once -/

namespace Lists

theorem head_eq (holds : Lists state lists) (root : Root) :
    state.head root = (lists root).head? := by
  rw [(holds.forwards root).head_eq, Option.or_none]

theorem tail_eq (holds : Lists state lists) (root : Root) :
    state.tail root = (lists root).getLast? := by
  rw [(holds.backwards root).head_eq, Option.or_none, List.head?_reverse]

theorem segment (holds : Lists state lists) (root : Root) :
    Segment state.next state.prev none (lists root) none := by
  rw [segment_iff, Option.or_none, Option.or_none, ← holds.head_eq, ← holds.tail_eq]
  exact ⟨holds.forwards root, holds.backwards root⟩

/-- Lists linked both ways between the ends of their indexes are held. -/
theorem of_segments
    (segments : ∀ root, Segment state.next state.prev none (lists root) none)
    (heads : ∀ root, state.head root = (lists root).head?)
    (tails : ∀ root, state.tail root = (lists root).getLast?)
    (rooted : ∀ root object, object ∈ lists root ↔ state.root object = some root)
    (once : ∀ root, (lists root).Nodup) : Lists state lists := by
  have both := fun root => segment_iff.mp (segments root)
  simp only [Option.or_none, ← heads, ← tails] at both
  exact ⟨fun root => (both root).1, fun root => (both root).2, rooted, once⟩

/-- An object on a list splits it, and its links are those of the split. -/
theorem split (holds : Lists state lists) {object : Object} {root : Root}
    (on : state.root object = some root) :
    ∃ first last, lists root = first ++ object :: last ∧ object ∉ first ∧ object ∉ last ∧
      first.Nodup ∧ last.Nodup ∧ (∀ other ∈ first, other ∉ last) ∧
      state.prev object = first.getLast? ∧ state.next object = last.head? ∧
      Segment state.next state.prev none first (some object) ∧
      Segment state.next state.prev (some object) last none := by
  obtain ⟨first, last, whole⟩ := List.append_of_mem ((holds.rooted root object).mpr on)
  have segment := holds.segment root
  have once := holds.once root
  rw [whole] at segment once
  obtain ⟨before, back, onward, after⟩ := Segment.append_iff.mp segment
  rw [List.nodup_append, List.nodup_cons] at once
  obtain ⟨onceFirst, ⟨notLast, onceLast⟩, apart⟩ := once
  refine ⟨first, last, whole, fun member => apart _ member _ List.mem_cons_self rfl, notLast,
    onceFirst, onceLast, fun other member behind => ?_, ?_, ?_, before, after⟩
  · exact apart _ member _ (List.mem_cons_of_mem _ behind) rfl
  · rw [back, Option.or_none]
  · rw [onward, Option.or_none]

/-- What is before an object on its list leads on to the object. -/
theorem next_of_prev (holds : Lists state lists) {object prior : Object} {root : Root}
    (on : state.root object = some root) (back : state.prev object = some prior) :
    state.root prior = some root ∧ state.next prior = some object := by
  obtain ⟨first, last, whole, _, _, _, _, _, prev, _, before, _⟩ := holds.split on
  rw [back] at prev
  obtain ⟨earlier, rfl⟩ := List.getLast?_eq_some_iff.mp prev.symm
  have member : prior ∈ lists root := by simp [whole]
  obtain ⟨_, _, onward, _⟩ := Segment.append_iff.mp before
  exact ⟨(holds.rooted root prior).mp member, onward⟩

end Lists

/-! #### The two directions -/

/-- The same objects seen from the other end. -/
def mirror (state : State Object Root) : State Object Root :=
  ⟨state.root, state.prev, state.next, state.tail, state.head⟩

theorem Lists.mirror (holds : Lists state lists) :
    Lists (mirror state) fun root => (lists root).reverse where
  forwards := holds.backwards
  backwards root := by
    rw [List.reverse_reverse]
    exact holds.forwards root
  rooted root object := by
    rw [List.mem_reverse]
    exact holds.rooted root object
  once root := List.nodup_reverse.mpr (holds.once root)

theorem lists_mirror_iff :
    Lists (mirror state) (fun root => (lists root).reverse) ↔ Lists state lists := by
  constructor
  · intro holds
    have back : Lists state fun root => (lists root).reverse.reverse := holds.mirror
    simpa only [List.reverse_reverse] using back
  · exact Lists.mirror

/-- What is after an object on its list leads back to the object. -/
theorem Lists.prev_of_next (holds : Lists state lists) {object following : Object} {root : Root}
    (on : state.root object = some root) (onward : state.next object = some following) :
    state.root following = some root ∧ state.prev following = some object :=
  holds.mirror.next_of_prev on onward

/-! #### Delisting -/

variable [DecidableEq Object] [DecidableEq Root]

/-- The links after an object has been taken off its list: its neighbours, or the ends of its
index, lead past it. -/
structure Delisted (source : State Object Root) (this : Object) (target : State Object Root) :
    Prop where
  root : target.root = Function.update source.root this none
  next : ∀ object, target.next object = if object = this then none
    else if some object = source.prev this then source.next this else source.next object
  prev : ∀ object, target.prev object = if object = this then none
    else if some object = source.next this then source.prev this else source.prev object
  head : ∀ root, target.head root =
    if source.head root = some this then source.next this else source.head root
  tail : ∀ root, target.tail root =
    if source.tail root = some this then source.prev this else source.tail root

omit [DecidableEq Object] [DecidableEq Root] in
theorem Lists.head_eq_this_iff (holds : Lists state lists) {this : Object} {root : Root}
    (on : state.root this = some root) (other : Root) :
    state.head other = some this ↔ other = root ∧ state.prev this = none := by
  obtain ⟨first, last, whole, notFirst, _, _, _, _, prev, _⟩ := holds.split on
  rw [holds.head_eq, prev, List.getLast?_eq_none_iff]
  constructor
  · intro leads
    have member : this ∈ lists other := List.mem_of_head? leads
    have same : other = root := by
      rw [holds.rooted, on] at member
      exact (Option.some_inj.mp member).symm
    subst same
    refine ⟨rfl, ?_⟩
    cases first with
    | nil => rfl
    | cons head rest =>
      rw [whole] at leads
      cases leads
      exact absurd List.mem_cons_self notFirst
  · rintro ⟨rfl, rfl⟩
    rw [whole]
    rfl

omit [DecidableEq Object] [DecidableEq Root] in
theorem Lists.tail_eq_this_iff (holds : Lists state lists) {this : Object} {root : Root}
    (on : state.root this = some root) (other : Root) :
    state.tail other = some this ↔ other = root ∧ state.next this = none := by
  obtain ⟨first, last, whole, _, notLast, _, _, _, _, next, _⟩ := holds.split on
  rw [holds.tail_eq, next, List.head?_eq_none_iff]
  constructor
  · intro leads
    have member : this ∈ lists other := List.mem_of_getLast? leads
    have same : other = root := by
      rw [holds.rooted, on] at member
      exact (Option.some_inj.mp member).symm
    subst same
    refine ⟨rfl, ?_⟩
    cases last with
    | nil => rfl
    | cons head rest =>
      rw [whole, List.getLast?_append_cons, List.getLast?_cons_cons] at leads
      exact absurd (List.mem_of_getLast? leads) notLast
  · rintro ⟨rfl, rfl⟩
    simp [whole]

theorem delisted (holds : Lists state lists) {this : Object} {root : Root}
    (on : state.root this = some root) : Delisted state this (delist state this) := by
  have atHead := holds.head_eq_this_iff on
  have atTail := holds.tail_eq_this_iff on
  obtain ⟨first, last, _, notFirst, notLast, _, _, _, prev, next, _⟩ := holds.split on
  have apartPrev : state.prev this ≠ some this := by
    rw [prev]
    exact fun same => notFirst (List.mem_of_getLast? same)
  have apartNext : state.next this ≠ some this := by
    rw [next]
    exact fun same => notLast (List.mem_of_head? same)
  clear prev next
  unfold delist
  rw [on]
  cases back : state.prev this with
  | none =>
    cases onward : state.next this with
    | none =>
      constructor <;> simp [back, onward, atHead, atTail, Function.update_apply]
    | some following =>
      constructor <;> simp [back, onward, atHead, atTail, Function.update_apply]
  | some prior =>
    cases onward : state.next this with
    | none =>
      constructor <;> simp [back, onward, atHead, atTail, Function.update_apply]
    | some following =>
      constructor <;> simp [back, onward, atHead, atTail, Function.update_apply]

omit [DecidableEq Object] [DecidableEq Root] in
/-- An object on another list is neither the one on this list nor a neighbour of it. -/
theorem Lists.elsewhere (holds : Lists state lists) {this object : Object} {root other : Root}
    (on : state.root this = some root) (different : other ≠ root) (member : object ∈ lists other) :
    object ≠ this ∧ ¬ some object = state.prev this ∧ ¬ some object = state.next this := by
  obtain ⟨first, last, whole, _, _, _, _, _, prev, next, _⟩ := holds.split on
  have outside : object ∉ lists root := by
    intro member'
    rw [holds.rooted] at member member'
    exact different (Option.some_inj.mp (member.symm.trans member'))
  rw [whole, List.mem_append, List.mem_cons] at outside
  push Not at outside
  obtain ⟨notFirst, apart, notLast⟩ := outside
  refine ⟨apart, fun leads => notFirst ?_, fun leads => notLast ?_⟩
  · exact List.mem_of_getLast? (prev.symm.trans leads.symm)
  · exact List.mem_of_head? (next.symm.trans leads.symm)

omit [DecidableEq Root] in
/-- The list an object has been taken off is linked past it. -/
theorem Lists.segment_delisted (holds : Lists state lists) {this : Object} {root : Root}
    (on : state.root this = some root) (taken : Delisted state this target) :
    Segment target.next target.prev none ((lists root).erase this) none := by
  obtain ⟨first, last, whole, notFirst, notLast, onceFirst, onceLast, apart, prev, next, before,
    after⟩ := holds.split on
  rw [whole, List.erase_append_right _ notFirst, List.erase_cons_head, Segment.append_iff,
    Option.or_none, Option.or_none]
  constructor
  · refine before.relinkAfter onceFirst (fun object member => ?_) (fun object member inner => ?_)
      fun object ends => ?_
    · have kept : ¬ some object = state.next this := fun leads =>
        apart _ member (List.mem_of_head? (next.symm.trans leads.symm))
      rw [taken.prev, if_neg (ne_of_mem_of_not_mem member notFirst), if_neg kept]
    · have kept : ¬ some object = state.prev this := fun leads =>
        inner (prev.symm.trans leads.symm)
      rw [taken.next, if_neg (ne_of_mem_of_not_mem member notFirst), if_neg kept]
    · have member := List.mem_of_getLast? ends
      rw [taken.next, if_neg (ne_of_mem_of_not_mem member notFirst),
        if_pos (prev.trans ends).symm, next]
  · refine after.relinkBefore onceLast (fun object member => ?_) (fun object member inner => ?_)
      fun object starts => ?_
    · have kept : ¬ some object = state.prev this := fun leads =>
        apart _ (List.mem_of_getLast? (prev.symm.trans leads.symm)) member
      rw [taken.next, if_neg (ne_of_mem_of_not_mem member notLast), if_neg kept]
    · have kept : ¬ some object = state.next this := fun leads =>
        inner (next.symm.trans leads.symm)
      rw [taken.prev, if_neg (ne_of_mem_of_not_mem member notLast), if_neg kept]
    · have member := List.mem_of_head? starts
      rw [taken.prev, if_neg (ne_of_mem_of_not_mem member notLast),
        if_pos (next.trans starts).symm, prev]

omit [DecidableEq Root] in
/-- The ends of the index lead past an object taken off its list. -/
theorem Lists.ends_delisted (holds : Lists state lists) {this : Object} {root : Root}
    (on : state.root this = some root) (taken : Delisted state this target) :
    target.head root = ((lists root).erase this).head? ∧
      target.tail root = ((lists root).erase this).getLast? := by
  have atHead := holds.head_eq_this_iff on root
  have atTail := holds.tail_eq_this_iff on root
  obtain ⟨first, last, whole, notFirst, _, _, _, _, prev, next, _⟩ := holds.split on
  rw [prev, List.getLast?_eq_none_iff] at atHead
  rw [next, List.head?_eq_none_iff] at atTail
  rw [taken.head, taken.tail, prev, next, holds.head_eq, holds.tail_eq, whole,
    List.erase_append_right _ notFirst, List.erase_cons_head]
  rw [holds.head_eq, whole] at atHead
  rw [holds.tail_eq, whole] at atTail
  constructor
  · by_cases empty : first = []
    · rw [if_pos (atHead.mpr ⟨rfl, empty⟩), empty, List.nil_append]
    · rw [if_neg fun leads => empty (atHead.mp leads).2, List.head?_append_of_ne_nil _ empty,
        List.head?_append_of_ne_nil _ empty]
  · by_cases empty : last = []
    · rw [if_pos (atTail.mpr ⟨rfl, empty⟩), empty, List.append_nil]
    · rw [if_neg fun leads => empty (atTail.mp leads).2, List.getLast?_append_of_ne_nil _ empty,
        List.getLast?_append_of_ne_nil _ (List.cons_ne_nil _ _), List.getLast?_cons_of_ne_nil empty]

theorem Lists.delisted (holds : Lists state lists) {this : Object} {root : Root}
    (on : state.root this = some root) (taken : Delisted state this target) :
    Lists target (remove this lists) := by
  have others : ∀ other, other ≠ root → remove this lists other = lists other := by
    intro other different
    exact List.erase_of_not_mem fun member => (holds.elsewhere on different member).1 rfl
  refine .of_segments (fun other => ?_) (fun other => ?_) (fun other => ?_) (fun other object => ?_)
    fun other => (holds.once other).erase this
  · by_cases same : other = root
    · rw [same]
      exact holds.segment_delisted on taken
    · rw [others other same]
      refine (holds.segment other).congr (fun object member => ?_) fun object member => ?_
      · obtain ⟨apart, notPrev, _⟩ := holds.elsewhere on same member
        rw [taken.next, if_neg apart, if_neg notPrev]
      · obtain ⟨apart, _, notNext⟩ := holds.elsewhere on same member
        rw [taken.prev, if_neg apart, if_neg notNext]
  · by_cases same : other = root
    · rw [same]
      exact (holds.ends_delisted on taken).1
    · rw [others other same, taken.head, ← holds.head_eq,
        if_neg fun leads => same ((holds.head_eq_this_iff on other).mp leads).1]
  · by_cases same : other = root
    · rw [same]
      exact (holds.ends_delisted on taken).2
    · rw [others other same, taken.tail, ← holds.tail_eq,
        if_neg fun leads => same ((holds.tail_eq_this_iff on other).mp leads).1]
  · unfold remove
    rw [(holds.once other).mem_erase_iff, holds.rooted, taken.root]
    by_cases same : object = this
    · simp [same]
    · simp [same]

/-- The object was on no list, or has been taken off the one it was on. -/
def CameOff (source : State Object Root) (this : Object) (target : State Object Root) : Prop :=
  source.root this = none ∧ target = source ∨
    (∃ root, source.root this = some root) ∧ Delisted source this target

theorem cameOff (holds : Lists state lists) (this : Object) :
    CameOff state this (comeOff state this) := by
  unfold comeOff
  cases on : state.root this with
  | none =>
    rw [if_neg (not_not_intro rfl)]
    exact Or.inl ⟨on, rfl⟩
  | some root =>
    rw [if_pos (Option.some_ne_none root)]
    exact Or.inr ⟨⟨root, on⟩, delisted holds on⟩

theorem delist_eq_comeOff (state : State Object Root) (this : Object) :
    delist state this = comeOff state this := by
  unfold comeOff
  split
  next => rfl
  next free =>
    unfold delist
    rw [not_not.mp free]

theorem Lists.cameOff (holds : Lists state lists) {this : Object}
    (off : CameOff state this target) : Lists target (remove this lists) := by
  rcases off with ⟨free, rfl⟩ | ⟨⟨root, on⟩, taken⟩
  · have absent : remove this lists = lists := by
      funext root
      refine List.erase_of_not_mem fun member => ?_
      rw [holds.rooted, free] at member
      cases member
    rw [absent]
    exact holds
  · exact holds.delisted on taken

omit [DecidableEq Root] in
theorem CameOff.root_eq {this : Object} (off : CameOff state this target) :
    target.root = Function.update state.root this none := by
  rcases off with ⟨free, rfl⟩ | ⟨_, taken⟩
  · rw [← free, Function.update_eq_self]
  · exact taken.root

omit [DecidableEq Root] in
/-- An object is first on its list, another one having come off, when it was first before or had
only the other one in front. -/
theorem Lists.prev_eq_none_iff (holds : Lists state lists) {this object : Object}
    {root : Root} (on : state.root this = some root) (apart : this ≠ object)
    (off : CameOff state object target) :
    target.prev this = none ↔ state.prev this = none ∨
      state.prev this = some object ∧ state.prev object = none := by
  rcases off with ⟨free, rfl⟩ | ⟨⟨root', on'⟩, taken⟩
  · refine ⟨Or.inl, ?_⟩
    rintro (first | ⟨behind, _⟩)
    · exact first
    · have onList := (holds.next_of_prev on behind).1
      rw [free] at onList
      cases onList
  · rw [taken.prev, if_neg apart]
    by_cases behind : state.prev this = some object
    · have leads := (holds.next_of_prev on behind).2
      rw [if_pos leads.symm, behind]
      simp
    · have elsewhere : ¬ some this = state.next object := fun leads =>
        behind (holds.prev_of_next on' leads.symm).2
      rw [if_neg elsewhere]
      simp [behind]

/-! #### A new first object -/

/-- The links after an object that was on no list has been put in front of a list. -/
structure Fronted (source : State Object Root) (this : Object) (index : Root)
    (target : State Object Root) : Prop where
  root : target.root = Function.update source.root this (some index)
  next : target.next = Function.update source.next this (source.head index)
  own : target.prev this = none
  prev : ∀ object, object ≠ this → target.prev object =
    if source.head index = some object then some this else source.prev object
  head : target.head = Function.update source.head index (some this)
  tail : target.tail = if source.tail index = none then
    Function.update source.tail index (some this) else source.tail

theorem Lists.fronted (holds : Lists state lists) {this : Object} {root : Root}
    (off : state.root this = none) (fronted : Fronted state this root target) :
    Lists target (Function.update lists root (this :: lists root)) := by
  have outside : ∀ other, this ∉ lists other := by
    intro other member
    rw [holds.rooted, off] at member
    cases member
  have nexts : ∀ other, ∀ object ∈ lists other, target.next object = state.next object := by
    intro other object member
    rw [fronted.next, Function.update_of_ne (ne_of_mem_of_not_mem member (outside other))]
  refine .of_segments (fun other => ?_) (fun other => ?_) (fun other => ?_) (fun other object => ?_)
    fun other => ?_
  · by_cases same : other = root
    · rw [same, Function.update_self]
      refine ⟨fronted.own, ?_, ?_⟩
      · rw [fronted.next, Function.update_self, holds.head_eq, Option.or_none]
      · refine (holds.segment root).relinkBefore (holds.once root) (nexts root)
          (fun object member inner => ?_) fun object starts => ?_
        · rw [fronted.prev object (ne_of_mem_of_not_mem member (outside root)), holds.head_eq,
            if_neg inner]
        · have member := List.mem_of_head? starts
          rw [fronted.prev object (ne_of_mem_of_not_mem member (outside root)), holds.head_eq,
            if_pos starts]
    · rw [Function.update_of_ne same]
      refine (holds.segment other).congr (nexts other) fun object member => ?_
      have inner : ¬ state.head root = some object := by
        intro leads
        rw [holds.head_eq] at leads
        have on := (holds.rooted root object).mp (List.mem_of_head? leads)
        rw [holds.rooted, on] at member
        exact same (Option.some_inj.mp member).symm
      rw [fronted.prev object (ne_of_mem_of_not_mem member (outside other)), if_neg inner]
  · rw [fronted.head]
    by_cases same : other = root
    · rw [same, Function.update_self, Function.update_self, List.head?_cons]
    · rw [Function.update_of_ne same, Function.update_of_ne same, holds.head_eq]
  · rw [fronted.tail]
    by_cases same : other = root
    · rw [same, Function.update_self]
      by_cases empty : lists root = []
      · rw [holds.tail_eq, empty, if_pos List.getLast?_nil, Function.update_self]
        rfl
      · rw [holds.tail_eq, if_neg (mt List.getLast?_eq_none_iff.mp empty), holds.tail_eq,
          List.getLast?_cons_of_ne_nil empty]
    · rw [Function.update_of_ne same]
      split
      · rw [Function.update_of_ne same, holds.tail_eq]
      · rw [holds.tail_eq]
  · rw [fronted.root]
    by_cases equal : object = this
    · rw [equal, Function.update_self]
      by_cases same : other = root
      · simp [same]
      · rw [Function.update_of_ne same]
        simp [outside other, Ne.symm same]
    · rw [Function.update_of_ne equal, ← holds.rooted]
      by_cases same : other = root
      · simp [same, equal]
      · rw [Function.update_of_ne same]
  · by_cases same : other = root
    · rw [same, Function.update_self]
      exact List.nodup_cons.mpr ⟨outside root, holds.once root⟩
    · rw [Function.update_of_ne same]
      exact holds.once other

theorem fronted_attachHead (holds : Lists state lists) {this : Object}
    (off : state.root this = none) (root : Root) :
    Fronted state this root (attachHead state this root) := by
  have atTail := holds.tail_eq root
  have atHead := holds.head_eq root
  cases list : lists root with
  | nil =>
    rw [list] at atTail atHead
    have head : state.head root = none := atHead
    have tail : state.tail root = none := atTail
    constructor <;> simp [attachHead, head, tail]
    intro object different
    rw [Function.update_of_ne different]
  | cons first rest =>
    rw [list] at atTail atHead
    have head : state.head root = some first := atHead
    have tail : state.tail root ≠ none := by
      rw [atTail]
      simp
    have apart : this ≠ first := by
      intro same
      have on := (holds.rooted root first).mp (by simp [list])
      rw [← same, off] at on
      cases on
    constructor <;> simp [attachHead, head, tail, Function.update_of_ne apart]
    intro object different
    by_cases same : object = first
    · simp [same]
    · simp [Function.update_of_ne same, Function.update_of_ne different, Ne.symm same]

theorem fronted_placeHead (holds : Lists state lists) {this object : Object} {root : Root}
    (on : state.root this = some root) (off : state.root object = none)
    (first : state.prev this = none) :
    Fronted state object root (placeHead state this object root) := by
  have head : state.head root = some this := (holds.head_eq_this_iff on root).mpr ⟨rfl, first⟩
  have tail : state.tail root ≠ none := by
    rw [holds.tail_eq, Ne, List.getLast?_eq_none_iff]
    exact List.ne_nil_of_mem ((holds.rooted root this).mpr on)
  have apart : object ≠ this := by
    intro same
    rw [same, on] at off
    cases off
  constructor <;> simp [placeHead, first, head, tail, Function.update_of_ne apart]
  intro other different
  by_cases same : other = this
  · simp [same]
  · simp [Function.update_of_ne same, Function.update_of_ne different, Ne.symm same]

theorem attachTail_eq_mirror (state : State Object Root) (this : Object) (root : Root) :
    attachTail state this root = mirror (attachHead (mirror state) this root) := by
  unfold attachTail attachHead mirror
  dsimp only
  split
  · rfl
  · split <;> rfl

theorem placeTail_eq_mirror (state : State Object Root) (this object : Object) (root : Root) :
    placeTail state this object root = mirror (placeHead (mirror state) this object root) := by
  unfold placeTail placeHead mirror
  dsimp only
  split <;> rfl

/-! #### Insertion -/

omit [DecidableEq Root] in
theorem insertBefore_of_not_mem {this object : Object} {list : List Object}
    (absent : this ∉ list) : insertBefore this object list = list := by
  induction list with
  | nil => rfl
  | cons first rest inductionHypothesis =>
    obtain ⟨apart, absent⟩ := not_or.mp (mt List.mem_cons.mpr absent)
    rw [insertBefore, List.flatMap_cons, if_neg (Ne.symm apart)]
    exact congrArg (first :: ·) (inductionHypothesis absent)

omit [DecidableEq Root] in
theorem insertBefore_cons_self {this object : Object} {list : List Object}
    (absent : this ∉ list) :
    insertBefore this object (this :: list) = object :: this :: list := by
  rw [insertBefore, List.flatMap_cons, if_pos rfl]
  exact congrArg (object :: this :: ·) (insertBefore_of_not_mem absent)

omit [DecidableEq Root] in
theorem reverse_insertAfter (this object : Object) (list : List Object) :
    (insertAfter this object list).reverse = insertBefore this object list.reverse := by
  unfold insertAfter insertBefore
  rw [List.reverse_flatMap]
  refine congrArg (list.reverse.flatMap ·) (funext fun other => ?_)
  rw [Function.comp_apply]
  split <;> rfl

/-- An object placed in front of the first one of a list is placed directly before it. -/
theorem Lists.placeHead (holds : Lists state lists) {this object : Object} {root : Root}
    (on : state.root this = some root) (off : state.root object = none)
    (first : state.prev this = none) :
    Lists (placeHead state this object root) fun root => insertBefore this object (lists root) := by
  have front := holds.fronted off (fronted_placeHead holds on off first)
  suffices same : (fun root => insertBefore this object (lists root)) =
      Function.update lists root (object :: lists root) by
    rw [same]
    exact front
  funext other
  by_cases equal : other = root
  · obtain ⟨earlier, last, whole, _, notLast, _, _, _, prev, _⟩ := holds.split on
    rw [first] at prev
    rw [equal, Function.update_self, whole, List.getLast?_eq_none_iff.mp prev.symm,
      List.nil_append, insertBefore_cons_self notLast]
  · rw [Function.update_of_ne equal]
    exact insertBefore_of_not_mem fun member => (holds.elsewhere on equal member).1 rfl

/-- An object placed in front of one that is not first leaves no lists: the object before both
still leads to the receiver. -/
theorem not_lists_placeHead (holds : Lists state lists) {this object prior : Object} {root : Root}
    (on : state.root this = some root) (off : state.root object = none)
    (inner : state.prev this = some prior) (lists' : Root → List Object) :
    ¬ Lists (DLinkedObject.placeHead state this object root) lists' := by
  intro holds'
  obtain ⟨onPrior, leads⟩ := holds.next_of_prev on inner
  have apart : prior ≠ object := by
    intro same
    rw [same, off] at onPrior
    cases onPrior
  have stillOn : (DLinkedObject.placeHead state this object root).root prior = some root := by
    simp [DLinkedObject.placeHead, inner, Function.update_of_ne apart, onPrior]
  have stillLeads : (DLinkedObject.placeHead state this object root).next prior = some this := by
    simp [DLinkedObject.placeHead, inner, Function.update_of_ne apart, leads]
  have back := (holds'.prev_of_next stillOn stillLeads).2
  have toObject : (DLinkedObject.placeHead state this object root).prev this = some object := by
    simp [DLinkedObject.placeHead]
  rw [toObject] at back
  exact apart (Option.some_inj.mp back).symm

/-- An insertion is the placing of an object that has come off its list. -/
theorem step_insertHead {this object : Object}
    (stepped : step state (.insertHead this object) = some target) :
    this ≠ object ∧ ∃ root, (comeOff state object).root this = some root ∧
      target = placeHead (comeOff state object) this object root := by
  simp only [step] at stepped
  split at stepped
  next => cases stepped
  next apart =>
    obtain ⟨root, on, rfl⟩ := Option.map_eq_some_iff.mp stepped
    exact ⟨Ne.symm apart, root, on, rfl⟩

theorem step_insertTail {this object : Object}
    (stepped : step state (.insertTail this object) = some target) :
    this ≠ object ∧ ∃ root, (comeOff state object).root this = some root ∧
      target = placeTail (comeOff state object) this object root := by
  simp only [step] at stepped
  split at stepped
  next => cases stepped
  next apart =>
    obtain ⟨root, on, rfl⟩ := Option.map_eq_some_iff.mp stepped
    exact ⟨Ne.symm apart, root, on, rfl⟩

omit [DecidableEq Root] in
theorem CameOff.mirror {this : Object} (off : CameOff state this target) :
    CameOff (mirror state) this (mirror target) := by
  rcases off with ⟨free, rfl⟩ | ⟨on, taken⟩
  · exact Or.inl ⟨free, rfl⟩
  · exact Or.inr ⟨on, taken.root, taken.prev, taken.next, taken.tail, taken.head⟩

/-- What the two insertions have in common: the object that came off its list is on none, and the
receiver is still on its own. -/
theorem inserted (holds : Lists state lists) {this object : Object} {root : Root}
    (apart : this ≠ object) (on : (comeOff state object).root this = some root) :
    CameOff state object (comeOff state object) ∧ state.root this = some root ∧
      (comeOff state object).root object = none ∧
      Lists (comeOff state object) (remove object lists) := by
  have off := cameOff holds object
  rw [off.root_eq, Function.update_of_ne apart] at on
  refine ⟨off, on, ?_, holds.cameOff off⟩
  rw [off.root_eq, Function.update_self]

theorem intended_step (holds : Lists state lists) (action : Action Object Root)
    (atEnd : AtEnd state action) (stepped : step state action = some target) :
    Lists target (intended action lists) := by
  cases action with
  | enlistHead this root =>
    cases stepped
    have off := cameOff holds this
    have free : (comeOff state this).root this = none := by rw [off.root_eq, Function.update_self]
    exact (holds.cameOff off).fronted free (fronted_attachHead (holds.cameOff off) free root)
  | enlistTail this root =>
    cases stepped
    have off := cameOff holds this
    have free : (comeOff state this).root this = none := by rw [off.root_eq, Function.update_self]
    have behind := (holds.cameOff off).mirror
    have front := behind.fronted free (fronted_attachHead behind free root)
    have reversed : (fun other => (intended (.enlistTail this root) lists other).reverse) =
        Function.update (fun other => (remove this lists other).reverse) root
          (this :: (remove this lists root).reverse) := by
      funext other
      by_cases same : other = root
      · simp [intended, same]
      · simp [intended, same]
    rw [← lists_mirror_iff, enlistTail, attachTail_eq_mirror, reversed]
    exact front
  | insertHead this object =>
    obtain ⟨apart, root, on, rfl⟩ := step_insertHead stepped
    obtain ⟨off, onBefore, free, after⟩ := inserted holds apart on
    exact after.placeHead on free ((holds.prev_eq_none_iff onBefore apart off).mpr atEnd)
  | insertTail this object =>
    obtain ⟨apart, root, on, rfl⟩ := step_insertTail stepped
    obtain ⟨off, onBefore, free, after⟩ := inserted holds apart on
    have first := (holds.mirror.prev_eq_none_iff onBefore apart off.mirror).mpr atEnd
    rw [← lists_mirror_iff, placeTail_eq_mirror]
    simp only [intended, reverse_insertAfter]
    exact after.mirror.placeHead on free first
  | delist this =>
    cases stepped
    rw [delist_eq_comeOff]
    exact holds.cameOff (cameOff holds this)

/-- An insertion inside a list leaves no lists. -/
theorem not_lists_of_not_atEnd (holds : Lists state lists) (action : Action Object Root)
    (inner : ¬ AtEnd state action) (stepped : step state action = some target)
    (lists' : Root → List Object) : ¬ Lists target lists' := by
  cases action with
  | insertHead this object =>
    obtain ⟨apart, root, on, rfl⟩ := step_insertHead stepped
    obtain ⟨off, onBefore, free, after⟩ := inserted holds apart on
    have notFirst := mt (holds.prev_eq_none_iff onBefore apart off).mp inner
    obtain ⟨prior, back⟩ := Option.ne_none_iff_exists'.mp notFirst
    exact not_lists_placeHead after on free back lists'
  | insertTail this object =>
    obtain ⟨apart, root, on, rfl⟩ := step_insertTail stepped
    obtain ⟨off, onBefore, free, after⟩ := inserted holds apart on
    have notLast := mt (holds.mirror.prev_eq_none_iff onBefore apart off.mirror).mp inner
    obtain ⟨following, onward⟩ := Option.ne_none_iff_exists'.mp notLast
    rw [← lists_mirror_iff, placeTail_eq_mirror]
    exact not_lists_placeHead after.mirror on free onward _
  | _ => exact absurd trivial inner

/-- In a run of doubly linked objects every index always holds a list, whole both ways, and every
operation leaves the lists it is for, exactly when every insertion is made at the end of a list. -/
theorem dLinkedObject_lists_iff
    {moves : List (Move (State Object Root) (Action Object Root))} {state : State Object Root}
    (run : (machine Object Root).Run moves state) :
    (Machine.Throughout (fun state => ∃ lists, Lists state lists) moves state ∧
        ∀ move ∈ moves, Intended move) ↔
      Machine.Meets AtEnd moves := by
  refine run.sound_throughout_iff_meets (fun state => ∃ lists, Lists state lists) ?_ ?_
    (fun _ held => held) ?_
  · rintro state rfl
    exact ⟨_, lists_unlinked⟩
  · rintro source action target ⟨lists, holds⟩ atEnd stepped
    exact ⟨⟨_, intended_step holds action atEnd stepped⟩,
      fun lists' holds' => intended_step holds' action atEnd stepped⟩
  · rintro source action target ⟨lists, holds⟩ inner stepped ⟨lists', holds'⟩
    exact absurd holds' (not_lists_of_not_atEnd holds action inner stepped lists')

end Lists

/-- Two objects are enlisted and two more inserted at the ends; then the second of the four moves
to another index. -/
theorem dLinkedObject_lists_iff_moved :
    ∃ moves, ∃ state : State (Fin 4) Bool, (machine (Fin 4) Bool).Run moves state ∧
      state.head true = some 2 ∧ state.next 2 = some 0 ∧ state.prev 0 = some 2 ∧
      state.head false = some 1 ∧
      Machine.Throughout (fun state => ∃ lists, Lists state lists) moves state ∧
      ∀ move ∈ moves, Intended move := by
  let played := ((machine (Fin 4) Bool).restrict AtEnd).play .unlinked
    [.enlistTail 0 true, .enlistHead 1 true, .insertHead 1 2, .insertTail 0 3, .enlistTail 1 false]
  obtain ⟨moves, restricted⟩ : ((machine (Fin 4) Bool).restrict AtEnd).Reachable
      (played.get (by decide)) := Machine.reachable_get rfl _
  obtain ⟨run, meets⟩ := restricted.of_restrict
  obtain ⟨whole, intended⟩ := (dLinkedObject_lists_iff run).mpr meets
  exact ⟨moves, _, run, by decide, by decide, by decide, by decide, whole, intended⟩

/-- Object 2 is inserted between objects 0 and 1: 1 leads back to it, but 0 still leads to 1. -/
theorem dLinkedObject_loses_object :
    ∃ moves, ∃ state : State (Fin 3) Unit, (machine (Fin 3) Unit).Run moves state ∧
      state.next 0 = some 1 ∧ state.prev 1 = some 2 ∧
      ¬ Machine.Throughout (fun state => ∃ lists, Lists state lists) moves state := by
  let played := (machine (Fin 3) Unit).play .unlinked
    [.enlistTail 0 (), .enlistTail 1 (), .insertHead 1 2]
  obtain ⟨moves, run⟩ : (machine (Fin 3) Unit).Reachable (played.get (by decide)) :=
    Machine.reachable_get rfl _
  have on : (played.get (by decide)).root 0 = some () := by decide
  have onward : (played.get (by decide)).next 0 = some 1 := by decide
  have back : (played.get (by decide)).prev 1 = some 2 := by decide
  refine ⟨moves, _, run, onward, back, fun throughout => ?_⟩
  obtain ⟨lists, holds⟩ := throughout.1
  have whole := (holds.prev_of_next on onward).2
  rw [back] at whole
  cases whole

end DLinkedObject

end CommonCpp
