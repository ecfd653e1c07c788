/-
This file models `LinkedDouble`, objects that are linked to each other both ways
without an index that holds them, and shows that they always form chains.

An object is inserted from any member of a chain: before it, after it, or at an end
that the code finds by following the links. What is inserted comes off its own chain
first, which may be the same one, so that the end that is looked for may change under
it. Every object is always on one chain, alone at first. The search for an end comes
to an end because a chain meets each of finitely many objects once.
-/

import Mathlib.Data.Fintype.Card
import CommonCpp.DLinkedObject

namespace CommonCpp

open Concurrency Memory

namespace LinkedDouble

/-! ### The code -/

/-- The links of all objects. -/
structure State (Object : Type) where
  next : Object → Option Object
  prev : Object → Option Object

inductive InsertMode
  | modeAtFirst
  | modeAtLast
  | modeBefore
  | modeAfter

inductive Action (Object : Type)
  | insert (this object : Object) (position : InsertMode)
  | detach (this : Object)

variable {Object : Type}

section Code

variable [Fintype Object]

/-- The loop stops at the object that leads nowhere. -/
def firstObject (state : State Object) (this : Object) : Option Object :=
  follow state.prev (Fintype.card Object) this

def lastObject (state : State Object) (this : Object) : Option Object :=
  follow state.next (Fintype.card Object) this

variable [DecidableEq Object]

omit [Fintype Object] in
def detach (state : State Object) (this : Object) : State Object :=
  let state := match state.prev this with
    | some prior => { state with next := Function.update state.next prior (state.next this) }
    | none => state
  let state := match state.next this with
    | some following =>
      { state with prev := Function.update state.prev following (state.prev this) }
    | none => state
  { next := Function.update state.next this none
    prev := Function.update state.prev this none }

/-- `insert` after the inserted object has been detached. -/
def place (state : State Object) (this object : Object) : InsertMode → Option (State Object)
  | .modeAtFirst => (firstObject state this).map fun node =>
    let state := { state with next := Function.update state.next object (some node) }
    { state with prev := Function.update state.prev node (some object) }
  | .modeBefore =>
    let state := { state with next := Function.update state.next object (some this) }
    let state := { state with prev := Function.update state.prev object (state.prev this) }
    let state := { state with prev := Function.update state.prev this (some object) }
    match state.prev object with
    | some prior => some { state with next := Function.update state.next prior (some object) }
    | none => some state
  | .modeAfter =>
    let state := { state with next := Function.update state.next object (state.next this) }
    let state := { state with prev := Function.update state.prev object (some this) }
    let state := { state with next := Function.update state.next this (some object) }
    match state.next object with
    | some following =>
      some { state with prev := Function.update state.prev following (some object) }
    | none => some state
  | .modeAtLast => (lastObject state this).map fun node =>
    let state := { state with next := Function.update state.next object (state.next node) }
    let state := { state with prev := Function.update state.prev object (some node) }
    let state := { state with next := Function.update state.next node (some object) }
    match state.next object with
    | some following => { state with prev := Function.update state.prev following (some object) }
    | none => state

def insert (state : State Object) (this object : Object) (position : InsertMode) :
    Option (State Object) :=
  place (detach state object) this object position

/-- The step of an operation. An object is inserted from another one. -/
def step (state : State Object) : Action Object → Option (State Object)
  | .insert this object position =>
    if object = this then none else insert state this object position
  | .detach this => some (detach state this)

/-- The runs of any objects from their constructors on. -/
def machine (Object : Type) [Fintype Object] [DecidableEq Object] :
    Machine (State Object) (Action Object) where
  Init state := state = ⟨fun _ => none, fun _ => none⟩
  step := step

end Code

/-! ### The chains -/

/-- The objects are on these chains: an object is on its chain once, so is every other object of
it, and its links are to its neighbours on it. -/
structure Chains (state : State Object) (chain : Object → List Object) : Prop where
  own : ∀ object, object ∈ chain object
  shared : ∀ object, ∀ other ∈ chain object, chain other = chain object
  once : ∀ object, (chain object).Nodup
  linked : ∀ object, Segment state.next state.prev none (chain object) none

section Intent

variable [DecidableEq Object]

/-- The chains after an object has been taken off its own. -/
def detached (object : Object) (chain : Object → List Object) : Object → List Object :=
  fun other => if other = object then [object] else (chain other).erase object

/-- A list with an object put at a position. -/
def placed (position : InsertMode) (this object : Object) (list : List Object) : List Object :=
  match position with
  | .modeAtFirst => object :: list
  | .modeBefore => DLinkedObject.insertBefore this object list
  | .modeAfter => DLinkedObject.insertAfter this object list
  | .modeAtLast => list ++ [object]

/-- The chains after a chain has grown to the given list. -/
def regrown (grown : List Object) (chain : Object → List Object) : Object → List Object :=
  fun other => if other ∈ grown then grown else chain other

/-- What an operation is for: the chains it should leave. -/
def intended (chain : Object → List Object) : Action Object → Object → List Object
  | .insert this object position =>
    let chain := detached object chain
    regrown (placed position this object (chain this)) chain
  | .detach this => detached this chain

/-- The step leaves the chains its operation is for. -/
def Intended (move : Move (State Object) (Action Object)) : Prop :=
  ∀ chain, Chains move.source chain → Chains move.target (intended chain move.action)

end Intent

/-- The objects are on chains, which only the links decide; the links are each other's inverse;
and an object can be inserted from any other. -/
structure Sound [Fintype Object] [DecidableEq Object] (state : State Object) : Prop where
  chains : ∃! chain, Chains state chain
  inverse : ∀ object other, state.next object = some other ↔ state.prev other = some object
  ends : ∀ this object position, object ≠ this → (insert state this object position).isSome

variable {state target : State Object} {chain : Object → List Object}

/-! #### Both ways at once -/

/-- The same objects seen from the other end. -/
def mirror (state : State Object) : State Object :=
  ⟨state.prev, state.next⟩

namespace Chains

/-- An object splits its chain, and its links are those of the split. -/
theorem split (holds : Chains state chain) (object : Object) :
    ∃ first last, chain object = first ++ object :: last ∧ object ∉ first ∧ object ∉ last ∧
      state.prev object = first.getLast? ∧ state.next object = last.head? ∧
      Segment state.next state.prev none first (some object) ∧
      Segment state.next state.prev (some object) last none := by
  obtain ⟨first, last, whole⟩ := List.append_of_mem (holds.own object)
  have segment := holds.linked object
  have once := holds.once object
  rw [whole] at segment once
  obtain ⟨before, back, onward, after⟩ := Segment.append_iff.mp segment
  rw [List.nodup_middle, List.nodup_cons, List.mem_append, not_or] at once
  refine ⟨first, last, whole, once.1.1, once.1.2, ?_, ?_, before, after⟩
  · rw [back, Option.or_none]
  · rw [onward, Option.or_none]

theorem mirror (holds : Chains state chain) :
    Chains (LinkedDouble.mirror state) fun object => (chain object).reverse where
  own object := List.mem_reverse.mpr (holds.own object)
  shared object other member :=
    congrArg List.reverse (holds.shared object other (List.mem_reverse.mp member))
  once object := List.nodup_reverse.mpr (holds.once object)
  linked object := by
    obtain ⟨forwards, backwards⟩ := segment_iff.mp (holds.linked object)
    rw [segment_iff, List.head?_reverse, List.getLast?_reverse, List.reverse_reverse]
    exact ⟨backwards, forwards⟩

theorem prev_of_next (holds : Chains state chain) {object other : Object}
    (onward : state.next object = some other) :
    other ∈ chain object ∧ state.prev other = some object := by
  obtain ⟨first, last, whole, _, _, _, next, _, after⟩ := holds.split object
  rw [onward] at next
  obtain ⟨rest, rfl⟩ := List.head?_eq_some_iff.mp next.symm
  exact ⟨by simp [whole], after.1⟩

theorem next_of_prev (holds : Chains state chain) {object other : Object}
    (back : state.prev object = some other) :
    other ∈ chain object ∧ state.next other = some object := by
  obtain ⟨member, leads⟩ := holds.mirror.prev_of_next back
  exact ⟨List.mem_reverse.mp member, leads⟩

theorem mem_symm (holds : Chains state chain) {object other : Object}
    (member : other ∈ chain object) : object ∈ chain other := by
  rw [holds.shared object other member]
  exact holds.own object

theorem not_mem_of_alone (holds : Chains state chain) {this object : Object}
    (alone : chain object = [object]) (apart : object ≠ this) : object ∉ chain this := by
  intro member
  have back := holds.mem_symm member
  rw [alone, List.mem_singleton] at back
  exact apart back.symm

/-- The links decide the chains. -/
theorem unique (holds : Chains state chain) {chain' : Object → List Object}
    (holds' : Chains state chain') : chain' = chain := by
  funext object
  obtain ⟨first, last, whole, _, _, prev, next, before, after⟩ := holds.split object
  obtain ⟨first', last', whole', _, _, prev', next', before', after'⟩ := holds'.split object
  have sameLast : last = last' := by
    have path := (segment_iff.mp after).1
    have path' := (segment_iff.mp after').1
    rw [Option.or_none, ← next] at path
    rw [Option.or_none, ← next'] at path'
    exact path.unique path'
  have sameFirst : first.reverse = first'.reverse := by
    have path := (segment_iff.mp before).2
    have path' := (segment_iff.mp before').2
    rw [Option.or_none, ← prev] at path
    rw [Option.or_none, ← prev'] at path'
    exact path.unique path'
  rw [whole, whole', sameLast, List.reverse_injective sameFirst]

end Chains

/-! #### Detaching -/

section Detach

variable [DecidableEq Object]

theorem detach_next (state : State Object) (this other : Object) :
    (detach state this).next other =
      if other = this then none
      else if state.prev this = some other then state.next this else state.next other := by
  by_cases same : other = this
  · simp [detach, same]
  · rw [if_neg same]
    cases back : state.prev this with
    | none =>
      simp only [detach, back]
      split <;> simp [same]
    | some prior =>
      by_cases here : prior = other
      · simp only [detach, back, here]
        split <;> simp [same]
      · simp only [detach, back]
        split <;> simp [same, here, Ne.symm here]

theorem detach_prev {state : State Object} {this : Object} (apart : state.prev this ≠ some this)
    (other : Object) :
    (detach state this).prev other =
      if other = this then none
      else if state.next this = some other then state.prev this else state.prev other := by
  have kept : (match state.prev this with
      | some prior => { state with next := Function.update state.next prior (state.next this) }
      | none => state).next this = state.next this := by
    split
    next prior back =>
      refine Function.update_of_ne (fun same => apart ?_) _ _
      rw [back, ← same]
    next => rfl
  have unread : (match state.prev this with
      | some prior => { state with next := Function.update state.next prior (state.next this) }
      | none => state).prev = state.prev := by
    split <;> rfl
  by_cases same : other = this
  · simp [detach, same]
  · rw [if_neg same]
    simp only [detach, kept, unread, Function.update_of_ne same]
    generalize (match state.prev this with
      | some prior => { state with next := Function.update state.next prior (state.next this) }
      | none => state) = bypassed at unread
    cases state.next this with
    | none => simp [unread]
    | some following =>
      by_cases here : following = other
      · simp [here]
      · simp [here, Ne.symm here]

/-- An object comes off its chain and stays alone. -/
theorem Chains.detach (holds : Chains state chain) (this : Object) :
    Chains (detach state this) (detached this chain) := by
  have apart : state.prev this ≠ some this := by
    intro back
    obtain ⟨first, last, _, notFirst, _, prev, _⟩ := holds.split this
    rw [back] at prev
    exact notFirst (List.mem_of_getLast? prev.symm)
  have nexts := detach_next state this
  have prevs := detach_prev apart
  constructor
  · intro object
    by_cases same : object = this
    · simp [detached, same]
    · rw [detached, if_neg same]
      exact (List.mem_erase_of_ne same).mpr (holds.own object)
  · intro object other member
    by_cases same : object = this
    · rw [detached, if_pos same, List.mem_singleton] at member
      rw [member, same]
    · rw [detached, if_neg same] at member
      obtain ⟨different, member⟩ := (List.Nodup.mem_erase_iff (holds.once object)).mp member
      rw [detached, detached, if_neg same, if_neg different, holds.shared object other member]
  · intro object
    by_cases same : object = this
    · simp [detached, same]
    · rw [detached, if_neg same]
      exact (holds.once object).erase this
  · intro object
    by_cases same : object = this
    · rw [detached, if_pos same]
      exact ⟨by rw [prevs, if_pos rfl], by rw [nexts, if_pos rfl]; rfl, trivial⟩
    · rw [detached, if_neg same]
      by_cases on : this ∈ chain object
      · obtain ⟨first, last, whole, notFirst, notLast, prev, next, before, after⟩ :=
          holds.split this
        have once := holds.once this
        rw [whole, List.nodup_middle, List.nodup_cons] at once
        rw [← holds.shared object this on, whole, List.erase_append_right _ notFirst,
          List.erase_cons_head]
        refine before.join after once.2 (fun other member => ?_) fun other member => ?_
        · rw [nexts, if_neg (ne_of_mem_of_not_mem member once.1), prev, next, Option.or_none]
        · rw [prevs, if_neg (ne_of_mem_of_not_mem member once.1), prev, next, Option.or_none]
      · rw [List.erase_of_not_mem on]
        have far : ∀ other ∈ chain object, other ∉ chain this := by
          intro other member inner
          rw [← holds.shared object other member] at on
          exact on (holds.mem_symm inner)
        refine (holds.linked object).congr (fun other member => ?_) fun other member => ?_
        · rw [nexts, if_neg (ne_of_mem_of_not_mem member on),
            if_neg fun back => far other member (holds.next_of_prev back).1]
        · rw [prevs, if_neg (ne_of_mem_of_not_mem member on),
            if_neg fun onward => far other member (holds.prev_of_next onward).1]

end Detach

/-! #### Placing -/

/-- The object has been linked in where a chain is cut in two. -/
structure Between [DecidableEq Object] (state : State Object) (first last : List Object)
    (object : Object) (target : State Object) : Prop where
  next : ∀ other, target.next other =
    if other = object then last.head?
    else if first.getLast? = some other then some object else state.next other
  prev : ∀ other, target.prev other =
    if other = object then first.getLast?
    else if last.head? = some other then some object else state.prev other

section Place

variable [DecidableEq Object]

/-- An object that was alone joins a chain where it is cut in two. -/
theorem Chains.between (holds : Chains state chain) {this object : Object}
    {first last : List Object} (alone : chain object = [object]) (apart : object ≠ this)
    (whole : chain this = first ++ last) (between : Between state first last object target) :
    Chains target (regrown (first ++ object :: last) chain) := by
  have elsewhere := holds.not_mem_of_alone alone apart
  have grown : ∀ other, other ∈ first ++ object :: last ↔ other = object ∨ other ∈ chain this := by
    intro other
    rw [whole]
    simp only [List.mem_append, List.mem_cons]
    tauto
  have once : (first ++ object :: last).Nodup := by
    rw [List.nodup_middle, List.nodup_cons, ← whole]
    exact ⟨elsewhere, holds.once this⟩
  have far : ∀ other ∉ first ++ object :: last, ∀ another ∈ chain other,
      another ∉ first ++ object :: last := by
    intro other off another member
    rw [grown, not_or] at off ⊢
    have back := holds.mem_symm member
    refine ⟨?_, fun inner => off.2 ?_⟩
    · rintro rfl
      rw [alone, List.mem_singleton] at back
      exact off.1 back
    · rw [← holds.shared this another inner]
      exact back
  constructor
  · intro other
    by_cases on : other ∈ first ++ object :: last
    · rw [regrown, if_pos on]
      exact on
    · rw [regrown, if_neg on]
      exact holds.own other
  · intro other another member
    by_cases on : other ∈ first ++ object :: last
    · rw [regrown, if_pos on] at member
      rw [regrown, regrown, if_pos on, if_pos member]
    · rw [regrown, if_neg on] at member
      rw [regrown, regrown, if_neg on, if_neg (far other on another member),
        holds.shared other another member]
  · intro other
    by_cases on : other ∈ first ++ object :: last
    · rw [regrown, if_pos on]
      exact once
    · rw [regrown, if_neg on]
      exact holds.once other
  · intro other
    by_cases on : other ∈ first ++ object :: last
    · rw [regrown, if_pos on]
      have segment := holds.linked this
      rw [whole] at segment
      refine segment.insert once (fun other _ => ?_) fun other _ => ?_
      · rw [between.next, Option.or_none]
      · rw [between.prev, Option.or_none]
    · rw [regrown, if_neg on]
      refine (holds.linked other).congr (fun another member => ?_) fun another member => ?_
      · have off := far other on another member
        rw [between.next, if_neg fun same => off (by simp [same]), if_neg fun ends => off ?_]
        exact List.mem_append_left _ (List.mem_of_getLast? ends)
      · have off := far other on another member
        rw [between.prev, if_neg fun same => off (by simp [same]), if_neg fun starts => off ?_]
        exact List.mem_append_right _ (List.mem_cons_of_mem _ (List.mem_of_head? starts))

end Place

variable [Fintype Object] [DecidableEq Object]

namespace Chains

omit [DecidableEq Object] in
theorem lastObject_eq (holds : Chains state chain) (this : Object) :
    lastObject state this = (chain this).getLast? := by
  obtain ⟨first, last, whole, _, _, _, next, _, after⟩ := holds.split this
  have path := (segment_iff.mp after).1
  rw [Option.or_none, ← next] at path
  have short : last.length < Fintype.card Object := by
    have all := (holds.once this).length_le_card
    rw [whole, List.length_append, List.length_cons] at all
    omega
  rw [lastObject, follow_of_path path short, whole, List.getLast?_append_cons]

omit [DecidableEq Object] in
theorem firstObject_eq (holds : Chains state chain) (this : Object) :
    firstObject state this = (chain this).head? := by
  have last := holds.mirror.lastObject_eq this
  rw [List.getLast?_reverse] at last
  exact last

end Chains

omit [Fintype Object] in
theorem insertBefore_split {this object : Object} {first last : List Object}
    (notFirst : this ∉ first) (notLast : this ∉ last) :
    DLinkedObject.insertBefore this object (first ++ this :: last) =
      first ++ object :: this :: last := by
  have before : DLinkedObject.insertBefore this object first = first :=
    DLinkedObject.insertBefore_of_not_mem notFirst
  have after : DLinkedObject.insertBefore this object (this :: last) = object :: this :: last :=
    DLinkedObject.insertBefore_cons_self notLast
  rw [DLinkedObject.insertBefore] at before after ⊢
  rw [List.flatMap_append, before, after]

omit [Fintype Object] in
theorem insertAfter_split {this object : Object} {first last : List Object}
    (notFirst : this ∉ first) (notLast : this ∉ last) :
    DLinkedObject.insertAfter this object (first ++ this :: last) =
      first ++ [this] ++ object :: last := by
  refine List.reverse_injective ?_
  rw [DLinkedObject.reverse_insertAfter, List.reverse_append, List.reverse_cons, List.append_assoc,
    List.singleton_append, insertBefore_split (mt List.mem_reverse.mp notLast)
      (mt List.mem_reverse.mp notFirst)]
  simp

section Modes

variable {this object : Object} {first last : List Object}

/-- At the front, the object is led on to the first one. -/
theorem place_modeAtFirst (last : List Object) {node : Object} (apart : object ≠ node)
    (found : firstObject state this = some node) (alone : state.prev object = none) :
    ∃ target, place state this object .modeAtFirst = some target ∧
      Between state [] (node :: last) object target := by
  refine ⟨_, by rw [place, found]; rfl, ?_⟩
  constructor <;> intro other
  · simp [Function.update_apply]
  · by_cases same : other = object
    · simp [same, apart, alone]
    · simp [same, Function.update_apply, eq_comm]

/-- Before the receiver, the object is led to from what was there. -/
theorem place_modeBefore (last : List Object) (apart : object ≠ this) (outside : object ∉ first)
    (prev : state.prev this = first.getLast?) :
    ∃ target, place state this object .modeBefore = some target ∧
      Between state first (this :: last) object target := by
  simp only [place, Function.update_of_ne apart, Function.update_self, prev]
  cases ends : first.getLast? with
  | none =>
    refine ⟨_, rfl, ?_⟩
    constructor <;> intro other
    · simp [ends, Function.update_apply]
    · by_cases same : other = object
      · simp [same, apart, ends]
      · simp [same, Function.update_apply, eq_comm]
  | some prior =>
    have different : object ≠ prior :=
      (ne_of_mem_of_not_mem (List.mem_of_getLast? ends) outside).symm
    refine ⟨_, rfl, ?_⟩
    constructor <;> intro other
    · by_cases same : other = object
      · simp [same, different]
      · simp [same, ends, Function.update_apply, eq_comm]
    · by_cases same : other = object
      · simp [same, apart, ends]
      · simp [same, Function.update_apply, eq_comm]

omit [Fintype Object] in
theorem Between.mirror (between : Between state first last object target) :
    Between (mirror state) last.reverse first.reverse object (mirror target) where
  next other := by
    rw [List.head?_reverse, List.getLast?_reverse]
    exact between.prev other
  prev other := by
    rw [List.head?_reverse, List.getLast?_reverse]
    exact between.next other

theorem place_modeAfter_eq_mirror (state : State Object) (this object : Object) :
    place state this object .modeAfter =
      (place (mirror state) this object .modeBefore).map mirror := by
  simp only [place, mirror]
  split <;> rfl

/-- After the receiver, the object is led back to from what was there. -/
theorem place_modeAfter (first : List Object) (apart : object ≠ this) (outside : object ∉ last)
    (next : state.next this = last.head?) :
    ∃ target, place state this object .modeAfter = some target ∧
      Between state (first ++ [this]) last object target := by
  have prev : (mirror state).prev this = last.reverse.getLast? := by
    rw [List.getLast?_reverse]
    exact next
  obtain ⟨target, placed, between⟩ :=
    place_modeBefore first.reverse apart (mt List.mem_reverse.mp outside) prev
  refine ⟨mirror target, by rw [place_modeAfter_eq_mirror, placed]; rfl, ?_⟩
  have back := between.mirror
  rw [List.reverse_cons, List.reverse_reverse, List.reverse_reverse] at back
  exact back

theorem place_modeAtLast_eq (state : State Object) (this object : Object) :
    place state this object .modeAtLast =
      (lastObject state this).bind fun node => place state node object .modeAfter := by
  unfold place
  cases lastObject state this with
  | none => rfl
  | some node =>
    dsimp only [Option.map_some, Option.bind_some]
    split <;> rfl

end Modes

/-- Every mode puts an object that is alone where it cuts the chain of the receiver. -/
theorem Chains.place (holds : Chains state chain) {this object : Object}
    (alone : chain object = [object]) (apart : object ≠ this) (position : InsertMode) :
    ∃ first last target, chain this = first ++ last ∧
      placed position this object (chain this) = first ++ object :: last ∧
      place state this object position = some target ∧ Between state first last object target := by
  obtain ⟨first, last, whole, notFirst, notLast, prev, next, _⟩ := holds.split this
  have elsewhere := holds.not_mem_of_alone alone apart
  cases position with
  | modeAtFirst =>
    have found := holds.firstObject_eq this
    obtain ⟨prevObject, _⟩ : Segment state.next state.prev none [object] none :=
      alone ▸ holds.linked object
    cases list : chain this with
    | nil => simp [whole] at list
    | cons node rest =>
      rw [list] at found elsewhere
      obtain ⟨target, placed, between⟩ :=
        place_modeAtFirst rest (List.ne_of_not_mem_cons elsewhere) found prevObject
      exact ⟨[], node :: rest, target, rfl, rfl, placed, between⟩
  | modeBefore =>
    rw [whole, List.mem_append, not_or] at elsewhere
    obtain ⟨target, placed, between⟩ := place_modeBefore last apart elsewhere.1 prev
    refine ⟨first, this :: last, target, whole, ?_, placed, between⟩
    rw [whole]
    exact insertBefore_split notFirst notLast
  | modeAfter =>
    rw [whole, List.mem_append, List.mem_cons, not_or, not_or] at elsewhere
    obtain ⟨target, placed, between⟩ := place_modeAfter first apart elsewhere.2.2 next
    refine ⟨first ++ [this], last, target, by simp [whole], ?_, placed, between⟩
    rw [whole]
    exact insertAfter_split notFirst notLast
  | modeAtLast =>
    have found := holds.lastObject_eq this
    obtain ⟨earlier, final, list⟩ : ∃ earlier final, chain this = earlier ++ [final] :=
      (List.eq_nil_or_concat' (chain this)).resolve_left (List.ne_nil_of_mem (holds.own this))
    have links := holds.linked this
    rw [list] at found elsewhere links
    obtain ⟨_, _, ends, _⟩ := Segment.append_iff.mp links
    have different : object ≠ final := fun same => elsewhere (by simp [same])
    obtain ⟨target, placed, between⟩ :=
      place_modeAfter earlier different List.not_mem_nil ends
    refine ⟨earlier ++ [final], [], target, by simp [list], by simp [LinkedDouble.placed, list], ?_,
      between⟩
    rw [place_modeAtLast_eq, found, List.getLast?_concat]
    exact placed

theorem Chains.insert (holds : Chains state chain) {this object : Object} (apart : object ≠ this)
    (position : InsertMode) :
    ∃ target, insert state this object position = some target ∧
      Chains target (intended chain (.insert this object position)) := by
  have off := holds.detach object
  have alone : detached object chain object = [object] := if_pos rfl
  obtain ⟨first, last, target, whole, grown, placed, between⟩ := off.place alone apart position
  refine ⟨target, placed, ?_⟩
  rw [intended, grown]
  exact off.between alone apart whole between

theorem intended_step (holds : Chains state chain) (action : Action Object)
    (stepped : step state action = some target) : Chains target (intended chain action) := by
  cases action with
  | insert this object position =>
    simp only [step] at stepped
    split at stepped
    next => cases stepped
    next apart =>
      obtain ⟨target', inserted, after⟩ := holds.insert apart position
      rw [inserted] at stepped
      cases stepped
      exact after
  | detach this =>
    cases stepped
    exact holds.detach this

theorem Chains.sound (holds : Chains state chain) : Sound state where
  chains := ⟨chain, holds, fun _ holds' => holds.unique holds'⟩
  inverse _ _ := ⟨fun onward => (holds.prev_of_next onward).2,
    fun back => (holds.next_of_prev back).2⟩
  ends this object position apart := by
    obtain ⟨target, inserted, _⟩ := holds.insert apart position
    rw [inserted]
    rfl

/-- In every run of doubly linked objects they are on chains, linked both ways, and every insertion
and detachment leaves the chains it is for. -/
theorem linkedDouble_chains {moves : List (Move (State Object) (Action Object))}
    {state : State Object} (run : (machine Object).Run moves state) :
    Machine.Throughout Sound moves state ∧ ∀ move ∈ moves, Intended move := by
  have unconditional : Machine.Meets (fun _ _ => True) moves := fun _ _ => trivial
  refine (run.sound_throughout_iff_meets (fun state => ∃ chain, Chains state chain) ?_ ?_ ?_
    ?_).mpr unconditional
  · rintro state rfl
    exact ⟨fun object => [object], fun _ => List.mem_singleton_self _,
      fun object other member => by rw [List.mem_singleton.mp member],
      fun _ => List.nodup_singleton _, fun _ => ⟨rfl, rfl, trivial⟩⟩
  · rintro source action target ⟨chain, holds⟩ _ stepped
    exact ⟨⟨_, intended_step holds action stepped⟩,
      fun chain' holds' => intended_step holds' action stepped⟩
  · rintro state ⟨chain, holds⟩
    exact holds.sound
  · exact fun _ _ _ _ broken => absurd trivial broken

/-- Four objects are put on one chain in the four modes; then its first one is put last, and the
one that is last after that is detached. -/
theorem linkedDouble_chains_moved :
    ∃ moves, ∃ state : State (Fin 5), (machine (Fin 5)).Run moves state ∧
      state.prev 2 = none ∧ state.next 2 = some 0 ∧ state.next 0 = some 3 ∧
      state.next 3 = some 4 ∧ state.next 4 = none ∧ state.next 1 = none ∧
      Machine.Throughout Sound moves state ∧ ∀ move ∈ moves, Intended move := by
  let played := (machine (Fin 5)).play ⟨fun _ => none, fun _ => none⟩
    [.insert 0 1 .modeAtFirst, .insert 0 2 .modeBefore, .insert 0 3 .modeAfter,
      .insert 2 4 .modeAtLast, .insert 3 1 .modeAtLast, .detach 1]
  obtain ⟨moves, run⟩ : (machine (Fin 5)).Reachable (played.get (by decide)) :=
    Machine.reachable_get rfl _
  obtain ⟨sound, intended⟩ := linkedDouble_chains run
  exact ⟨moves, _, run, by decide, by decide, by decide, by decide, by decide, by decide, sound,
    intended⟩

end LinkedDouble

end CommonCpp
