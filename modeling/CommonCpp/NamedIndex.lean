/-
This file models the constructor of a `NamedObject` on an `OrderedIndex`, which takes
an object with the same id off the list, releases it, and puts the new one at the end.

The tail is set once and never moved: it stays the first object that was constructed.
From the second object on it is not the last of the list, and each new object is linked
behind the first, in the place of the one constructed before, which is lost without
being released. When the first object itself is replaced it is deleted, and the tail
leads to what is deleted. So the list is right for a single object only.

Objects are numbered in the order of their construction. Reading or writing an object
that has been deleted has no outcome.
-/

import CommonCpp.NamedObject

namespace CommonCpp

open Memory NamedObject

/-- The fields of all objects and of the index, and the objects that have been released, the
latest first. The first `count` objects have been constructed. -/
structure NamedIndex where
  count : Nat
  next : Nat → Option Nat
  id : Nat → Option Id
  head : Option Nat
  tail : Option Nat
  released : List Nat

namespace NamedIndex

/-! ### The code -/

/-- The loop up to an object that has the id: the object before, and the object. -/
def search (index : NamedIndex) (nid : Id) :
    Nat → Option Nat → Option Nat → Option (Option Nat × Option Nat)
  | _, prior, none => some (prior, none)
  | 0, _, some _ => none
  | fuel + 1, prior, some node =>
    if node ∈ index.released then none
    else if index.id node = some nid then some (prior, some node)
    else search index nid fuel (some node) (index.next node)

/-- `LinkedObject::release`: an object that does not refer to itself is deleted, and its id with
it. -/
def release (index : NamedIndex) (this : Nat) : NamedIndex :=
  if index.next this ≠ some this then
    { index with
      next := Function.update index.next this (some this)
      id := Function.update index.id this none
      released := this :: index.released }
  else index

/-- An object that has been found is taken off the list and released. -/
def replace (index : NamedIndex) (prior : Option Nat) (node : Nat) : NamedIndex :=
  let index :=
    match prior with
    | some prior => { index with next := Function.update index.next prior (index.next node) }
    | none => { index with head := index.next node }
  release index node

/-- The new object is put behind the tail. -/
def append (index : NamedIndex) (this : Nat) (nid : Id) : Option NamedIndex :=
  let index :=
    { index with
      next := Function.update index.next this none
      id := Function.update index.id this (some nid)
      head := if index.head = none then some this else index.head }
  match index.tail with
  | none => some { index with tail := some this }
  | some tail =>
    if tail ∈ index.released then none
    else some { index with next := Function.update index.next tail (some this) }

/-- `NamedObject(root, nid)`. -/
def construct (index : NamedIndex) (nid : Id) : Option NamedIndex :=
  let this := index.count
  let index := { index with count := index.count + 1 }
  (search index nid index.count none index.head).bind fun (prior, node) =>
    append (node.elim index (replace index prior)) this nid

/-- The index without objects. -/
def empty : NamedIndex :=
  ⟨0, fun _ => none, fun _ => none, none, none, []⟩

/-- The index after objects with these ids have been constructed. -/
def build (ids : List Id) : Option NamedIndex :=
  ids.foldlM construct empty

/-! ### What is listed -/

/-- The last objects under their ids, in the order of their construction. -/
def lasts (ids : List Id) : List Nat :=
  (List.range ids.length).filter fun object =>
    ids[object]?.all fun id => id ∉ ids.drop (object + 1)

/-- The list has the last object under each id, the others have been released once, and the tail is
the last of the list. -/
structure Represents (ids : List Id) (index : NamedIndex) : Prop where
  path : Path index.next index.head (lasts ids) none
  once : index.released.Nodup
  released : ∀ object, object ∈ index.released ↔ object < ids.length ∧ object ∉ lasts ids
  tail : index.tail = (lasts ids).getLast?

/-! ### The first object and the latest one -/

/-- The tail is the first object, which leads to the latest one. -/
structure Held (ids : List Id) (index : NamedIndex) : Prop where
  count : index.count = ids.length
  head : index.head = some 0
  tail : index.tail = some 0
  next : index.next 0 = if ids.length = 1 then none else some (ids.length - 1)
  ends : index.next (ids.length - 1) = none
  first : index.id 0 = ids.head?
  latest : index.id (ids.length - 1) = ids.getLast?
  alive : 0 ∉ index.released ∧ ids.length - 1 ∉ index.released
  bounded : ∀ object ∈ index.released, object < ids.length

variable {index : NamedIndex} {ids : List Id} {nid : Id}

/-- The new object is linked behind the first one, if that has not been deleted. -/
theorem held_append (some' : ids ≠ []) (count : index.count = ids.length + 1)
    (head : index.head = some 0) (tail : index.tail = some 0) (first : index.id 0 = ids.head?)
    (alive : 0 ∉ index.released) (bounded : ∀ object ∈ index.released, object < ids.length) :
    ∃ index', append index ids.length nid = some index' ∧ Held (ids ++ [nid]) index' := by
  have positive : ids.length ≠ 0 := by simpa using some'
  have fresh : ids.length ∉ index.released := fun member => Nat.lt_irrefl _ (bounded _ member)
  have appended : append index ids.length nid = some
      { count := index.count
        next := Function.update (Function.update index.next ids.length none) 0 (some ids.length)
        id := Function.update index.id ids.length (some nid)
        head := some 0
        tail := some 0
        released := index.released } := by
    simp [append, tail, head, alive]
  have length : (ids ++ [nid]).length = ids.length + 1 := by simp
  refine ⟨_, appended, ?_⟩
  constructor <;> dsimp only
  case count => rw [length, count]
  case next => rw [length, Function.update_self, if_neg (by omega), Nat.add_sub_cancel]
  case ends =>
    rw [length, Nat.add_sub_cancel, Function.update_of_ne positive, Function.update_self]
  case first => rw [Function.update_of_ne positive.symm, first, List.head?_append_of_ne_nil _ some']
  case latest => rw [length, Nat.add_sub_cancel, Function.update_self, List.getLast?_concat]
  case alive =>
    rw [length, Nat.add_sub_cancel]
    exact ⟨alive, fresh⟩
  case bounded =>
    rw [length]
    exact fun object member => Nat.lt_succ_of_lt (bounded object member)

/-- The first object is on an index of its own. -/
theorem build_singleton (first : Id) : build [first] = some
    { count := 1
      next := Function.update (fun _ => none) 0 none
      id := Function.update (fun _ => none) 0 (some first)
      head := some 0
      tail := some 0
      released := [] } := by
  simp [build, construct, search, append, empty]

namespace Held

variable {first : Id} {rest : List Id}

/-- The search stops at the first object, at the latest one, or behind it. -/
theorem search (held : Held (first :: rest) index) (nid : Id) :
    search { index with count := index.count + 1 } nid (index.count + 1) none index.head = some
      (if first = nid then (none, some 0)
        else if rest = [] then (some 0, none)
        else if rest.getLast? = some nid then (some 0, some rest.length)
        else (some rest.length, none)) := by
  have start : index.id 0 = some first := held.first
  rw [held.head, held.count, List.length_cons, NamedIndex.search, if_neg held.alive.1, start]
  by_cases same : first = nid
  · rw [if_pos same, if_pos (congrArg some same)]
  · rw [if_neg same, if_neg (mt Option.some.inj same)]
    cases rest with
    | nil =>
      have next : index.next 0 = none := held.next
      rw [next, if_pos rfl]
      rfl
    | cons second rest =>
      have next : index.next 0 = some (second :: rest).length := held.next
      have ends : index.next (second :: rest).length = none := held.ends
      have latest : index.id (second :: rest).length = (second :: rest).getLast? := held.latest
      have alive : (second :: rest).length ∉ index.released := held.alive.2
      rw [next, if_neg (List.cons_ne_nil second rest), List.length_cons, NamedIndex.search]
      dsimp only
      rw [← List.length_cons, if_neg alive, latest, ends]
      split <;> rfl

/-- An object with the id of the first one deletes it, and then writes to it. -/
theorem construct_first (held : Held (first :: rest) index) : construct index first = none := by
  have loose : index.next 0 ≠ some 0 := by
    rw [held.next]
    split
    next => exact Option.some_ne_none 0 ∘ Eq.symm
    next long => simpa using long
  simp only [construct, held.search first, if_pos, Option.bind_some, Option.elim_some]
  simp only [replace, release, if_pos loose, append, held.tail, List.mem_cons_self, if_pos]

/-- An object with another id takes the place of the latest one. -/
theorem construct_other (held : Held (first :: rest) index) (other : nid ≠ first) :
    ∃ index', construct index nid = some index' ∧ Held (first :: rest ++ [nid]) index' := by
  simp only [construct, held.search nid, if_neg other.symm, Option.bind_some]
  simp only [held.count]
  by_cases alone : rest = []
  · rw [if_pos alone]
    exact held_append (List.cons_ne_nil _ _) rfl held.head held.tail held.first held.alive.1
      held.bounded
  · rw [if_neg alone]
    by_cases again : rest.getLast? = some nid
    · rw [if_pos again]
      have long : rest.length ≠ 0 := by simpa using alone
      have loose : Function.update index.next 0 (index.next rest.length) rest.length ≠
          some rest.length := by
        have ends : index.next rest.length = none := held.ends
        rw [Function.update_of_ne long, ends]
        exact Option.some_ne_none _ ∘ Eq.symm
      simp only [Option.elim_some, replace, release, if_pos loose]
      refine held_append (List.cons_ne_nil _ _) rfl held.head held.tail ?_ ?_ ?_
      · dsimp only
        rw [Function.update_of_ne long.symm]
        exact held.first
      · simpa using ⟨long.symm, held.alive.1⟩
      · exact List.forall_mem_cons.mpr ⟨Nat.lt_succ_self _, held.bounded⟩
    · rw [if_neg again]
      exact held_append (List.cons_ne_nil _ _) rfl held.head held.tail held.first held.alive.1
        held.bounded

end Held

theorem build_concat (ids : List Id) (nid : Id) :
    build (ids ++ [nid]) = (build ids).bind fun index => construct index nid := by
  simp [build, List.foldlM_append]

/-- While no object replaces the first one, it leads to the latest one. -/
theorem exists_held {first : Id} {rest : List Id} (kept : first ∉ rest) :
    ∃ index, build (first :: rest) = some index ∧ Held (first :: rest) index := by
  induction rest using List.reverseRecOn with
  | nil =>
    refine ⟨_, build_singleton first, ?_⟩
    constructor <;> simp
  | append_singleton rest nid inductionHypothesis =>
    rw [List.mem_append, not_or, List.mem_singleton] at kept
    obtain ⟨index, built, held⟩ := inductionHypothesis kept.1
    obtain ⟨index', constructed, held'⟩ := held.construct_other (Ne.symm kept.2)
    refine ⟨index', ?_, held'⟩
    rw [← List.cons_append, build_concat, built, Option.bind_some, constructed]

/-- Once an object replaces the first one, a deleted object is written to. -/
theorem build_eq_none {first : Id} {rest : List Id} (replaced : first ∈ rest) :
    build (first :: rest) = none := by
  obtain ⟨before, behind, rfl, kept⟩ := List.eq_append_cons_of_mem replaced
  obtain ⟨index, built, held⟩ := exists_held kept
  have stopped : build (first :: before ++ [first]) = none := by
    rw [build_concat, built, Option.bind_some, held.construct_first]
  have whole : first :: (before ++ first :: behind) = (first :: before ++ [first]) ++ behind := by
    simp
  rw [build] at stopped
  rw [whole, build, List.foldlM_append, stopped]
  rfl

theorem held_of_build {first : Id} {rest : List Id} {index : NamedIndex}
    (built : build (first :: rest) = some index) : Held (first :: rest) index := by
  have kept : first ∉ rest := fun replaced => by
    rw [build_eq_none replaced] at built
    cases built
  obtain ⟨index', built', held⟩ := exists_held kept
  rwa [Option.some_inj.mp (built.symm.trans built')]

/-- The tail is not the last of the list from the second object on. -/
theorem length_le_of_represents {ids : List Id} {index : NamedIndex}
    (built : build ids = some index) (represents : Represents ids index) : ids.length ≤ 1 := by
  by_contra many
  cases ids with
  | nil => exact many (Nat.zero_le 1)
  | cons first rest =>
    have held := held_of_build built
    obtain ⟨before, split⟩ := List.getLast?_eq_some_iff.mp (represents.tail.symm.trans held.tail)
    have path := represents.path
    rw [split] at path
    have ends : index.next 0 = none := path.next_eq
    rw [held.next, if_neg (by omega)] at ends
    cases ends

/-- After a sequence of constructions the index represents the last object under each id exactly
when at most one object has been constructed. -/
theorem represents_iff (ids : List Id) :
    (∃ index, build ids = some index ∧ Represents ids index) ↔ ids.length ≤ 1 := by
  constructor
  · rintro ⟨index, built, represents⟩
    exact length_le_of_represents built represents
  · intro few
    rcases ids with _ | ⟨first, _ | ⟨second, rest⟩⟩
    · exact ⟨empty, rfl, rfl, List.nodup_nil, by simp [empty], rfl⟩
    · have listed : lasts [first] = [0] := rfl
      refine ⟨_, build_singleton first, ?_, List.nodup_nil, by simp [listed], rfl⟩
      rw [listed]
      exact ⟨rfl, rfl⟩
    · simp at few

/-- The second object is behind the tail. With the id of the first one it is never listed, for the
first one is deleted and then written to. -/
theorem tail_before_second :
    let first : Id := ⟨[0x61], by decide, by decide⟩
    let second : Id := ⟨[0x62], by decide, by decide⟩
    (∃ index, build [first, second] = some index ∧ index.head = some 0 ∧ index.next 0 = some 1 ∧
        index.next 1 = none ∧ index.tail = some 0) ∧
      (¬ ∃ index, build [first, second] = some index ∧ Represents [first, second] index) ∧
      build [first, first] = none := by
  intro first second
  refine ⟨⟨_, (Option.some_get (by decide)).symm, by decide, by decide, by decide, by decide⟩, ?_,
    build_eq_none List.mem_cons_self⟩
  rintro ⟨index, built, represents⟩
  exact absurd (length_le_of_represents built represents) (by decide)

end NamedIndex

end CommonCpp
