/-
This file models `OrderedIndex` and the `OrderedObject`s it lists through one link,
and shows that the head and the tail it keeps by hand agree with the list.

Several indexes share the objects and their links; an object is on one of them at
most. An object is put at the end of an index by its constructor, which clears its
link first. It is taken off by a search from the head; its link is left as it was,
so that a loop that stands at it can go on.
-/

import CommonCpp.Links

namespace CommonCpp

open Memory

/-- The links of the objects, and the ends of each index. -/
structure OrderedIndex (Root Object : Type) where
  next : Object → Option Object
  head : Root → Option Object
  tail : Root → Option Object

namespace OrderedIndex

variable {Root Object : Type} [DecidableEq Root] [DecidableEq Object]

/-! ### The code -/

/-- `OrderedObject::delist`. It has no outcome when the search is longer than the fuel. -/
def delist (index : OrderedIndex Root Object) (fuel : Nat) (this : Object) (root : Root) :
    Option (OrderedIndex Root Object) :=
  (walk index.next (fun node => node = this) fuel none (index.head root)).map fun (prior, node) =>
    match node with
    | none => index
    | some _ =>
      let index := match prior with
        | none => { index with head := Function.update index.head root (index.next this) }
        | some prior => { index with next := Function.update index.next prior (index.next this) }
      if index.tail root = some this then
        { index with tail := Function.update index.tail root prior }
      else index

def enlistTail (index : OrderedIndex Root Object) (this : Object) (root : Root) :
    OrderedIndex Root Object :=
  let index := match index.head root with
    | none => { index with head := Function.update index.head root (some this) }
    | some _ =>
      match index.tail root with
      | some last => { index with next := Function.update index.next last (some this) }
      | none => index
  { index with tail := Function.update index.tail root (some this) }

/-- The constructor of an `OrderedObject` on an index. -/
def construct (index : OrderedIndex Root Object) (this : Object) (root : Root) :
    OrderedIndex Root Object :=
  enlistTail { index with next := Function.update index.next this none } this root

omit [DecidableEq Root] in
/-- The constructor of an `OrderedObject` on no index. -/
def constructAlone (index : OrderedIndex Root Object) (this : Object) : OrderedIndex Root Object :=
  { index with next := Function.update index.next this none }

omit [DecidableEq Object] in
/-- The constructor of an index. -/
def reset (index : OrderedIndex Root Object) (root : Root) : OrderedIndex Root Object :=
  { index with
    head := Function.update index.head root none
    tail := Function.update index.tail root none }

/-! ### The lists -/

omit [DecidableEq Root] [DecidableEq Object] in
/-- The indexes list these objects, an object on one of them at most, once. -/
structure Listed (index : OrderedIndex Root Object) (lists : Root → List Object) : Prop
    extends Paths index.next index.head lists where
  tail : ∀ root, index.tail root = (lists root).getLast?

namespace Listed

variable {index : OrderedIndex Root Object} {lists : Root → List Object} {object : Object}
  {root : Root}

/-- A listed object is taken off. -/
theorem delist (listed : Listed index lists) (member : object ∈ lists root) {fuel : Nat}
    (enough : (lists root).length ≤ fuel) :
    ∃ index', index.delist fuel object root = some index' ∧
      Listed index' fun other => (lists other).filter fun node => node ≠ object := by
  obtain ⟨first, last, split⟩ := List.append_of_mem member
  have path := listed.path root
  have once := listed.once root
  have tail := listed.tail root
  have paths := listed.toPaths.detach split
  rw [split] at path once tail enough
  have apart := (List.nodup_cons.mp (List.nodup_middle.mp once)).1
  have ends : index.tail root = some object ↔ last = [] := by
    rw [tail, List.getLast?_append_cons]
    cases last with
    | nil => simp
    | cons following rest =>
      refine iff_of_false (fun final => apart ?_) (List.cons_ne_nil following rest)
      rw [List.getLast?_cons_cons] at final
      exact List.mem_append_right _ (List.mem_of_getLast? final)
  have removed : index.delist fuel object root = some
      { next := first.getLast?.elim index.next fun prior =>
          Function.update index.next prior (index.next object)
        head := if first.getLast? = none then
            Function.update index.head root (index.next object)
          else index.head
        tail := if last = [] then Function.update index.tail root first.getLast?
          else index.tail } := by
    simp only [OrderedIndex.delist, walk_of_mem path once enough, Option.map_some]
    cases first.getLast? <;> by_cases final : last = [] <;> simp [ends, final]
  refine ⟨_, removed, paths, fun other => ?_⟩
  by_cases same : other = root
  · rw [same, split, Paths.filter_ne_of_split apart]
    cases last with
    | nil => simp
    | cons following rest => simp [tail]
  · rw [listed.toPaths.filter_ne_of_other member same, ← listed.tail other]
    by_cases final : last = []
    · simp only [if_pos final, Function.update_of_ne same]
    · simp only [if_neg final]

/-- A new object is put behind the others. -/
theorem construct (listed : Listed index lists) (outside : ∀ root, object ∉ lists root)
    (root : Root) : Listed (index.construct object root)
      (Function.update lists root (lists root ++ [object])) := by
  have path := listed.path root
  have tail := listed.tail root
  have built : index.construct object root =
      { next := Function.update ((lists root).getLast?.elim index.next fun final =>
          Function.update index.next final (some object)) object none
        head := if (lists root).getLast? = none then
            Function.update index.head root (some object)
          else index.head
        tail := Function.update index.tail root (some object) } := by
    rcases List.eq_nil_or_concat' (lists root) with empty | ⟨earlier, final, list⟩
    · rw [empty] at path
      have starts : index.head root = none := path
      simp [OrderedIndex.construct, enlistTail, starts, empty]
    · rw [list] at path tail
      obtain ⟨starts, first⟩ : ∃ starts, index.head root = some starts := by
        cases earlier <;> exact ⟨_, path.1⟩
      have apart : final ≠ object :=
        ne_of_mem_of_not_mem (by simp [list]) (outside root)
      simp [OrderedIndex.construct, enlistTail, first, tail, list, Function.update_comm apart]
  rw [built]
  refine ⟨listed.toPaths.attach outside root, fun other => ?_⟩
  by_cases same : other = root
  · simp [same]
  · simp only [Function.update_of_ne same, listed.tail other]

omit [DecidableEq Root] in
theorem constructAlone (listed : Listed index lists) (outside : ∀ root, object ∉ lists root) :
    Listed (index.constructAlone object) lists where
  path other := (listed.path other).congr fun _ member =>
    Function.update_of_ne (ne_of_mem_of_not_mem member (outside other)) _ _
  once := listed.once
  apart := listed.apart
  tail := listed.tail

omit [DecidableEq Object] in
/-- A new index lists nothing. -/
theorem reset (listed : Listed index lists) (empty : lists root = []) :
    Listed (index.reset root) lists := by
  have path := listed.path root
  have tail := listed.tail root
  rw [empty] at path tail
  have unchanged : index.reset root = index := by
    unfold OrderedIndex.reset
    rw [Function.update_eq_self_iff.mpr (Eq.symm path), Function.update_eq_self_iff.mpr tail.symm]
  rw [unchanged]
  exact listed

end Listed

end OrderedIndex

end CommonCpp
