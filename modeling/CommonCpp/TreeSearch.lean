/-
This file models how `NamedTree` searches a tree for a name: `leaf` among the nodes without
children, and `find` among the others.

Each is a loop over the children of a node that calls itself for a child. The first of them
tests the name of a child only when it is a leaf, and goes down only when it is none; the
second does both only when it is none. A leaf has nothing below it, so that each is the
same search with a test of its own, and finds the first node in preorder.

A name is its bytes before the null. A node without a name is compared like one with the
empty name.
-/

import CommonCpp.Ctype
import CommonCpp.Forests

namespace CommonCpp

open Memory

namespace NamedTree

/-- The fields of all nodes that a search reads: the link to the next sibling, the first child, the
parent and the name. -/
structure Nodes (Node : Type) where
  next : Node → Option Node
  child : Node → Option Node
  parent : Node → Option Node
  id : Node → Option Text

namespace Nodes

variable {Node : Type}

/-! ### The code -/

/-- `eq(node->Id, tid)`, where no name is compared like the empty one. -/
def eq (nodes : Nodes Node) (node : Node) (tid : Text) : Bool := (nodes.id node).getD [] = tid

/-- `is_leaf`. -/
def isLeaf (nodes : Nodes Node) (node : Node) : Bool := (nodes.child node).isNone

/-- The loop of `leaf` from a child on. It has no outcome when it is deeper than the fuel. -/
def leafLoop (nodes : Nodes Node) (tid : Text) : ℕ → Option Node → Option (Option Node)
  | _, none => some none
  | 0, some _ => none
  | fuel + 1, some node => do
    if nodes.isLeaf node ∧ nodes.eq node tid then return some node
    let obj ← if ¬ nodes.isLeaf node then leafLoop nodes tid fuel (nodes.child node) else some none
    match obj with
    | some obj => return some obj
    | none => leafLoop nodes tid fuel (nodes.next node)

/-- `leaf(tid)`. -/
def leaf (nodes : Nodes Node) (fuel : ℕ) (this : Node) (tid : Text) : Option (Option Node) :=
  leafLoop nodes tid fuel (nodes.child this)

/-- The loop of `find` from a child on. -/
def findLoop (nodes : Nodes Node) (tid : Text) : ℕ → Option Node → Option (Option Node)
  | _, none => some none
  | 0, some _ => none
  | fuel + 1, some node => do
    if ¬ nodes.isLeaf node then
      if nodes.eq node tid then return some node
      let obj ← findLoop nodes tid fuel (nodes.child node)
      match obj with
      | some obj => return some obj
      | none => findLoop nodes tid fuel (nodes.next node)
    else findLoop nodes tid fuel (nodes.next node)

/-- `find(tid)`. -/
def find (nodes : Nodes Node) (fuel : ℕ) (this : Node) (tid : Text) : Option (Option Node) :=
  findLoop nodes tid fuel (nodes.child this)

/-! ### Preorder -/

/-- A node without children that has the name. -/
def LeafNamed (nodes : Nodes Node) (name : Text) (node : Node) : Prop :=
  nodes.child node = none ∧ nodes.id node = some name

/-- A node with children that has the name. -/
def TrunkNamed (nodes : Nodes Node) (name : Text) (node : Node) : Prop :=
  nodes.child node ≠ none ∧ nodes.id node = some name

/-- What a search has come to: the first node of the list that is sought, or null when there is
none. -/
def First (sought : Node → Prop) (list : List Node) : Option Node → Prop
  | none => ∀ node ∈ list, ¬ sought node
  | some node => ∃ before after, list = before ++ node :: after ∧ sought node ∧
      ∀ other ∈ before, ¬ sought other

theorem first_iff {sought : Node → Prop} {test : Node → Bool}
    (tests : ∀ node, test node = true ↔ sought node) {list : List Node} {result : Option Node} :
    First sought list result ↔ list.find? test = result := by
  cases result with
  | none => simp only [First, List.find?_eq_none, tests]
  | some node =>
    simp only [First, List.find?_eq_some_iff_append, ← tests, Bool.not_eq_true,
      Bool.not_eq_true']
    constructor
    · rintro ⟨before, after, whole, passes, others⟩
      exact ⟨passes, before, after, whole, others⟩
    · rintro ⟨passes, before, after, whole, others⟩
      exact ⟨before, after, whole, passes, others⟩

variable {nodes : Nodes Node} {name : Text} {node : Node}

theorem isLeaf_iff : nodes.isLeaf node = true ↔ nodes.child node = none := Option.isNone_iff_eq_none

theorem eq_iff (named : name ≠ []) : nodes.eq node name = true ↔ nodes.id node = some name := by
  unfold eq
  rw [decide_eq_true_iff]
  cases nodes.id node with
  | none => exact iff_of_false (Ne.symm named) (Option.some_ne_none name).symm
  | some other => exact Option.some_inj.symm

/-- `leaf` tests for a leaf of that name. -/
theorem leafLoop_eq (tid : Text) (fuel : ℕ) (pointer : Option Node) :
    leafLoop nodes tid fuel pointer =
      seek nodes.next nodes.child (fun node => nodes.isLeaf node && nodes.eq node tid) fuel
        pointer := by
  induction fuel generalizing pointer with
  | zero => cases pointer <;> rfl
  | succ fuel inductionHypothesis =>
    cases pointer with
    | none => rfl
    | some node =>
      rw [leafLoop, seek]
      cases ends : nodes.isLeaf node with
      | true =>
        -- there is nothing below a leaf
        have below : nodes.child node = none := isLeaf_iff.mp ends
        by_cases same : nodes.eq node tid
        · simp [same]
        · simp [same, below, seek, inductionHypothesis]
      | false =>
        simp only [Bool.false_eq_true, false_and, if_false, not_false_iff, if_true, Bool.false_and,
          inductionHypothesis]
        rfl

/-- `find` tests for a node of that name that is no leaf. -/
theorem findLoop_eq (tid : Text) (fuel : ℕ) (pointer : Option Node) :
    findLoop nodes tid fuel pointer =
      seek nodes.next nodes.child (fun node => !nodes.isLeaf node && nodes.eq node tid) fuel
        pointer := by
  induction fuel generalizing pointer with
  | zero => cases pointer <;> rfl
  | succ fuel inductionHypothesis =>
    cases pointer with
    | none => rfl
    | some node =>
      rw [findLoop, seek]
      cases ends : nodes.isLeaf node with
      | true =>
        have below : nodes.child node = none := isLeaf_iff.mp ends
        simp [below, seek, inductionHypothesis]
      | false =>
        by_cases same : nodes.eq node tid
        · simp [same]
        · simp only [same, Bool.false_eq_true, not_false_iff, if_true, if_false, Bool.and_false,
            inductionHypothesis]
          rfl

/-- In every finite tree, `leaf` comes to the first of the nodes below that has no children and
the name, in preorder, and `find` to the first that has children and the name; each comes to null
when there is none. -/
theorem searches_follow_preorder {this : Node} {below : Siblings Node}
    (tree : below.Spelled nodes.next nodes.child (nodes.child this)) (named : name ≠ [])
    {fuel : ℕ} (enough : below.preorder.length ≤ fuel) :
    (∃ result, leaf nodes fuel this name = some result ∧
      First (LeafNamed nodes name) below.preorder result) ∧
    ∃ result, find nodes fuel this name = some result ∧
      First (TrunkNamed nodes name) below.preorder result := by
  have leaves : ∀ node, (nodes.isLeaf node && nodes.eq node name) = true ↔
      LeafNamed nodes name node := fun node => by
    rw [Bool.and_eq_true, isLeaf_iff, eq_iff named, LeafNamed]
  have trunks : ∀ node, (!nodes.isLeaf node && nodes.eq node name) = true ↔
      TrunkNamed nodes name node := fun node => by
    rw [Bool.and_eq_true, Bool.not_eq_true', ← Bool.not_eq_true, isLeaf_iff, eq_iff named,
      TrunkNamed]
  refine ⟨⟨_, ?_, (first_iff leaves).mpr rfl⟩, _, ?_, (first_iff trunks).mpr rfl⟩
  · rw [leaf, leafLoop_eq, seek_eq _ tree enough]
  · rw [find, findLoop_eq, seek_eq _ tree enough]

/-- Two leaves have the name; the first in preorder is not the first child. -/
theorem searches_follow_preorder_twins :
    ∃ (nodes : Nodes ℕ) (below : Siblings ℕ), below.preorder = [1, 2, 3] ∧
      leaf nodes 3 0 [0x62] = some (some 2) ∧ find nodes 3 0 [0x62] = some none ∧
      (∃ result, leaf nodes 3 0 [0x62] = some result ∧
        First (LeafNamed nodes [0x62]) below.preorder result) ∧
      ∃ result, find nodes 3 0 [0x62] = some result ∧
        First (TrunkNamed nodes [0x62]) below.preorder result := by
  refine ⟨{
    next := fun node => if node = 1 then some 3 else none
    child := fun node => if node = 0 then some 1 else if node = 1 then some 2 else none
    parent := fun node => if node = 0 then none else if node = 2 then some 1 else some 0
    id := fun node => if node = 1 then some [0x61] else some [0x62] },
    .cons 1 (.cons 2 .nil .nil) (.cons 3 .nil .nil), rfl, by decide, by decide, ?_⟩
  refine searches_follow_preorder ?_ (List.cons_ne_nil _ _) (Nat.le_refl 3)
  exact ⟨rfl, ⟨rfl, rfl, rfl⟩, rfl, rfl, rfl⟩

end Nodes

end NamedTree

end CommonCpp
