/-
This file models `NamedTree`, the tree of named objects, and the singly linked
child lists that its nodes keep in an `OrderedIndex`.

A node is on the child list of its parent. Moving a node delists it, changes its
parent and enlists it again. `enlistHead` leads the node to the old first child;
`enlistTail` only leads the old last child to the node, and leaves the node's own
link as it was. A node moved to the tail of another list with a link to its old
sibling drags that sibling's list behind it. `remove` takes a node off the list of
its parent, but the node keeps the parent. The child lists stay consistent exactly
when neither happens: a node moved to the tail of another list leads nowhere, and
only nodes without a parent are removed.

Nodes are numbered in the order of their construction. `delist` walks the list; a
walk that passes more nodes than have been constructed goes round a circle, and
has no outcome. A tree keeps what its ids are, but no operation here reads them.
-/

import Mathlib.Data.Finset.Range
import Mathlib.Data.Finset.Card
import CommonCpp.Links
import CommonCpp.Machine

namespace CommonCpp

open Concurrency Memory

namespace NamedTree

/-! ### The code -/

/-- The fields of all nodes: the link to the next sibling, the parent, the two ends of the child
list, and the id. The first `count` nodes have been constructed. -/
structure State where
  count : Nat
  next : Nat → Option Nat
  parent : Nat → Option Nat
  head : Nat → Option Nat
  tail : Nat → Option Nat
  id : Nat → Option String

/-- No node has been constructed. -/
def State.empty : State :=
  ⟨0, fun _ => none, fun _ => none, fun _ => none, fun _ => none, fun _ => none⟩

/-- `OrderedObject::delist` from the child list of a node. -/
def delist (state : State) (this root : Nat) : Option State :=
  (walk state.next (fun node => node = this) state.count none (state.head root)).map
    fun (prior, node) =>
      match node with
      | none => state
      | some _ =>
        let state := match prior with
          | none => { state with head := Function.update state.head root (state.next this) }
          | some prior => { state with next := Function.update state.next prior (state.next this) }
        if state.tail root = some this then
          { state with tail := Function.update state.tail root prior }
        else state

/-- `OrderedObject::enlistTail` on the child list of a node. -/
def enlistTail (state : State) (this root : Nat) : State :=
  let state :=
    if state.head root = none then
      { state with head := Function.update state.head root (some this) }
    else
      match state.tail root with
      | some last => { state with next := Function.update state.next last (some this) }
      | none => state
  { state with tail := Function.update state.tail root (some this) }

/-- `OrderedObject::enlistHead` on the child list of a node. -/
def enlistHead (state : State) (this root : Nat) : State :=
  let state := { state with next := Function.update state.next this none }
  let state :=
    if state.tail root = none then
      { state with tail := Function.update state.tail root (some this) }
    else if state.head root ≠ none then
      { state with next := Function.update state.next this (state.head root) }
    else state
  { state with head := Function.update state.head root (some this) }

/-- `if(Parent) delist(&Parent->Child)`. -/
def leaveParent (state : State) (this : Nat) : Option State :=
  match state.parent this with
  | some parent => delist state this parent
  | none => some state

/-- `NamedTree(nid)`: a node without a parent. -/
def construct (state : State) (this : Nat) (id : Option String) : State :=
  { count := state.count + 1
    next := Function.update state.next this none
    parent := Function.update state.parent this none
    head := Function.update state.head this none
    tail := Function.update state.tail this none
    id := Function.update state.id this id }

/-- `NamedTree(p, nid)`: a node under a parent. -/
def constructUnder (state : State) (this parent : Nat) (id : Option String) : State :=
  let state := enlistTail (construct state this none) this parent
  { state with
    id := Function.update state.id this id
    parent := Function.update state.parent this (some parent) }

/-- The move of a node to the list of another parent, by one of the two ways to enlist it. -/
def relist (enlist : State → Nat → Nat → State) (state : State) (this : Nat)
    (trunk : Option Nat) : Option State :=
  -- if moving to same place, just return
  if state.parent this = trunk then some state
  else
    (leaveParent state this).map fun left =>
      let moved := { left with parent := Function.update left.parent this trunk }
      match trunk with
      | some trunk => enlist moved this trunk
      | none => moved

def relistTail : State → Nat → Option Nat → Option State := relist enlistTail

def relistHead : State → Nat → Option Nat → Option State := relist enlistHead

def remove (state : State) (this : Nat) : Option State :=
  (leaveParent state this).map fun left => { left with id := Function.update left.id this none }

inductive Action
  | construct (this : Nat) (id : Option String)
  | constructUnder (this parent : Nat) (id : String)
  | relistTail (this : Nat) (trunk : Option Nat)
  | relistHead (this : Nat) (trunk : Option Nat)
  | remove (this : Nat)

/-- The trunk is null, or a node outside the subtree of this one: the way from it up through the
parents ends without meeting the node. -/
def Outside (state : State) (this : Nat) : Option Nat → Prop
  | none => True
  | some trunk => trunk < state.count ∧ ∃ last,
      walk state.parent (fun node => node = this) state.count none (some trunk) = some (last, none)

/-- The operations a program may make: on constructed nodes, with a new node where one is
constructed, and no node moved into its own subtree. -/
def Allowed (state : State) : Action → Prop
  | .construct this _ => this = state.count
  | .constructUnder this parent _ => this = state.count ∧ parent < state.count
  | .relistTail this trunk => this < state.count ∧ Outside state this trunk
  | .relistHead this trunk => this < state.count ∧ Outside state this trunk
  | .remove this => this < state.count

instance (state : State) (this : Nat) : (trunk : Option Nat) →
    Decidable (Outside state this trunk)
  | none => inferInstanceAs (Decidable True)
  | some trunk =>
    decidable_of_iff (trunk < state.count ∧
        (walk state.parent (fun node => node = this) state.count none (some trunk)).map Prod.snd =
          some none) (by simp [Outside, Option.map_eq_some_iff])

instance (state : State) : (action : Action) → Decidable (Allowed state action)
  | .construct this _ => inferInstanceAs (Decidable (this = state.count))
  | .constructUnder this parent _ =>
    inferInstanceAs (Decidable (this = state.count ∧ parent < state.count))
  | .relistTail this trunk =>
    inferInstanceAs (Decidable (this < state.count ∧ Outside state this trunk))
  | .relistHead this trunk =>
    inferInstanceAs (Decidable (this < state.count ∧ Outside state this trunk))
  | .remove this => inferInstanceAs (Decidable (this < state.count))

/-- What the code of an operation does. -/
def perform (state : State) : Action → Option State
  | .construct this id => some (construct state this id)
  | .constructUnder this parent id => some (constructUnder state this parent (some id))
  | .relistTail this trunk => relistTail state this trunk
  | .relistHead this trunk => relistHead state this trunk
  | .remove this => remove state this

/-- The runs of any program on a forest of nodes. -/
def machine : Machine State Action where
  Init state := state = .empty
  step state action := if Allowed state action then perform state action else none

/-! ### Child lists -/

/-- The nodes hold these lists of children: each is what its node leads through from `head` by
`next`, with `tail` its last, without repetition, and no node is on two lists. -/
structure Lists (state : State) (children : Nat → List Nat) : Prop where
  path : ∀ root, Path state.next (state.head root) (children root) none
  last : ∀ root, state.tail root = (children root).getLast?
  once : ∀ root, (children root).Nodup
  single : ∀ root other node, node ∈ children root → node ∈ children other → root = other

/-- The children of a node are the nodes that have it as their parent. -/
structure Children (state : State) (children : Nat → List Nat) : Prop where
  lists : Lists state children
  parented : ∀ root node, node ∈ children root ↔ state.parent node = some root

/-- The lists without a node. -/
def without (node : Nat) (children : Nat → List Nat) : Nat → List Nat :=
  fun root => (children root).erase node

/-- What an operation is for: the lists of children it should leave. A node that is moved to where
it is already stays. -/
def intended : Action → (Nat → List Nat) → Nat → List Nat
  | .construct _ _, children => children
  | .constructUnder this parent _, children =>
    Function.update children parent (children parent ++ [this])
  | .relistTail this none, children => without this children
  | .relistTail this (some trunk), children =>
    if this ∈ children trunk then children
    else Function.update (without this children) trunk (children trunk ++ [this])
  | .relistHead this none, children => without this children
  | .relistHead this (some trunk), children =>
    if this ∈ children trunk then children
    else Function.update (without this children) trunk (this :: children trunk)
  | .remove this, children => without this children

/-- The step leaves the lists of children its operation is for. -/
def Intended (move : Move State Action) : Prop :=
  ∀ children, Children move.source children → Children move.target (intended move.action children)

/-- The child lists are consistent, and every operation on them comes to an end. -/
def Consistent (state : State) : Prop :=
  (∃ children, Children state children) ∧
    ∀ action, Allowed state action → (machine.step state action).isSome

/-- A node that is moved to the tail of another list leads nowhere, and a node that is removed has
no parent. -/
def LeadsNowhere (state : State) : Action → Prop
  | .relistTail this (some trunk) => state.parent this = some trunk ∨ state.next this = none
  | .remove this => state.parent this = none
  | _ => True

variable {state target : State} {children : Nat → List Nat} {this root : Nat}

namespace Lists

theorem head_eq (holds : Lists state children) (root : Nat) :
    state.head root = (children root).head? := by
  rw [(holds.path root).head_eq, Option.or_none]

/-- A node in no list, or in one list, is in no other. -/
theorem other_not_mem (holds : Lists state children) (member : this ∈ children root) {other : Nat}
    (different : other ≠ root) : this ∉ children other := fun member' =>
  different (holds.single other root this member' member)

theorem without_other (holds : Lists state children) (member : this ∈ children root) {other : Nat}
    (different : other ≠ root) : without this children other = children other :=
  List.erase_of_not_mem (holds.other_not_mem member different)

end Lists

/-! #### Delisting -/

/-- The fields after a node has been taken off a list. -/
structure Delisted (source : State) (this root : Nat) (prior : Option Nat) (target : State) :
    Prop where
  count : target.count = source.count
  parent : target.parent = source.parent
  next : target.next =
    prior.elim source.next fun node => Function.update source.next node (source.next this)
  head : target.head =
    if prior = none then Function.update source.head root (source.next this) else source.head
  tail : target.tail =
    if source.tail root = some this then Function.update source.tail root prior else source.tail

/-- Delisting a node that is on the list comes to an end at the node. -/
theorem delisted (holds : Lists state children) {first last : List Nat}
    (whole : children root = first ++ this :: last)
    (enough : (children root).length ≤ state.count) :
    ∃ target, delist state this root = some target ∧
      Delisted state this root first.getLast? target := by
  have path := holds.path root
  have once := holds.once root
  rw [whole] at path once enough
  unfold delist
  rw [walk_of_mem path once enough, Option.map_some]
  refine ⟨_, rfl, ?_⟩
  cases first.getLast? with
  | none =>
    by_cases atEnd : state.tail root = some this <;> constructor <;> simp [atEnd]
  | some prior =>
    by_cases atEnd : state.tail root = some this <;> constructor <;> simp [atEnd]

theorem Lists.delisted (holds : Lists state children) {first last : List Nat}
    (whole : children root = first ++ this :: last)
    (taken : Delisted state this root first.getLast? target) :
    Lists target (without this children) ∧ target.next this = state.next this := by
  have path := holds.path root
  have once := holds.once root
  have ends := holds.last root
  have member : this ∈ children root := by simp [whole]
  rw [whole] at path once ends
  have notFirst : this ∉ first := by
    rw [List.nodup_append] at once
    exact fun member => once.2.2 this member this List.mem_cons_self rfl
  have own : without this children root = first ++ last := by
    unfold without
    rw [whole, List.erase_append_right _ notFirst, List.erase_cons_head]
  have nexts : ∀ node, node ∉ first → target.next node = state.next node := by
    intro node outside
    rw [taken.next]
    exact Path.detached_of_not_mem outside _ _
  refine ⟨⟨fun other => ?_, fun other => ?_, fun other => (holds.once other).erase this,
    fun other other' node here there => ?_⟩, nexts this notFirst⟩
  · by_cases same : other = root
    · rw [same, own, taken.next, taken.head, ite_apply, Function.update_self]
      exact path.detach once
    · rw [holds.without_other member same]
      have kept : target.head other = state.head other := by
        rw [taken.head]
        split
        · exact Function.update_of_ne same _ _
        · rfl
      rw [kept]
      refine (holds.path other).congr fun node inside => nexts node fun inFirst => ?_
      refine holds.other_not_mem ?_ same inside
      rw [whole]
      exact List.mem_append_left _ inFirst
  · rw [taken.tail]
    by_cases same : other = root
    · rw [same, own, ends]
      by_cases empty : last = []
      · simp [empty]
      · have inner : (first ++ this :: last).getLast? = last.getLast? := by
          rw [List.getLast?_append_of_ne_nil _ (List.cons_ne_nil _ _),
            List.getLast?_cons_of_ne_nil empty]
        have apart : last.getLast? ≠ some this := by
          rw [List.nodup_append, List.nodup_cons] at once
          exact fun same => once.2.1.1 (List.mem_of_getLast? same)
        rw [inner, if_neg apart, ends, inner, List.getLast?_append_of_ne_nil _ empty]
    · rw [holds.without_other member same, ← holds.last]
      split
      · exact Function.update_of_ne same _ _
      · rfl
  · exact holds.single other other' node (List.mem_of_mem_erase here) (List.mem_of_mem_erase there)

/-! #### Enlisting -/

/-- Lists stay apart when one of them grows by a node that was on none. -/
theorem Lists.single_update (holds : Lists state children)
    (outside : ∀ other, this ∉ children other) {grown : List Nat}
    (members : ∀ node ∈ grown, node = this ∨ node ∈ children root) (other other' node : Nat)
    (here : node ∈ Function.update children root grown other)
    (there : node ∈ Function.update children root grown other') : other = other' := by
  have cases : ∀ index, node ∈ Function.update children root grown index →
      index = root ∧ node = this ∨ node ∈ children index := by
    intro index member
    by_cases same : index = root
    · rw [same, Function.update_self] at member
      rcases members node member with new | old
      · exact Or.inl ⟨same, new⟩
      · exact Or.inr (same ▸ old)
    · rw [Function.update_of_ne same] at member
      exact Or.inr member
  rcases cases other here with ⟨rfl, rfl⟩ | member
  · rcases cases other' there with ⟨rfl, _⟩ | member'
    · rfl
    · exact absurd member' (outside other')
  · rcases cases other' there with ⟨rfl, rfl⟩ | member'
    · exact absurd member (outside other)
    · exact holds.single other other' node member member'

theorem enlistTail_tail (state : State) (this root : Nat) :
    (enlistTail state this root).tail = Function.update state.tail root (some this) := by
  unfold enlistTail
  dsimp only
  split
  · rfl
  · split <;> rfl

/-- A node that leads nowhere and is on no list can be put behind a list. -/
theorem Lists.enlistTail (holds : Lists state children) (outside : ∀ other, this ∉ children other)
    (nowhere : state.next this = none) (root : Nat) :
    Lists (enlistTail state this root)
      (Function.update children root (children root ++ [this])) := by
  have grown : (children root ++ [this]).Nodup := by
    rw [List.nodup_append]
    refine ⟨holds.once root, List.nodup_singleton _, fun node member _ single same => ?_⟩
    rw [List.mem_singleton.mp single] at same
    exact outside root (same ▸ member)
  refine ⟨fun other => ?_, fun other => ?_, fun other => ?_, holds.single_update outside ?_⟩
  · rcases List.eq_nil_or_concat' (children root) with empty | ⟨earlier, last, whole⟩
    · have none_ : state.head root = none := by rw [holds.head_eq, empty]; rfl
      by_cases same : other = root
      · rw [same, Function.update_self, empty]
        simp only [NamedTree.enlistTail, none_, if_true, Function.update_self]
        exact ⟨rfl, nowhere⟩
      · rw [Function.update_of_ne same]
        simp only [NamedTree.enlistTail, none_, if_true, Function.update_of_ne same]
        exact holds.path other
    · have some_ : state.head root ≠ none := by
        rw [holds.head_eq, whole]
        simp
      have ends : state.tail root = some last := by rw [holds.last, whole, List.getLast?_concat]
      simp only [NamedTree.enlistTail, some_, if_false, ends]
      by_cases same : other = root
      · rw [same, Function.update_self]
        have path := holds.path root
        have once := holds.once root
        have apart := outside root
        rw [whole] at path once apart ⊢
        exact path.pushBack once apart nowhere
      · rw [Function.update_of_ne same]
        refine (holds.path other).congr fun node member => Function.update_of_ne ?_ _ _
        have on : last ∈ children root := by simp [whole]
        exact ne_of_mem_of_not_mem member (holds.other_not_mem on same)
  · rw [enlistTail_tail]
    by_cases same : other = root
    · rw [same, Function.update_self, Function.update_self, List.getLast?_concat]
    · rw [Function.update_of_ne same, Function.update_of_ne same, holds.last]
  · by_cases same : other = root
    · rw [same, Function.update_self]
      exact grown
    · rw [Function.update_of_ne same]
      exact holds.once other
  · intro node member
    rcases List.mem_append.mp member with old | new
    · exact Or.inr old
    · exact Or.inl (List.mem_singleton.mp new)

/-- A node that is on no list can be put in front of a list. -/
theorem Lists.enlistHead (holds : Lists state children) (outside : ∀ other, this ∉ children other)
    (root : Nat) :
    Lists (enlistHead state this root)
      (Function.update children root (this :: children root)) := by
  have links : (NamedTree.enlistHead state this root).next =
      Function.update state.next this (state.head root) := by
    unfold NamedTree.enlistHead
    cases whole : children root with
    | nil =>
      have none_ : state.tail root = none := by rw [holds.last, whole]; rfl
      have none' : state.head root = none := by rw [holds.head_eq, whole]; rfl
      simp [none_, none']
    | cons first rest =>
      have some_ : state.tail root ≠ none := by
        rw [holds.last, whole]
        simp
      have some' : state.head root ≠ none := by
        rw [holds.head_eq, whole]
        simp
      simp [some_, some']
  have heads : (NamedTree.enlistHead state this root).head =
      Function.update state.head root (some this) := by
    unfold NamedTree.enlistHead
    dsimp only
    split
    · rfl
    · split <;> rfl
  have tails : (NamedTree.enlistHead state this root).tail =
      if state.tail root = none then Function.update state.tail root (some this)
      else state.tail := by
    unfold NamedTree.enlistHead
    dsimp only
    split
    · rfl
    · split <;> rfl
  refine ⟨fun other => ?_, fun other => ?_, fun other => ?_, holds.single_update outside ?_⟩
  · rw [links, heads]
    by_cases same : other = root
    · rw [same, Function.update_self, Function.update_self]
      exact (holds.path root).push (outside root)
    · rw [Function.update_of_ne same, Function.update_of_ne same]
      refine (holds.path other).congr fun node member => Function.update_of_ne ?_ _ _
      exact ne_of_mem_of_not_mem member (outside other)
  · rw [tails, holds.last root]
    by_cases same : other = root
    · rw [same, Function.update_self]
      cases whole : children root with
      | nil => simp
      | cons first rest => simp [holds.last, whole]
    · rw [Function.update_of_ne same]
      split
      · rw [Function.update_of_ne same, holds.last]
      · exact holds.last other
  · by_cases same : other = root
    · rw [same, Function.update_self]
      exact List.nodup_cons.mpr ⟨outside root, holds.once root⟩
    · rw [Function.update_of_ne same]
      exact holds.once other
  · intro node member
    exact List.mem_cons.mp member

/-! #### Operations -/

@[simp] theorem enlistTail_parent (state : State) (this root : Nat) :
    (enlistTail state this root).parent = state.parent := by
  unfold enlistTail
  dsimp only
  split
  · rfl
  · split <;> rfl

@[simp] theorem enlistTail_count (state : State) (this root : Nat) :
    (enlistTail state this root).count = state.count := by
  unfold enlistTail
  dsimp only
  split
  · rfl
  · split <;> rfl

@[simp] theorem enlistHead_parent (state : State) (this root : Nat) :
    (enlistHead state this root).parent = state.parent := by
  unfold enlistHead
  dsimp only
  split
  · rfl
  · split <;> rfl

@[simp] theorem enlistHead_count (state : State) (this root : Nat) :
    (enlistHead state this root).count = state.count := by
  unfold enlistHead
  dsimp only
  split
  · rfl
  · split <;> rfl

/-- Parents and children are constructed nodes. -/
def Bounded (state : State) : Prop :=
  ∀ node root, state.parent node = some root → node < state.count ∧ root < state.count

/-- What every step that keeps the links straight preserves. -/
structure Invariant (state : State) (children : Nat → List Nat) : Prop where
  children : Children state children
  bounded : Bounded state

namespace Invariant

theorem length_le (holds : Invariant state children) (root : Nat) :
    (children root).length ≤ state.count := by
  have inside : (children root).toFinset ⊆ Finset.range state.count := by
    intro node member
    rw [List.mem_toFinset, holds.children.parented] at member
    exact Finset.mem_range.mpr (holds.bounded node root member).1
  have card := Finset.card_le_card inside
  rwa [List.toFinset_card_of_nodup (holds.children.lists.once root), Finset.card_range] at card

theorem not_mem_of_free (holds : Invariant state children) (free : state.parent this = none)
    (root : Nat) : this ∉ children root := by
  intro member
  rw [holds.children.parented, free] at member
  cases member

/-- A node with no parent is on no list. -/
theorem without_of_free (holds : Invariant state children) (free : state.parent this = none) :
    without this children = children := by
  funext root
  exact List.erase_of_not_mem (holds.not_mem_of_free free root)

theorem mem_without (holds : Invariant state children) (root node : Nat) :
    node ∈ without this children root ↔ node ≠ this ∧ node ∈ children root :=
  (holds.children.lists.once root).mem_erase_iff

/-- A node leaves the list of its parent, and keeps its own link. -/
theorem leaveParent (holds : Invariant state children) (this : Nat) :
    ∃ left, leaveParent state this = some left ∧ Lists left (without this children) ∧
      left.parent = state.parent ∧ left.count = state.count ∧
      left.next this = state.next this := by
  unfold NamedTree.leaveParent
  cases on : state.parent this with
  | none =>
    refine ⟨state, rfl, ?_, rfl, rfl, rfl⟩
    rw [holds.without_of_free on]
    exact holds.children.lists
  | some root =>
    obtain ⟨first, last, whole⟩ :=
      List.append_of_mem ((holds.children.parented root this).mpr on)
    obtain ⟨left, delists, taken⟩ :=
      NamedTree.delisted holds.children.lists whole (holds.length_le root)
    obtain ⟨lists, kept⟩ := holds.children.lists.delisted whole taken
    exact ⟨left, delists, lists, taken.parent, taken.count, kept⟩

/-- The children after a node has got another parent: it is on the list of the new one, and the
other nodes are where they were. -/
theorem moved (holds : Invariant state children) {trunk : Option Nat} {lists : Nat → List Nat}
    (held : Lists target lists) (parent : target.parent = Function.update state.parent this trunk)
    (members : ∀ root node, node ∈ lists root ↔
      node = this ∧ trunk = some root ∨ node ≠ this ∧ node ∈ children root) :
    Children target lists := by
  refine ⟨held, fun root node => ?_⟩
  rw [members, parent, holds.children.parented]
  by_cases same : node = this
  · simp [same]
  · simp [same]

/-- A relisting leaves everything as it is when the parent does not change; otherwise the node
leaves its list, gets the new parent and is enlisted there. -/
theorem relist (holds : Invariant state children) (enlist : State → Nat → Nat → State)
    (this : Nat) (trunk : Option Nat) :
    state.parent this = trunk ∧ relist enlist state this trunk = some state ∨
      state.parent this ≠ trunk ∧ ∃ moved, Lists moved (without this children) ∧
        moved.parent = Function.update state.parent this trunk ∧ moved.count = state.count ∧
        moved.next this = state.next this ∧
        relist enlist state this trunk =
          some (trunk.elim moved fun trunk => enlist moved this trunk) := by
  by_cases same : state.parent this = trunk
  · exact Or.inl ⟨same, if_pos same⟩
  · obtain ⟨left, leaves, lists, parent, count, next⟩ := holds.leaveParent this
    refine Or.inr ⟨same, { left with parent := Function.update left.parent this trunk },
      ⟨lists.path, lists.last, lists.once, lists.single⟩, by rw [parent], count, next, ?_⟩
    rw [NamedTree.relist, if_neg same, leaves]
    cases trunk <;> rfl

theorem bounded_moved (holds : Invariant state children) {trunk : Option Nat}
    (parent : target.parent = Function.update state.parent this trunk)
    (count : target.count = state.count) (constructed : this < state.count)
    (inside : ∀ root, trunk = some root → root < state.count) : Bounded target := by
  intro node root on
  rw [parent] at on
  rw [count]
  by_cases same : node = this
  · rw [same, Function.update_self] at on
    rw [same]
    exact ⟨constructed, inside root on⟩
  · rw [Function.update_of_ne same] at on
    exact holds.bounded node root on

/-- A relisting to no parent takes the node off its list. -/
theorem relist_none (holds : Invariant state children) (enlist : State → Nat → Nat → State)
    (constructed : this < state.count)
    (relists : NamedTree.relist enlist state this none = some target) :
    Invariant target (without this children) := by
  rcases holds.relist enlist this none with
    ⟨free, stays⟩ | ⟨_, moved, lists, parent, count, _, moves⟩
  · rw [relists] at stays
    cases stays
    rw [holds.without_of_free free]
    exact holds
  · rw [relists] at moves
    cases moves
    refine ⟨holds.moved lists parent fun root node => ?_,
      holds.bounded_moved parent count constructed fun root on => by cases on⟩
    rw [holds.mem_without]
    simp

/-- A relisting to a parent puts the node where it is enlisted, provided that the enlisting puts
it on the list of the parent. -/
theorem relist_some (holds : Invariant state children) {enlist : State → Nat → Nat → State}
    {trunk : Nat} {grown : List Nat} (constructed : this < state.count)
    (inside : trunk < state.count)
    (parents : ∀ state, (enlist state this trunk).parent = state.parent)
    (counts : ∀ state, (enlist state this trunk).count = state.count)
    (members : ∀ node, node ∈ grown ↔ node = this ∨ node ∈ children trunk)
    (enlists : ∀ moved, Lists moved (without this children) → moved.next this = state.next this →
      this ∉ children trunk →
      Lists (enlist moved this trunk) (Function.update (without this children) trunk grown))
    (relists : NamedTree.relist enlist state this (some trunk) = some target) :
    Invariant target (if this ∈ children trunk then children
      else Function.update (without this children) trunk grown) := by
  rcases holds.relist enlist this (some trunk) with
    ⟨on, stays⟩ | ⟨off, moved, lists, parent, count, next, moves⟩
  · rw [relists] at stays
    cases stays
    rw [if_pos ((holds.children.parented trunk this).mpr on)]
    exact holds
  · rw [relists] at moves
    cases moves
    have outside : this ∉ children trunk := mt (holds.children.parented trunk this).mp off
    rw [if_neg outside]
    have parent' : (enlist moved this trunk).parent =
        Function.update state.parent this (some trunk) := by rw [parents, parent]
    have count' : (enlist moved this trunk).count = state.count := by rw [counts, count]
    refine ⟨holds.moved (enlists moved lists next outside) parent' fun root node => ?_,
      holds.bounded_moved parent' count' constructed fun root on => by cases on; exact inside⟩
    by_cases same : root = trunk
    · rw [same, Function.update_self, members]
      by_cases equal : node = this
      · simp [equal]
      · simp [equal]
    · rw [Function.update_of_ne same, holds.mem_without]
      simp [Ne.symm same]

end Invariant

theorem Invariant.fresh (holds : Invariant state children) :
    state.parent state.count = none ∧ children state.count = [] := by
  constructor
  · by_contra on
    obtain ⟨root, on⟩ := Option.ne_none_iff_exists'.mp on
    exact Nat.lt_irrefl _ (holds.bounded _ _ on).1
  · refine List.eq_nil_iff_forall_not_mem.mpr fun node member => ?_
    rw [holds.children.parented] at member
    exact Nat.lt_irrefl _ (holds.bounded _ _ member).2

/-- A new node has no children and is nobody's child. -/
theorem Invariant.construct (holds : Invariant state children) (id : Option String) :
    Invariant (construct state state.count id) children := by
  obtain ⟨free, empty⟩ := holds.fresh
  have outside := holds.not_mem_of_free free
  refine ⟨⟨⟨fun root => ?_, fun root => ?_, holds.children.lists.once,
    holds.children.lists.single⟩, fun root node => ?_⟩, fun node root on => ?_⟩
  · by_cases same : root = state.count
    · rw [same, empty]
      exact Function.update_self _ _ _
    · simp only [NamedTree.construct, Function.update_of_ne same]
      refine (holds.children.lists.path root).congr fun node member => Function.update_of_ne ?_ _ _
      exact ne_of_mem_of_not_mem member (outside root)
  · by_cases same : root = state.count
    · rw [same, empty]
      exact Function.update_self _ _ _
    · simp only [NamedTree.construct, Function.update_of_ne same, holds.children.lists.last]
  · by_cases same : node = state.count
    · simp [NamedTree.construct, same, outside root]
    · simp [NamedTree.construct, same, holds.children.parented]
  · have old : state.parent node = some root := by
      by_cases same : node = state.count
      · simp [NamedTree.construct, same] at on
      · simpa [NamedTree.construct, same] using on
    obtain ⟨below, above⟩ := holds.bounded node root old
    exact ⟨Nat.lt_succ_of_lt below, Nat.lt_succ_of_lt above⟩

/-- A new node under a parent is its last child. -/
theorem Invariant.constructUnder (holds : Invariant state children) {parent : Nat}
    (inside : parent < state.count) (id : Option String) :
    Invariant (constructUnder state state.count parent id)
      (Function.update children parent (children parent ++ [state.count])) := by
  have new := holds.construct none
  have free : (NamedTree.construct state state.count none).parent state.count = none :=
    Function.update_self _ _ _
  have outside := new.not_mem_of_free free
  have lists := new.children.lists.enlistTail outside (Function.update_self _ _ _) parent
  have lists' : Lists (NamedTree.constructUnder state state.count parent id)
      (Function.update children parent (children parent ++ [state.count])) :=
    ⟨lists.path, lists.last, lists.once, lists.single⟩
  have parents : (NamedTree.constructUnder state state.count parent id).parent =
      Function.update (NamedTree.construct state state.count none).parent state.count
        (some parent) := by
    simp [NamedTree.constructUnder]
  have counts : (NamedTree.constructUnder state state.count parent id).count =
      (NamedTree.construct state state.count none).count := by
    simp [NamedTree.constructUnder]
  refine ⟨new.moved lists' parents fun root node => ?_,
    new.bounded_moved parents counts (Nat.lt_succ_self _) fun root on => ?_⟩
  · by_cases same : root = parent
    · rw [same, Function.update_self]
      by_cases equal : node = state.count
      · simp [equal]
      · simp [equal]
    · rw [Function.update_of_ne same]
      by_cases equal : node = state.count
      · simp [equal, Ne.symm same, outside root]
      · simp [equal]
  · cases on
    exact Nat.lt_succ_of_lt inside

theorem intended_step (holds : Invariant state children) (action : Action)
    (allowed : Allowed state action) (nowhere : LeadsNowhere state action)
    (performed : perform state action = some target) :
    Invariant target (intended action children) := by
  cases action with
  | construct this id =>
    cases performed
    cases allowed
    exact holds.construct id
  | constructUnder this parent id =>
    obtain ⟨rfl, inside⟩ := allowed
    cases performed
    exact holds.constructUnder inside _
  | relistTail this trunk =>
    obtain ⟨constructed, outside⟩ := allowed
    cases trunk with
    | none => exact holds.relist_none enlistTail constructed performed
    | some trunk =>
      refine holds.relist_some constructed outside.1 (fun _ => enlistTail_parent _ _ _)
        (fun _ => enlistTail_count _ _ _) (by simp [or_comm]) ?_ performed
      intro moved lists next absent
      have free : moved.next this = none := by
        rcases nowhere with on | none_
        · exact absurd ((holds.children.parented trunk this).mpr on) absent
        · rw [next, none_]
      have off : ∀ other, this ∉ without this children other := fun other member =>
        ((holds.mem_without other this).mp member).1 rfl
      have same : without this children trunk = children trunk := List.erase_of_not_mem absent
      rw [← same]
      exact lists.enlistTail off free trunk
  | relistHead this trunk =>
    obtain ⟨constructed, outside⟩ := allowed
    cases trunk with
    | none => exact holds.relist_none enlistHead constructed performed
    | some trunk =>
      refine holds.relist_some constructed outside.1 (fun _ => enlistHead_parent _ _ _)
        (fun _ => enlistHead_count _ _ _) (by simp) ?_ performed
      intro moved lists _ absent
      have off : ∀ other, this ∉ without this children other := fun other member =>
        ((holds.mem_without other this).mp member).1 rfl
      have same : without this children trunk = children trunk := List.erase_of_not_mem absent
      rw [← same]
      exact lists.enlistHead off trunk
  | remove this =>
    have free : state.parent this = none := nowhere
    rw [intended, holds.without_of_free free]
    simp only [perform, remove, leaveParent, free, Option.map_some, Option.some_inj] at performed
    subst performed
    have lists := holds.children.lists
    exact ⟨⟨⟨lists.path, lists.last, lists.once, lists.single⟩, holds.children.parented⟩,
      holds.bounded⟩

/-- On consistent child lists every operation comes to an end. -/
theorem Invariant.ends (holds : Invariant state children) (action : Action) :
    (perform state action).isSome := by
  have relists : ∀ enlist this trunk, (NamedTree.relist enlist state this trunk).isSome := by
    intro enlist this trunk
    rcases holds.relist enlist this trunk with ⟨_, stays⟩ | ⟨_, moved, _, _, _, _, moves⟩
    · rw [stays]
      rfl
    · rw [moves]
      rfl
  cases action with
  | construct this id => rfl
  | constructUnder this parent id => rfl
  | relistTail this trunk => exact relists enlistTail this trunk
  | relistHead this trunk => exact relists enlistHead this trunk
  | remove this =>
    obtain ⟨left, leaves, _⟩ := holds.leaveParent this
    simp [perform, remove, leaves]

/-! #### Stale links and parents -/

/-- The last child leads nowhere. -/
theorem Lists.next_of_tail (holds : Lists state children) {last : Nat}
    (ends : state.tail root = some last) : state.next last = none := by
  have path := holds.path root
  rw [holds.last, List.getLast?_eq_some_iff] at ends
  obtain ⟨earlier, whole⟩ := ends
  rw [whole] at path
  obtain ⟨_, _, _, stops⟩ := Path.append_iff.mp path
  exact stops

/-- A node that is enlisted at the tail keeps its own link. -/
theorem Lists.enlistTail_next (holds : Lists state children)
    (outside : ∀ other, this ∉ children other) (root : Nat) :
    (NamedTree.enlistTail state this root).next this = state.next this := by
  unfold NamedTree.enlistTail
  dsimp only
  split
  · rfl
  · split
    next last ends =>
      rw [holds.last] at ends
      have apart : this ≠ last := fun same =>
        outside root (same ▸ List.mem_of_getLast? ends)
      exact Function.update_of_ne apart _ _
    next => rfl

/-- A node that is moved to the tail of another list with a link of its own, or removed from under
a parent, leaves child lists that are not consistent. -/
theorem not_children_of_not_leadsNowhere (holds : Invariant state children) (action : Action)
    (leads : ¬ LeadsNowhere state action) (performed : perform state action = some target)
    (children' : Nat → List Nat) : ¬ Children target children' := by
  intro held
  have gone : ∀ this other, this ∉ without this children other := fun this other member =>
    ((holds.mem_without other this).mp member).1 rfl
  match action with
  | .relistTail this (some trunk) =>
    obtain ⟨off, onward⟩ := not_or.mp leads
    rcases holds.relist enlistTail this (some trunk) with
      ⟨on, _⟩ | ⟨_, moved, lists, _, _, next, moves⟩
    · exact off on
    · rw [Option.elim_some] at moves
      cases performed.symm.trans moves
      have ends : (enlistTail moved this trunk).tail trunk = some this := by
        rw [enlistTail_tail, Function.update_self]
      have stops := held.lists.next_of_tail ends
      rw [lists.enlistTail_next (gone this), next] at stops
      exact onward stops
  | .remove this =>
    obtain ⟨root, on⟩ := Option.ne_none_iff_exists'.mp leads
    obtain ⟨left, leaves, lists, parent, _⟩ := holds.leaveParent this
    simp only [perform, remove, leaves, Option.map_some, Option.some_inj] at performed
    subst performed
    have member : this ∈ children' root := by
      rw [held.parented, parent]
      exact on
    rw [(held.lists.path root).unique (lists.path root)] at member
    exact gone this root member
  | .construct _ _ | .constructUnder _ _ _ | .relistTail _ none | .relistHead _ _ =>
    exact leads trivial

theorem step_eq_some {action : Action} :
    machine.step state action = some target ↔
      Allowed state action ∧ perform state action = some target := by
  simp [machine]

/-- In a run of any program on a forest of nodes the child lists are always consistent, with each
node on the list of its parent and on no other, and every operation leaves the lists it is for and
comes to an end, exactly when every node moved to the tail of another list leads nowhere and every
node removed has no parent. -/
theorem namedTree_children_iff {moves : List (Move State Action)} {state : State}
    (run : machine.Run moves state) :
    (Machine.Throughout Consistent moves state ∧ ∀ move ∈ moves, Intended move) ↔
      Machine.Meets LeadsNowhere moves := by
  refine run.sound_throughout_iff_meets (fun state => ∃ children, Invariant state children)
    ?_ ?_ ?_ ?_
  · rintro state rfl
    refine ⟨fun _ => [], ⟨⟨fun _ => rfl, fun _ => rfl, fun _ => List.nodup_nil, ?_⟩, ?_⟩, ?_⟩
    · intro _ _ _ member
      cases member
    · simp [State.empty]
    · intro _ _ on
      cases on
  · rintro source action target ⟨children, holds⟩ nowhere stepped
    obtain ⟨allowed, performed⟩ := step_eq_some.mp stepped
    refine ⟨⟨_, intended_step holds action allowed nowhere performed⟩, fun children' held => ?_⟩
    exact (intended_step ⟨held, holds.bounded⟩ action allowed nowhere performed).children
  · rintro state ⟨children, holds⟩
    refine ⟨⟨children, holds.children⟩, fun action allowed => ?_⟩
    simpa only [machine, if_pos allowed] using holds.ends action
  · rintro source action target ⟨children, holds⟩ leads stepped ⟨⟨children', held⟩, _⟩
    obtain ⟨_, performed⟩ := step_eq_some.mp stepped
    exact absurd held (not_children_of_not_leadsNowhere holds action leads performed children')

instance (state : State) : (action : Action) → Decidable (LeadsNowhere state action)
  | .relistTail this (some trunk) =>
    inferInstanceAs (Decidable (state.parent this = some trunk ∨ state.next this = none))
  | .remove this => inferInstanceAs (Decidable (state.parent this = none))
  | .construct _ _ | .constructUnder _ _ _ | .relistTail _ none | .relistHead _ _ =>
    inferInstanceAs (Decidable True)

/-- Two children of a first node move to the head and to the tail of the list of another, the last
one first. -/
theorem namedTree_children_iff_moved :
    ∃ moves state, machine.Run moves state ∧ state.head 3 = some 1 ∧ state.next 1 = some 2 ∧
      state.tail 3 = some 2 ∧ state.head 0 = none ∧
      Machine.Throughout Consistent moves state ∧ ∀ move ∈ moves, Intended move := by
  let played := (machine.restrict LeadsNowhere).play .empty
    [.construct 0 none, .constructUnder 1 0 "a", .constructUnder 2 0 "b", .construct 3 none,
      .relistTail 2 (some 3), .relistHead 1 (some 3)]
  obtain ⟨moves, restricted⟩ : (machine.restrict LeadsNowhere).Reachable
      (played.get (by decide)) := Machine.reachable_get rfl _
  obtain ⟨run, meets⟩ := restricted.of_restrict
  obtain ⟨consistent, intended⟩ := (namedTree_children_iff run).mpr meets
  exact ⟨moves, _, run, by decide, by decide, by decide, by decide, consistent, intended⟩

/-- The first of two children moves to another node: it is the tail of the list there, and still
leads to its old sibling. -/
theorem namedTree_drags_sibling :
    ∃ moves state, machine.Run moves state ∧ state.tail 3 = some 1 ∧ state.next 1 = some 2 ∧
      state.parent 2 = some 0 ∧ ¬ Machine.Throughout Consistent moves state := by
  let played := machine.play .empty
    [.construct 0 none, .constructUnder 1 0 "a", .constructUnder 2 0 "b", .construct 3 none,
      .relistTail 1 (some 3)]
  obtain ⟨moves, run⟩ : machine.Reachable (played.get (by decide)) :=
    Machine.reachable_get rfl _
  have ends : (played.get (by decide)).tail 3 = some 1 := by decide
  have onward : (played.get (by decide)).next 1 = some 2 := by decide
  refine ⟨moves, _, run, ends, onward, by decide, fun throughout => ?_⟩
  obtain ⟨children, held⟩ := throughout.1.1
  rw [held.lists.next_of_tail ends] at onward
  cases onward

end NamedTree

end CommonCpp
