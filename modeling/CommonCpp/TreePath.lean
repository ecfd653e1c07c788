/-
This file models how `NamedTree::path` follows a text of dots and names through a tree.

Every dot at the start leads to the parent, and every name behind it to the first child of
that name. A name is cut out of a copy of the text that is left, which holds 64 characters.
A longer name leads to the child that is named like its first 64 characters, and not to its
own. So `path` goes the way of the names as long as they have at most 64 characters. From a
longer one on it goes another way, and no two ways from different siblings meet again: it
comes to the same end only when both ways come to none.
-/

import Mathlib.Data.List.TakeWhile
import CommonCpp.Links
import CommonCpp.TreeSearch

namespace CommonCpp

open Memory

namespace NamedTree

namespace Nodes

variable {Node : Type}

/-! ### The code -/

/-- The loop of `getChild` from a child on, over so many children at most. -/
def getChildLoop (nodes : Nodes Node) (tid : Text) : ℕ → Option Node → Option (Option Node)
  | _, none => some none
  | 0, some _ => none
  | fuel + 1, some node =>
    if nodes.eq node tid then some (some node) else getChildLoop nodes tid fuel (nodes.next node)

/-- `getChild(tid)`. -/
def getChild (nodes : Nodes Node) (fuel : ℕ) (this : Node) (tid : Text) : Option (Option Node) :=
  getChildLoop nodes tid fuel (nodes.child this)

/-- `while(*tid == '.')`: what is left of the text, and the node. It is null when a node has no
parent. -/
def climb (nodes : Nodes Node) : Text → Node → Option (Text × Node)
  | [], node => some ([], node)
  | c :: tid, node =>
    if c = 0x2e then (nodes.parent node).bind (climb nodes tid) else some (c :: tid, node)

/-- What is behind the first dot of a text, if it has one. -/
def behindDot (tid : Text) : Option Text := (tid.dropWhile (· ≠ 0x2e)).tail?

/-- `while(tid && *tid && node)`, which goes round so often at most. -/
def descend (nodes : Nodes Node) (fuel : ℕ) : ℕ → Option Text → Option Node → Option (Option Node)
  | _, none, node => some node
  | _, some [], node => some node
  | _, some _, none => some none
  | 0, some (_ :: _), some _ => none
  | rounds + 1, some tid, some node =>
    -- `buf` has room for 64 characters and a null
    let buf := (tid.take 64).takeWhile (· ≠ 0x2e)
    (nodes.getChild fuel node buf).bind (descend nodes fuel rounds (behindDot tid))

/-- `path(tid)`. -/
def path (nodes : Nodes Node) (fuel : ℕ) (this : Node) (tid : Text) : Option (Option Node) :=
  if tid = [] then some (some this)
  else
    match nodes.climb tid this with
    | none => some none
    | some (tid, node) => nodes.descend fuel tid.length (some tid) (some node)

/-! ### Ways through a tree -/

/-- The children of each node, which its list leads through, and which have it as their parent. -/
structure Branches (nodes : Nodes Node) (children : Node → List Node) : Prop where
  path : ∀ node, Path nodes.next (nodes.child node) (children node) none
  parented : ∀ node, ∀ child ∈ children node, nodes.parent child = some node

/-- So many parents up. -/
def ups (nodes : Nodes Node) : ℕ → Node → Option Node
  | 0, node => some node
  | count + 1, node => (nodes.parent node).bind (ups nodes count)

/-- The first child of this name. -/
def firstChild (nodes : Nodes Node) (children : Node → List Node) (name : Text) (node : Node) :
    Option Node :=
  (children node).find? fun child => nodes.id child = some name

/-- From first child to first child, by these names. -/
def follow (nodes : Nodes Node) (children : Node → List Node) : List Text → Node → Option Node
  | [], node => some node
  | name :: names, node =>
    (nodes.firstChild children name node).bind (follow nodes children names)

/-- A component of a path. -/
def Component (name : Text) : Prop := name ≠ [] ∧ 0x2e ∉ name

/-- So many dots, and the names with a dot between each and the next. -/
def dotted (dots : ℕ) (names : List Text) : Text :=
  List.replicate dots 0x2e ++ [0x2e].intercalate names

/-- What is left of the names in the buffer. -/
def clipped (names : List Text) : List Text := names.map (List.take 64)

/-- As far as the names lead from a node, they are no longer than the buffer; or else, from the
first longer one on, they lead to no node, and what is left of them leads to none. -/
def Uncut (nodes : Nodes Node) (children : Node → List Node) : List Text → Node → Prop
  | [], _ => True
  | name :: names, node =>
    if name.length ≤ 64 then
      ∀ child ∈ nodes.firstChild children name node, Uncut nodes children names child
    else
      nodes.follow children (name :: names) node = none ∧
        nodes.follow children (clipped (name :: names)) node = none

variable {nodes : Nodes Node} {children : Node → List Node} {fuel : ℕ} {name : Text}
  {names : List Text} {node this : Node}

/-! #### Texts -/

/-- The buffer holds as much of a name as there is room for. -/
theorem takeWhile_take_name (noDot : 0x2e ∉ name) {rest : Text} (ends : rest.head?.all (· = 0x2e)) :
    ((name ++ rest).take 64).takeWhile (· ≠ 0x2e) = name.take 64 := by
  have whole : ∀ c ∈ name.take 64, decide (c ≠ 0x2e) = true := fun c member =>
    decide_eq_true (ne_of_mem_of_not_mem (List.mem_of_mem_take member) noDot)
  rw [List.take_append, List.takeWhile_append_of_pos whole]
  have stops : (rest.take (64 - name.length)).takeWhile (· ≠ 0x2e) = [] := by
    cases rest with
    | nil => rw [List.take_nil, List.takeWhile_nil]
    | cons c rest =>
      have dot : c = 0x2e := of_decide_eq_true ends
      cases 64 - name.length with
      | zero => rfl
      | succ room => rw [List.take_succ_cons, List.takeWhile_cons_of_neg (by simp [dot])]
  rw [stops, List.append_nil]

theorem behindDot_name (noDot : 0x2e ∉ name) : behindDot name = none := by
  have whole : name.dropWhile (· ≠ 0x2e) = [] :=
    List.dropWhile_eq_nil_iff.mpr fun c member =>
      decide_eq_true (ne_of_mem_of_not_mem member noDot)
  rw [behindDot, whole]
  rfl

theorem behindDot_append (noDot : 0x2e ∉ name) (rest : Text) :
    behindDot (name ++ 0x2e :: rest) = some rest := by
  have whole : ∀ c ∈ name, decide (c ≠ 0x2e) = true := fun c member =>
    decide_eq_true (ne_of_mem_of_not_mem member noDot)
  rw [behindDot, List.dropWhile_append_of_pos whole, List.dropWhile_cons_of_neg (by simp)]
  rfl

/-! #### Steps -/

/-- The loop comes to the first child of the name that the list leads to. -/
theorem getChildLoop_eq (named : name ≠ []) {list : List Node} {pointer : Option Node}
    (path : Path nodes.next pointer list none) (enough : list.length ≤ fuel) :
    nodes.getChildLoop name fuel pointer =
      some (list.find? fun child => nodes.id child = some name) := by
  induction list generalizing pointer fuel with
  | nil =>
    cases path
    cases fuel <;> rfl
  | cons child list inductionHypothesis =>
    obtain ⟨rfl, onward⟩ := path
    cases fuel with
    | zero => cases enough
    | succ fuel =>
      rw [getChildLoop, inductionHypothesis onward (Nat.le_of_succ_le_succ enough)]
      by_cases same : nodes.id child = some name
      · rw [if_pos ((eq_iff named).mpr same), List.find?_cons_of_pos (by simpa using same)]
      · rw [if_neg (mt (eq_iff named).mp same), List.find?_cons_of_neg (by simpa using same)]

/-- `getChild` comes to the first child of the name. -/
theorem getChild_eq (branches : Branches nodes children) (named : name ≠ [])
    (enough : (children node).length ≤ fuel) :
    nodes.getChild fuel node name = some (nodes.firstChild children name node) :=
  getChildLoop_eq named (branches.path node) enough

/-- One parent for each dot. -/
theorem climb_dots (dots : ℕ) {tid : Text} (starts : tid.head? ≠ some 0x2e) :
    nodes.climb (List.replicate dots 0x2e ++ tid) node =
      (nodes.ups dots node).map fun node => (tid, node) := by
  induction dots generalizing node with
  | zero =>
    cases tid with
    | nil => rfl
    | cons c tid =>
      have other : c ≠ 0x2e := fun dot => starts (congrArg some dot)
      exact if_neg other
  | succ dots inductionHypothesis =>
    rw [List.replicate_succ, List.cons_append, climb, if_pos rfl, ups]
    cases nodes.parent node with
    | none => rfl
    | some parent => exact inductionHypothesis

/-- A name, and what is behind it. -/
theorem joined (names : List Text) (noDot : 0x2e ∉ name) :
    ∃ rest : Text, [0x2e].intercalate (name :: names) = name ++ rest ∧
      rest.head?.all (· = 0x2e) ∧
      behindDot (name ++ rest) = if names = [] then none else some ([0x2e].intercalate names) := by
  by_cases last : names = []
  · refine ⟨[], ?_, rfl, ?_⟩
    · rw [last, List.intercalate_singleton, List.append_nil]
    · rw [List.append_nil, behindDot_name noDot, if_pos last]
  · refine ⟨0x2e :: [0x2e].intercalate names, ?_, rfl, ?_⟩
    · rw [List.intercalate_cons_of_ne_nil last, List.append_assoc, List.singleton_append]
    · rw [behindDot_append noDot, if_neg last]

theorem descend_succ (fuel rounds : ℕ) {tid : Text} (filled : tid ≠ []) :
    nodes.descend fuel (rounds + 1) (some tid) (some node) =
      (nodes.getChild fuel node ((tid.take 64).takeWhile (· ≠ 0x2e))).bind
        (nodes.descend fuel rounds (behindDot tid)) := by
  cases tid with
  | nil => exact absurd rfl filled
  | cons c tid => rfl

theorem descend_null (fuel rounds : ℕ) (tid : Option Text) :
    nodes.descend fuel rounds tid none = some none := by
  cases tid with
  | none => cases rounds <;> rfl
  | some tid => cases tid <;> cases rounds <;> rfl

/-- The text leads where what is left of the names leads. -/
theorem descend_eq (branches : Branches nodes children)
    (few : ∀ node, (children node).length ≤ fuel) (components : ∀ name ∈ names, Component name)
    {rounds : ℕ} (enough : names.length ≤ rounds) :
    nodes.descend fuel rounds (some ([0x2e].intercalate names)) (some node) =
      some (nodes.follow children (clipped names) node) := by
  induction names generalizing node rounds with
  | nil => cases rounds <;> rfl
  | cons name names inductionHypothesis =>
    obtain ⟨⟨named, noDot⟩, others⟩ := List.forall_mem_cons.mp components
    have left : name.take 64 ≠ [] := by
      rw [Ne, List.take_eq_nil_iff]
      exact not_or.mpr ⟨by decide, named⟩
    obtain ⟨rest, text, ends, behind⟩ := joined names noDot
    cases rounds with
    | zero => cases enough
    | succ rounds =>
      have filled : name ++ rest ≠ [] := fun empty => named (List.append_eq_nil_iff.mp empty).1
      rw [text, descend_succ fuel rounds filled, takeWhile_take_name noDot ends,
        getChild_eq branches left (few node), Option.bind_some, behind, clipped, List.map_cons,
        follow]
      cases nodes.firstChild children (name.take 64) node with
      | none => exact descend_null fuel rounds _
      | some child =>
        rw [Option.bind_some]
        by_cases last : names = []
        · rw [if_pos last, last]
          cases rounds <;> rfl
        · rw [if_neg last]
          exact inductionHypothesis others (Nat.le_of_succ_le_succ enough)

theorem length_le_intercalate (components : ∀ name ∈ names, Component name) :
    names.length ≤ ([0x2e].intercalate names).length := by
  induction names with
  | nil => exact Nat.zero_le _
  | cons name names inductionHypothesis =>
    obtain ⟨⟨named, noDot⟩, others⟩ := List.forall_mem_cons.mp components
    have positive := List.length_pos_iff.mpr named
    have shorter := inductionHypothesis others
    by_cases last : names = []
    · rw [last, List.intercalate_singleton]
      exact positive
    · rw [List.intercalate_cons_of_ne_nil last, List.length_append, List.length_append,
        List.length_cons]
      omega

theorem head?_intercalate (components : ∀ name ∈ names, Component name) :
    ([0x2e].intercalate names).head? ≠ some 0x2e := by
  cases names with
  | nil => exact (Option.some_ne_none 0x2e).symm
  | cons name names =>
    obtain ⟨named, noDot⟩ := components name List.mem_cons_self
    obtain ⟨rest, text, -⟩ := joined names noDot
    rw [text, List.head?_append_of_ne_nil _ named]
    exact fun starts => noDot (List.mem_of_head? starts)

/-- `path` goes the way of what is left of the names. -/
theorem path_dotted (branches : Branches nodes children)
    (few : ∀ node, (children node).length ≤ fuel) (components : ∀ name ∈ names, Component name)
    (dots : ℕ) :
    nodes.path fuel this (dotted dots names) =
      some ((nodes.ups dots this).bind (nodes.follow children (clipped names))) := by
  rw [path, dotted, climb_dots dots (head?_intercalate components)]
  by_cases empty : List.replicate dots 0x2e ++ [0x2e].intercalate names = []
  · rw [if_pos empty]
    obtain ⟨none, nothing⟩ := List.append_eq_nil_iff.mp empty
    have shorter := length_le_intercalate components
    rw [nothing] at shorter
    obtain rfl := List.length_eq_zero_iff.mp (Nat.le_zero.mp shorter)
    obtain rfl := (List.replicate_eq_nil_iff 0x2e).mp none
    rfl
  · rw [if_neg empty]
    cases nodes.ups dots this with
    | none => rfl
    | some start =>
      exact descend_eq branches few components (length_le_intercalate components)

/-! #### Ways that part -/

theorem mem_firstChild {child : Node} (first : nodes.firstChild children name node = some child) :
    child ∈ children node ∧ nodes.id child = some name :=
  ⟨List.mem_of_find?_eq_some first, by simpa using List.find?_some first⟩

theorem ups_succ (count : ℕ) (node : Node) :
    nodes.ups (count + 1) node = (nodes.ups count node).bind nodes.parent := by
  induction count generalizing node with
  | zero => cases above : nodes.parent node <;> simp [ups, above]
  | succ count inductionHypothesis =>
    rw [ups, ups, Option.bind_assoc]
    exact Option.bind_congr fun parent _ => inductionHypothesis parent

/-- The node that names lead to is as far below as there are names. -/
theorem ups_follow (branches : Branches nodes children) {found : Node}
    (leads : nodes.follow children names node = some found) :
    nodes.ups names.length found = some node := by
  induction names generalizing node with
  | nil => exact leads.symm
  | cons name names inductionHypothesis =>
    obtain ⟨child, first, onward⟩ := Option.bind_eq_some_iff.mp leads
    rw [List.length_cons, ups_succ, inductionHypothesis onward, Option.bind_some]
    exact branches.parented node child (mem_firstChild first).1

/-- The way of the names and that of what is left of them come to the same end. -/
theorem uncut_iff (branches : Branches nodes children) :
    nodes.follow children (clipped names) node = nodes.follow children names node ↔
      nodes.Uncut children names node := by
  induction names generalizing node with
  | nil => exact iff_of_true rfl trivial
  | cons name names inductionHypothesis =>
    rw [Uncut]
    by_cases short : name.length ≤ 64
    · rw [if_pos short, clipped, List.map_cons, List.take_of_length_le short, follow, follow]
      cases nodes.firstChild children name node with
      | none => exact iff_of_true rfl fun _ member => by cases member
      | some child =>
        rw [Option.bind_some, Option.bind_some]
        exact inductionHypothesis.trans (by simp)
    · rw [if_neg short]
      refine ⟨fun same => ?_, fun nowhere => nowhere.2.trans nowhere.1.symm⟩
      cases leads : nodes.follow children (name :: names) node with
      | none => exact ⟨rfl, same.trans leads⟩
      | some found =>
        -- both ways lead up from the node again, to one child with two names
        obtain ⟨child, first, onward⟩ := Option.bind_eq_some_iff.mp leads
        obtain ⟨child', first', onward'⟩ := Option.bind_eq_some_iff.mp (same.trans leads)
        have up := ups_follow branches onward
        have up' := ups_follow branches onward'
        rw [List.length_map, up] at up'
        cases up'
        have two := (mem_firstChild first).2.symm.trans (mem_firstChild first').2
        have equal := congrArg List.length (Option.some_inj.mp two)
        rw [List.length_take] at equal
        omega

/-! #### Names that lead to a node -/

/-- A way down: each node is a child of the one before, of the next name. -/
def Down (nodes : Nodes Node) (children : Node → List Node) : List Text → Node → Node → Prop
  | [], node, found => node = found
  | name :: names, node, found => ∃ child ∈ children node, nodes.id child = some name ∧
      Down nodes children names child found

/-- Among siblings with different names the names lead down the way they are taken from. -/
theorem follow_of_down (distinct : ∀ node, ((children node).map nodes.id).Nodup) {found : Node}
    (down : nodes.Down children names node found) :
    nodes.follow children names node = some found := by
  induction names generalizing node with
  | nil => exact congrArg some down
  | cons name names inductionHypothesis =>
    obtain ⟨child, member, named, onward⟩ := down
    have first : nodes.firstChild children name node = some child := by
      obtain ⟨before, after, split⟩ := List.append_of_mem member
      have once := distinct node
      rw [split, List.map_append, List.map_cons, List.nodup_append] at once
      refine List.find?_eq_some_iff_append.mpr ⟨decide_eq_true named, before, after, split, ?_⟩
      intro other inBefore
      have differs := once.2.2 _ (List.mem_map_of_mem inBefore) _ List.mem_cons_self
      rw [named] at differs
      simpa using differs
    rw [follow, first, Option.bind_some]
    exact inductionHypothesis onward

/-- The names of a way are not cut exactly when none of them is too long. -/
theorem uncut_iff_of_follow {found : Node}
    (leads : nodes.follow children names node = some found) :
    nodes.Uncut children names node ↔ ∀ name ∈ names, name.length ≤ 64 := by
  induction names generalizing node with
  | nil => exact iff_of_true trivial fun _ member => by cases member
  | cons name names inductionHypothesis =>
    obtain ⟨child, first, onward⟩ := Option.bind_eq_some_iff.mp leads
    rw [Uncut, List.forall_mem_cons]
    by_cases short : name.length ≤ 64
    · rw [if_pos short, first, and_iff_right short, ← inductionHypothesis onward]
      simp
    · rw [if_neg short, leads]
      exact iff_of_false (fun nowhere => by cases nowhere.1) fun all => short all.1

/-- `path` comes to the node that the dots and the names lead to, or to null when they lead to none,
exactly when no name longer than 64 characters makes it go another way. From a node on, the names of
the way to another, with siblings of different names, lead `path` there exactly when none of them
has more than 64 characters. -/
theorem path_leads_iff (branches : Branches nodes children)
    (few : ∀ node, (children node).length ≤ fuel) (components : ∀ name ∈ names, Component name)
    (this : Node) :
    (∀ dots, nodes.path fuel this (dotted dots names) =
        some ((nodes.ups dots this).bind (nodes.follow children names)) ↔
      ∀ start ∈ nodes.ups dots this, nodes.Uncut children names start) ∧
    ((∀ node, ((children node).map nodes.id).Nodup) → ∀ found,
      nodes.Down children names this found →
        (nodes.path fuel this (dotted 0 names) = some (some found) ↔
          ∀ name ∈ names, name.length ≤ 64)) := by
  refine ⟨fun dots => ?_, fun distinct found down => ?_⟩
  · rw [path_dotted branches few components, Option.some_inj]
    cases nodes.ups dots this with
    | none => exact iff_of_true rfl fun _ member => by cases member
    | some start =>
      rw [Option.bind_some, Option.bind_some, uncut_iff branches]
      simp
  · have leads := follow_of_down distinct down
    rw [path_dotted branches few components, Option.some_inj, ← uncut_iff_of_follow leads,
      ← uncut_iff branches, leads]
    rfl

/-! #### Trees without siblings -/

/-- A tree of this depth in which each node has one child, with these names. -/
def single (depth : ℕ) (id : ℕ → Text) : Nodes ℕ where
  next := fun _ => none
  child := fun node => if node < depth then some (node + 1) else none
  parent := fun node => if node = 0 then none else some (node - 1)
  id := fun node => some (id node)

def onlyChild (depth node : ℕ) : List ℕ := if node < depth then [node + 1] else []

variable {depth : ℕ} {id : ℕ → Text}

theorem onlyChild_eq (depth node : ℕ) :
    node < depth ∧ onlyChild depth node = [node + 1] ∨
      ¬ node < depth ∧ onlyChild depth node = [] := by
  by_cases inner : node < depth
  · exact Or.inl ⟨inner, if_pos inner⟩
  · exact Or.inr ⟨inner, if_neg inner⟩

theorem branches_single : Branches (single depth id) (onlyChild depth) := by
  refine ⟨fun node => ?_, fun node child member => ?_⟩
  · obtain ⟨inner, only⟩ | ⟨leaf, only⟩ := onlyChild_eq depth node
    · rw [only]
      exact ⟨if_pos inner, rfl⟩
    · rw [only]
      exact if_neg leaf
  · obtain ⟨_, only⟩ | ⟨_, only⟩ := onlyChild_eq depth node
    · rw [only, List.mem_singleton] at member
      rw [member]
      rfl
    · rw [only] at member
      cases member

theorem length_onlyChild_le (node : ℕ) : (onlyChild depth node).length ≤ 1 := by
  obtain ⟨_, only⟩ | ⟨_, only⟩ := onlyChild_eq depth node
  · rw [only, List.length_singleton]
  · rw [only]
    exact Nat.zero_le 1

theorem nodup_onlyChild (node : ℕ) :
    ((onlyChild depth node).map (single depth id).id).Nodup := by
  obtain ⟨_, only⟩ | ⟨_, only⟩ := onlyChild_eq depth node
  · rw [only]
    exact List.nodup_singleton _
  · rw [only]
    exact List.nodup_nil

/-- A root, its child `a` and the child `b` of that one: the way from the child over the root, and
that from the root. -/
theorem path_leads_iff_below :
    ∃ (nodes : Nodes ℕ) (children : ℕ → List ℕ),
      nodes.follow children [[0x61], [0x62]] 0 = some 2 ∧
      nodes.path 1 1 (dotted 1 [[0x61], [0x62]]) =
        some ((nodes.ups 1 1).bind (nodes.follow children [[0x61], [0x62]])) ∧
      nodes.path 1 0 (dotted 0 [[0x61], [0x62]]) = some (some 2) := by
  let nodes := single 2 fun node => if node = 1 then [0x61] else [0x62]
  have components : ∀ name ∈ [[0x61], [0x62]], Component name := by
    unfold Component
    decide
  have leads : nodes.follow (onlyChild 2) [[0x61], [0x62]] 0 = some 2 := rfl
  have uncut : nodes.Uncut (onlyChild 2) [[0x61], [0x62]] 0 :=
    (uncut_iff_of_follow leads).mpr (by decide)
  refine ⟨nodes, onlyChild 2, leads, ?_, ?_⟩
  · refine ((path_leads_iff branches_single length_onlyChild_le components 1).1 1).mpr
      fun start member => ?_
    cases member
    exact uncut
  · refine ((path_leads_iff branches_single length_onlyChild_le components 0).2 nodup_onlyChild 2
      ?_).mpr (by decide)
    exact ⟨1, by decide, rfl, 2, by decide, rfl, rfl⟩

/-- A child has a name of 65 characters, and is not found by it. -/
theorem long_name_not_found :
    ∃ (nodes : Nodes ℕ) (children : ℕ → List ℕ) (name : Text), Branches nodes children ∧
      (∀ node, (children node).length ≤ 1) ∧ Component name ∧
      (∀ node, ((children node).map nodes.id).Nodup) ∧ nodes.Down children [name] 0 1 ∧
      nodes.follow children [name] 0 = some 1 ∧ nodes.path 1 0 (dotted 0 [name]) = some none := by
  refine ⟨single 1 fun _ => List.replicate 65 0x61, onlyChild 1, List.replicate 65 0x61,
    branches_single, length_onlyChild_le, ?_, nodup_onlyChild, ⟨1, by decide, rfl, rfl⟩, ?_, ?_⟩
  · unfold Component
    decide
  · decide +kernel
  · decide +kernel

end Nodes

end NamedTree

end CommonCpp
