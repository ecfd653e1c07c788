/-
This file models `StringPager::set`, which is to replace the text at a position, and
finds when it does.

The test of the position has no statement of its own, and so the walk along the chain
that follows is what it guards. Within the list nothing is walked, and the first text
is replaced; beyond it the walk runs off the chain and follows a null pointer. Nor does
`set` drop an array that has been gathered, so that `list` goes on answering with the
texts before. The array may be older than the texts from then on, which is why the
states here are those whose chain is sound, whatever the array holds.

The copy of the text and the array are requested from the pages of the pager, which have
no limit. The heap has the pages that are asked for, so that a request throws exactly when
it is larger than a page. Thirty texts are too many for the array of a pager of the
default page size.
-/

import CommonCpp.StringTokens

namespace CommonCpp

open Concurrency Memory
open StringPager (granted)

namespace Pager

/-! ### The code -/

/-- `while(ind--) list.next()`, which does not follow a null pointer. -/
def advance (next : Nat → Option Nat) : Nat → Option Nat → Option (Option Nat)
  | 0, list => some list
  | _ + 1, none => none
  | ind + 1, some node => advance next ind (next node)

/-- `StringPager::set`. -/
def set (pagesize : Nat) (state : State (List UInt8)) (ind : Nat) (text : List UInt8) :
    Option (State (List UInt8) × Outcome (List UInt8)) :=
  let list := if ind ≥ state.members then advance state.next ind state.root else some state.root
  list.bind fun list =>
    if granted pagesize (text.length + 1) then
      list.map fun node =>
        ({ state with text := Function.update state.text node text }, .done)
    else some (state, .thrown "Larger than pagesize")

/-- `list`, whose array is requested when there is none. -/
def listIn (pagesize : Nat) (state : State (List UInt8)) :
    Option (State (List UInt8) × Outcome (List UInt8)) :=
  if state.index ≠ none ∨ granted pagesize (Memalloc.pointerSize * increment state.members) then
    list state
  else some (state, .thrown "Larger than pagesize")

inductive SetAction
  | call (action : Action (Option (List UInt8)))
  | set (ind : Nat) (text : List UInt8)

/-- The runs of a `StringPager` whose texts are also replaced. -/
def setMachine (pagesize : Nat) : Machine (State (List UInt8)) SetAction where
  Init := (machine stringPager).Init
  step state
    | .call .list => (listIn pagesize state).map Prod.fst
    | .call action => (machine stringPager).step state action
    | .set ind text => (set pagesize state ind text).map Prod.fst

/-- The walk that `get` takes, as far as there are nodes. -/
theorem seek_of_advance {next : Nat → Option Nat} {ind : Nat} {pointer list : Option Nat}
    (advanced : advance next ind pointer = some list) : seek next ind pointer = list := by
  induction ind generalizing pointer with
  | zero => exact Option.some_inj.mp advanced
  | succ ind inductionHypothesis =>
    cases pointer with
    | none => cases advanced
    | some node => exact inductionHypothesis advanced

/-! ### Sound chains -/

section Linked

variable {Given Item : Type} {flavour : Flavour Given Item} {state target : State Item}
  {nodes : List Nat}

/-- These nodes are the chain from `root` on, and `members` counts them. -/
structure Linked (state : State Item) (nodes : List Nat) : Prop where
  path : Path state.next state.root nodes none
  once : nodes.Nodup
  known : ∀ node ∈ nodes, node < state.allocated
  members : state.members = nodes.length

/-- The pager without the array that has been gathered. -/
def forget (state : State Item) : State Item := { state with index := none }

theorem Chained.forget (chained : Chained state nodes) : Chained (forget state) nodes :=
  ⟨chained.path, chained.once, chained.known, chained.last, chained.members,
    fun _ none => (by cases none)⟩

theorem pull_forget (some_ : state.members ≠ 0) :
    pull flavour (forget state) = pull flavour state := by
  have some' : (forget state).members ≠ 0 := some_
  rw [pull, pull, if_neg some_, if_neg some']
  simp only [forget]
  cases state.root with
  | none => rfl
  | some mem =>
    by_cases only : decrement state.members = 0
    · simp only [only, ↓reduceIte]
    · simp only [only, ↓reduceIte]

theorem pop_forget (some_ : state.root ≠ none) :
    pop flavour (forget state) = pop flavour state := by
  have some' : (forget state).root ≠ none := some_
  rw [pop, pop, if_neg some_, if_neg some']
  rfl

/-- Apart from `list`, the calls do not look at the array. -/
theorem perform_forget {action : Action Given} {outcome : Outcome Item} (other : action ≠ .list)
    (performed : perform flavour state action = some (target, outcome)) :
    ∃ target', perform flavour (forget state) action = some (target', outcome) ∧
      forget target' = forget target := by
  cases action with
  | add given => exact ⟨target, performed, rfl⟩
  | push given => exact ⟨target, performed, rfl⟩
  | pull =>
    by_cases none_ : state.members = 0
    · have none' : (forget state).members = 0 := none_
      rw [perform, pull, if_pos none_] at performed
      cases performed
      exact ⟨forget state, by rw [perform, pull, if_pos none'], rfl⟩
    · exact ⟨target, by rw [perform, pull_forget none_]; exact performed, rfl⟩
  | pop =>
    by_cases none_ : state.root = none
    · have none' : (forget state).root = none := none_
      rw [perform, pop, if_pos none_] at performed
      cases performed
      exact ⟨forget state, by rw [perform, pop, if_pos none'], rfl⟩
    · exact ⟨target, by rw [perform, pop_forget none_]; exact performed, rfl⟩
  | clear => exact ⟨target, performed, rfl⟩
  | get ind =>
    obtain ⟨outcome', got, same⟩ := Option.map_eq_some_iff.mp performed
    cases same
    have got' : get flavour (forget state) ind = some outcome := got
    exact ⟨forget state, by rw [perform, got']; rfl, rfl⟩
  | list => exact absurd rfl other

/-- `list` changes nothing but the array. -/
theorem forget_list {outcome : Outcome Item}
    (listed : Pager.list state = some (target, outcome)) :
    forget target = forget state := by
  unfold list at listed
  split at listed
  · cases listed
    rfl
  · obtain ⟨items, _, same⟩ := Option.bind_eq_some_iff.mp listed
    split at same
    · cases same
      rfl
    · cases same

/-- A call other than `list` leaves a sound chain, when no text is added to as many as can be
counted. -/
theorem chained_forget_step (chained : Chained (forget state) nodes)
    (small : state.members + 1 < 2 ^ 32) {action : Action Given} (other : action ≠ .list)
    (stepped : (machine flavour).step state action = some target) :
    ∃ nodes', Chained (forget target) nodes' := by
  obtain ⟨⟨_, outcome⟩, performed, rfl⟩ := Option.map_eq_some_iff.mp stepped
  obtain ⟨target', performed', same⟩ := perform_forget other performed
  obtain ⟨_, nodes', performed'', after, _⟩ := chained.perform small flavour action
  rw [performed'] at performed''
  cases performed''
  exact ⟨nodes', by rw [← same]; exact after.forget⟩

end Linked

section Replaced

variable {state target : State (List UInt8)} {nodes : List Nat} {items : List (List UInt8)}
  {pagesize ind : Nat} {text : List UInt8}

/-- No more texts are there than an array has slots for. -/
def Room (state : State (List UInt8)) (_ : SetAction) : Prop :=
  state.members + 1 < 2 ^ 32

/-- `set` changes the text of the node that it reaches, or nothing. -/
theorem set_eq_some {outcome : Outcome (List UInt8)}
    (replaced : set pagesize state ind text = some (target, outcome)) :
    ∃ texts, target = { state with text := texts } := by
  obtain ⟨list, _, done⟩ := Option.bind_eq_some_iff.mp replaced
  split at done
  · obtain ⟨node, _, same⟩ := Option.map_eq_some_iff.mp done
    cases same
    exact ⟨_, rfl⟩
  · cases done
    exact ⟨state.text, rfl⟩

/-- `listIn` changes nothing but the array. -/
theorem forget_listIn {outcome : Outcome (List UInt8)}
    (listed : listIn pagesize state = some (target, outcome)) : forget target = forget state := by
  unfold listIn at listed
  split at listed
  · exact forget_list listed
  · cases listed
    rfl

/-- In every run the chain is sound, while there are not more texts than an array has slots for. -/
theorem linked_of_run {moves : List (Move (State (List UInt8)) SetAction)}
    (run : (setMachine pagesize).Run moves state) (room : Machine.Meets Room moves) :
    ∃ nodes, Linked state nodes := by
  suffices kept : ∃ nodes, Chained (forget state) nodes by
    obtain ⟨nodes, chained⟩ := kept
    exact ⟨nodes, chained.path, chained.once, chained.known, chained.members⟩
  have preserved := @Machine.Run.invariant_of_meets _ _ (setMachine pagesize)
    (fun state => ∃ nodes, Chained (forget state) nodes) Room
  refine preserved (fun state initial => ?_) (fun source action target kept small stepped => ?_)
    run room
  · obtain ⟨given, rfl⟩ := initial
    exact ⟨[], (Chained.constructed given).forget⟩
  · obtain ⟨nodes, chained⟩ := kept
    cases action with
    | call action =>
      by_cases listing : action = .list
      · subst listing
        obtain ⟨⟨_, outcome⟩, listed, rfl⟩ := Option.map_eq_some_iff.mp stepped
        exact ⟨nodes, by rw [forget_listIn listed]; exact chained⟩
      · refine @chained_forget_step _ _ stringPager _ _ _ chained small _ listing ?_
        cases action with
        | list => exact absurd rfl listing
        | _ => exact stepped
    | set ind text =>
      obtain ⟨⟨_, outcome⟩, replaced, rfl⟩ := Option.map_eq_some_iff.mp stepped
      obtain ⟨texts, rfl⟩ := set_eq_some replaced
      exact ⟨nodes, chained.path, chained.once, chained.known, chained.last, chained.members,
        fun _ none => (by cases none)⟩

/-- What `set` is for: the text at the position is replaced when there is one, nothing else is
changed, and `get` and `list` answer so. -/
def Replaces (pagesize : Nat) (state : State (List UInt8)) (items : List (List UInt8)) (ind : Nat)
    (text : List UInt8) : Prop :=
  ∃ target, set pagesize state ind text = some (target, .done) ∧ target.members = state.members ∧
    (∀ at_, get stringPager target at_ =
      some ((items.set ind text)[at_]?.elim stringPager.outside .item)) ∧
    (listIn pagesize target).map Prod.snd = some (.items (items.set ind text))

/-- An array that has been gathered holds these texts; when there is none a page has room for one
of pointers to all the texts and a null pointer. -/
def Shown (pagesize : Nat) (state : State (List UInt8)) (items : List (List UInt8)) : Prop :=
  (∀ listed ∈ state.index, listed = items) ∧
    (state.index = none →
      Memalloc.headerSize + Memalloc.pointerSize * (state.members + 1) ≤ pagesize)

instance (pagesize : Nat) (state : State (List UInt8)) (items : List (List UInt8)) :
    Decidable (Shown pagesize state items) :=
  inferInstanceAs (Decidable (_ ∧ _))

/-- The position is the first one, or the text is already there and at the first one; and `list`
has not gathered other texts. -/
def Settable (pagesize : Nat) (state : State (List UInt8)) (items : List (List UInt8)) (ind : Nat)
    (text : List UInt8) : Prop :=
  ind < items.length ∧ (ind = 0 ∨ items[0]? = some text ∧ items[ind]? = some text) ∧
    Shown pagesize state (items.set ind text)

/-- On pages of a regular size a request is granted when it fits behind the header. -/
theorem granted_iff_le (regular : Memalloc.Regular pagesize) (size : Nat) :
    granted pagesize size ↔ Memalloc.headerSize + size ≤ pagesize := by
  have header := regular.1
  have word := regular.2.2
  rw [granted, Memalloc.sub_of_le (by omega) header]
  omega

namespace Linked

theorem length_le (linked : Linked state nodes) : nodes.length ≤ state.allocated :=
  length_le_of_lt linked.once linked.known

theorem get (linked : Linked state nodes) (ind : Nat) :
    get stringPager state ind =
      some ((nodes.map state.text)[ind]?.elim stringPager.outside .item) := by
  unfold Pager.get
  rw [linked.members, seek_of_path linked.path, List.getElem?_map]
  split
  next outside => simp [List.getElem?_eq_none outside]
  next inside => simp [List.getElem?_eq_getElem (Nat.lt_of_not_le inside)]

/-- An array is gathered when there is room for it. -/
theorem list_of_none (linked : Linked state nodes) (gathered : state.index = none)
    (small : state.members + 1 < 2 ^ 32) :
    (list state).map Prod.snd = some (.items (nodes.map state.text)) := by
  have length : (nodes.map state.text).length = state.members := by
    rw [List.length_map, linked.members]
  unfold list
  simp only [gathered, gather_of_path state.text linked.path linked.length_le, Option.bind_some,
    length]
  rw [if_pos (Nat.le_of_eq (increment_of_lt small).symm)]
  rfl

theorem list_eq_none (linked : Linked state nodes) (gathered : state.index = none)
    (large : 2 ^ 32 ≤ state.members + 1) : list state = none := by
  have length : (nodes.map state.text).length = state.members := by
    rw [List.length_map, linked.members]
  have wraps : increment state.members < 2 ^ 32 := Nat.mod_lt _ (Nat.two_pow_pos 32)
  have full : ¬ state.members + 1 ≤ increment state.members :=
    Nat.not_le_of_lt (Nat.lt_of_lt_of_le wraps large)
  unfold list
  simp only [gathered, gather_of_path state.text linked.path linked.length_le, Option.bind_some,
    length]
  exact if_neg full

/-- `list` answers with the texts when they are shown, and only then. -/
theorem list_iff (linked : Linked state nodes) (regular : Memalloc.Regular pagesize) :
    (listIn pagesize state).map Prod.snd = some (.items items) ↔
      (state.index = none → items = nodes.map state.text) ∧ Shown pagesize state items := by
  unfold listIn Shown
  cases gathered : state.index with
  | some listed => simp [list, gathered]
  | none =>
    have word := regular.2.2
    have room := granted_iff_le regular (Memalloc.pointerSize * increment state.members)
    simp only [room, ne_eq, not_true_eq_false, false_or, reduceCtorEq, Option.mem_def,
      false_implies, implies_true, true_and, forall_const]
    unfold Memalloc.headerSize Memalloc.pointerSize
    rcases Nat.lt_or_ge (state.members + 1) (2 ^ 32) with small | large
    · rw [increment_of_lt small]
      split
      next fits =>
        rw [linked.list_of_none gathered small, and_iff_left fits]
        simp [eq_comm]
      next refused => exact iff_of_false (by simp) fun shown => refused shown.2
    · refine iff_of_false ?_ fun shown => by omega
      split
      · simp [linked.list_eq_none gathered large]
      · simp

/-- Beyond the list `set` follows a null pointer. -/
theorem set_eq_none (linked : Linked state nodes) (fits : granted pagesize (text.length + 1))
    (outside : nodes.length ≤ ind) : set pagesize state ind text = none := by
  have past : ind ≥ state.members := linked.members ▸ outside
  rw [set, if_pos past]
  cases advanced : advance state.next ind state.root with
  | none => rfl
  | some list =>
    have reached := seek_of_advance advanced
    rw [seek_of_path linked.path, List.getElem?_eq_none outside] at reached
    rw [← reached, Option.bind_some, if_pos fits]
    rfl

/-- Within the list `set` replaces the first text. -/
theorem set_inside (linked : Linked state nodes) (fits : granted pagesize (text.length + 1))
    (inside : ind < nodes.length) :
    ∃ target, set pagesize state ind text = some (target, .done) ∧ Linked target nodes ∧
      target.index = state.index ∧ target.members = state.members ∧
      nodes.map target.text = (nodes.map state.text).set 0 text := by
  have within : ¬ ind ≥ state.members := by
    rw [linked.members]
    exact Nat.not_le_of_lt inside
  cases nodes with
  | nil => cases inside
  | cons node rest =>
    have root : state.root = some node := linked.path.head_eq
    rw [set, if_neg within, Option.bind_some, if_pos fits]
    refine ⟨{ state with text := Function.update state.text node text }, ?_,
      ⟨linked.path, linked.once, linked.known, linked.members⟩, rfl, rfl, ?_⟩
    · rw [root]
      rfl
    · have apart := (List.nodup_cons.mp linked.once).1
      have rest_ : rest.map (Function.update state.text node text) = rest.map state.text :=
        List.map_congr_left fun other member =>
          Function.update_of_ne (ne_of_mem_of_not_mem member apart) _ _
      rw [List.map_cons, List.map_cons, List.set_cons_zero, rest_]
      exact congrArg (· :: rest.map state.text) (Function.update_self _ _ _)

end Linked

/-- What `get` answers tells the texts. -/
theorem outcomes_iff (first second : List (List UInt8)) :
    (∀ ind : Nat, some (first[ind]?.elim stringPager.outside .item) =
        some (second[ind]?.elim stringPager.outside .item)) ↔ first = second := by
  constructor
  · intro same
    refine List.ext_getElem? fun ind => ?_
    have here := Option.some_inj.mp (same ind)
    cases left : first[ind]? <;> cases right : second[ind]? <;>
      simp [left, right, stringPager] at here ⊢
    exact here
  · rintro rfl ind
    rfl

/-- Replacing a text by itself changes nothing. -/
theorem set_of_getElem? (there : items[ind]? = some text) : items.set ind text = items := by
  obtain ⟨inside, rfl⟩ := List.getElem?_eq_some_iff.mp there
  exact List.set_getElem_self inside

/-- Replacing the first text does what replacing another should only when both are the text. -/
theorem set_zero_eq_iff (inside : ind < items.length) :
    items.set 0 text = items.set ind text ↔
      ind = 0 ∨ items[0]? = some text ∧ items[ind]? = some text := by
  rcases Nat.eq_zero_or_pos ind with rfl | positive
  · simp
  · rw [or_iff_right (Nat.ne_of_gt positive)]
    constructor
    · intro same
      have first := congrArg (fun list => list[0]?) same
      have there := congrArg (fun list => list[ind]?) same
      have some_ : 0 < items.length := Nat.lt_of_le_of_lt (Nat.zero_le _) inside
      have apart : ind ≠ 0 := Nat.ne_of_gt positive
      simp only [List.getElem?_set, inside, some_, apart, apart.symm, ↓reduceIte] at first there
      exact ⟨first.symm, there⟩
    · rintro ⟨first, there⟩
      rw [set_of_getElem? first, set_of_getElem? there]

/-- In every state whose chain is sound, and for every position and text that fits a page, `set`
replaces the text at the position, changes nothing else, and `get` and `list` answer so, exactly
when the position is the first one, or the text is already there and at the first one, and `list`
has not gathered other texts and its array fits a page. -/
theorem stringPager_set_iff (regular : Memalloc.Regular pagesize) (linked : Linked state nodes)
    (ind : Nat) (text : List UInt8) (fits : Memalloc.headerSize + (text.length + 1) ≤ pagesize) :
    Replaces pagesize state (nodes.map state.text) ind text ↔
      Settable pagesize state (nodes.map state.text) ind text := by
  have copied := (granted_iff_le regular (text.length + 1)).mpr fits
  unfold Settable
  rw [List.length_map]
  by_cases inside : ind < nodes.length
  · obtain ⟨target, replaced, after, index, members, texts⟩ := linked.set_inside copied inside
    have within : ind < (nodes.map state.text).length := by rwa [List.length_map]
    have shown : Shown pagesize target ((nodes.map state.text).set ind text) ↔
        Shown pagesize state ((nodes.map state.text).set ind text) := by
      rw [Shown, Shown, index, members]
    rw [← set_zero_eq_iff within, ← shown, and_iff_right inside]
    constructor
    · rintro ⟨_, same, _, gets, lists⟩
      rw [replaced] at same
      cases same
      simp only [after.get, texts] at gets
      exact ⟨(outcomes_iff _ _).mp gets, ((after.list_iff regular).mp lists).2⟩
    · rintro ⟨same, shown⟩
      refine ⟨target, replaced, members, fun at_ => ?_,
        (after.list_iff regular).mpr ⟨fun _ => ?_, shown⟩⟩
      · rw [after.get, texts, same]
      · rw [texts, same]
  · refine iff_of_false ?_ fun settable => inside settable.1
    rintro ⟨_, replaced, _⟩
    rw [linked.set_eq_none copied (Nat.le_of_not_lt inside)] at replaced
    cases replaced

/-- The texts "A" and "B". -/
def listed : List SetAction := [.call (.add (some [65])), .call (.add (some [66]))]

/-- The first of two texts is replaced. -/
theorem stringPager_set_iff_first :
    ∃ moves state, ∃ nodes : List Nat, (setMachine 256).Run moves state ∧
      nodes.map state.text = [[65], [66]] ∧
      Replaces 256 state (nodes.map state.text) 0 [67] := by
  let played := (setMachine 256).play (constructed fun _ => []) listed
  obtain ⟨moves, run⟩ : (setMachine 256).Reachable (played.get (by decide)) :=
    Machine.reachable_of_play ⟨_, rfl⟩ (Option.some_get _).symm
  have linked : Linked (played.get (by decide)) [0, 1] :=
    ⟨⟨by decide, by decide, rfl⟩, by decide, by decide, by decide⟩
  exact ⟨moves, _, [0, 1], run, by decide,
    (stringPager_set_iff (by unfold Memalloc.Regular; decide) linked 0 [67] (by decide)).mpr
      ⟨by decide, by decide, by decide⟩⟩

/-- When the second is to be replaced, the first one is. -/
theorem stringPager_set_misses :
    ∃ moves state, ∃ nodes : List Nat, (setMachine 256).Run moves state ∧
      nodes.map state.text = [[65], [66]] ∧
      ((set 256 state 1 [67]).bind fun result => get stringPager result.1 0) =
        some (.item [67]) ∧
      ¬ Replaces 256 state (nodes.map state.text) 1 [67] := by
  let played := (setMachine 256).play (constructed fun _ => []) listed
  obtain ⟨moves, run⟩ : (setMachine 256).Reachable (played.get (by decide)) :=
    Machine.reachable_of_play ⟨_, rfl⟩ (Option.some_get _).symm
  have left : ((set 256 (played.get (by decide)) 1 [67]).bind fun result =>
      get stringPager result.1 0) = some (.item [67]) := by decide
  have texts : [0, 1].map (played.get (by decide)).text = [[65], [66]] := by decide
  refine ⟨moves, _, [0, 1], run, texts, left, ?_⟩
  rintro ⟨target, replaced, _, gets, _⟩
  rw [replaced, Option.bind_some, gets 0, texts] at left
  exact absurd left (by decide)

end Replaced

end Pager

end CommonCpp
