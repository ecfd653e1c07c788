/-
This file gives the linked lists that objects form through a link field.

Unlike the nodes of a memory that is allocated and freed, an object always has its
link; what a pointer leads through depends on the links alone. A path spells out
the objects from one pointer to another. The rules are those list code uses: a
path can be cut and joined, it depends on its own objects only, and its end can be
led elsewhere. A loop that walks along the links, remembering the object before,
ends where the list first meets its condition.

A segment is a list linked both ways. It is the same as a path along one link and
a path along the other that spells the list backwards.
-/

import Mathlib.Data.List.Basic
import Mathlib.Data.List.Nodup
import Mathlib.Data.List.Perm.Subperm
import Mathlib.Logic.Function.Basic
import Mathlib.Tactic.Common

namespace Memory

variable {Address : Type} {next next' prev prev' : Address → Option Address}
  {pointer stop before after : Option Address} {list : List Address} {address : Address}

/-! ### Paths -/

/-- The pointer leads through exactly these addresses, in this order, to the other pointer. -/
def Path (next : Address → Option Address) :
    Option Address → List Address → Option Address → Prop
  | pointer, [], stop => pointer = stop
  | pointer, address :: rest, stop => pointer = some address ∧ Path next (next address) rest stop

namespace Path

theorem head_eq (path : Path next pointer list stop) : pointer = list.head?.or stop := by
  cases list with
  | nil => exact path
  | cons address rest => exact path.1

theorem append_iff {later : List Address} :
    Path next pointer (list ++ later) stop ↔
      ∃ middle, Path next pointer list middle ∧ Path next middle later stop := by
  induction list generalizing pointer with
  | nil => simp [Path]
  | cons first rest inductionHypothesis =>
    simp only [List.cons_append, Path, inductionHypothesis, and_assoc, exists_and_left]

/-- An address of a path leads to the one behind it. -/
theorem next_eq {first last : List Address}
    (path : Path next pointer (first ++ address :: last) stop) :
    next address = last.head?.or stop := by
  obtain ⟨_, _, _, onward⟩ := append_iff.mp path
  exact onward.head_eq

/-- A path depends on its own addresses only. -/
theorem congr (path : Path next pointer list stop)
    (same : ∀ address ∈ list, next' address = next address) : Path next' pointer list stop := by
  induction list generalizing pointer with
  | nil => exact path
  | cons first rest inductionHypothesis =>
    obtain ⟨leads, onward⟩ := path
    obtain ⟨here, later⟩ := List.forall_mem_cons.mp same
    exact ⟨leads, by rw [here]; exact inductionHypothesis onward later⟩

/-- The last address of a path can be led elsewhere. -/
theorem relink {last : Address} {stop' : Option Address}
    (path : Path next pointer (list ++ [last]) stop)
    (same : ∀ address ∈ list, next' address = next address) (ends : next' last = stop') :
    Path next' pointer (list ++ [last]) stop' := by
  obtain ⟨middle, first, leads, _⟩ := append_iff.mp path
  exact append_iff.mpr ⟨middle, first.congr same, leads, ends⟩

/-- A null-terminated path is the only one from its pointer. -/
theorem unique {list' : List Address} (path : Path next pointer list none)
    (path' : Path next pointer list' none) : list = list' := by
  induction list generalizing pointer list' with
  | nil =>
    cases list' with
    | nil => rfl
    | cons first rest =>
      cases path
      cases path'.1
  | cons first rest inductionHypothesis =>
    cases list' with
    | nil =>
      cases path'
      cases path.1
    | cons first' rest' =>
      obtain ⟨rfl, onward⟩ := path
      obtain ⟨same, onward'⟩ := path'
      cases same
      rw [inductionHypothesis onward onward']

/-- A null-terminated path passes no address twice. -/
theorem nodup (path : Path next pointer list none) : list.Nodup := by
  induction list generalizing pointer with
  | nil => exact List.nodup_nil
  | cons address rest inductionHypothesis =>
    obtain ⟨_, onward⟩ := path
    refine List.nodup_cons.mpr ⟨fun again => ?_, inductionHypothesis onward⟩
    obtain ⟨first, last, rfl⟩ := List.append_of_mem again
    obtain ⟨_, _, rfl, behind⟩ := append_iff.mp onward
    have same : first ++ address :: last = last := onward.unique behind
    have longer := congrArg List.length same
    rw [List.length_append, List.length_cons] at longer
    omega

/-- An address before the last of a path leads to another one of it. -/
theorem leads_within {last : Address} (path : Path next pointer (list ++ [last]) stop) :
    ∀ other ∈ list, ∃ address ∈ list ++ [last], next other = some address := by
  induction list generalizing pointer with
  | nil => exact fun _ member => by cases member
  | cons first rest inductionHypothesis =>
    obtain ⟨_, onward⟩ := path
    refine List.forall_mem_cons.mpr ⟨?_, fun other member => ?_⟩
    · cases rest with
      | nil => exact ⟨last, by simp, onward.1⟩
      | cons second tail => exact ⟨second, by simp, onward.1⟩
    · obtain ⟨address, within, leads⟩ := inductionHypothesis onward other member
      exact ⟨address, List.mem_cons_of_mem _ within, leads⟩

/-- A path goes on where it ended, once its end leads there. -/
theorem continued (path : Path next pointer list none)
    (leads : ∀ address ∈ list, next' address = (next address).or stop) :
    Path next' (pointer.or stop) list stop := by
  induction list generalizing pointer with
  | nil =>
    cases path
    exact Option.none_or
  | cons first rest inductionHypothesis =>
    obtain ⟨rfl, onward⟩ := path
    obtain ⟨here, later⟩ := List.forall_mem_cons.mp leads
    exact ⟨rfl, by rw [here]; exact inductionHypothesis onward later⟩

/-- Paths from numbered pointers make one path, once the end of each leads to the next pointer that
is not null. -/
theorem scan {head : Nat → Option Address} {lists : Nat → List Address} {start count : Nat}
    (paths : ∀ index, index < start + count → Path next (head index) (lists index) none)
    (leads : ∀ index, start ≤ index → index < start + count → ∀ address ∈ lists index,
      next' address = (next address).or
        ((List.range' (index + 1) (start + count - (index + 1))).findSome? head)) :
    Path next' ((List.range' start count).findSome? head) ((List.range' start count).flatMap lists)
      none := by
  induction count generalizing start with
  | zero => rfl
  | succ count inductionHypothesis =>
    have here := leads start (Nat.le_refl start) (by omega)
    have whole : start + (count + 1) = start + 1 + count := by omega
    rw [whole, Nat.add_sub_cancel_left] at here
    rw [whole] at paths leads
    have later : Path next' ((List.range' (start + 1) count).findSome? head)
        ((List.range' (start + 1) count).flatMap lists) none :=
      inductionHypothesis paths fun index from_ => leads index (Nat.le_of_succ_le from_)
    have first := (paths start (by omega)).continued here
    rw [List.range'_succ, List.findSome?_cons, List.flatMap_cons]
    refine append_iff.mpr ⟨_, ?_, later⟩
    cases starts : head start <;> rw [starts] at first <;> exact first

variable [DecidableEq Address]

/-- An address outside a path can be put in front of it. -/
theorem push (path : Path next pointer list stop) (outside : address ∉ list) :
    Path (Function.update next address pointer) (some address) (address :: list) stop := by
  refine ⟨rfl, ?_⟩
  rw [Function.update_self]
  refine path.congr fun other member => Function.update_of_ne ?_ _ _
  exact fun same => outside (same ▸ member)

/-- The address behind another is taken off a path by leading the other past it. -/
theorem unlink {first last : List Address} {prior : Address}
    (path : Path next pointer (first ++ prior :: address :: last) stop)
    (distinct : (first ++ prior :: address :: last).Nodup) :
    Path (Function.update next prior (next address)) pointer (first ++ prior :: last) stop := by
  obtain ⟨middle, toPrior, leads, _, onward⟩ := append_iff.mp path
  rw [List.nodup_append, List.nodup_cons, List.nodup_cons] at distinct
  obtain ⟨_, ⟨behind, _⟩, ahead⟩ := distinct
  have other : ∀ address' ∈ first ++ last,
      Function.update next prior (next address) address' = next address' := by
    intro address' member
    refine Function.update_of_ne ?_ _ _
    rcases List.mem_append.mp member with before | after
    · exact ahead _ before _ List.mem_cons_self
    · exact fun same => behind (List.mem_cons_of_mem _ (same ▸ after))
  refine append_iff.mpr ⟨middle, ?_, leads, ?_⟩
  · exact toPrior.congr fun address' member => other _ (List.mem_append_left _ member)
  · rw [Function.update_self]
    exact onward.congr fun address' member => other _ (List.mem_append_right _ member)

/-- An address is taken off a path: the one before it, or the pointer when there is none, is led
past it. -/
theorem detach {first last : List Address}
    (path : Path next pointer (first ++ address :: last) stop)
    (distinct : (first ++ address :: last).Nodup) :
    Path (first.getLast?.elim next fun prior => Function.update next prior (next address))
      (if first.getLast? = none then next address else pointer) (first ++ last) stop := by
  rcases List.eq_nil_or_concat' first with rfl | ⟨earlier, prior, rfl⟩
  · exact path.2
  · rw [List.append_assoc] at path distinct ⊢
    simpa using path.unlink distinct

/-- Only the one before an address is led past it. -/
theorem detached_of_not_mem {first : List Address} {other : Address} (outside : other ∉ first)
    (next : Address → Option Address) (address : Address) :
    (first.getLast?.elim next fun prior => Function.update next prior (next address)) other =
      next other := by
  cases leads : first.getLast? with
  | none => rfl
  | some prior =>
    exact Function.update_of_ne (ne_of_mem_of_not_mem (List.mem_of_getLast? leads) outside).symm _ _

/-- The address behind another is exchanged for one outside the path. -/
theorem exchange {first last : List Address} {prior address' : Address}
    (path : Path next pointer (first ++ prior :: address :: last) stop)
    (distinct : (first ++ prior :: address :: last).Nodup)
    (outside : address' ∉ first ++ prior :: last) :
    Path (Function.update (Function.update next prior (some address')) address' (next address))
      pointer (first ++ prior :: address' :: last) stop := by
  obtain ⟨middle, toPrior, leads, ends⟩ := append_iff.mp (path.unlink distinct)
  have kept : ∀ other ∈ first ++ prior :: last, other ≠ address' := fun other member same =>
    outside (same ▸ member)
  have apart : prior ∉ first ++ last := by
    have sublist : List.Sublist (first ++ prior :: last) (first ++ prior :: address :: last) :=
      (List.Sublist.refl first).append ((List.sublist_cons_self address last).cons_cons prior)
    exact (List.nodup_cons.mp (List.nodup_middle.mp (distinct.sublist sublist))).1
  have other : ∀ other ∈ first ++ last,
      Function.update (Function.update next prior (some address')) address' (next address) other =
        Function.update next prior (next address) other := by
    intro other member
    have differs : other ≠ prior := fun same => apart (same ▸ member)
    have differs' : other ≠ address' := kept other (by
      simp only [List.mem_append, List.mem_cons] at member ⊢
      tauto)
    simp only [Function.update_of_ne differs', Function.update_of_ne differs]
  refine append_iff.mpr ⟨middle, ?_, leads, ?_, ?_⟩
  · exact toPrior.congr fun address member => other _ (List.mem_append_left _ member)
  · rw [Function.update_of_ne (kept prior (by simp)), Function.update_self]
  · rw [Function.update_self]
    rw [Function.update_self] at ends
    exact ends.congr fun address member => other _ (List.mem_append_right _ member)

/-- An address that leads nowhere can be put behind the last one of a path. -/
theorem pushBack {last : Address} (path : Path next pointer (list ++ [last]) none)
    (distinct : (list ++ [last]).Nodup) (outside : address ∉ list ++ [last])
    (ends : next address = none) :
    Path (Function.update next last (some address)) pointer (list ++ [last] ++ [address]) none := by
  have apart : address ≠ last := fun same => outside (by simp [same])
  have lone : last ∉ list := by
    rw [List.nodup_append] at distinct
    exact fun member => distinct.2.2 _ member _ List.mem_cons_self rfl
  refine append_iff.mpr ⟨some address, ?_, rfl, ?_⟩
  · refine path.relink (fun other member => Function.update_of_ne ?_ _ _)
      (Function.update_self _ _ _)
    exact fun same => lone (same ▸ member)
  · rw [Function.update_of_ne apart, ends]
    rfl

/-- An address outside a path is put behind it: the last one, or the pointer when there is none,
is led to it. -/
theorem attach (path : Path next pointer list none) (distinct : list.Nodup)
    (outside : address ∉ list) :
    Path (Function.update (list.getLast?.elim next fun final =>
        Function.update next final (some address)) address none)
      (if list.getLast? = none then some address else pointer) (list ++ [address]) none := by
  rcases List.eq_nil_or_concat' list with rfl | ⟨earlier, final, rfl⟩
  · exact ⟨rfl, Function.update_self _ _ _⟩
  · have apart : address ≠ final := fun same => outside (by simp [same])
    have ended : Path (Function.update next address none) pointer (earlier ++ [final]) none :=
      path.congr fun other member =>
        Function.update_of_ne (ne_of_mem_of_not_mem member outside) _ _
    rw [List.getLast?_concat, if_neg (Option.some_ne_none final), Option.elim_some,
      Function.update_comm apart.symm]
    exact ended.pushBack distinct outside (Function.update_self _ _ _)

/-- Only the last one is led to the new address. -/
theorem attached_of_not_mem {other : Address} (outside : other ∉ list) (apart : other ≠ address)
    (next : Address → Option Address) :
    Function.update (list.getLast?.elim next fun final =>
      Function.update next final (some address)) address none other = next other := by
  rw [Function.update_of_ne apart]
  cases ends : list.getLast? with
  | none => rfl
  | some final =>
    exact Function.update_of_ne (ne_of_mem_of_not_mem (List.mem_of_getLast? ends) outside).symm _ _

end Path

/-- A list of numbers below a bound is no longer than the bound. -/
theorem length_le_of_lt {list : List Nat} {bound : Nat} (once : list.Nodup)
    (below : ∀ number ∈ list, number < bound) : list.length ≤ bound := by
  have within : list ⊆ List.range bound := fun number member =>
    List.mem_range.mpr (below number member)
  simpa using (List.subperm_of_subset once within).length_le

/-! ### Families of paths -/

/-- The pointers lead through these lists, and an address is on one of them at most, once. -/
structure Paths {Place : Type} (next : Address → Option Address) (head : Place → Option Address)
    (lists : Place → List Address) : Prop where
  path : ∀ place, Path next (head place) (lists place) none
  once : ∀ place, (lists place).Nodup
  apart : ∀ {place other : Place} {address : Address}, address ∈ lists place →
    address ∈ lists other → place = other

namespace Paths

variable {Place : Type} [DecidableEq Place] [DecidableEq Address] {head : Place → Option Address}
  {lists : Place → List Address} {place : Place}

omit [DecidableEq Address] in
/-- The lists stay apart when one of them is changed and takes only addresses from no other. -/
theorem apart_update (paths : Paths next head lists) {list' : List Address}
    (within : ∀ address ∈ list', address ∈ lists place ∨ ∀ other, address ∉ lists other)
    {first second : Place} (member : address ∈ Function.update lists place list' first)
    (member' : address ∈ Function.update lists place list' second) : first = second := by
  by_cases here : first = place
  · by_cases here' : second = place
    · exact here.trans here'.symm
    · rw [here, Function.update_self] at member
      rw [Function.update_of_ne here'] at member'
      rcases within _ member with inner | outside
      · exact here.trans (paths.apart inner member')
      · exact absurd member' (outside second)
  · rw [Function.update_of_ne here] at member
    by_cases here' : second = place
    · rw [here', Function.update_self] at member'
      rcases within _ member' with inner | outside
      · exact (paths.apart member inner).trans here'.symm
      · exact absurd member (outside first)
    · rw [Function.update_of_ne here'] at member'
      exact paths.apart member member'

/-- An address that is on no list is put in front of one. -/
theorem push (paths : Paths next head lists) (outside : ∀ place, address ∉ lists place)
    (place : Place) :
    Paths (Function.update next address (head place)) (Function.update head place (some address))
      (Function.update lists place (address :: lists place)) where
  path other := by
    by_cases same : other = place
    · rw [same, Function.update_self, Function.update_self]
      exact (paths.path place).push (outside place)
    · rw [Function.update_of_ne same, Function.update_of_ne same]
      exact (paths.path other).congr fun address' member =>
        Function.update_of_ne (ne_of_mem_of_not_mem member (outside other)) _ _
  once other := by
    by_cases same : other = place
    · rw [same, Function.update_self]
      exact List.nodup_cons.mpr ⟨outside place, paths.once place⟩
    · rw [Function.update_of_ne same]
      exact paths.once other
  apart member member' := paths.apart_update (List.forall_mem_cons.mpr
    ⟨Or.inr outside, fun _ member => Or.inl member⟩) member member'

omit [DecidableEq Place] in
/-- An address of one list is on no other. -/
theorem filter_ne_of_other (paths : Paths next head lists) (member : address ∈ lists place)
    {other : Place} (different : other ≠ place) :
    (lists other).filter (fun node => node ≠ address) = lists other :=
  List.filter_eq_self.mpr fun _ on => decide_eq_true fun here =>
    different (paths.apart (here ▸ on) member)

omit [DecidableEq Place] in
/-- What is left of a split list without the address it is split at. -/
theorem filter_ne_of_split {first last : List Address} (apart : address ∉ first ++ last) :
    (first ++ address :: last).filter (fun other => other ≠ address) = first ++ last := by
  rw [List.filter_append, List.filter_cons_of_neg (by simp), ← List.filter_append]
  exact List.filter_eq_self.mpr fun other member =>
    decide_eq_true (ne_of_mem_of_not_mem member apart)

/-- An address is taken off its list: the one before it, or the pointer when there is none, is led
past it. -/
theorem detach (paths : Paths next head lists) {first last : List Address}
    (split : lists place = first ++ address :: last) :
    Paths (first.getLast?.elim next fun prior => Function.update next prior (next address))
      (if first.getLast? = none then Function.update head place (next address) else head)
      fun place => (lists place).filter fun other => other ≠ address where
  path other := by
    by_cases same : other = place
    · have path := paths.path place
      have once := paths.once place
      rw [split] at path once
      have apart := (List.nodup_cons.mp (List.nodup_middle.mp once)).1
      have detached := path.detach once
      rw [same, split, filter_ne_of_split apart]
      by_cases alone : first.getLast? = none
      · rw [if_pos alone] at detached ⊢
        rw [Function.update_self]
        exact detached
      · rw [if_neg alone] at detached ⊢
        exact detached
    · have outside : ∀ address' ∈ lists other, address' ∉ first ++ address :: last := by
        intro address' member inner
        rw [← split] at inner
        exact same (paths.apart member inner)
      have kept := paths.filter_ne_of_other (split ▸ List.mem_append_cons_self) same
      have unmoved : (if first.getLast? = none then Function.update head place (next address)
          else head) other = head other := by
        split
        next => exact Function.update_of_ne same _ _
        next => rfl
      rw [kept, unmoved]
      refine (paths.path other).congr fun address' member => Path.detached_of_not_mem ?_ _ _
      exact fun inner => outside address' member (List.mem_append_left _ inner)
  once other := (paths.once other).filter _
  apart member member' := paths.apart (List.mem_filter.mp member).1 (List.mem_filter.mp member').1

/-- An address that is on no list is put behind one: the last one, or the pointer when there is
none, is led to it. -/
theorem attach (paths : Paths next head lists) (outside : ∀ place, address ∉ lists place)
    (place : Place) :
    Paths (Function.update ((lists place).getLast?.elim next fun final =>
        Function.update next final (some address)) address none)
      (if (lists place).getLast? = none then Function.update head place (some address) else head)
      (Function.update lists place (lists place ++ [address])) where
  path other := by
    by_cases same : other = place
    · have attached := (paths.path place).attach (paths.once place) (outside place)
      rw [same, Function.update_self]
      by_cases alone : (lists place).getLast? = none
      · rw [if_pos alone] at attached ⊢
        rw [Function.update_self]
        exact attached
      · rw [if_neg alone] at attached ⊢
        exact attached
    · have unmoved : (if (lists place).getLast? = none then
          Function.update head place (some address) else head) other = head other := by
        split
        next => exact Function.update_of_ne same _ _
        next => rfl
      rw [unmoved, Function.update_of_ne same]
      refine (paths.path other).congr fun address' member => Path.attached_of_not_mem ?_ ?_ _
      · exact fun inner => same (paths.apart member inner)
      · exact ne_of_mem_of_not_mem member (outside other)
  once other := by
    by_cases same : other = place
    · rw [same, Function.update_self]
      refine List.nodup_append.mpr ⟨paths.once place, List.nodup_singleton _, ?_⟩
      exact fun address' member _ on =>
        List.mem_singleton.mp on ▸ ne_of_mem_of_not_mem member (outside place)
    · rw [Function.update_of_ne same]
      exact paths.once other
  apart member member' := paths.apart_update (List.forall_mem_append.mpr
    ⟨fun _ member => Or.inl member, by simpa using Or.inr outside⟩) member member'

omit [DecidableEq Address] in
/-- The first address is taken off a list by leading the pointer past it. -/
theorem pop (paths : Paths next head lists) {rest : List Address}
    (split : lists place = address :: rest) :
    Paths next (Function.update head place (next address)) (Function.update lists place rest) where
  path other := by
    by_cases same : other = place
    · have path := paths.path place
      rw [split] at path
      rw [same, Function.update_self, Function.update_self]
      exact path.2
    · rw [Function.update_of_ne same, Function.update_of_ne same]
      exact paths.path other
  once other := by
    by_cases same : other = place
    · have once := paths.once place
      rw [split] at once
      rw [same, Function.update_self]
      exact (List.nodup_cons.mp once).2
    · rw [Function.update_of_ne same]
      exact paths.once other
  apart member member' := paths.apart_update (fun _ member =>
    Or.inl (split ▸ List.mem_cons_of_mem _ member)) member member'

end Paths

/-! ### Walks -/

/-- A loop along the links. It stops at the null pointer, or at the first address it looks for,
and gives the address before and the one it stopped at. A walk longer than the fuel has no
outcome. -/
def walk (next : Address → Option Address) (found : Address → Bool) :
    Nat → Option Address → Option Address → Option (Option Address × Option Address)
  | _, prior, none => some (prior, none)
  | 0, _, some _ => none
  | fuel + 1, prior, some node =>
    if found node then some (prior, some node)
    else walk next found fuel (some node) (next node)

/-- A walk goes on behind the nodes that are not looked for. -/
theorem walk_append {found : Address → Bool} {first last : List Address}
    (path : Path next pointer (first ++ last) none) (passed : ∀ other ∈ first, found other = false)
    (fuel : Nat) (prior : Option Address) :
    walk next found (first.length + fuel) prior pointer =
      walk next found fuel (first.getLast?.or prior) last.head? := by
  induction first generalizing pointer prior with
  | nil =>
    rw [path.head_eq, Option.or_none, List.length_nil, Nat.zero_add]
    rfl
  | cons node rest inductionHypothesis =>
    obtain ⟨rfl, onward⟩ := path
    obtain ⟨missed, later⟩ := List.forall_mem_cons.mp passed
    rw [List.length_cons, Nat.add_right_comm, walk, missed, if_neg Bool.false_ne_true,
      inductionHypothesis onward later]
    cases rest <;> simp [List.getLast?_cons]

theorem walk_of_found {found : Address → Bool} {first last : List Address}
    (path : Path next pointer (first ++ address :: last) none)
    (passed : ∀ other ∈ first, found other = false) (here : found address = true) {fuel : Nat}
    (enough : first.length < fuel) (prior : Option Address) :
    walk next found fuel prior pointer = some (first.getLast?.or prior, some address) := by
  obtain ⟨more, rfl⟩ := Nat.exists_eq_add_of_lt enough
  rw [Nat.add_assoc, walk_append path passed, List.head?_cons, walk, if_pos here]

theorem walk_of_missed {found : Address → Bool} (path : Path next pointer list none)
    (passed : ∀ other ∈ list, found other = false) {fuel : Nat} (enough : list.length ≤ fuel)
    (prior : Option Address) :
    walk next found fuel prior pointer = some (list.getLast?.or prior, none) := by
  obtain ⟨more, rfl⟩ := Nat.exists_eq_add_of_le enough
  rw [← List.append_nil list] at path
  rw [walk_append path passed]
  cases more <;> rfl

/-- A list misses what is looked for, or splits at the first address that is found. -/
theorem missed_or_split (found : Address → Bool) (list : List Address) :
    (∀ other ∈ list, found other = false) ∨
      ∃ first address last, list = first ++ address :: last ∧
        (∀ other ∈ first, found other = false) ∧ found address = true := by
  induction list with
  | nil => exact Or.inl fun _ member => by cases member
  | cons node rest inductionHypothesis =>
    cases here : found node with
    | true => exact Or.inr ⟨[], node, rest, rfl, fun _ member => (by cases member), here⟩
    | false =>
      rcases inductionHypothesis with missed | ⟨first, address, last, rfl, passed, stops⟩
      · exact Or.inl (List.forall_mem_cons.mpr ⟨here, missed⟩)
      · exact Or.inr ⟨node :: first, address, last, rfl,
          List.forall_mem_cons.mpr ⟨here, passed⟩, stops⟩

/-- A walk along a whole list passes it, or stops at the first address that is found. -/
theorem walk_cases (found : Address → Bool) (path : Path next pointer list none) {fuel : Nat}
    (enough : list.length ≤ fuel) :
    ((∀ other ∈ list, found other = false) ∧
      walk next found fuel none pointer = some (list.getLast?, none)) ∨
    ∃ first address last, list = first ++ address :: last ∧
      (∀ other ∈ first, found other = false) ∧ found address = true ∧
        walk next found fuel none pointer = some (first.getLast?, some address) := by
  rcases missed_or_split found list with missed | ⟨first, address, last, rfl, passed, here⟩
  · have walked := walk_of_missed path missed enough none
    rw [Option.or_none] at walked
    exact Or.inl ⟨missed, walked⟩
  · have short : first.length < fuel := by
      rw [List.length_append, List.length_cons] at enough
      omega
    have walked := walk_of_found path passed here short none
    rw [Option.or_none] at walked
    exact Or.inr ⟨first, address, last, rfl, passed, here, walked⟩

/-- A walk to an address on the list stops there. -/
theorem walk_of_mem [DecidableEq Address] {first last : List Address}
    (path : Path next pointer (first ++ address :: last) none)
    (distinct : (first ++ address :: last).Nodup) {fuel : Nat}
    (enough : (first ++ address :: last).length ≤ fuel) :
    walk next (fun node => node = address) fuel none pointer =
      some (first.getLast?, some address) := by
  have passed : ∀ other ∈ first, decide (other = address) = false := by
    intro other member
    rw [List.nodup_append] at distinct
    exact decide_eq_false (distinct.2.2 other member address List.mem_cons_self)
  have short : first.length < fuel := by
    rw [List.length_append, List.length_cons] at enough
    omega
  have walked := walk_of_found path passed (decide_eq_true rfl) short none
  rw [Option.or_none] at walked
  exact walked

/-- What a walk stops at is the first address it looks for. -/
theorem walk_find (found : Address → Bool) (path : Path next pointer list none) {fuel : Nat}
    (enough : list.length ≤ fuel) :
    (walk next found fuel none pointer).map Prod.snd = some (list.find? found) := by
  rcases walk_cases found path enough with ⟨missed, walked⟩ |
    ⟨first, address, last, rfl, passed, here, walked⟩
  · rw [walked, Option.map_some, Option.some_inj]
    exact (List.find?_eq_none.mpr fun other member => by simp [missed other member]).symm
  · rw [walked, Option.map_some, Option.some_inj]
    refine (List.find?_eq_some_iff_append.mpr ⟨here, first, last, rfl, fun other member => ?_⟩).symm
    simp [passed other member]

/-- The addresses a loop passes on its way to the null pointer. It has no outcome when they are more
than the fuel. -/
def passed (next : Address → Option Address) : Nat → Option Address → Option (List Address)
  | _, none => some []
  | 0, some _ => none
  | fuel + 1, some node => (passed next fuel (next node)).map fun rest => node :: rest

theorem passed_of_path {fuel : Nat} (path : Path next pointer list none)
    (short : list.length ≤ fuel) : passed next fuel pointer = some list := by
  induction list generalizing pointer fuel with
  | nil =>
    cases path
    cases fuel <;> rfl
  | cons node rest inductionHypothesis =>
    obtain ⟨rfl, onward⟩ := path
    cases fuel with
    | zero => cases short
    | succ fuel =>
      rw [passed, inductionHypothesis onward (Nat.le_of_succ_le_succ short), Option.map_some]

/-- A loop that follows the links to their end. It has no outcome when it is longer than the
fuel. -/
def follow (next : Address → Option Address) : Nat → Address → Option Address
  | 0, _ => none
  | fuel + 1, node =>
    match next node with
    | some other => follow next fuel other
    | none => some node

/-- A loop along a path ends at its last address. -/
theorem follow_of_path {fuel : Nat} (path : Path next (next address) list none)
    (short : list.length < fuel) : follow next fuel address = (address :: list).getLast? := by
  induction list generalizing address fuel with
  | nil =>
    obtain ⟨fuel, rfl⟩ := Nat.exists_eq_add_of_lt short
    have ends : next address = none := path
    simp [follow, ends]
  | cons other rest inductionHypothesis =>
    obtain ⟨leads, onward⟩ := path
    cases fuel with
    | zero => cases short
    | succ fuel =>
      rw [follow, leads]
      exact inductionHypothesis onward (Nat.lt_of_succ_lt_succ short)

/-- The loop from the first pointer that is not null ends at the last address of the first list that
is not empty. -/
theorem follow_of_paths {Place : Type} {head : Place → Option Address}
    {lists : Place → List Address} {fuel : Nat} (places : List Place)
    (paths : ∀ place ∈ places, Path next (head place) (lists place) none)
    (short : ∀ place ∈ places, (lists place).length ≤ fuel) :
    (match places.findSome? head with
      | some node => (follow next fuel node).map some
      | none => some none) = some (places.findSome? fun place => (lists place).getLast?) := by
  induction places with
  | nil => rfl
  | cons place rest inductionHypothesis =>
    obtain ⟨path, paths⟩ := List.forall_mem_cons.mp paths
    obtain ⟨fits, short⟩ := List.forall_mem_cons.mp short
    rw [List.findSome?_cons, List.findSome?_cons]
    cases list : lists place with
    | nil =>
      rw [list] at path
      have empty : head place = none := path
      rw [empty, List.getLast?_nil]
      exact inductionHypothesis paths short
    | cons node last =>
      rw [list] at path fits
      rw [path.1, List.getLast?_cons]
      simp only [follow_of_path path.2 fits, List.getLast?_cons, Option.map_some]

/-! ### Segments linked both ways -/

/-- The addresses are linked to each other both ways, the first one back to `before` and the last
one on to `after`. -/
def Segment (next prev : Address → Option Address) :
    Option Address → List Address → Option Address → Prop
  | _, [], _ => True
  | before, address :: rest, after => prev address = before ∧ next address = rest.head?.or after ∧
      Segment next prev (some address) rest after

/-- A segment is a path one way and, read backwards, a path the other way. -/
theorem segment_iff :
    Segment next prev before list after ↔ Path next (list.head?.or after) list after ∧
      Path prev (list.getLast?.or before) list.reverse before := by
  induction list generalizing before with
  | nil => simp [Segment, Path]
  | cons address rest inductionHypothesis =>
    have last : (address :: rest).getLast?.or before = rest.getLast?.or (some address) := by
      cases rest <;> simp [List.getLast?_cons]
    rw [Segment, inductionHypothesis, List.reverse_cons, Path.append_iff, last]
    constructor
    · rintro ⟨back, onward, forwards, backwards⟩
      exact ⟨⟨rfl, by rw [onward]; exact forwards⟩, some address, backwards, rfl, back⟩
    · rintro ⟨⟨_, forwards⟩, middle, backwards, rfl, back⟩
      have onward := forwards.head_eq
      exact ⟨back, onward, by rw [← onward]; exact forwards, backwards⟩

namespace Segment

theorem append_iff {later : List Address} :
    Segment next prev before (list ++ later) after ↔
      Segment next prev before list (later.head?.or after) ∧
        Segment next prev (list.getLast?.or before) later after := by
  induction list generalizing before with
  | nil => simp [Segment]
  | cons address rest inductionHypothesis =>
    have last : (address :: rest).getLast?.or before = rest.getLast?.or (some address) := by
      cases rest <;> simp [List.getLast?_cons]
    rw [List.cons_append, Segment, Segment, inductionHypothesis, last, List.head?_append,
      Option.or_assoc, and_assoc, and_assoc]

/-- A segment depends on its own addresses only. -/
theorem congr (segment : Segment next prev before list after)
    (nexts : ∀ address ∈ list, next' address = next address)
    (prevs : ∀ address ∈ list, prev' address = prev address) :
    Segment next' prev' before list after := by
  rw [segment_iff] at segment ⊢
  refine ⟨segment.1.congr nexts, segment.2.congr fun address member => prevs address ?_⟩
  exact List.mem_reverse.mp member

/-- The first address of a segment can be led back elsewhere. -/
theorem relinkBefore {before' : Option Address} (segment : Segment next prev before list after)
    (distinct : list.Nodup) (nexts : ∀ address ∈ list, next' address = next address)
    (prevs : ∀ address ∈ list, list.head? ≠ some address → prev' address = prev address)
    (starts : ∀ address, list.head? = some address → prev' address = before') :
    Segment next' prev' before' list after := by
  cases list with
  | nil => trivial
  | cons first rest =>
    obtain ⟨_, onward, segment⟩ := segment
    have outside := (List.nodup_cons.mp distinct).1
    refine ⟨starts first rfl, by rw [nexts first List.mem_cons_self, onward], ?_⟩
    refine segment.congr (fun address member => nexts address (List.mem_cons_of_mem _ member))
      fun address member => prevs address (List.mem_cons_of_mem _ member) fun same => ?_
    cases same
    exact outside member

/-- The last address of a segment can be led on elsewhere. -/
theorem relinkAfter {after' : Option Address} (segment : Segment next prev before list after)
    (distinct : list.Nodup) (prevs : ∀ address ∈ list, prev' address = prev address)
    (nexts : ∀ address ∈ list, list.getLast? ≠ some address → next' address = next address)
    (ends : ∀ address, list.getLast? = some address → next' address = after') :
    Segment next' prev' before list after' := by
  induction list generalizing before with
  | nil => trivial
  | cons first rest inductionHypothesis =>
    obtain ⟨back, onward, segment⟩ := segment
    obtain ⟨outside, distinct⟩ := List.nodup_cons.mp distinct
    obtain ⟨backHere, backLater⟩ := List.forall_mem_cons.mp prevs
    cases rest with
    | nil => exact ⟨backHere.trans back, ends first rfl, trivial⟩
    | cons second tail =>
      have last : (first :: second :: tail).getLast? = (second :: tail).getLast? :=
        List.getLast?_cons_cons
      have here : next' first = next first := by
        refine nexts first List.mem_cons_self fun ends => outside ?_
        rw [last] at ends
        exact List.mem_of_getLast? ends
      refine ⟨backHere.trans back, here.trans onward, ?_⟩
      exact inductionHypothesis segment distinct backLater
        (fun address member inner => nexts address (List.mem_cons_of_mem _ member)
          (by rw [last]; exact inner))
        fun address ends' => ends address (by rw [last]; exact ends')

/-- Two segments are joined by leading the last address of one and the first of the other to each
other. -/
theorem join [DecidableEq Address] {first last : List Address} {middle middle' : Option Address}
    (left : Segment next prev before first middle) (right : Segment next prev middle' last after)
    (distinct : (first ++ last).Nodup)
    (nexts : ∀ address ∈ first ++ last, next' address =
      if first.getLast? = some address then last.head?.or after else next address)
    (prevs : ∀ address ∈ first ++ last, prev' address =
      if last.head? = some address then first.getLast?.or before else prev address) :
    Segment next' prev' before (first ++ last) after := by
  obtain ⟨onceFirst, onceLast, apart⟩ := List.nodup_append.mp distinct
  rw [List.forall_mem_append] at nexts prevs
  refine append_iff.mpr ⟨left.relinkAfter onceFirst ?_ ?_ ?_, right.relinkBefore onceLast ?_ ?_ ?_⟩
  · intro address member
    rw [prevs.1 address member, if_neg fun starts => ?_]
    exact apart _ member _ (List.mem_of_head? starts) rfl
  · intro address member inner
    rw [nexts.1 address member, if_neg inner]
  · intro address ends
    rw [nexts.1 address (List.mem_of_getLast? ends), if_pos ends]
  · intro address member
    rw [nexts.2 address member, if_neg fun ends => ?_]
    exact apart _ (List.mem_of_getLast? ends) _ member rfl
  · intro address member inner
    rw [prevs.2 address member, if_neg inner]
  · intro address starts
    rw [prevs.2 address (List.mem_of_head? starts), if_pos starts]

/-- An address is put where a segment is cut in two, by leading it and the ends of the cut to each
other. -/
theorem insert [DecidableEq Address] {first last : List Address}
    (segment : Segment next prev before (first ++ last) after)
    (distinct : (first ++ address :: last).Nodup)
    (nexts : ∀ other ∈ first ++ address :: last, next' other =
      if other = address then last.head?.or after
      else if first.getLast? = some other then some address else next other)
    (prevs : ∀ other ∈ first ++ address :: last, prev' other =
      if other = address then first.getLast?.or before
      else if last.head? = some other then some address else prev other) :
    Segment next' prev' before (first ++ address :: last) after := by
  obtain ⟨left, right⟩ := append_iff.mp segment
  obtain ⟨onceFirst, onceBehind, apart⟩ := List.nodup_append.mp distinct
  obtain ⟨outside, onceLast⟩ := List.nodup_cons.mp onceBehind
  have notAddress : ∀ other ∈ first, other ≠ address := fun other member =>
    apart other member address List.mem_cons_self
  have notBehind : ∀ other ∈ last, other ≠ address := fun other member same =>
    outside (same ▸ member)
  refine append_iff.mpr ⟨left.relinkAfter onceFirst ?_ ?_ ?_, ?_, ?_,
    right.relinkBefore onceLast ?_ ?_ ?_⟩
  · intro other member
    rw [prevs other (List.mem_append_left _ member), if_neg (notAddress other member),
      if_neg fun starts => ?_]
    exact apart _ member _ (List.mem_cons_of_mem _ (List.mem_of_head? starts)) rfl
  · intro other member inner
    rw [nexts other (List.mem_append_left _ member), if_neg (notAddress other member),
      if_neg inner]
  · intro other ends
    have member := List.mem_of_getLast? ends
    rw [nexts other (List.mem_append_left _ member), if_neg (notAddress other member), if_pos ends]
    rfl
  · rw [prevs address (by simp), if_pos rfl]
  · rw [nexts address (by simp), if_pos rfl]
  · intro other member
    rw [nexts other (by simp [member]), if_neg (notBehind other member),
      if_neg fun ends => ?_]
    exact apart _ (List.mem_of_getLast? ends) _ (List.mem_cons_of_mem _ member) rfl
  · intro other member inner
    rw [prevs other (by simp [member]), if_neg (notBehind other member), if_neg inner]
  · intro other starts
    have member := List.mem_of_head? starts
    rw [prevs other (by simp [member]), if_neg (notBehind other member), if_pos starts]

end Segment

end Memory
