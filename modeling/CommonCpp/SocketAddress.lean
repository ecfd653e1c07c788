/-
This file settles what a copy of a list of socket addresses is.

`Socket::address` keeps the addresses that a name has in a list, the first of them the one to be
tried first. A copy is made with `insert`, which looks for an equal address in the whole list and
links a new one at its front. So a copy has the addresses of the list in the opposite order, and
equals it only when there is no more than one of them.

`Socket::equal` compares the first four bytes of an address of either family, and takes a port of
zero for any port. What `getaddrinfo` returns for the text of an address is a parameter.
-/

import CommonCpp.Cidr

namespace CommonCpp

namespace SocketAddress

/-! ### The code -/

/-- A `sockaddr_in` or a `sockaddr_in6`. -/
structure Address where
  family : Family
  host : List UInt8
  port : UInt16
  internet : family ≠ .unspec
  length_host : host.length = family.size
  deriving DecidableEq

/-- `Socket::equal`, which does the same for both families. -/
def equal (s1 s2 : Address) : Bool :=
  if s1.family ≠ s2.family then false
  else if s1.host.take 4 ≠ s2.host.take 4 then false
  else if s1.port = 0 ∨ s2.port = 0 then true
  else s1.port = s2.port

/-- `operator==`, over the nodes of both lists. -/
def equals : List Address → List Address → Bool
  | node :: list, node_o :: list_o => if equal node node_o then equals list list_o else false
  | [], [] => true
  | _, _ => false

/-- The first choice, if there is one. -/
def get (list : List Address) : Option Address := list.head?

def family (list : List Address) : Family :=
  match list with
  | [] => .unspec
  | node :: _ => node.family

def remove (addr : Address) : List Address → List Address × Bool
  | [] => ([], false)
  | node :: list =>
    if equal addr node then (list, true)
    else (node :: (remove addr list).1, (remove addr list).2)

section Lookup

-- What `getaddrinfo` returns for the text that `query` writes of an address, and its port.
variable (lookup : Address → List Address)

/-- `insert`: of what `getaddrinfo` returns the first node is linked before the list. -/
def insert (list : List Address) (addr : Address) : List Address × Bool :=
  if list.any (equal addr) then (list, false)
  else
    match lookup addr with
    | [] => (list, false)
    | node :: _ => (node :: list, true)

/-- `copy` into a list that is cleared first, as the copy constructor uses it. -/
def copy (addr : List Address) : List Address :=
  addr.foldl (fun list addr => (insert lookup list addr).1) []

/-- `operator=`. -/
def assign (list rhs : List Address) : List Address :=
  if ¬ equals list rhs then copy lookup rhs else list

/-- `setPort` of one address, where `htons` is not seen. -/
def Address.setPort (port : UInt16) (address : Address) : Address := { address with port := port }

def setPort (port : UInt16) (list : List Address) : List Address := list.map (Address.setPort port)

def withPort (port : UInt16) (list : List Address) : List Address := setPort port (copy lookup list)

/-- The lists that calls of `insert` and `remove` make. -/
inductive Built : List Address → Prop
  | empty : Built []
  | insert {list : List Address} (built : Built list) (addr : Address) :
      Built (insert lookup list addr).1
  | remove {list : List Address} (built : Built list) (addr : Address) :
      Built (remove addr list).1

end Lookup

/-! ### Lists without equal addresses -/

theorem equal_iff (s1 s2 : Address) :
    equal s1 s2 = true ↔ s1.family = s2.family ∧ s1.host.take 4 = s2.host.take 4 ∧
      (s1.port = 0 ∨ s2.port = 0 ∨ s1.port = s2.port) := by
  unfold equal
  split
  next other => exact iff_of_false Bool.false_ne_true fun same => other same.1
  next same =>
    split
    next other => exact iff_of_false Bool.false_ne_true fun same => other same.2.1
    next host =>
      rw [and_iff_right (not_not.mp same), and_iff_right (not_not.mp host), ← or_assoc]
      split
      next any => exact iff_of_true rfl (.inl any)
      next ports => rw [decide_eq_true_eq, or_iff_right ports]

theorem equal_refl (addr : Address) : equal addr addr = true :=
  (equal_iff addr addr).mpr ⟨rfl, rfl, .inr (.inr rfl)⟩

theorem equal_symm {s1 s2 : Address} (same : equal s1 s2 = true) : equal s2 s1 = true := by
  obtain ⟨family, host, port⟩ := (equal_iff s1 s2).mp same
  refine (equal_iff s2 s1).mpr ⟨family.symm, host.symm, ?_⟩
  rcases port with zero | zero | port
  · exact .inr (.inl zero)
  · exact .inl zero
  · exact .inr (.inr port.symm)

/-- No two addresses of the list are equal. -/
def Distinct (list : List Address) : Prop := list.Pairwise fun s1 s2 => ¬ equal s1 s2

variable {lookup : Address → List Address} {list : List Address}

/-- `getaddrinfo` returns the address itself first, whatever it returns after it. -/
def Resolves (lookup : Address → List Address) : Prop :=
  ∀ addr, ∃ rest, lookup addr = addr :: rest

theorem remove_sublist (addr : Address) (list : List Address) :
    (remove addr list).1.Sublist list := by
  induction list with
  | nil => exact List.Sublist.refl _
  | cons node list inductionHypothesis =>
    unfold remove
    split
    · exact List.sublist_cons_self _ _
    · exact inductionHypothesis.cons_cons node

theorem insert_of_new (resolves : Resolves lookup) {addr : Address}
    (new : ∀ node ∈ list, ¬ equal addr node) : (insert lookup list addr).1 = addr :: list := by
  obtain ⟨rest, found⟩ := resolves addr
  have absent : list.any (equal addr) = false := List.any_eq_false.mpr new
  simp only [insert, absent, found, Bool.false_eq_true, if_false]

theorem Built.distinct (resolves : Resolves lookup) (built : Built lookup list) :
    Distinct list := by
  induction built with
  | empty => exact List.Pairwise.nil
  | @insert list built addr inductionHypothesis =>
    by_cases new : ∀ node ∈ list, ¬ equal addr node
    · rw [insert_of_new resolves new]
      exact List.Pairwise.cons new inductionHypothesis
    · have present : list.any (equal addr) = true := by
        simpa only [List.any_eq_true, not_forall, not_not, exists_prop] using new
      rw [SocketAddress.insert, if_pos present]
      exact inductionHypothesis
  | remove built addr inductionHypothesis =>
    exact inductionHypothesis.sublist (remove_sublist addr _)

/-- What is inserted one after the other stands in the opposite order. -/
theorem copy_eq (resolves : Resolves lookup) (distinct : Distinct list) :
    copy lookup list = list.reverse := by
  have inserted : ∀ (done : List Address), (∀ addr ∈ list, ∀ node ∈ done, ¬ equal addr node) →
      list.foldl (fun list addr => (insert lookup list addr).1) done = list.reverse ++ done := by
    induction list with
    | nil => exact fun done _ => rfl
    | cons addr list inductionHypothesis =>
      intro done new
      obtain ⟨others, distinct'⟩ := List.pairwise_cons.mp distinct
      obtain ⟨first, rest⟩ := List.forall_mem_cons.mp new
      rw [List.foldl_cons, insert_of_new resolves first, inductionHypothesis distinct',
        List.reverse_cons, List.append_assoc]
      · rfl
      · intro other member
        refine List.forall_mem_cons.mpr ⟨fun same => ?_, rest other member⟩
        exact others other member (equal_symm same)
  exact (inserted [] fun _ _ _ none_ => by cases none_).trans (List.append_nil _)

theorem equals_refl (list : List Address) : equals list list = true := by
  induction list with
  | nil => rfl
  | cons addr list inductionHypothesis =>
    rw [equals, if_pos (equal_refl addr), inductionHypothesis]

/-- Lists that are equal have equal first choices, of one family. -/
theorem equals_first {list' : List Address} (same : equals list list' = true) :
    family list = family list' ∧ ∀ first ∈ get list, ∃ first' ∈ get list', equal first first' := by
  cases list with
  | nil =>
    cases list' with
    | nil => exact ⟨rfl, fun first none_ => by cases none_⟩
    | cons node' rest' => cases same
  | cons node rest =>
    cases list' with
    | nil => cases same
    | cons node' rest' =>
      rw [equals] at same
      split at same
      next first =>
        refine ⟨((equal_iff node node').mp first).1, fun found member => ?_⟩
        cases member
        exact ⟨node', rfl, first⟩
      next => cases same

/-- The ends of a list of more than one address. -/
theorem ends_of_two (distinct : Distinct list) (two : ¬ list.length ≤ 1) :
    ∃ first last between, list = first :: (between ++ [last]) ∧ ¬ equal last first := by
  cases list with
  | nil => exact absurd (Nat.zero_le 1) two
  | cons first rest =>
    rcases List.eq_nil_or_concat rest with rfl | ⟨between, last, rfl⟩
    · exact absurd le_rfl two
    · obtain ⟨others, -⟩ := List.pairwise_cons.mp distinct
      refine ⟨first, last, between, by rw [List.concat_eq_append], fun same => ?_⟩
      exact others last (by simp) (equal_symm same)

theorem reverse_of_one (one : list.length ≤ 1) : list.reverse = list := by
  cases list with
  | nil => rfl
  | cons addr rest =>
    rw [List.length_cons] at one
    rw [List.eq_nil_of_length_eq_zero (by omega : rest.length = 0), List.reverse_singleton]

/-! ### What a copy equals -/

theorem equals_reverse_iff (distinct : Distinct list) :
    equals list.reverse list = true ↔ list.length ≤ 1 := by
  constructor
  · intro same
    by_contra two
    obtain ⟨first, last, between, rfl, different⟩ := ends_of_two distinct two
    rw [List.reverse_cons, List.reverse_append, List.reverse_singleton, List.singleton_append,
      List.cons_append, equals, if_neg different] at same
    cases same
  · intro one
    rw [reverse_of_one one]
    exact equals_refl list

/-- The part of an address that a port does not change. -/
def Address.place (addr : Address) : Family × List UInt8 := (addr.family, addr.host)

theorem setPort_eq_iff (port : UInt16) (list list' : List Address) :
    setPort port list = setPort port list' ↔
      list.map Address.place = list'.map Address.place := by
  have placed (addr addr' : Address) :
      addr.setPort port = addr'.setPort port ↔ addr.place = addr'.place := by
    simp only [Address.setPort, Address.place, Address.mk.injEq, Prod.mk.injEq, and_true]
  induction list generalizing list' with
  | nil => simp only [setPort, List.map_nil, List.nil_eq, List.map_eq_nil_iff]
  | cons addr list inductionHypothesis =>
    cases list' with
    | nil => simp only [setPort, List.map_nil, List.map_cons, reduceCtorEq]
    | cons addr' list' =>
      show addr.setPort port :: setPort port list = addr'.setPort port :: setPort port list' ↔ _
      rw [List.map_cons, List.map_cons, List.cons.injEq, List.cons.injEq]
      exact and_congr (placed addr addr') (inductionHypothesis list')

/-- The list with every port replaced is what `withPort` returns when its hosts are the same from
either end. -/
theorem withPort_eq_iff (resolves : Resolves lookup) (distinct : Distinct list) (port : UInt16) :
    withPort lookup port list = list.map (Address.setPort port) ↔
      (list.map Address.place).reverse = list.map Address.place := by
  rw [withPort, copy_eq resolves distinct, ← List.map_reverse]
  exact setPort_eq_iff port list.reverse list

/-- An assigned list equals the other if it did before, or if the other has one address. -/
theorem assign_equals_iff (resolves : Resolves lookup) {rhs : List Address}
    (distinct : Distinct rhs) (list : List Address) :
    equals (assign lookup list rhs) rhs = true ↔ equals list rhs = true ∨ rhs.length ≤ 1 := by
  unfold assign
  split
  next other => rw [copy_eq resolves distinct, equals_reverse_iff distinct, or_iff_right other]
  next same => exact iff_of_true (not_not.mp same) (.inl (not_not.mp same))

/-- What is to hold of copies of a list: they equal it and have its first choice, an assignment to
itself changes nothing, and only the ports change in the copy with another port. -/
structure CopiesAgree (lookup : Address → List Address) (list : List Address) : Prop where
  copy_equals : equals (copy lookup list) list = true
  copy_get : get (copy lookup list) = get list
  copy_family : family (copy lookup list) = family list
  assign_equals : ∀ other, equals (assign lookup other list) list = true
  assign_family : ∀ other, family (assign lookup other list) = family list
  assign_self : assign lookup list list = list
  withPort_eq : ∀ port, withPort lookup port list = list.map (Address.setPort port)

/-- Copies of a list agree with it exactly when it has no more than one address. With more, a copy
is the list from its end; but an assignment to itself changes nothing. -/
theorem copies_agree_iff (resolves : Resolves lookup) (built : Built lookup list) :
    (CopiesAgree lookup list ↔ list.length ≤ 1) ∧ copy lookup list = list.reverse ∧
      assign lookup list list = list ∧
      ∀ port, withPort lookup port list = list.map (Address.setPort port) ↔
        (list.map Address.place).reverse = list.map Address.place := by
  have distinct := built.distinct resolves
  have self : assign lookup list list = list := if_neg (not_not_intro (equals_refl list))
  refine ⟨⟨fun agree => ?_, fun one => ?_⟩, copy_eq resolves distinct, self,
    withPort_eq_iff resolves distinct⟩
  · have same := agree.copy_equals
    rwa [copy_eq resolves distinct, equals_reverse_iff distinct] at same
  · have same : copy lookup list = list := by
      rw [copy_eq resolves distinct, reverse_of_one one]
    have assigned (other : List Address) : equals (assign lookup other list) list = true :=
      (assign_equals_iff resolves distinct other).mpr (.inr one)
    refine ⟨by rw [same]; exact equals_refl list, by rw [same], by rw [same], assigned,
      fun other => (equals_first (assigned other)).1, self, fun port => ?_⟩
    rw [withPort, same]
    rfl

/-- An address of IPv4 at the port 80. -/
def host (last : UInt8) : Address := ⟨.inet, [10, 0, 0, last], 80, by decide, rfl⟩

theorem copies_agree_iff_host : CopiesAgree (fun addr => [addr]) [host 1] :=
  (copies_agree_iff (fun addr => ⟨[], rfl⟩) (Built.empty.insert (host 1))).1.mpr (by decide)

/-- The copy of a list of two addresses is not equal to it, and has another first choice. -/
theorem copy_reversed :
    Built (fun addr => [addr]) [host 2, host 1] ∧
      ¬ CopiesAgree (fun addr => [addr]) [host 2, host 1] := by
  refine ⟨(Built.empty.insert (host 1)).insert (host 2), fun agree => ?_⟩
  exact absurd agree.copy_equals (by decide)

end SocketAddress

end CommonCpp
