/-
This file settles which policy of a list is found for an address.

A `cidr` is a network and a netmask of one family. An address belongs to it when the bits of the
address that the mask has are those of the network. `cidr::find` asks for the policy of the longest
mask that has the address, and `cidr::container` for that of the shortest.

Both start from a length that no policy has to beat, but has to: `find` from zero, so that it misses
a network that holds every address, and `container` from 128, so that it misses one that holds a
single address of IPv6. So each is right unless these are all there is to be found.
-/

import CommonCpp.Selection
import Mathlib.Data.Nat.Basic
import Mathlib.Order.OrderDual
import Mathlib.Data.List.Basic

namespace CommonCpp

/-! ### The code -/

/-- The family of an address; `unspec` also stands for the families without internet addresses. -/
inductive Family where
  | unspec
  | inet
  | inet6
  deriving DecidableEq

/-- The size of an address: `sizeof(struct in_addr)` or `sizeof(struct in6_addr)`. -/
def Family.size : Family → ℕ
  | unspec => 0
  | inet => 4
  | inet6 => 16

/-- `hostaddr_internet`, a union: an address of either family is in its first bytes. -/
def Hostaddr : Type := { bytes : List UInt8 // bytes.length = 16 }
  deriving DecidableEq

/-- The part of a `sockaddr_internet` that is read here. -/
structure Sockaddr where
  family : Family
  addr : List UInt8
  length_addr : addr.length = family.size

structure Cidr where
  family : Family
  netmask : Hostaddr
  network : Hostaddr
  deriving DecidableEq

namespace Cidr

/-- The loop of `bitmask`, over as many bytes as both have. -/
def bitmask (bits mask : List UInt8) : List UInt8 := bits.zipWith (· &&& ·) mask

def bitimask (bits mask : List UInt8) : List UInt8 := bits.zipWith (fun bit m => bit ||| ~~~m) mask

/-- The values a mask takes while it is shifted to the right. -/
def masks : List UInt8 := [0x80, 0x40, 0x20, 0x10, 0x08, 0x04, 0x02, 0x01]

/-- The loop of `bitset` on the bytes it may write. A write behind them has no outcome. -/
def bitset : List UInt8 → ℕ → Option (List UInt8)
  | bits, 0 => some bits
  | [], _ + 1 => none
  | bits :: rest, blen + 1 =>
    (bitset rest (blen + 1 - 8)).map (((masks.take (blen + 1)).foldl (· ||| ·) bits) :: ·)

/-- The bits of a byte that are set, up to the first that is not. -/
def byteCount (test : UInt8) : ℕ := (masks.takeWhile fun mask => mask &&& test ≠ 0).length

def bitcount : List UInt8 → ℕ
  | [] => 0
  | test :: bits => if byteCount test = 8 then 8 + bitcount bits else byteCount test

/-- `mask()`, which `getMask` returns. -/
def getMask (cidr : Cidr) : ℕ :=
  match cidr.family with
  | .unspec => 0
  | family => bitcount (cidr.netmask.1.take family.size)

def isMember (cidr : Cidr) (s : Sockaddr) : Bool :=
  if s.family ≠ cidr.family then false
  else
    match cidr.family with
    | .unspec => false
    | family =>
      bitmask (s.addr.take family.size) (cidr.netmask.1.take family.size) =
        cidr.network.1.take family.size

/-- The address in the first bytes of what `broadcast` returns. -/
def broadcast (cidr : Cidr) : List UInt8 :=
  match cidr.family with
  | .unspec => []
  | family => bitimask (cidr.network.1.take family.size) (cidr.netmask.1.take family.size)

/-- What a round of `find` and `container` does: the two differ in which length beats which. -/
def look (beats : ℕ → ℕ → Bool) (s : Sockaddr) (kept : ℕ × Option Cidr) (p : Cidr) :
    ℕ × Option Cidr :=
  if p.isMember s then if beats p.getMask kept.1 then (p.getMask, some p) else kept else kept

def find (policy : List Cidr) (s : Sockaddr) : Option Cidr :=
  (policy.foldl (look (fun mask top => mask > top) s) (0, none)).2

def container (policy : List Cidr) (s : Sockaddr) : Option Cidr :=
  (policy.foldl (look (fun mask top => mask < top) s) (128, none)).2

/-! ### The policies that are found -/

/-- The policies that have the address. -/
def members (policy : List Cidr) (s : Sockaddr) : List Cidr := policy.filter (isMember · s)

theorem mem_members {policy : List Cidr} {s : Sockaddr} {p : Cidr} :
    p ∈ members policy s ↔ p ∈ policy ∧ p.isMember s := List.mem_filter

theorem members_eq_nil {policy : List Cidr} {s : Sockaddr} :
    members policy s = [] ↔ ∀ p ∈ policy, ¬ p.isMember s := List.filter_eq_nil_iff

theorem find_eq (policy : List Cidr) (s : Sockaddr) :
    find policy s = Selection.best getMask 0 (members policy s) := by
  rw [Selection.best, members, List.foldl_filter, find]
  refine congrArg Prod.snd (congrArg (List.foldl · (0, none) policy) ?_)
  funext kept p
  simp only [look, Selection.keep, decide_eq_true_eq, gt_iff_lt]

/-- A length is kept by `container` when it is the greater one in the order turned round. -/
theorem container_eq (policy : List Cidr) (s : Sockaddr) :
    container policy s =
      Selection.best (fun p => OrderDual.toDual p.getMask) (OrderDual.toDual 128)
        (members policy s) := by
  let turn : ℕ × Option Cidr → ℕᵒᵈ × Option Cidr := Prod.map OrderDual.toDual id
  let round (kept : ℕᵒᵈ × Option Cidr) (p : Cidr) : ℕᵒᵈ × Option Cidr :=
    if p.isMember s then Selection.keep (fun p => OrderDual.toDual p.getMask) kept p else kept
  have turned : policy.foldl round (turn (128, none)) =
      turn (policy.foldl (look (fun mask top => mask < top) s) (128, none)) := by
    refine List.foldl_hom turn fun kept p => ?_
    simp only [turn, round, look, Selection.keep, Prod.map_fst, OrderDual.toDual_lt_toDual,
      decide_eq_true_eq]
    split
    · split <;> rfl
    · rfl
  rw [Selection.best, members, List.foldl_filter, container]
  exact (congrArg Prod.snd turned).symm

/-- The answer is the policy with the longest mask among those that have the address. -/
def IsLongest (policy : List Cidr) (s : Sockaddr) (answer : Option Cidr) : Prop :=
  (answer = none ↔ ∀ p ∈ policy, ¬ p.isMember s) ∧
    ∀ p, answer = some p → (p ∈ policy ∧ p.isMember s) ∧
      ∀ other ∈ policy, other.isMember s → other.getMask ≤ p.getMask

/-- The answer is the policy with the shortest mask among those that have the address. -/
def IsShortest (policy : List Cidr) (s : Sockaddr) (answer : Option Cidr) : Prop :=
  (answer = none ↔ ∀ p ∈ policy, ¬ p.isMember s) ∧
    ∀ p, answer = some p → (p ∈ policy ∧ p.isMember s) ∧
      ∀ other ∈ policy, other.isMember s → p.getMask ≤ other.getMask

theorem isLongest_iff {policy : List Cidr} {s : Sockaddr} {answer : Option Cidr} :
    IsLongest policy s answer ↔ Selection.IsBest getMask (members policy s) answer := by
  simp only [IsLongest, Selection.IsBest, members_eq_nil, mem_members, and_imp]

theorem isShortest_iff {policy : List Cidr} {s : Sockaddr} {answer : Option Cidr} :
    IsShortest policy s answer ↔
      Selection.IsBest (fun p => OrderDual.toDual p.getMask) (members policy s) answer := by
  simp only [IsShortest, Selection.IsBest, members_eq_nil, mem_members, and_imp,
    OrderDual.toDual_le_toDual]

/-- `find` is right where no policy has the address, or one whose mask has a bit has it;
`container` where no policy has it, or one whose mask has fewer than 128 bits has it. -/
theorem finds_right_policy_iff (policy : List Cidr) (s : Sockaddr) :
    (IsLongest policy s (find policy s) ↔
        (∀ p ∈ policy, ¬ p.isMember s) ∨ ∃ p ∈ policy, p.isMember s ∧ 0 < p.getMask) ∧
      (IsShortest policy s (container policy s) ↔
        (∀ p ∈ policy, ¬ p.isMember s) ∨ ∃ p ∈ policy, p.isMember s ∧ p.getMask < 128) := by
  constructor
  · rw [isLongest_iff, find_eq, Selection.isBest_best_iff, members_eq_nil]
    simp only [mem_members, and_assoc]
  · rw [isShortest_iff, container_eq, Selection.isBest_best_iff, members_eq_nil]
    simp only [mem_members, and_assoc, OrderDual.toDual_lt_toDual]

/-- The bytes of an address that are all alike. -/
def filled (byte : UInt8) : Hostaddr := ⟨List.replicate 16 byte, List.length_replicate⟩

/-- The policy 0.0.0.0/0 has every address of IPv4, and is not found for 0.0.0.0; the policy ::/128
has the one address, and is not found as its container. -/
theorem extremes_not_found :
    ¬ IsLongest [⟨.inet, filled 0, filled 0⟩] ⟨.inet, List.replicate 4 0, rfl⟩
        (find [⟨.inet, filled 0, filled 0⟩] ⟨.inet, List.replicate 4 0, rfl⟩) ∧
      ¬ IsShortest [⟨.inet6, filled 0xff, filled 0⟩] ⟨.inet6, List.replicate 16 0, rfl⟩
        (container [⟨.inet6, filled 0xff, filled 0⟩] ⟨.inet6, List.replicate 16 0, rfl⟩) := by
  constructor
  · intro right
    have missed := right.1.mp (by decide)
    exact missed _ (List.mem_singleton_self _) (by decide)
  · intro right
    have missed := right.1.mp (by decide)
    exact missed _ (List.mem_singleton_self _) (by decide)

end Cidr

end CommonCpp
