/-
This file models `TypeRef::Counted`, the base of the objects that smart pointers
share: a reference count, and a `dealloc` that runs when the count falls to zero.

The data of an object may hold references itself. Its destructor releases them, and
so a release can bring down a whole tree of objects. The releases that are due are
kept in a list here and made in turn, each one fully before the next. The data of an
object is only ever seen as a constant: the references in it stay what they were at
its construction, until the object is deallocated.

The accounts balance when the count of every object is the number of references to
it, those from outside, those in the data of objects, and those that are still to be
released. A release keeps the balance, however far it goes. It deallocates an object
exactly when the object loses its last reference. A retain keeps the balance while
there is room in the count, which wraps like an `int`.
-/

import Mathlib.Algebra.BigOperators.Group.Finset.Basic
import Mathlib.Algebra.BigOperators.Group.Finset.Piecewise
import Mathlib.Algebra.Order.BigOperators.Group.Finset
import Mathlib.Data.List.ReduceOption
import Mathlib.Tactic.Common

namespace CommonCpp

namespace Counted

/-! ### The code -/

/-- The counted objects, numbered in the order of their construction: the count of each, how often
it has been deallocated, and the references in its data. -/
structure Heap where
  size : Nat
  count : Nat → Int
  deallocs : Nat → Nat
  members : Nat → List (Option Nat)

/-- An `atomic_t`, which is an `int` of 32 bits. -/
def atomic (value : Int) : Int := value.bmod (2 ^ 32)

/-- `count.fetch_retain()`. -/
def retain (heap : Heap) (object : Nat) : Heap :=
  { heap with count := Function.update heap.count object (atomic (heap.count object + 1)) }

/-- `count.fetch_release()`, without its result. -/
def drop (heap : Heap) (object : Nat) : Heap :=
  { heap with count := Function.update heap.count object (atomic (heap.count object - 1)) }

/-- `dealloc`: the object is deleted, and the references in its data with it. -/
def dealloc (heap : Heap) (object : Nat) : Heap :=
  { heap with
    deallocs := Function.update heap.deallocs object (heap.deallocs object + 1)
    members := Function.update heap.members object [] }

/-- The releases that are due. The destructor of an object that is deallocated makes the releases
of the references in its data before any other. -/
def releases : Nat → Heap → List Nat → Heap
  | 0, heap, _ => heap
  | _ + 1, heap, [] => heap
  | fuel + 1, heap, object :: due =>
    if heap.count object < 2 then
      releases fuel (dealloc (drop heap object) object)
        ((heap.members object).reduceOption ++ due)
    else releases fuel (drop heap object) due

/-- The number of references in the data of all objects: no more releases can follow from one. -/
def references (heap : Heap) : Nat :=
  ∑ owner ∈ Finset.range heap.size, (heap.members owner).reduceOption.length

def release (heap : Heap) (object : Nat) : Heap :=
  releases (references heap + 1) heap [object]

/-- `if(ref) ref->retain()`. -/
def retainRef (heap : Heap) : Option Nat → Heap
  | some object => retain heap object
  | none => heap

/-- `if(ref) ref->release()`. -/
def releaseRef (heap : Heap) : Option Nat → Heap
  | some object => release heap object
  | none => heap

/-- A new object that nobody refers to yet; its data holds these references. -/
def create (heap : Heap) (data : List (Option Nat)) : Heap :=
  let heap := data.foldl retainRef heap
  { size := heap.size + 1
    count := Function.update heap.count heap.size 0
    deallocs := Function.update heap.deallocs heap.size 0
    members := Function.update heap.members heap.size data }

/-! ### The accounts -/

/-- The references to an object in the data of objects. -/
def inside (heap : Heap) (object : Nat) : Nat :=
  ∑ owner ∈ Finset.range heap.size, (heap.members owner).reduceOption.count object

/-- The count of every object is the number of references to it: from outside, inside the data of
objects, and owed a release. A deallocated object has none, nor does it hold any. -/
structure Balanced (heap : Heap) (outside : Nat → Nat) (owed : List Nat) : Prop where
  counts : ∀ object, heap.deallocs object = 0 →
    heap.count object = (outside object + inside heap object + owed.count object : Nat)
  dead : ∀ object, heap.deallocs object ≠ 0 →
    outside object + inside heap object + owed.count object = 0 ∧ heap.members object = []
  once : ∀ object, heap.deallocs object ≤ 1
  fresh : ∀ object, heap.size ≤ object →
    heap.count object = 0 ∧ heap.deallocs object = 0 ∧ heap.members object = []
  few : ∀ object, heap.count object < 2 ^ 31

/-- What releases lead to: the accounts balance with nothing owed, an object has been deallocated
if it has lost its last reference, and the others have kept their data. -/
structure Settled (heap : Heap) (outside : Nat → Nat) (owed : List Nat) (target : Heap) : Prop where
  balanced : Balanced target outside []
  size : target.size = heap.size
  fewer : ∀ object, inside target object ≤ inside heap object + owed.count object
  deallocs : ∀ object, target.deallocs object = heap.deallocs object +
    if 0 < outside object + inside heap object + owed.count object ∧
      outside object + inside target object = 0 then 1 else 0
  members : ∀ object, target.deallocs object = heap.deallocs object →
    target.members object = heap.members object

variable {heap target : Heap} {outside outside' : Nat → Nat} {owed due : List Nat}
  {object other : Nat}

@[simp] theorem inside_retain : inside (retain heap object) other = inside heap other := rfl

@[simp] theorem inside_drop : inside (drop heap object) other = inside heap other := rfl

@[simp] theorem references_drop : references (drop heap object) = references heap := rfl

@[simp] theorem drop_members : (drop heap object).members = heap.members := rfl

theorem atomic_of_lt {value : Int} (nonneg : 0 ≤ value) (lt : value < 2 ^ 31) :
    atomic value = value := by
  refine Int.bmod_eq_of_le ?_ ?_ <;> omega

theorem retain_count_self :
    (retain heap object).count object = atomic (heap.count object + 1) :=
  Function.update_self _ _ _

theorem retain_count_of_ne (apart : other ≠ object) :
    (retain heap object).count other = heap.count other :=
  Function.update_of_ne apart _ _

theorem drop_count_self : (drop heap object).count object = atomic (heap.count object - 1) :=
  Function.update_self _ _ _

theorem drop_count_of_ne (apart : other ≠ object) :
    (drop heap object).count other = heap.count other :=
  Function.update_of_ne apart _ _

/-- Taking the data of one object off a sum over all of them. -/
theorem sum_members_update (heap : Heap) (measure : List (Option Nat) → Nat)
    (nothing : measure [] = 0)
    (bounded : heap.size ≤ object → heap.members object = []) :
    ∑ owner ∈ Finset.range heap.size, measure (heap.members owner) =
      measure (heap.members object) + ∑ owner ∈ Finset.range heap.size,
        measure (Function.update heap.members object [] owner) := by
  by_cases member : object ∈ Finset.range heap.size
  · rw [← Finset.add_sum_erase _ _ member, ← Finset.add_sum_erase (Finset.range heap.size)
      (fun owner => measure (Function.update heap.members object [] owner)) member,
      Function.update_self, nothing, Nat.zero_add]
    congr 1
    refine Finset.sum_congr rfl fun owner inRest => ?_
    rw [Function.update_of_ne (Finset.ne_of_mem_erase inRest)]
  · have empty := bounded (Nat.le_of_not_lt (mt Finset.mem_range.mpr member))
    rw [empty, nothing, Nat.zero_add, ← empty, Function.update_eq_self]

theorem inside_dealloc (bounded : heap.size ≤ object → heap.members object = []) (other : Nat) :
    inside heap other =
      (heap.members object).reduceOption.count other + inside (dealloc heap object) other :=
  sum_members_update heap (fun data => data.reduceOption.count other) rfl bounded

theorem references_dealloc (bounded : heap.size ≤ object → heap.members object = []) :
    references heap =
      (heap.members object).reduceOption.length + references (dealloc heap object) :=
  sum_members_update heap (fun data => data.reduceOption.length) rfl bounded

theorem count_owed (object other : Nat) (due : List Nat) :
    (object :: due).count other = due.count other + if other = object then 1 else 0 := by
  by_cases same : other = object
  · rw [same, List.count_cons_self, if_pos rfl]
  · rw [List.count_cons_of_ne (Ne.symm same), if_neg same, Nat.add_zero]

namespace Balanced

theorem alive_of_owed (balanced : Balanced heap outside (object :: due)) :
    heap.deallocs object = 0 := by
  by_contra dead
  have none_ := (balanced.dead object dead).1
  rw [List.count_cons_self] at none_
  omega

/-- An object that has not been constructed is not referred to. -/
theorem constructed_of_referred (balanced : Balanced heap outside owed)
    (referred : 0 < outside object + inside heap object + owed.count object) :
    object < heap.size := by
  by_contra beyond
  obtain ⟨count, alive, _⟩ := balanced.fresh object (Nat.le_of_not_lt beyond)
  have counts := balanced.counts object alive
  omega

theorem constructed_of_owed (balanced : Balanced heap outside (object :: due)) :
    object < heap.size :=
  balanced.constructed_of_referred (by rw [List.count_cons_self]; omega)

theorem bounded (balanced : Balanced heap outside owed) :
    heap.size ≤ object → heap.members object = [] := fun beyond =>
  (balanced.fresh object beyond).2.2

/-- A reference owed is dropped while there are others. -/
theorem drop (balanced : Balanced heap outside (object :: due)) :
    heap.deallocs object = 0 → Balanced (drop heap object) outside due := by
  intro alive
  have few := balanced.few object
  have counted := balanced.counts object alive
  rw [List.count_cons_self] at counted
  have dropped : (Counted.drop heap object).count object = heap.count object - 1 := by
    rw [drop_count_self, atomic_of_lt (by omega) (by omega)]
  refine ⟨fun other living => ?_, fun other dead => ?_, balanced.once, fun other beyond => ?_,
    fun other => ?_⟩
  · have before := balanced.counts other living
    rw [inside_drop]
    by_cases same : other = object
    · rw [same, dropped]
      omega
    · rw [List.count_cons_of_ne (Ne.symm same)] at before
      rw [drop_count_of_ne same, before]
  · have before := balanced.dead other dead
    have apart : other ≠ object := fun same => dead (same ▸ alive)
    rwa [List.count_cons_of_ne (Ne.symm apart)] at before
  · have apart : other ≠ object := fun same =>
      Nat.not_lt_of_le beyond (same ▸ balanced.constructed_of_owed)
    rw [drop_count_of_ne apart]
    exact balanced.fresh other beyond
  · by_cases same : other = object
    · rw [same, dropped]
      omega
    · rw [drop_count_of_ne same]
      exact balanced.few other

/-- An object without references is deallocated, and the references in its data are owed. -/
theorem dealloc (balanced : Balanced heap outside due) (alive : heap.deallocs object = 0)
    (unheld : outside object + inside heap object + due.count object = 0)
    (constructed : object < heap.size) :
    Balanced (dealloc heap object) outside ((heap.members object).reduceOption ++ due) := by
  have split : ∀ other, inside heap other = (heap.members object).reduceOption.count other +
      inside (Counted.dealloc heap object) other := inside_dealloc balanced.bounded
  refine ⟨fun other living => ?_, fun other dead => ?_, fun other => ?_, fun other beyond => ?_,
    balanced.few⟩
  · have apart : other ≠ object := fun same => by
      simp [Counted.dealloc, same] at living
    have living' : heap.deallocs other = 0 := by
      simpa [Counted.dealloc, apart] using living
    have before := balanced.counts other living'
    rw [split other] at before
    rw [List.count_append]
    show heap.count other = _
    omega
  · rw [List.count_append]
    by_cases same : other = object
    · have inside' := split object
      rw [same]
      refine ⟨by omega, Function.update_self _ _ _⟩
    · have dead' : heap.deallocs other ≠ 0 := by
        simpa [Counted.dealloc, same] using dead
      obtain ⟨nothing, empty⟩ := balanced.dead other dead'
      have inside' := split other
      refine ⟨by omega, ?_⟩
      simp only [Counted.dealloc, Function.update_of_ne same, empty]
  · by_cases same : other = object
    · simp [Counted.dealloc, same, alive]
    · simpa [Counted.dealloc, same] using balanced.once other
  · have apart : other ≠ object := fun same => Nat.not_lt_of_le beyond (same ▸ constructed)
    simpa [Counted.dealloc, apart] using balanced.fresh other beyond

end Balanced

/-- One release, that of the first object due, and then the others. -/
theorem Settled.step {next : Heap} {owed' : List Nat} (settled : Settled next outside owed' target)
    (object : Nat) (size : next.size = heap.size)
    (lost : ∀ other, inside next other + owed'.count other + (if other = object then 1 else 0) =
      inside heap other + owed.count other)
    (deallocs : ∀ other, next.deallocs other = heap.deallocs other +
      if other = object ∧ outside other + inside next other + owed'.count other = 0 then 1 else 0)
    (members : ∀ other, next.deallocs other = heap.deallocs other →
      next.members other = heap.members other) :
    Settled heap outside owed target := by
  refine ⟨settled.balanced, settled.size.trans size, fun other => ?_, fun other => ?_,
    fun other same => ?_⟩
  · have fewer := settled.fewer other
    have lost := lost other
    omega
  · have fewer := settled.fewer other
    have lost := lost other
    rw [settled.deallocs, deallocs]
    by_cases equal : other = object
    · simp only [equal, if_true, true_and] at lost fewer ⊢
      split_ifs <;> omega
    · simp only [equal, if_false, false_and, Nat.add_zero] at lost ⊢
      rw [Nat.add_assoc, lost, ← Nat.add_assoc]
  · have kept : next.deallocs other = heap.deallocs other := by
      have first := deallocs other
      have second := settled.deallocs other
      omega
    rw [settled.members other (same.trans kept.symm), members other kept]

theorem Settled.refl (balanced : Balanced heap outside []) : Settled heap outside [] heap := by
  refine ⟨balanced, rfl, fun _ => Nat.le_add_right _ _, fun other => ?_, fun _ _ => rfl⟩
  rw [List.count_nil, if_neg (by omega), Nat.add_zero]

/-- Releases that are due come to an end with the accounts balanced. -/
theorem Balanced.releases (balanced : Balanced heap outside owed) {fuel : Nat}
    (enough : owed.length + references heap ≤ fuel) :
    Settled heap outside owed (releases fuel heap owed) := by
  induction fuel generalizing heap owed with
  | zero =>
    obtain rfl : owed = [] := List.eq_nil_of_length_eq_zero (by omega)
    exact .refl balanced
  | succ fuel inductionHypothesis =>
    cases owed with
    | nil => exact .refl balanced
    | cons object due =>
      have alive := balanced.alive_of_owed
      have dropped := balanced.drop alive
      have counts := balanced.counts object alive
      rw [List.length_cons] at enough
      rw [count_owed, if_pos rfl] at counts
      rw [Counted.releases]
      split
      next last =>
        -- the reference was the only one
        have unheld : outside object + inside (Counted.drop heap object) object +
            due.count object = 0 := by
          rw [inside_drop]
          omega
        have balanced' := dropped.dealloc alive unheld balanced.constructed_of_owed
        rw [drop_members] at balanced'
        have fewer : references heap = (heap.members object).reduceOption.length +
            references (Counted.dealloc (Counted.drop heap object) object) :=
          references_dealloc dropped.bounded
        have split : ∀ other, inside heap other = (heap.members object).reduceOption.count other +
            inside (Counted.dealloc (Counted.drop heap object) object) other :=
          inside_dealloc dropped.bounded
        refine (inductionHypothesis balanced' (by rw [List.length_append]; omega)).step object rfl
          (fun other => ?_) (fun other => ?_) fun other same => ?_
        · rw [count_owed, List.count_append, split other]
          omega
        · by_cases same : other = object
          · have inside' := split object
            rw [inside_drop] at unheld
            rw [same, if_pos ⟨rfl, by rw [List.count_append]; omega⟩]
            exact Function.update_self _ _ _
          · rw [if_neg (not_and.mpr fun same' => absurd same' same)]
            exact Function.update_of_ne same _ _
        · have apart : other ≠ object := by
            rintro rfl
            simp [Counted.dealloc, Counted.drop] at same
          exact Function.update_of_ne apart _ _
      next more =>
        refine (inductionHypothesis dropped (by rw [references_drop]; omega)).step object rfl
          (fun other => ?_) (fun other => ?_) fun other _ => rfl
        · rw [inside_drop, count_owed]
          omega
        · rw [if_neg, Nat.add_zero]
          · rfl
          · rintro ⟨rfl, none_⟩
            rw [inside_drop] at none_
            omega

/-- Releasing one of the references from outside. -/
theorem Balanced.release (balanced : Balanced heap outside' [])
    (given : ∀ other, outside' other = outside other + if other = object then 1 else 0) :
    Settled heap outside [object] (release heap object) := by
  refine Balanced.releases ⟨fun other living => ?_, fun other dead => ?_, balanced.once,
    balanced.fresh, balanced.few⟩ (by rw [List.length_singleton, Nat.add_comm])
  · have counts := balanced.counts other living
    rw [given, List.count_nil] at counts
    rw [counts, count_owed, List.count_nil]
    omega
  · obtain ⟨nothing, empty⟩ := balanced.dead other dead
    rw [given, List.count_nil] at nothing
    refine ⟨?_, empty⟩
    rw [count_owed, List.count_nil]
    omega

/-- Retaining an object for a reference from outside. -/
theorem Balanced.retain (balanced : Balanced heap outside []) (alive : heap.deallocs object = 0)
    (constructed : object < heap.size) (room : heap.count object + 1 < 2 ^ 31)
    (taken : ∀ other, outside' other = outside other + if other = object then 1 else 0) :
    Balanced (retain heap object) outside' [] := by
  have counted := balanced.counts object alive
  have retained : (Counted.retain heap object).count object = heap.count object + 1 := by
    rw [retain_count_self, atomic_of_lt (by omega) room]
  refine ⟨fun other living => ?_, fun other dead => ?_, balanced.once, fun other beyond => ?_,
    fun other => ?_⟩
  · have counts := balanced.counts other living
    rw [inside_retain, taken]
    by_cases same : other = object
    · rw [same] at counts
      rw [same, retained, counts, if_pos rfl]
      omega
    · rw [retain_count_of_ne same, counts, if_neg same]
      rfl
  · obtain ⟨nothing, empty⟩ := balanced.dead other dead
    have apart : other ≠ object := fun same => dead (same ▸ alive)
    refine ⟨?_, empty⟩
    rw [inside_retain, taken, if_neg apart]
    omega
  · have apart : other ≠ object := fun same => Nat.not_lt_of_le beyond (same ▸ constructed)
    rw [retain_count_of_ne apart]
    exact balanced.fresh other beyond
  · by_cases same : other = object
    · rw [same, retained]
      exact room
    · rw [retain_count_of_ne same]
      exact balanced.few other

/-! ### References that may be null -/

/-- How often a reference refers to an object. -/
def points (ref : Option Nat) (object : Nat) : Nat := if ref = some object then 1 else 0

theorem points_some (object other : Nat) :
    points (some object) other = if other = object then 1 else 0 := by
  simp only [points, Option.some_inj, eq_comm]

@[simp] theorem points_none (other : Nat) : points none other = 0 := rfl

/-- The references that holders have to an object, when one of them is exchanged. -/
theorem sum_points_update {Holder : Type} [DecidableEq Holder] [Fintype Holder]
    (refs : Holder → Option Nat) (this : Holder) (ref : Option Nat) (object : Nat) :
    ∑ holder, points (Function.update refs this ref holder) object + points (refs this) object =
      ∑ holder, points (refs holder) object + points ref object := by
  have changed := Finset.add_sum_erase Finset.univ
    (fun holder => points (Function.update refs this ref holder) object) (Finset.mem_univ this)
  have before := Finset.add_sum_erase Finset.univ
    (fun holder => points (refs holder) object) (Finset.mem_univ this)
  have rest : ∑ holder ∈ Finset.univ.erase this,
      points (Function.update refs this ref holder) object =
        ∑ holder ∈ Finset.univ.erase this, points (refs holder) object := by
    refine Finset.sum_congr rfl fun holder member => ?_
    rw [Function.update_of_ne (Finset.ne_of_mem_erase member)]
  simp only [Function.update_self, rest] at changed
  omega

/-- A holder that refers to an object is one of its references. -/
theorem sum_points_pos {Holder : Type} [Fintype Holder] {refs : Holder → Option Nat}
    {this : Holder} {object : Nat} (refers : refs this = some object) :
    0 < ∑ holder, points (refs holder) object := by
  have one : points (refs this) object = 1 := if_pos refers
  have summed : points (refs this) object ≤ ∑ holder, points (refs holder) object :=
    Finset.single_le_sum (f := fun holder => points (refs holder) object)
      (fun _ _ => Nat.zero_le _) (Finset.mem_univ this)
  omega

/-- The object of a reference has been constructed and not deallocated. -/
def Alive (heap : Heap) (ref : Option Nat) : Prop :=
  ∀ object, ref = some object → object < heap.size ∧ heap.deallocs object = 0

/-- The count of every object has room for the references to it in the data. -/
def Roomy (heap : Heap) (data : List (Option Nat)) : Prop :=
  ∀ object ∈ data.reduceOption, heap.count object + data.reduceOption.count object < 2 ^ 31

instance (heap : Heap) (data : List (Option Nat)) : Decidable (Roomy heap data) :=
  inferInstanceAs (Decidable (∀ object ∈ data.reduceOption, _))

theorem roomy_some_iff : Roomy heap [some object] ↔ heap.count object + 1 < 2 ^ 31 := by
  simp [Roomy, List.reduceOption]

theorem roomy_none (heap : Heap) : Roomy heap [none] := fun _ member => by cases member

theorem alive_none (heap : Heap) : Alive heap none := fun _ same => by cases same

theorem Balanced.alive (balanced : Balanced heap outside owed)
    (referred : 0 < outside object + inside heap object + owed.count object) :
    object < heap.size ∧ heap.deallocs object = 0 := by
  refine ⟨balanced.constructed_of_referred referred, ?_⟩
  by_contra dead
  have nothing := (balanced.dead object dead).1
  omega

/-- The references in the data of an object are to objects that are alive. -/
theorem Balanced.alive_of_member (balanced : Balanced heap outside owed) {owner : Nat}
    (member : some object ∈ heap.members owner) :
    object < heap.size ∧ heap.deallocs object = 0 := by
  refine balanced.alive ?_
  have constructed : owner < heap.size := by
    by_contra beyond
    rw [balanced.bounded (Nat.le_of_not_lt beyond)] at member
    cases member
  have counted : 0 < (heap.members owner).reduceOption.count object :=
    List.count_pos_iff.mpr (List.reduceOption_mem_iff.mpr member)
  have summed : (heap.members owner).reduceOption.count object ≤ inside heap object :=
    Finset.single_le_sum (fun _ _ => Nat.zero_le _) (Finset.mem_range.mpr constructed)
      (f := fun owner => (heap.members owner).reduceOption.count object)
  omega

theorem Balanced.retainRef (balanced : Balanced heap outside []) {ref : Option Nat}
    (alive : Alive heap ref) (room : Roomy heap [ref])
    (taken : ∀ other, outside' other = outside other + points ref other) :
    Balanced (retainRef heap ref) outside' [] := by
  cases ref with
  | none =>
    obtain rfl : outside' = outside := funext taken
    exact balanced
  | some object =>
    obtain ⟨constructed, living⟩ := alive object rfl
    exact balanced.retain living constructed (roomy_some_iff.mp room) fun other => by
      rw [taken, points_some]

theorem Balanced.releaseRef (balanced : Balanced heap outside' []) {ref : Option Nat}
    (given : ∀ other, outside' other = outside other + points ref other) :
    Settled heap outside ref.toList (releaseRef heap ref) := by
  cases ref with
  | none =>
    obtain rfl : outside' = outside := funext given
    exact .refl balanced
  | some object => exact balanced.release fun other => by rw [given, points_some]

theorem count_toList (ref : Option Nat) (object : Nat) :
    ref.toList.count object = points ref object := by
  cases ref with
  | none => rfl
  | some other => rw [Option.toList_some, count_owed, points_some, List.count_nil, Nat.zero_add]

/-- An object keeps its data, or loses all of it. -/
theorem Settled.members_or (settled : Settled heap outside owed target) (owner : Nat) :
    target.members owner = heap.members owner ∨ target.members owner = [] := by
  by_cases alive : target.deallocs owner = 0
  · refine Or.inl (settled.members owner ?_)
    have deallocs := settled.deallocs owner
    omega
  · exact Or.inr (settled.balanced.dead owner alive).2

/-- A reference inside is in the data of some object. -/
theorem exists_member_of_inside (referred : 0 < inside heap object) :
    ∃ owner < heap.size, some object ∈ heap.members owner := by
  obtain ⟨owner, member, positive⟩ := Finset.exists_ne_zero_of_sum_ne_zero (Nat.ne_of_gt referred)
  exact ⟨owner, Finset.mem_range.mp member,
    List.reduceOption_mem_iff.mp (List.count_pos_iff.mp (Nat.pos_of_ne_zero positive))⟩

/-! ### Construction -/

/-- The counts alone differ. -/
structure Recounted (heap target : Heap) : Prop where
  size : target.size = heap.size
  deallocs : target.deallocs = heap.deallocs
  members : target.members = heap.members

theorem recounted_retainRef (heap : Heap) (ref : Option Nat) :
    Recounted heap (retainRef heap ref) := by
  cases ref <;> exact ⟨rfl, rfl, rfl⟩

theorem Recounted.trans {middle : Heap} (first : Recounted heap middle)
    (second : Recounted middle target) : Recounted heap target :=
  ⟨second.size.trans first.size, second.deallocs.trans first.deallocs,
    second.members.trans first.members⟩

theorem Recounted.inside (recounted : Recounted heap target) (object : Nat) :
    inside target object = inside heap object := by
  rw [Counted.inside, Counted.inside, recounted.size, recounted.members]

theorem recounted_retainAll (heap : Heap) (data : List (Option Nat)) :
    Recounted heap (data.foldl retainRef heap) := by
  induction data generalizing heap with
  | nil => exact ⟨rfl, rfl, rfl⟩
  | cons ref rest inductionHypothesis =>
    exact (recounted_retainRef heap ref).trans (inductionHypothesis _)

/-- The data of a new object adds to the references inside. -/
theorem inside_create (heap : Heap) (data : List (Option Nat)) (other : Nat) :
    inside (create heap data) other = inside heap other + data.reduceOption.count other := by
  obtain ⟨size, _, members⟩ := recounted_retainAll heap data
  simp only [inside, create, size, members]
  rw [Finset.sum_range_succ, Function.update_self]
  congr 1
  refine Finset.sum_congr rfl fun owner member => ?_
  rw [Function.update_of_ne (Nat.ne_of_lt (Finset.mem_range.mp member))]

/-- The first of the references takes its room, and leaves the others theirs. -/
theorem Balanced.roomy_cons (balanced : Balanced heap outside []) {ref : Option Nat}
    {rest : List (Option Nat)} (alive : Alive heap ref) (room : Roomy heap (ref :: rest)) :
    Roomy heap [ref] ∧ Roomy (Counted.retainRef heap ref) rest := by
  cases ref with
  | none => exact ⟨roomy_none heap, room⟩
  | some object =>
    have here := room object (by simp [List.reduceOption])
    have counts := balanced.counts object (alive object rfl).2
    rw [List.reduceOption_cons_of_some, List.count_cons_self] at here
    refine ⟨roomy_some_iff.mpr (by omega), fun other member => ?_⟩
    have later := room other (by simp [List.reduceOption_cons_of_some, member])
    rw [List.reduceOption_cons_of_some, count_owed] at later
    show (Counted.retain heap object).count other + _ < _
    by_cases same : other = object
    · rw [same, if_pos rfl] at later
      rw [same, retain_count_self, atomic_of_lt (by omega) (by omega)]
      omega
    · rw [retain_count_of_ne same]
      omega

theorem Balanced.retainAll (balanced : Balanced heap outside []) {data : List (Option Nat)}
    (alive : ∀ ref ∈ data, Alive heap ref) (room : Roomy heap data)
    (taken : ∀ other, outside' other = outside other + data.reduceOption.count other) :
    Balanced (data.foldl Counted.retainRef heap) outside' [] := by
  induction data generalizing heap outside with
  | nil =>
    obtain rfl : outside' = outside := funext taken
    exact balanced
  | cons ref rest inductionHypothesis =>
    obtain ⟨here, later⟩ := List.forall_mem_cons.mp alive
    have recounted := recounted_retainRef heap ref
    obtain ⟨first, others⟩ := balanced.roomy_cons here room
    have balanced' := balanced.retainRef here first fun _ => rfl
    have alive' : ∀ ref' ∈ rest, Alive (Counted.retainRef heap ref) ref' := by
      intro ref' member object same
      rw [recounted.size, recounted.deallocs]
      exact later ref' member object same
    refine inductionHypothesis balanced' alive' others fun other => ?_
    rw [taken]
    cases ref with
    | none => rfl
    | some object =>
      rw [List.reduceOption_cons_of_some, count_owed, points_some]
      omega

/-- A new object keeps the balance. -/
theorem Balanced.create (balanced : Balanced heap outside []) {data : List (Option Nat)}
    (alive : ∀ ref ∈ data, Alive heap ref) (room : Roomy heap data) :
    Balanced (create heap data) outside [] := by
  have retained := balanced.retainAll alive room fun _ => rfl
  have recounted := recounted_retainAll heap data
  have size := recounted.size
  have new : outside heap.size + inside heap heap.size + data.reduceOption.count heap.size = 0 := by
    obtain ⟨none_, living, _⟩ := balanced.fresh heap.size (Nat.le_refl _)
    have counts := balanced.counts heap.size living
    have absent : data.reduceOption.count heap.size = 0 := by
      refine List.count_eq_zero.mpr fun member => ?_
      have reference := List.reduceOption_mem_iff.mp member
      exact Nat.lt_irrefl _ (alive _ reference heap.size rfl).1
    rw [List.count_nil] at counts
    omega
  refine ⟨fun other living => ?_, fun other dead => ?_, fun other => ?_, fun other beyond => ?_,
    fun other => ?_⟩
  · rw [inside_create, List.count_nil]
    by_cases same : other = heap.size
    · simp only [same, Counted.create, size, Function.update_self]
      omega
    · simp only [Counted.create, size, Function.update_of_ne same] at living ⊢
      rw [retained.counts other living, recounted.inside, List.count_nil]
      omega
  · rw [inside_create, List.count_nil]
    have apart : other ≠ heap.size := by
      rintro rfl
      simp [Counted.create, size] at dead
    simp only [Counted.create, size, Function.update_of_ne apart] at dead ⊢
    obtain ⟨nothing, empty⟩ := retained.dead other dead
    rw [recounted.inside, List.count_nil] at nothing
    exact ⟨by omega, empty⟩
  · by_cases same : other = heap.size
    · simp [Counted.create, size, same]
    · simpa [Counted.create, size, same] using retained.once other
  · have beyond' : heap.size + 1 ≤ other := by simpa [Counted.create, size] using beyond
    have apart : other ≠ heap.size := by omega
    simp only [Counted.create, size, Function.update_of_ne apart]
    exact retained.fresh other (by rw [size]; omega)
  · by_cases same : other = heap.size
    · simp [Counted.create, size, same]
    · simpa [Counted.create, size, same] using retained.few other

end Counted

end CommonCpp
