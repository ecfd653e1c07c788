/-
This file gives the numbering of keys in the order in which they come up: a table that only grows,
where the number of a key is how many keys there were before it.

Whoever sees the keys for the first time in the same order gives them the same numbers, so that
a key need not be sent again where its number was.
-/

import Mathlib.Data.List.Basic
import Mathlib.Data.List.Infix
import Mathlib.Data.List.Nodup
import Mathlib.Data.List.Perm.Subperm

namespace Numbering

variable {Key : Type}

/-- The keys, each with its number. -/
def numbered (keys : List Key) : List (Key × Nat) := keys.zipIdx

@[simp] theorem length_numbered (keys : List Key) : (numbered keys).length = keys.length :=
  List.length_zipIdx

theorem numbered_concat (keys : List Key) (key : Key) :
    numbered (keys ++ [key]) = numbered keys ++ [(key, keys.length)] := by
  simp [numbered, List.zipIdx_append]

variable [BEq Key] [LawfulBEq Key]

/-- The same with numbers that do not begin at zero, which is what the induction is about. -/
theorem lookup_zipIdx {keys : List Key} {key : Key} (member : key ∈ keys) (first : Nat) :
    (keys.zipIdx first).lookup key = some (first + keys.idxOf key) := by
  induction keys generalizing first with
  | nil => exact absurd member List.not_mem_nil
  | cons other keys inductionHypothesis =>
    rw [List.zipIdx_cons, List.lookup_cons]
    by_cases same : key = other
    · rw [same, beq_self_eq_true, List.idxOf_cons_self]
      rfl
    · have later : key ∈ keys := (List.mem_cons.mp member).resolve_left same
      rw [beq_false_of_ne same, inductionHypothesis later, List.idxOf_cons_ne keys (Ne.symm same),
        Nat.add_assoc, Nat.add_comm 1]

theorem lookup_numbered {keys : List Key} {key : Key} (member : key ∈ keys) :
    (numbered keys).lookup key = some (keys.idxOf key) := by
  rw [numbered, lookup_zipIdx member, Nat.zero_add]

theorem lookup_numbered_of_notMem {keys : List Key} {key : Key} (fresh : key ∉ keys) :
    (numbered keys).lookup key = none := by
  refine List.lookup_eq_none_iff.mpr fun entry member => ?_
  have listed : entry.1 ∈ keys := List.fst_mem_of_mem_zipIdx member
  exact bne_iff_ne.mpr fun same => fresh (same ▸ listed)

/-- A key keeps its number while the table grows. -/
theorem idxOf_of_begins {keys keys' : List Key} (grown : keys <+: keys') {key : Key}
    (member : key ∈ keys) : keys'.idxOf key = keys.idxOf key := by
  obtain ⟨more, rfl⟩ := grown
  exact List.idxOf_append_of_mem member

/-- A key that has come later has a larger number. -/
theorem length_le_idxOf {keys keys' : List Key} (grown : keys <+: keys') {key : Key}
    (fresh : key ∉ keys) : keys.length ≤ keys'.idxOf key := by
  obtain ⟨more, rfl⟩ := grown
  rw [List.idxOf_append_of_notMem fresh]
  exact Nat.le_add_right _ _

theorem idxOf_concat_self {keys : List Key} {key : Key} (fresh : key ∉ keys) :
    (keys ++ [key]).idxOf key = keys.length := by
  rw [List.idxOf_append_of_notMem fresh, List.idxOf_cons_self, Nat.add_zero]

/-- There are no more distinct numbers than there are numbers. -/
theorem length_le_of_nodup {numbers : List Nat} (distinct : numbers.Nodup) {bound : Nat}
    (below : ∀ number ∈ numbers, number < bound) : numbers.length ≤ bound := by
  have within : numbers ⊆ List.range bound :=
    fun number member => List.mem_range.mpr (below number member)
  simpa using (List.subperm_of_subset distinct within).length_le

end Numbering
