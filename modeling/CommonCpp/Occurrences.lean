/-
This file develops the occurrences of one list in another that are found from the left, each
behind the one before it, so that no two of them have an item in common.

They part the list that they are found in. The parts are read from the left: what stands before
the first occurrence, what stands between it and the second, and what is left behind the last. To
replace the occurrences is to put another list between the parts.
-/

import Mathlib.Data.List.Infix

namespace Occurrences

variable {α : Type} [DecidableEq α]

/-- Where the first occurrence starts. -/
def first (s : List α) : List α → Option ℕ
  | [] => if s = [] then some 0 else none
  | a :: t => if s <+: a :: t then some 0 else (first s t).map (· + 1)

/-- The parts of a list, where so many of its items still belong to the last occurrence. -/
def partsBehind (s : List α) : ℕ → List α → List (List α)
  | _, [] => [[]]
  | skip + 1, _ :: t => partsBehind s skip t
  | 0, a :: t =>
    if s <+: a :: t then [] :: partsBehind s (s.length - 1) t
    else (partsBehind s 0 t).modifyHead (a :: ·)

/-- The parts between the occurrences. -/
def parts (s t : List α) : List (List α) := partsBehind s 0 t

/-- How many occurrences there are. -/
def count (s t : List α) : ℕ := (parts s t).length - 1

/-- Each occurrence replaced by another list, and nothing else changed. -/
def replaced (s cp t : List α) : List α := cp.intercalate (parts s t)

/-- Where an occurrence starts, if there are so many, counted from one: behind the parts before it
and the occurrences between these. -/
def place (s t : List α) (k : ℕ) : Option ℕ :=
  if k ≤ count s t then some (s.intercalate ((parts s t).take k)).length else none

variable {s t : List α}

/-! ### The first occurrence -/

theorem first_eq_none_iff : first s t = none ↔ ¬ s <:+: t := by
  induction t with
  | nil =>
    rw [first, List.infix_nil]
    split
    next empty => exact iff_of_false nofun (not_not.mpr empty)
    next some_ => exact iff_of_true rfl some_
  | cons a t inductionHypothesis =>
    rw [first, List.infix_cons_iff, not_or]
    split
    next here => exact iff_of_false nofun fun none_ => none_.1 here
    next later =>
      rw [Option.map_eq_none_iff, inductionHypothesis]
      exact (and_iff_right later).symm

theorem first_of_starts (starts : s <+: t) : first s t = some 0 := by
  cases t with
  | nil => exact if_pos (List.prefix_nil.mp starts)
  | cons a t => exact if_pos starts

/-- What is found is an occurrence. -/
theorem prefix_of_first {i : ℕ} (found : first s t = some i) : s <+: t.drop i := by
  induction t generalizing i with
  | nil =>
    rw [first] at found
    split at found
    next empty =>
      rw [empty]
      exact List.nil_prefix
    next => cases found
  | cons a t inductionHypothesis =>
    rw [first] at found
    split at found
    next here =>
      cases found
      exact here
    next =>
      obtain ⟨j, found_, rfl⟩ := Option.map_eq_some_iff.mp found
      exact inductionHypothesis found_

theorem le_length_of_first {i : ℕ} (found : first s t = some i) : i ≤ t.length := by
  induction t generalizing i with
  | nil =>
    rw [first] at found
    split at found
    next => exact (Option.some.inj found).ge
    next => cases found
  | cons a t inductionHypothesis =>
    rw [first] at found
    split at found
    next =>
      cases found
      exact Nat.zero_le _
    next =>
      obtain ⟨j, found_, rfl⟩ := Option.map_eq_some_iff.mp found
      exact Nat.succ_le_succ (inductionHypothesis found_)

/-- The first occurrence is one before which there is none. -/
theorem first_eq_some {i : ℕ} (within : i ≤ t.length) (here : s <+: t.drop i)
    (earlier : ∀ j < i, ¬ s <+: t.drop j) : first s t = some i := by
  induction t generalizing i with
  | nil =>
    rw [List.drop_nil] at here
    cases Nat.le_zero.mp within
    exact if_pos (List.prefix_nil.mp here)
  | cons a t inductionHypothesis =>
    cases i with
    | zero => exact if_pos here
    | succ i =>
      have later := inductionHypothesis (Nat.le_of_succ_le_succ within) here
        fun j less => earlier (j + 1) (Nat.succ_lt_succ less)
      have not_here : ¬ s <+: a :: t := earlier 0 (Nat.succ_pos i)
      rw [first, if_neg not_here, later]
      rfl

/-! ### The parts -/

theorem partsBehind_eq (skip : ℕ) (t : List α) :
    partsBehind s skip t = parts s (t.drop skip) := by
  induction t generalizing skip with
  | nil =>
    rw [List.drop_nil]
    cases skip <;> rfl
  | cons a t inductionHypothesis =>
    cases skip with
    | zero => rfl
    | succ skip =>
      rw [partsBehind, List.drop_succ_cons]
      exact inductionHypothesis skip

theorem parts_ne_nil (s t : List α) : parts s t ≠ [] := by
  induction t with
  | nil => exact List.cons_ne_nil _ _
  | cons a t inductionHypothesis =>
    rw [parts, partsBehind]
    split
    · exact List.cons_ne_nil _ _
    · rw [Ne, List.modifyHead_eq_nil_iff]
      exact inductionHypothesis

/-- A list without an occurrence is one part. -/
theorem parts_of_none (none_ : first s t = none) : parts s t = [t] := by
  induction t with
  | nil => rfl
  | cons a t inductionHypothesis =>
    rw [first] at none_
    split at none_
    next => cases none_
    next later =>
      rw [parts, partsBehind, if_neg later]
      show (parts s t).modifyHead _ = _
      rw [inductionHypothesis (Option.map_eq_none_iff.mp none_)]
      rfl

/-- The first part ends where the first occurrence starts, and the others are those of what is
behind it. -/
theorem parts_of_first (filled : s ≠ []) {i : ℕ} (found : first s t = some i) :
    parts s t = t.take i :: parts s (t.drop (i + s.length)) := by
  induction t generalizing i with
  | nil =>
    rw [first, if_neg filled] at found
    cases found
  | cons a t inductionHypothesis =>
    rw [first] at found
    split at found
    next here =>
      cases found
      have length : 0 + s.length = (s.length - 1) + 1 := by
        have positive := List.length_pos_iff.mpr filled
        omega
      rw [parts, partsBehind, if_pos here, partsBehind_eq, length]
      rfl
    next later =>
      obtain ⟨j, found_, rfl⟩ := Option.map_eq_some_iff.mp found
      have next := inductionHypothesis found_
      rw [parts, partsBehind, if_neg later]
      show (parts s t).modifyHead _ = _
      rw [next, Nat.add_right_comm]
      rfl

/-- What is found stands between what is before it and what is behind. -/
theorem exists_split_of_first {i : ℕ} (found : first s t = some i) :
    ∃ a b, t = a ++ s ++ b ∧ i = a.length := by
  obtain ⟨b, split⟩ := prefix_of_first found
  refine ⟨t.take i, b, ?_, (List.length_take_of_le (le_length_of_first found)).symm⟩
  rw [List.append_assoc, split, List.take_append_drop]

/-- What is before the first occurrence is the first part. -/
theorem parts_append (filled : s ≠ []) {a b : List α}
    (found : first s (a ++ s ++ b) = some a.length) : parts s (a ++ s ++ b) = a :: parts s b := by
  rw [parts_of_first filled found, ← List.length_append, List.drop_left, List.append_assoc,
    List.take_left]

/-- Where something was put between the items of a list, and there only, it occurs: the parts are
the items. -/
theorem parts_intercalate (filled : s ≠ []) {items : List (List α)} (some_ : items ≠ [])
    (only : ∀ i, s <+: (s.intercalate items).drop i →
      ∃ k, 0 < k ∧ k < items.length ∧ i = (s.intercalate (items.take k)).length) :
    parts s (s.intercalate items) = items := by
  induction items with
  | nil => exact absurd rfl some_
  | cons item items inductionHypothesis =>
    cases items with
    | nil =>
      rw [List.intercalate_singleton] at only ⊢
      refine parts_of_none (first_eq_none_iff.mpr fun occurs => ?_)
      obtain ⟨before, after, whole⟩ := occurs
      obtain ⟨k, positive, less, -⟩ := only before.length
        (by rw [← whole, List.append_assoc, List.drop_left]; exact List.prefix_append s after)
      exact absurd less (Nat.not_lt_of_le positive)
    | cons next items =>
      have more : next :: items ≠ [] := List.cons_ne_nil _ _
      have joined : s.intercalate (item :: next :: items) =
          item ++ s ++ s.intercalate (next :: items) := List.intercalate_cons_of_ne_nil more
      -- Behind the first item, the number of items goes down by one.
      have place_ : ∀ k, 0 < k → (s.intercalate ((item :: next :: items).take (k + 1))).length =
          item.length + s.length + (s.intercalate ((next :: items).take k)).length := by
        intro k positive
        have some_ : (next :: items).take k ≠ [] := by
          obtain ⟨k, rfl⟩ := Nat.exists_eq_add_of_le' positive
          exact List.cons_ne_nil _ _
        rw [List.take_succ_cons, List.intercalate_cons_of_ne_nil some_, List.length_append,
          List.length_append]
      have positive_ := List.length_pos_iff.mpr filled
      have found : first s (s.intercalate (item :: next :: items)) = some item.length := by
        refine first_eq_some ?_ ?_ fun j less here => ?_
        · rw [joined, List.append_assoc, List.length_append]
          exact Nat.le_add_right _ _
        · rw [joined, List.append_assoc, List.drop_left]
          exact List.prefix_append s _
        · obtain ⟨k, positive, -, place⟩ := only j here
          obtain ⟨k, rfl⟩ := Nat.exists_eq_add_of_le' positive
          rcases Nat.eq_zero_or_pos k with rfl | positive
          · rw [List.take_succ_cons, List.take_zero, List.intercalate_singleton] at place
            exact absurd place (Nat.ne_of_lt less)
          · rw [place_ k positive] at place
            omega
      rw [joined] at found ⊢
      rw [parts_append filled found, inductionHypothesis more fun i here => ?_]
      · have behind : (s.intercalate (item :: next :: items)).drop (item.length + s.length) =
            s.intercalate (next :: items) := by
          rw [joined, ← List.length_append, List.drop_left]
        have there := here
        rw [← behind, List.drop_drop] at there
        obtain ⟨k, positive, less, place⟩ := only _ there
        obtain ⟨k, rfl⟩ := Nat.exists_eq_add_of_le' positive
        rcases Nat.eq_zero_or_pos k with rfl | positive
        · rw [List.take_succ_cons, List.take_zero, List.intercalate_singleton] at place
          omega
        · rw [place_ k positive] at place
          exact ⟨k, positive, Nat.lt_of_succ_lt_succ less, by omega⟩

/-- An occurrence at the front is replaced there. -/
theorem replaced_append (filled : s ≠ []) (cp t : List α) :
    replaced s cp (s ++ t) = cp ++ replaced s cp t := by
  have parts_ := parts_of_first filled (first_of_starts (List.prefix_append s t))
  rw [List.take_zero, Nat.zero_add, List.drop_left] at parts_
  rw [replaced, parts_, List.intercalate_cons_of_ne_nil (parts_ne_nil s t), List.nil_append]
  rfl

/-! ### Counting -/

theorem count_of_none (none_ : first s t = none) : count s t = 0 := by
  rw [count, parts_of_none none_]
  rfl

theorem count_of_first (filled : s ≠ []) {i : ℕ} (found : first s t = some i) :
    count s t = count s (t.drop (i + s.length)) + 1 := by
  have positive := List.length_pos_iff.mpr (parts_ne_nil s (t.drop (i + s.length)))
  rw [count, count, parts_of_first filled found, List.length_cons]
  omega

theorem count_append (filled : s ≠ []) (t : List α) : count s (s ++ t) = count s t + 1 := by
  rw [count_of_first filled (first_of_starts (List.prefix_append s t)), Nat.zero_add,
    List.drop_left]

/-- The first of the places is where the first occurrence starts. -/
theorem place_one (filled : s ≠ []) (t : List α) : place s t 1 = first s t := by
  cases found : first s t with
  | none =>
    rw [place, count_of_none found]
    rfl
  | some i =>
    rw [place, count_of_first filled found, if_pos (Nat.succ_le_succ (Nat.zero_le _)),
      parts_of_first filled found, List.take_succ_cons, List.take_zero, List.intercalate_singleton,
      List.length_take_of_le (le_length_of_first found)]

theorem place_isSome_iff (s t : List α) (k : ℕ) : (place s t k).isSome ↔ k ≤ count s t := by
  unfold place
  split
  next within => exact iff_of_true rfl within
  next beyond => exact iff_of_false Bool.false_ne_true beyond

end Occurrences
