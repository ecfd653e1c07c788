/-
This file settles which of the methods that truncate a string keep its length and its text in step.

`rsplit` and `+=` do. `split` sets a null in the text and leaves the length as it is, so that the
string is longer than what is read of it, and what is added later is not read. `-=` takes one
character off the end, however many it is told to, unless there are no more than these.
-/

import CommonCpp.StringReplace

namespace CommonCpp

open Bytes

namespace Cstring

/-! ### The buffer -/

section

variable {str : Cstring} {t : Text}

theorem Contains.rsplitAt (contains : Contains str t) {pos : ℕ} (positive : 0 < pos)
    (within : pos ≤ t.length) : Contains (rsplitAt str pos) (t.drop pos) := by
  have inside : ¬ (pos > str.len ∨ pos = 0) := by
    rw [contains.len]
    omega
  have read : Bytes.string (str.text.drop pos) = t.drop pos := by
    rw [string_drop (by rw [contains.strlen, contains.len]; exact within), contains.string]
  have fits : (t.drop pos).length ≤ str.max :=
    (List.drop_sublist pos t).length_le.trans contains.len_le
  obtain ⟨text, len⟩ := string_set str (str.text.drop pos)
  rw [read, List.take_of_length_le fits] at text len
  unfold Cstring.rsplitAt
  rw [if_neg inside]
  exact ⟨text, len, fits, length_set contains.length _⟩

/-- A string that is truncated to nothing. -/
theorem Contains.empty (contains : Contains str t) :
    Contains (fix { str with text := str.text.set 0 0, len := 0 }) [] := by
  have length_ : (str.text.set 0 0).length = str.max + 1 := by
    rw [List.length_set, contains.length]
  exact contains_fix List.not_mem_nil List.take_zero rfl (Nat.zero_le _) length_

theorem Contains.inc (contains : Contains str t) {offset : ℕ} (positive : 0 < offset) :
    Contains (inc str offset) (t.drop offset) := by
  unfold Cstring.inc
  rw [if_neg (Nat.ne_of_gt positive)]
  dsimp only
  split
  next whole =>
    rw [List.drop_eq_nil_of_le (contains.len ▸ whole)]
    exact contains.empty
  next within =>
    have closed := @Contains.close str t contains 0 offset
      (by rw [Nat.zero_add, ← contains.len]; exact Nat.le_of_not_le within)
    rw [Nat.zero_add, List.take_zero, List.nil_append] at closed
    exact closed

/-- `dec` takes one character off the end, or all of them. -/
theorem Contains.dec (contains : Contains str t) (offset : ℕ) :
    Contains (dec str offset) (if offset ≥ t.length then [] else t.take (t.length - 1)) := by
  unfold Cstring.dec
  rw [contains.len]
  split
  next none_ =>
    have empty : t = [] := List.length_eq_zero_iff.mp none_
    rw [if_pos (none_.le.trans (Nat.zero_le offset)), ← empty]
    exact contains
  next some_ =>
  split
  next whole => exact contains.empty
  next within =>
    exact contains.shorten (Nat.sub_le _ 1)

/-- Once a null is set in it, the text of a buffer is shorter than its length. -/
theorem Contains.not_contains_split (contains : Contains str t) {pos : ℕ} (within : pos < t.length)
    {t' : Text} : ¬ Contains (fix { str with text := str.text.set pos 0 }) t' := by
  intro left
  have text : Bytes.string ((str.text.set pos 0).set str.len 0) = t' := left.string
  have len_ : str.len = t'.length := left.len
  rw [string_set_zero, string_set_zero, contains.string] at text
  have short : t'.length ≤ pos := by
    rw [← text]
    exact (List.length_take_le' _ _).trans (List.length_take_le _ _)
  rw [← len_, contains.len] at short
  exact Nat.not_le_of_lt within short

end

end Cstring

namespace Strings

/-! ### Truncating a string -/

/-- The calls that truncate a string. A pointer is a distance from its text. -/
inductive Truncation
  | splitAt (pos : ℕ)
  | split (s : ℤ)
  | rsplitAt (pos : ℕ)
  | dec (k : ℕ)
  | inc (k : ℕ)

def Truncation.mutation : Truncation → Mutation
  | .splitAt pos => .splitAt pos
  | .split s => .split (some s)
  | .rsplitAt pos => .rsplitAt pos
  | .dec k => .dec k
  | .inc k => .inc k

/-- What the call is given: a place in the text, or a number of characters. -/
def Truncation.Given (t : Text) : Truncation → Prop
  | .splitAt pos => pos < t.length
  | .split s => 0 ≤ s ∧ s < t.length
  | .rsplitAt pos => 0 < pos ∧ pos ≤ t.length
  | .dec _ => True
  | .inc k => 1 ≤ k

/-- What is to be left of the text. -/
def Truncation.left (t : Text) : Truncation → Text
  | .splitAt pos => t.take pos
  | .split s => t.take s.toNat
  | .rsplitAt pos => t.drop pos
  | .dec k => t.take (t.length - min k t.length)
  | .inc k => t.drop (min k t.length)

/-- The calls that keep length and text in step. -/
def Truncation.InStep (t : Text) : Truncation → Prop
  | .splitAt _ | .split _ => False
  | .rsplitAt _ | .inc _ => True
  | .dec k => k = 1 ∨ t.length ≤ k

variable {Name : Type} [DecidableEq Name] {state : State Name} {this : Name} {str : ℕ} {t t' : Text}

/-- What the call does to the buffer. -/
def Truncation.change : Truncation → Cstring → Cstring
  | .splitAt pos => fun str => str.splitAt pos
  | .split s => fun str => str.split s
  | .rsplitAt pos => fun str => str.rsplitAt pos
  | .dec k => fun str => str.dec k
  | .inc k => fun str => str.inc k

theorem mutate_truncation (state : State Name) (this : Name) (truncation : Truncation) :
    mutate state this truncation.mutation = edit state this truncation.change := by
  cases truncation <;> rfl

omit [DecidableEq Name] in
/-- What a method leaves in the buffer is what the string reads as. -/
theorem Reads.spells_iff (reads : Reads state this str t) (change : Cstring → Cstring) :
    Spells (Strings.edit state this change) this t' ↔
      (change (state.heap.cstring str)).Contains t' := by
  constructor
  · intro spells
    have points_ : (Strings.edit state this change).str this = some str :=
      (congrFun (edit_str state this change) this).trans reads.points
    obtain ⟨none_, -⟩ | ⟨str', reads_⟩ := spells
    · rw [points_] at none_
      cases none_
    · obtain rfl : str = str' := Option.some.inj (points_.symm.trans reads_.points)
      rw [← cstring_edit reads.points change]
      exact reads_.contains
  · intro contains
    exact Or.inr ⟨str, reads.edit contains⟩

/-- The buffer contains what it should exactly when the call is one that keeps length and text in
step. -/
theorem contains_change_iff {str : Cstring} (contains : str.Contains t) {truncation : Truncation}
    (given : truncation.Given t) :
    (truncation.change str).Contains (truncation.left t) ↔ truncation.InStep t := by
  cases truncation with
  | splitAt pos =>
    refine iff_of_false (fun left => ?_) id
    have within : ¬ pos ≥ str.len := by
      rw [contains.len]
      exact Nat.not_le_of_lt given
    have left_ : (str.splitAt pos).Contains (t.take pos) := left
    rw [Cstring.splitAt, if_neg within] at left_
    exact contains.not_contains_split given left_
  | split s =>
    refine iff_of_false (fun left => ?_) id
    obtain ⟨positive, within⟩ := given
    have inside : s.toNat < t.length := by omega
    have outside : ¬ (s < 0 ∨ s ≥ str.len) := by
      rw [contains.len]
      omega
    have visible : str.text.getD s.toNat 0 ≠ 0 :=
      getD_ne_zero (by rw [contains.strlen, contains.len]; exact inside)
    have left_ : (str.split s).Contains (t.take s.toNat) := left
    rw [Cstring.split, if_neg outside, if_neg visible] at left_
    exact contains.not_contains_split inside left_
  | rsplitAt pos => exact iff_of_true (contains.rsplitAt given.1 given.2) trivial
  | dec k =>
    have taken := contains.dec k
    constructor
    · intro left
      have same := taken.string.symm.trans left.string
      split at same
      next whole => exact Or.inr whole
      next within =>
        have sizes := congrArg List.length same
        rw [Truncation.left, List.length_take, List.length_take] at sizes
        exact Or.inl (by omega)
    · intro right
      split at taken
      next whole =>
        rw [Truncation.left, Nat.min_eq_right whole, Nat.sub_self, List.take_zero]
        exact taken
      next within =>
        have one : k = 1 := right.resolve_right within
        rw [Truncation.left, one, Nat.min_eq_left (by omega)]
        rw [one] at taken
        exact taken
  | inc k =>
    have dropped : t.drop (min k t.length) = t.drop k := by
      rcases Nat.le_total k t.length with within | beyond
      · rw [Nat.min_eq_left within]
      · rw [Nat.min_eq_right beyond, List.drop_length, List.drop_eq_nil_of_le beyond]
    refine iff_of_true ?_ trivial
    rw [Truncation.left, dropped]
    exact contains.inc given

/-- A call leaves what it should, with its length, exactly when it is one that keeps these in
step. -/
theorem truncates_iff {truncation : Truncation} (spells : Spells state this t)
    (given : truncation.Given t) :
    Spells (mutate state this truncation.mutation) this (truncation.left t) ↔
      truncation.InStep t := by
  rw [mutate_truncation]
  obtain ⟨none_, rfl⟩ | ⟨str, reads⟩ := spells
  · have same : Strings.edit state this truncation.change = state := by
      rw [Strings.edit, none_]
    rw [same]
    cases truncation with
    | splitAt pos => exact absurd given (Nat.not_lt_zero pos)
    | split s => exact absurd given.2 (Int.not_lt.mpr given.1)
    | rsplitAt pos => exact absurd given.2 (Nat.not_le_of_lt given.1)
    | dec k => exact iff_of_true (Or.inl ⟨none_, List.take_nil⟩) (Or.inr (Nat.zero_le k))
    | inc k => exact iff_of_true (Or.inl ⟨none_, List.drop_nil⟩) trivial
  · exact (reads.spells_iff truncation.change).trans (contains_change_iff reads.contains given)

/-- One character is taken off the end of `Hi`. -/
theorem truncates_iff_hi : Spells (mutate hi false (.dec 1)) false [0x48] :=
  (@truncates_iff _ _ _ _ _ (.dec 1) spells_hi trivial).mpr (Or.inl rfl)

/-- `Hi` is split behind its first character: its length is still two, and what is added then is not
read. -/
theorem split_keeps_length :
    value (mutate hi false (.splitAt 1)) false = ([0x48], 2) ∧
    value (mutate (mutate hi false (.splitAt 1)) false (.add (some [0x21]))) false = ([0x48], 3) ∧
    ¬ Spells (mutate hi false (.splitAt 1)) false [0x48] := by
  refine ⟨by decide, by decide, fun spells => ?_⟩
  have reads : Reads hi false 0 [0x48, 0x69] :=
    ⟨alone_hi.points, Nat.zero_lt_one, ⟨by decide, by decide, by decide, by decide⟩⟩
  have left := ((reads.spells_iff fun str => str.splitAt 1).mp spells).len
  exact absurd left (by decide)

end Strings

end CommonCpp
