/-
This file models the memory that texts are kept in, and the functions of the C library and
of `String` that work on a memory and not on a string.

A text in a memory ends before its first null; the end of the memory is taken for a null too.
What is written behind the null is not read, and what is written before it is read in its place.
-/

import Mathlib.Data.List.TakeDrop
import Mathlib.Data.List.TakeWhile
import CommonCpp.Ctype

namespace CommonCpp

open Ctype

namespace Bytes

/-! ### Memory -/

/-- The bytes of a memory before its null. -/
def string (text : Text) : Text := text.takeWhile (· ≠ 0)

def strlen (text : Text) : ℕ := (string text).length

/-- Whether `strchr` finds the character, which is also so for the null. -/
def strchr (clist : Text) (ch : UInt8) : Bool := ch = 0 ∨ ch ∈ string clist

/-- `memcpy` and `memmove` into a memory. -/
def move (text : Text) (offset : ℕ) (bytes : Text) : Text :=
  text.take offset ++ bytes ++ text.drop (offset + bytes.length)

/-- `String::set(char *str, size_t size, const char *s)`, where `str` is this far in the memory. -/
def set (text : Text) (str size : ℕ) (s : Text) : Text :=
  if size < 2 then text
  else
    let l := if strlen s ≥ size then size - 1 else strlen s
    (move text str (s.take l)).set (str + l) 0

/-- The copy of a text by `dup`, of `String` or of `MemoryProtocol`; that of an empty one is not
written. -/
def dup (str : Text) : Option Text := if str = [] then none else some str

/-- A memory with each character of its text changed. -/
def change (turn : UInt8 → UInt8) : Text → Text
  | [] => []
  | ch :: text => if ch = 0 then ch :: text else turn ch :: change turn text

/-- `String::upper(char *str)`. -/
def upper (text : Text) : Text := change toupper text

/-- `String::lower(char *str)`. -/
def lower (text : Text) : Text := change tolower text

/-- The loop of `String::unquote(char *str, const char *clist)`: the memory, and how far in it the
pointer stands that is returned. -/
def unquoteLoop (text : Text) (len : ℕ) : Text → Text × ℕ
  | open_ :: close :: clist =>
    if open_ = 0 then (text, 0)
    else if text.headD 0 = open_ ∧ text.getD (len - 1) 0 = close then (text.set (len - 1) 0, 1)
    else unquoteLoop text len clist
  | _ => (text, 0)

/-! ### What is read -/

theorem dup_eq_some_iff {str copy : Text} : dup str = some copy ↔ str ≠ [] ∧ str = copy := by
  unfold dup
  split
  next empty => simp [empty]
  next written => simp [written]

@[simp]
theorem string_nil : string [] = [] := rfl

theorem string_cons_zero (text : Text) : string (0 :: text) = [] := rfl

theorem string_cons {ch : UInt8} (visible : ch ≠ 0) (text : Text) :
    string (ch :: text) = ch :: string text :=
  List.takeWhile_cons_of_pos (by simp [visible])

theorem zero_notMem_string (text : Text) : 0 ∉ string text := by
  intro member
  have visible := List.mem_takeWhile_imp member
  exact absurd rfl (of_decide_eq_true visible)

/-- A text without a null goes on with what comes after it. -/
theorem string_append {text : Text} (noNull : 0 ∉ text) (after : Text) :
    string (text ++ after) = text ++ string after := by
  induction text with
  | nil => rfl
  | cons ch text inductionHypothesis =>
    rw [List.mem_cons, not_or] at noNull
    rw [List.cons_append, string_cons (Ne.symm noNull.1), inductionHypothesis noNull.2]
    rfl

theorem string_eq_self {text : Text} (noNull : 0 ∉ text) : string text = text := by
  have whole := string_append noNull []
  rwa [List.append_nil, string_nil, List.append_nil] at whole

/-- A null cuts the text off where it is put. -/
theorem string_set_zero (text : Text) (offset : ℕ) :
    string (text.set offset 0) = (string text).take offset := by
  induction text generalizing offset with
  | nil => simp
  | cons ch text inductionHypothesis =>
    cases offset with
    | zero => rfl
    | succ offset =>
      rw [List.set_cons_succ]
      by_cases null : ch = 0
      · rw [null, string_cons_zero, string_cons_zero, List.take_nil]
      · rw [string_cons null, string_cons null, List.take_succ_cons, inductionHypothesis]

/-- The text from a place before its null. -/
theorem string_drop {text : Text} {offset : ℕ} (within : offset ≤ strlen text) :
    string (text.drop offset) = (string text).drop offset := by
  induction text generalizing offset with
  | nil => simp
  | cons ch text inductionHypothesis =>
    cases offset with
    | zero => rfl
    | succ offset =>
      by_cases null : ch = 0
      · rw [strlen, null, string_cons_zero] at within
        exact absurd within (Nat.not_succ_le_zero offset)
      · rw [strlen, string_cons null, List.length_cons] at within
        rw [string_cons null, List.drop_succ_cons, List.drop_succ_cons]
        exact inductionHypothesis (Nat.le_of_succ_le_succ within)

theorem toupper_ne_zero {ch : UInt8} (visible : ch ≠ 0) : toupper ch ≠ 0 := by
  unfold toupper
  split
  next letter =>
    rw [UInt8.le_iff_toNat_le, UInt8.le_iff_toNat_le] at letter
    simp only [UInt8.reduceToNat] at letter
    have above : (0x20 : UInt8) ≤ ch := by
      simp only [UInt8.le_iff_toNat_le, UInt8.reduceToNat]
      omega
    intro zero
    have less := congrArg UInt8.toNat zero
    rw [UInt8.toNat_sub_of_le _ _ above] at less
    simp only [UInt8.reduceToNat] at less
    omega
  next => exact visible

theorem tolower_ne_zero {ch : UInt8} (visible : ch ≠ 0) : tolower ch ≠ 0 := by
  unfold tolower
  split
  next letter =>
    rw [UInt8.le_iff_toNat_le, UInt8.le_iff_toNat_le] at letter
    simp only [UInt8.reduceToNat] at letter
    intro zero
    have less := congrArg UInt8.toNat zero
    rw [UInt8.toNat_add] at less
    simp only [UInt8.reduceToNat] at less
    omega
  next => exact visible

theorem string_change {turn : UInt8 → UInt8} (visible : ∀ {ch}, ch ≠ 0 → turn ch ≠ 0)
    (text : Text) :
    string (change turn text) = (string text).map turn := by
  induction text with
  | nil => rfl
  | cons ch text inductionHypothesis =>
    rw [change]
    split
    next null =>
      rw [null]
      rfl
    next first =>
      rw [string_cons (visible first), string_cons first, inductionHypothesis, List.map_cons]

/-- No byte of the text is a null. -/
theorem getD_ne_zero {text : Text} {offset : ℕ} (within : offset < strlen text) :
    text.getD offset 0 ≠ 0 := by
  induction text generalizing offset with
  | nil => exact absurd within (Nat.not_lt_zero offset)
  | cons ch text inductionHypothesis =>
    have visible : ch ≠ 0 := by
      rintro rfl
      exact absurd within (Nat.not_lt_zero offset)
    cases offset with
    | zero => exact visible
    | succ offset =>
      rw [strlen, string_cons visible, List.length_cons] at within
      exact inductionHypothesis (Nat.lt_of_succ_lt_succ within)

/-- The text is what is before its length. -/
theorem take_strlen (text : Text) : text.take (strlen text) = string text := by
  have split := List.takeWhile_append_dropWhile (p := (· ≠ 0)) (l := text)
  calc text.take (strlen text) = (string text ++ text.dropWhile (· ≠ 0)).take (strlen text) := by
        rw [string, split]
    _ = string text := List.take_left

/-- A memory is its text, and what starts with the null or is nothing. -/
theorem string_split (text : Text) :
    ∃ after, text = string text ++ after ∧ after.headD 0 = 0 := by
  induction text with
  | nil => exact ⟨[], rfl, rfl⟩
  | cons ch text inductionHypothesis =>
    by_cases null : ch = 0
    · exact ⟨ch :: text, by rw [null]; rfl, null⟩
    · obtain ⟨after, split, ended⟩ := inductionHypothesis
      exact ⟨after, by rw [string_cons null, List.cons_append, ← split], ended⟩

theorem strlen_le_length (text : Text) : strlen text ≤ text.length :=
  (List.takeWhile_sublist _).length_le

/-- A memory is cut off before its null as its text is. -/
theorem take_eq_of_le {text : Text} {offset : ℕ} (within : offset ≤ strlen text) :
    text.take offset = (string text).take offset := by
  rw [← take_strlen, List.take_take, Nat.min_eq_left within]

/-- The null is in a part of the memory that is longer than the text. -/
theorem zero_mem_take {text : Text} {offset : ℕ} (behind : strlen text < offset)
    (inside : offset ≤ text.length) : 0 ∈ text.take offset := by
  by_contra noNull
  have read : string text = text.take offset ++ string (text.drop offset) := by
    rw [← string_append noNull, List.take_append_drop]
  have longer : offset ≤ strlen text := by
    rw [strlen, read, List.length_append, List.length_take_of_le inside]
    exact Nat.le_add_right _ _
  exact Nat.lt_irrefl _ (behind.trans_le longer)

theorem string_append_of_mem {text : Text} (null : 0 ∈ text) (after : Text) :
    string (text ++ after) = string text := by
  induction text with
  | nil => cases null
  | cons ch text inductionHypothesis =>
    by_cases first : ch = 0
    · rw [first, List.cons_append, string_cons_zero, string_cons_zero]
    · have later : 0 ∈ text := (List.mem_cons.mp null).resolve_left (Ne.symm first)
      rw [List.cons_append, string_cons first, string_cons first, inductionHypothesis later]

/-- What is moved behind the null is not read. -/
theorem string_move_behind {text : Text} {offset : ℕ} (behind : strlen text < offset)
    (inside : offset ≤ text.length) (bytes : Text) :
    string (move text offset bytes) = string text := by
  have null := zero_mem_take behind inside
  calc string (move text offset bytes)
      = string (text.take offset) := by rw [move, List.append_assoc, string_append_of_mem null]
    _ = string (text.take offset ++ text.drop offset) := (string_append_of_mem null _).symm
    _ = string text := by rw [List.take_append_drop]

/-- What is moved before the null is read behind what is left of the text. -/
theorem string_move_within {text : Text} {offset : ℕ} (within : offset ≤ strlen text)
    (bytes : Text) : string (move text offset bytes) =
      (string text).take offset ++ string (bytes ++ text.drop (offset + bytes.length)) := by
  have noNull : 0 ∉ (string text).take offset :=
    fun member => zero_notMem_string text (List.mem_of_mem_take member)
  rw [move, List.append_assoc, take_eq_of_le within, string_append noNull]

/-- Bytes that are there already change nothing when they are moved there. -/
theorem move_eq_self {text : Text} {offset : ℕ} {bytes : Text}
    (there : (text.drop offset).take bytes.length = bytes) : move text offset bytes = text := by
  calc move text offset bytes
      = text.take offset ++ ((text.drop offset).take bytes.length ++
          (text.drop offset).drop bytes.length) := by
        rw [there, move, List.append_assoc, List.drop_drop]
    _ = text := by rw [List.take_append_drop, List.take_append_drop]

/-- The text stays the same when some bytes are written only if these are not read, or are there
already. -/
theorem string_move_iff {text : Text} {offset : ℕ} {bytes : Text} (noNull : 0 ∉ bytes)
    (inside : offset ≤ text.length) : string (move text offset bytes) = string text ↔
      strlen text < offset ∨ (text.drop offset).take bytes.length = bytes := by
  by_cases behind : strlen text < offset
  · exact iff_of_true (string_move_behind behind inside bytes) (Or.inl behind)
  have within := Nat.le_of_not_lt behind
  rw [or_iff_right behind]
  constructor
  · intro same
    rw [string_move_within within, string_append noNull] at same
    have read : string (text.drop offset) =
        bytes ++ string (text.drop (offset + bytes.length)) := by
      have cut_ := congrArg (List.drop offset) same
      rw [List.drop_append_of_le_length (by rw [List.length_take_of_le within]),
        List.drop_take_self, List.nil_append] at cut_
      rw [string_drop within, cut_]
    have longer : bytes.length ≤ strlen (text.drop offset) := by
      rw [strlen, read, List.length_append]
      exact Nat.le_add_right _ _
    rw [take_eq_of_le longer, read, List.take_left]
  · intro there
    rw [move_eq_self there]

/-- A byte in a place. -/
theorem set_eq_move {text : Text} {offset : ℕ} (inside : offset < text.length) (ch : UInt8) :
    text.set offset ch = move text offset [ch] := by
  rw [List.set_eq_take_append_cons_drop, if_pos inside, move, List.append_assoc]
  rfl

/-- A byte within what is moved can as well be put there before. -/
theorem move_set {text : Text} {offset place : ℕ} {bytes : Text} (inside : offset ≤ text.length)
    (within : place < bytes.length) (ch : UInt8) :
    (move text offset bytes).set (offset + place) ch = move text offset (bytes.set place ch) := by
  have start : (text.take offset).length = offset := List.length_take_of_le inside
  rw [move, move, List.append_assoc, List.append_assoc, List.length_set,
    List.set_append_right _ _ (by rw [start]; exact Nat.le_add_right _ _), start,
    Nat.add_sub_cancel_left, List.set_append_left _ _ within]

@[simp]
theorem length_move {text : Text} {offset : ℕ} {bytes : Text}
    (inside : offset + bytes.length ≤ text.length) :
    (move text offset bytes).length = text.length := by
  simp only [move, List.length_append, List.length_take, List.length_drop]
  omega

end Bytes

end CommonCpp
