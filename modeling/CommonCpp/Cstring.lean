/-
This file models the counted buffer of `String`, the `cstring`, and the methods that change it
in place.

A `cstring` has a size, a length, and the memory of its text, which is one byte longer than
the size. The length is kept beside the text and not found from its null: some methods change
the one without the other. A text that is given to a method is memory of its own.

A `size_t` and an `unsigned` are natural numbers. The sizes of what is in memory at the
same time add up like these. A size that is given for a text and is more than the text has
may be any number, and a sum with it wraps.
-/

import Mathlib.Data.List.DropRight
import CommonCpp.Bytes

namespace CommonCpp

open Bytes

/-! ### The buffer -/

/-- `String::cstring`, without its count. -/
@[ext]
structure Cstring where
  max : ℕ
  len : ℕ
  text : Text
  deriving DecidableEq

namespace Cstring

/-- A new buffer in memory that holds this. -/
def create (size : ℕ) (junk : ℕ → UInt8) : Cstring :=
  ⟨size, 0, ((List.range (size + 1)).map junk).set 0 0⟩

def fix (str : Cstring) : Cstring := { str with text := str.text.set str.len 0 }

/-- `clear(size_t)`. -/
def clearAt (str : Cstring) (offset : ℕ) : Cstring :=
  if offset ≥ str.len then str
  else { str with text := str.text.set offset 0, len := offset }

def dec (str : Cstring) (offset : ℕ) : Cstring :=
  if str.len = 0 then str
  else if offset ≥ str.len then fix { str with text := str.text.set 0 0, len := 0 }
  else { str with text := str.text.set (str.len - 1) 0, len := str.len - 1 }

def inc (str : Cstring) (offset : ℕ) : Cstring :=
  let offset := if offset = 0 then 1 else offset
  if offset ≥ str.len then fix { str with text := str.text.set 0 0, len := 0 }
  else
    fix { str with
      text := move str.text 0 ((str.text.drop offset).take (str.len - offset))
      len := str.len - offset }

/-- `add(const char *)`. -/
def add (str : Cstring) (s : Text) : Cstring :=
  let size := strlen s
  if size = 0 then str
  else
    let size := if str.len + size > str.max then str.max - str.len else size
    if size < 1 then str
    else fix { str with text := move str.text str.len (s.take size), len := str.len + size }

/-- The sum of a number and the size that is given for a text. -/
def sum (number size : ℕ) (s : Text) : ℕ :=
  if size ≤ strlen s then number + size else (number + size) % 2 ^ 64

/-- The size that `set` is left with when the memory ends before its field does. -/
def clipped (str : Cstring) (offset : ℕ) (s : Text) (size : ℕ) : ℕ :=
  if sum offset size s > str.max then str.max - offset else size

/-- `set(size_t, const char *, size_t)`. -/
def setAt (str : Cstring) (offset : ℕ) (s : Text) (size : ℕ) : Cstring :=
  if offset ≥ str.max ∨ offset > str.len then str
  else
    let size := clipped str offset s size
    let written := (string s).take size
    let text := move str.text offset written
    let offset := offset + written.length
    if offset > str.len then { str with text := text.set offset 0, len := offset }
    else { str with text := text }

/-- `set(const char *)`. -/
def set (str : Cstring) (s : Text) : Cstring :=
  let size := if strlen s > str.max then str.max else strlen s
  fix { str with text := move str.text 0 (s.take size), len := size }

/-! ### The methods of the string that work in place -/

/-- `String::clear()`. -/
def clear (str : Cstring) : Cstring := set str []

/-- `String::chop(const char *)`. -/
def chop (str : Cstring) (clist : Text) : Cstring :=
  if str.len = 0 then str
  else
    let offset := ((str.text.take str.len).rdropWhile (strchr clist)).length
    if offset = 0 then clear str
    else if offset = str.len then str
    else fix { str with len := offset }

/-- `String::trim(const char *)`. -/
def trim (str : Cstring) (clist : Text) : Cstring :=
  let offset := ((str.text.take str.len).takeWhile (strchr clist)).length
  if offset = 0 then str
  else if offset = str.len then clear str
  else
    fix { str with
      text := move str.text 0 ((str.text.drop offset).take (str.len - offset))
      len := str.len - offset }

/-- `String::strip(const char *)`. -/
def strip (str : Cstring) (clist : Text) : Cstring := chop (trim str clist) clist

/-- `String::cut(size_t, size_t)`, where its sum does not wrap. -/
def cut (str : Cstring) (offset size : ℕ) : Cstring :=
  if offset ≥ str.len then str
  else
    let size := if size = 0 then str.len else size
    if offset + size ≥ str.len then fix { str with len := offset }
    else
      fix { str with
        text := move str.text offset
          ((str.text.drop (offset + size)).take (str.len - offset - size))
        len := str.len - size }

/-- What `String::paste(size_t, const char *, size_t)` does to a buffer that has the room. -/
def paste (str : Cstring) (offset : ℕ) (cp : Text) (size : ℕ) : Cstring :=
  let text :=
    if offset ≥ str.len then Bytes.set str.text str.len (sum 1 size cp) cp
    else
      -- so many bytes are read here, and so they are in memory
      move (move str.text (offset + size) ((str.text.drop offset).take (str.len - offset)))
        offset (cp.take size)
  fix { str with text := text, len := sum str.len size cp }

/-- `String::split(size_t)`. -/
def splitAt (str : Cstring) (pos : ℕ) : Cstring :=
  if pos ≥ str.len then str else fix { str with text := str.text.set pos 0 }

/-- `String::split(const char *)`, where `s` is this far from the text. -/
def split (str : Cstring) (s : ℤ) : Cstring :=
  if s < 0 ∨ s ≥ str.len then str
  else if str.text.getD s.toNat 0 = 0 then str
  else fix { str with text := str.text.set s.toNat 0 }

/-- `String::rsplit(size_t)`. -/
def rsplitAt (str : Cstring) (pos : ℕ) : Cstring :=
  if pos > str.len ∨ pos = 0 then str else set str (str.text.drop pos)

/-- `String::rsplit(const char *)`, where `s` is this far from the text. -/
def rsplit (str : Cstring) (s : ℤ) : Cstring :=
  if s ≤ 0 ∨ s > str.len then str else set str (str.text.drop s.toNat)

def fillLoop (str : Cstring) (fill : UInt8) : ℕ → Cstring
  | 0 => str
  | size + 1 =>
    if str.len < str.max then
      fillLoop { str with text := str.text.set str.len fill, len := str.len + 1 } fill size
    else str

/-- `String::fill(size_t, char)`. -/
def fill (str : Cstring) (size : ℕ) (fill : UInt8) : Cstring := fix (fillLoop str fill size)

/-- `String::set(size_t, const char *, size_t)`. -/
def setOffset (str : Cstring) (offset : ℕ) (s : Text) (size : ℕ) : Cstring :=
  if string s = [] then str
  else setAt str offset s (if size = 0 then strlen s else size)

/-- The size of the field that starts at a place: what is asked for, or all that is there. -/
def room (str : Cstring) (offset size : ℕ) : ℕ :=
  if size = 0 ∨ size > str.max - offset then str.max - offset else size

/-- `String::set(const char *, char, size_t, size_t)`. -/
def setOverflow (str : Cstring) (s : Text) (overflow : UInt8) (offset size : ℕ) : Cstring :=
  let len := strlen s
  if string s = [] then str
  else if offset ≥ str.max then str
  else
    let size := room str offset size
    if len ≤ size then setOffset str offset s size
    else
      let str := setOffset str offset s size
      if len > size ∧ overflow ≠ 0 then
        { str with text := str.text.set (offset + size - 1) overflow }
      else str

/-- `String::rset(const char *, char, size_t, size_t)`. -/
def rset (str : Cstring) (s : Text) (overflow : UInt8) (offset size : ℕ) : Cstring :=
  let len := strlen s
  if string s = [] then str
  else if offset ≥ str.max then str
  else
    let size := room str offset size
    let s := if len > size then s.drop (len - size) else s
    let str := setOffset str offset s size
    if overflow ≠ 0 ∧ len > size then { str with text := str.text.set offset overflow } else str

/-- `String::upper()`. -/
def upper (str : Cstring) : Cstring := { str with text := Bytes.upper str.text }

/-- `String::lower()`. -/
def lower (str : Cstring) : Cstring := { str with text := Bytes.lower str.text }

/-- `String::erase()`. -/
def erase (str : Cstring) : Cstring :=
  fix { str with text := move str.text 0 (List.replicate str.max 0) }

/-- `String::unquote(const char *)`. -/
def unquote (str : Cstring) (clist : Text) : Cstring :=
  let len := strlen str.text
  if len = 0 then fix str
  else
    let (text, s) := unquoteLoop str.text len clist
    set { str with text := text } (text.drop s)

/-! ### What a string is read as -/

/-- The text of the string, and its length. -/
def value (str : Cstring) : Text × ℕ := (string str.text, str.len)

/-- The memory is as long as the buffer says, and the text ends inside it. -/
structure Valid (str : Cstring) : Prop where
  len_le : str.len ≤ str.max
  length : str.text.length = str.max + 1
  terminated : 0 ∈ str.text

theorem value_eq_iff {str other : Cstring} :
    str.value = other.value ↔ string str.text = string other.text ∧ str.len = other.len :=
  Prod.mk_inj

theorem sum_of_le {number size : ℕ} {s : Text} (given : size ≤ strlen s) :
    sum number size s = number + size :=
  if_pos given

theorem sum_le (number size : ℕ) (s : Text) : sum number size s ≤ number + size := by
  unfold sum
  split
  · exact le_rfl
  · exact Nat.mod_le _ _

/-- What is cut out is missing from the text, when the length is that of the text. -/
theorem string_cut {str : Cstring} (whole : str.len = strlen str.text)
    {offset size : ℕ} (inside : offset < str.len) (positive : 0 < size) :
    string (cut str offset size).text =
        (string str.text).take offset ++ (string str.text).drop (offset + size) ∧
      (cut str offset size).len =
        ((string str.text).take offset ++ (string str.text).drop (offset + size)).length := by
  have length_ : ((string str.text).take offset ++
      (string str.text).drop (offset + size)).length =
        offset + (str.len - (offset + size)) := by
    rw [List.length_append, List.length_drop, List.length_take_of_le (by
      show offset ≤ strlen str.text
      omega), whole]
    rfl
  unfold cut
  rw [if_neg (Nat.not_le_of_lt inside)]
  dsimp only
  rw [if_neg (Nat.ne_of_gt positive), length_]
  split
  next beyond =>
    have none_ : (string str.text).drop (offset + size) = [] :=
      List.drop_eq_nil_of_le (by show strlen str.text ≤ offset + size; omega)
    refine ⟨?_, ?_⟩
    · rw [none_, List.append_nil]
      exact string_set_zero str.text offset
    · show offset = _
      omega
  next within =>
    have behind : (str.text.drop (offset + size)).take (str.len - offset - size) =
        (string str.text).drop (offset + size) := by
      rw [Nat.sub_sub, whole, ← List.drop_take, take_strlen]
    have noNull : 0 ∉ (string str.text).drop (offset + size) :=
      fun member => zero_notMem_string str.text (List.mem_of_mem_drop member)
    refine ⟨?_, ?_⟩
    · rw [behind]
      show string ((move str.text offset _).set (str.len - size) 0) = _
      rw [string_set_zero, string_move_within (by omega), string_append noNull,
        ← List.append_assoc, List.take_append_of_le_length (by omega), List.take_of_length_le]
      omega
    · show str.len - size = _
      omega

end Cstring

end CommonCpp
