/-
This file settles what the static functions `paste` and `cut` of `String` make of the text in a
buffer of a given size.

The guard of `paste` is the wrong way round: it returns when the text is not longer than the buffer,
which no text is, and so `paste` never inserts anything. The sum that `cut` makes of its offset and
its size is taken modulo `2 ^ 64`, and so a large size is not clipped, but taken for one that ends
before the offset.
-/

import CommonCpp.BoundedText
import CommonCpp.StringEdits

namespace CommonCpp

open Bytes Strings

namespace BoundedText

/-! ### The functions -/

/-- `String::paste(char *, size_t, size_t, const char *, size_t)`. -/
def paste (text : Text) (max offset : ℕ) (cp : Text) (size : ℕ) : Option Text :=
  let size := if size = 0 then strlen cp else size
  if size = 0 then some text
  else
    let len := strlen text
    if len ≤ max then some text
    else
      let size := if (len + size) % 2 ^ 64 ≥ max then minus max len else size
      if offset ≥ len then set text len ((size + 1) % 2 ^ 64) cp
      else do
        let text ← memmove text ((offset + size) % 2 ^ 64) offset (minus len offset)
        if size ≤ cp.length then write text offset (cp.take size) else none

/-- `String::cut(char *, size_t, size_t)`. -/
def cut (text : Text) (offset size : ℕ) : Option Text :=
  let len := strlen text
  if len = 0 ∨ offset ≥ len then some text
  else
    let behind := (offset + size) % 2 ^ 64
    if behind ≥ len then write text offset [0]
    else do
      let text ← memmove text offset behind (minus (minus len offset) size)
      write text (minus len size) [0]

/-! ### What they are to leave -/

/-- How many characters are to be inserted: the size, or all of them where it is zero. -/
def asked (cp : Text) (size : ℕ) : ℕ := if size = 0 then strlen cp else size

/-- How many of them there is room for. -/
def fitting (max : ℕ) (text cp : Text) (size : ℕ) : ℕ :=
  min (asked cp size) (max - 1 - strlen text)

/-- The function stays in the buffer, and leaves this text in it, with its null. -/
def LeavesText (text : Text) (left : Text) (after : Option Text) : Prop :=
  ∃ buffer, after = some buffer ∧ buffer.length = text.length ∧ 0 ∈ buffer ∧ string buffer = left

/-- The characters are inserted at the offset, or at the end of the text. -/
def Pastes (max : ℕ) (text : Text) (offset : ℕ) (cp : Text) (size : ℕ) : Prop :=
  LeavesText text ((string text).take offset ++ (string cp).take (fitting max text cp size) ++
    (string text).drop offset) (paste text max offset cp size)

/-- The characters from the offset on are deleted, so many of them. -/
def Cuts (text : Text) (offset size : ℕ) : Prop :=
  LeavesText text ((string text).take offset ++ (string text).drop (offset + size))
    (cut text offset size)

/-- What is pasted is cut again. -/
def Restores (max : ℕ) (text : Text) (offset : ℕ) (cp : Text) (size : ℕ) : Prop :=
  LeavesText text (string text)
    ((paste text max offset cp size).bind fun buffer => cut buffer offset (asked cp size))

variable {max offset size : ℕ} {text cp : Text}

/-! ### `paste` -/

/-- No text in the buffer is longer than it. -/
theorem paste_eq (length : text.length = max) (offset : ℕ) (cp : Text) (size : ℕ) :
    paste text max offset cp size = some text := by
  have short : strlen text ≤ max := (strlen_le_length text).trans_eq length
  unfold paste
  dsimp only
  rw [if_pos short, ite_self]

theorem asked_le (given : size ≤ strlen cp) : asked cp size ≤ strlen cp := by
  unfold asked
  split
  · exact le_rfl
  · exact given

theorem pastes_iff (length : text.length = max) (null : 0 ∈ text) (given : size ≤ strlen cp) :
    Pastes max text offset cp size ↔ fitting max text cp size = 0 := by
  have some_ : fitting max text cp size ≤ strlen cp :=
    (Nat.min_le_left _ _).trans (asked_le given)
  rw [Pastes, paste_eq length, LeavesText]
  constructor
  · rintro ⟨buffer, ⟨⟩, -, -, left⟩
    have sizes := congrArg List.length left
    simp only [List.length_append, List.length_take, List.length_drop] at sizes
    have inserted : min (fitting max text cp size) (string cp).length =
        fitting max text cp size := Nat.min_eq_left some_
    omega
  · intro nothing
    refine ⟨text, rfl, rfl, null, ?_⟩
    rw [nothing, List.take_zero, List.append_nil, List.take_append_drop]

/-! ### `cut` -/

theorem write_null {place : ℕ} (inside : place < text.length) :
    write text place [0] = some (text.set place 0) := by
  rw [set_eq_move inside]
  exact if_pos (by rw [List.length_singleton]; omega)

/-- The rest of the text moved to an offset, with a null behind it. -/
theorem string_moved (src : ℕ) (target : offset ≤ strlen text) :
    string ((move text offset ((text.drop src).take (strlen text - src))).set
        (offset + (strlen text - src)) 0) =
      (string text).take offset ++ (string text).drop src := by
  have rest : (text.drop src).take (strlen text - src) = (string text).drop src := by
    rw [← List.drop_take, take_strlen]
  have noNull : 0 ∉ (string text).drop src :=
    fun member => zero_notMem_string text (List.mem_of_mem_drop member)
  have length : ((string text).take offset ++ (string text).drop src).length =
      offset + (strlen text - src) := by
    rw [List.length_append, List.length_take_of_le target, List.length_drop]
    rfl
  rw [string_set_zero, rest, string_move_within target, string_append noNull, ← List.append_assoc,
    ← length, List.take_left]

/-- A text that is cut in the buffer. -/
theorem leaves_set {buffer left : Text} {place : ℕ} (inside : place < buffer.length)
    (length : buffer.length = text.length) (read : string (buffer.set place 0) = left) :
    LeavesText text left (some (buffer.set place 0)) := by
  refine ⟨_, rfl, (List.length_set ..).trans length, ?_, read⟩
  exact List.mem_iff_getElem.mpr ⟨place, by rwa [List.length_set], List.getElem_set_self _⟩

/-- The null is behind the text. -/
theorem strlen_lt_length (null : 0 ∈ text) : strlen text < text.length := by
  refine lt_of_le_of_ne (strlen_le_length text) fun whole => ?_
  have same : string text = text := by rw [← take_strlen, whole, List.take_length]
  have none_ := zero_notMem_string text
  rw [same] at none_
  exact none_ null

/-- What `cut` leaves when it moves the rest of the text from a place, which need not be the one
behind what is to be cut: the null is put behind what is moved. -/
theorem moved_leaves {src : ℕ} (source : src ≤ strlen text) (target : offset ≤ strlen text)
    (inside : offset + (strlen text - src) < text.length) :
    LeavesText text ((string text).take offset ++ (string text).drop src)
      ((memmove text offset src (strlen text - src)).bind fun text_ =>
        write text_ (offset + (strlen text - src)) [0]) := by
  have short := strlen_le_length text
  have bytes : ((text.drop src).take (strlen text - src)).length = strlen text - src := by
    rw [List.length_take, List.length_drop]
    omega
  have length : (move text offset ((text.drop src).take (strlen text - src))).length =
      text.length := length_move (by omega)
  rw [memmove_eq (by omega) (by omega), Option.bind_some, write_null (by omega)]
  exact leaves_set (by omega) length (string_moved src target)

/-- What is moved stays in the memory. -/
theorem memmove_some {dest src size : ℕ} {moved : Text}
    (done : memmove text dest src size = some moved) :
    dest + size ≤ text.length ∧ moved.length = text.length := by
  obtain ⟨⟨source, target⟩, same⟩ := Option.ite_none_right_eq_some.mp done
  cases same
  refine ⟨target, length_move ?_⟩
  rw [List.length_take, List.length_drop]
  omega

theorem lt_of_write_null {place : ℕ} {written : Text} (done : write text place [0] = some written) :
    place < text.length :=
  (Option.ite_none_right_eq_some.mp done).1

/-- Where its sum does not wrap, `cut` deletes what it should. -/
theorem cuts_of_lt (null : 0 ∈ text) (memory : text.length < 2 ^ 64) (within : offset < strlen text)
    (fits : offset + size < 2 ^ 64) : Cuts text offset size := by
  have room := strlen_lt_length null
  unfold Cuts cut
  dsimp only
  rw [if_neg (by omega), Nat.mod_eq_of_lt fits]
  split
  next clipped =>
    rw [write_null (by omega)]
    refine leaves_set (by omega) rfl ?_
    rw [string_set_zero, List.drop_eq_nil_of_le clipped, List.append_nil]
  next inside =>
    have left : strlen text - offset - size = strlen text - (offset + size) := by omega
    have place : strlen text - size = offset + (strlen text - (offset + size)) := by omega
    rw [minus_eq within.le (by omega), minus_eq (by omega) (by omega),
      minus_eq (by omega) (by omega), left, place]
    exact moved_leaves (by omega) within.le (by omega)

/-- Where its sum wraps, `cut` leaves a longer text, when there is room for one. -/
theorem not_cuts_of_wraps (null : 0 ∈ text) (memory : text.length < 2 ^ 64)
    (within : offset < strlen text) (size_lt : size < 2 ^ 64) (wraps : 2 ^ 64 ≤ offset + size) :
    ¬ Cuts text offset size := by
  have room := strlen_lt_length null
  -- The place that is taken for the one behind what is cut lies before the offset.
  obtain ⟨src, wraps_⟩ : ∃ src, offset + size = src + 2 ^ 64 := ⟨offset + size - 2 ^ 64, by omega⟩
  have left : minus (minus (strlen text) offset) size = strlen text - src := by
    rw [minus_eq within.le (by omega)]
    unfold minus
    omega
  unfold Cuts cut
  dsimp only
  rw [if_neg (by omega), wraps_, Nat.add_mod_right, Nat.mod_eq_of_lt (by omega),
    if_neg (by omega), left]
  rintro ⟨buffer, done, -, -, read⟩
  obtain ⟨moved, memmove_, written⟩ := Option.bind_eq_some_iff.mp done
  obtain ⟨target, length⟩ := memmove_some memmove_
  have place : minus (strlen text) size = offset + (strlen text - src) := by
    unfold minus
    omega
  have inside := lt_of_write_null written
  rw [place] at done inside
  obtain ⟨buffer', done', -, -, read'⟩ :=
    @moved_leaves offset text src (by omega) within.le (length ▸ inside)
  cases done.symm.trans done'
  have sizes := congrArg List.length (read.symm.trans read')
  simp only [List.length_append, List.length_drop] at sizes
  have len_ : strlen text = (string text).length := rfl
  omega

theorem cuts_iff (null : 0 ∈ text) (memory : text.length < 2 ^ 64) (size_lt : size < 2 ^ 64) :
    Cuts text offset size ↔ strlen text ≤ offset ∨ offset + size < 2 ^ 64 := by
  by_cases outside : strlen text ≤ offset
  · refine iff_of_true ⟨text, if_pos (Or.inr outside), rfl, null, ?_⟩ (Or.inl outside)
    rw [List.take_of_length_le outside,
      List.drop_eq_nil_of_le (outside.trans (Nat.le_add_right ..)), List.append_nil]
  have within : offset < strlen text := not_le.mp outside
  rw [or_iff_right outside]
  by_cases fits : offset + size < 2 ^ 64
  · exact iff_of_true (cuts_of_lt null memory within fits) fits
  · exact iff_of_false (not_cuts_of_wraps null memory within size_lt (not_lt.mp fits)) fits

/-! ### Both -/

theorem restores_iff (length : text.length = max) (null : 0 ∈ text) (memory : max < 2 ^ 64)
    (room : asked cp size ≤ max - 1 - strlen text) :
    Restores max text offset cp size ↔ strlen text ≤ offset ∨ asked cp size = 0 := by
  have inside := strlen_lt_length null
  unfold Restores
  rw [paste_eq length, Option.bind_some]
  by_cases outside : strlen text ≤ offset
  · refine iff_of_true ⟨text, ?_, rfl, null, rfl⟩ (Or.inl outside)
    unfold cut
    exact if_pos (Or.inr outside)
  rw [or_iff_right outside]
  have cut_ : Cuts text offset (asked cp size) :=
    (cuts_iff null (by omega) (by omega)).mpr (Or.inr (by omega))
  obtain ⟨buffer, done, kept, null_, read⟩ := cut_
  rw [done]
  constructor
  · rintro ⟨_, ⟨⟩, -, -, same⟩
    have sizes := congrArg List.length (read.symm.trans same)
    simp only [List.length_append, List.length_take, List.length_drop] at sizes
    have len_ : strlen text = (string text).length := rfl
    omega
  · intro nothing
    refine ⟨buffer, rfl, kept, null_, read.trans ?_⟩
    rw [nothing, Nat.add_zero, List.take_append_drop]

/-- In a buffer that holds a text, `paste` inserts what it should only where there is nothing to
insert, `cut` deletes what it should where its sum does not wrap, and what `paste` should have
inserted is deleted behind it only where that is nothing. -/
theorem bounded_edits_iff (length : text.length = max) (null : 0 ∈ text) (memory : max < 2 ^ 64)
    (size_lt : size < 2 ^ 64) :
    (size ≤ strlen cp → (Pastes max text offset cp size ↔ fitting max text cp size = 0)) ∧
    (Cuts text offset size ↔ strlen text ≤ offset ∨ offset + size < 2 ^ 64) ∧
    (size ≤ strlen cp → asked cp size ≤ max - 1 - strlen text →
      (Restores max text offset cp size ↔ strlen text ≤ offset ∨ asked cp size = 0)) :=
  ⟨pastes_iff length null, cuts_iff null (length.trans_lt memory) size_lt,
    fun _ room => restores_iff length null memory room⟩

theorem bounded_edits_iff_hi :
    (Cuts [0x48, 0x69, 0] 1 1 ↔ strlen [0x48, 0x69, 0] ≤ 1 ∨ 1 + 1 < 2 ^ 64) ∧
      (Pastes 4 [0x48, 0, 0, 0] 1 [0x69, 0] 1 ↔ fitting 4 [0x48, 0, 0, 0] [0x69, 0] 1 = 0) :=
  ⟨(@bounded_edits_iff 3 1 1 [0x48, 0x69, 0] [] rfl (by decide) (by decide) (by decide)).2.1,
    (@bounded_edits_iff 4 1 1 [0x48, 0, 0, 0] [0x69, 0] rfl (by decide) (by decide)
      (by decide)).1 (by decide)⟩

/-- There is room for two more characters, and none is inserted; a size that should be clipped
moves the text up, and leaves a buffer without room for that. -/
theorem paste_inserts_nothing :
    paste [0x48, 0, 0, 0] 4 1 [0x69, 0] 0 = some [0x48, 0, 0, 0] ∧
      ¬ Pastes 4 [0x48, 0, 0, 0] 1 [0x69, 0] 0 ∧
      cut [0x48, 0x69, 0] 1 (2 ^ 64 - 1) = none ∧ ¬ Cuts [0x48, 0x69, 0] 1 (2 ^ 64 - 1) := by
  refine ⟨by decide, ?_, by decide, ?_⟩
  · have right := @pastes_iff 4 1 0 [0x48, 0, 0, 0] [0x69, 0] rfl (by decide) (by decide)
    exact fun pastes => absurd (right.mp pastes) (by decide)
  · have right := @cuts_iff 1 (2 ^ 64 - 1) [0x48, 0x69, 0] (by decide) (by decide) (by decide)
    exact fun cuts => absurd (right.mp cuts) (by decide)

end BoundedText

end CommonCpp
