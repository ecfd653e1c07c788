/-
This file tells what the methods that change a buffer in place make of the text in it, when the
length that the buffer keeps is that of its text.

A buffer contains a text when it reads as the text, has its length, and has the room for it. Each
method then does to the text what it is named for: it appends, inserts, deletes or overwrites, and
leaves a buffer that contains the text it has made.
-/

import CommonCpp.CstringKept

namespace CommonCpp

open Bytes

namespace Cstring

/-! ### The text of a buffer -/

/-- The buffer reads as this text, and its length is that of the text. -/
structure Contains (str : Cstring) (t : Text) : Prop where
  string : string str.text = t
  len : str.len = t.length
  len_le : t.length ≤ str.max
  length : str.text.length = str.max + 1

section Contains

variable {str : Cstring} {t : Text}

theorem Contains.strlen (contains : Contains str t) : strlen str.text = str.len := by
  rw [Bytes.strlen, contains.string, contains.len]

theorem Contains.noNull (contains : Contains str t) : 0 ∉ t :=
  contains.string ▸ zero_notMem_string str.text

/-- What is in the memory before the length. -/
theorem Contains.take_len (contains : Contains str t) : str.text.take str.len = t := by
  rw [← contains.strlen, take_strlen, contains.string]

/-- What is in the memory before a place in the text. -/
theorem Contains.take (contains : Contains str t) {offset : ℕ} (within : offset ≤ t.length) :
    str.text.take offset = t.take offset := by
  rw [take_eq_of_le (by rw [contains.strlen, contains.len]; exact within), contains.string]

/-- What is in the memory from a place in the text to its end. -/
theorem Contains.drop_take (contains : Contains str t) (offset : ℕ) :
    (str.text.drop offset).take (str.len - offset) = t.drop offset := by
  rw [← List.drop_take, contains.take_len]

theorem Contains.len_le_length (contains : Contains str t) : str.len ≤ str.text.length := by
  rw [contains.length, contains.len]
  exact contains.len_le.trans (Nat.le_succ _)

theorem length_create (size : ℕ) (junk : ℕ → UInt8) :
    (create size junk).text.length = size + 1 := by
  simp [create]

theorem length_set (length : str.text.length = str.max + 1) (s : Text) :
    (set str s).text.length = str.max + 1 := by
  have fits : (if Bytes.strlen s > str.max then str.max else Bytes.strlen s) ≤ str.max := by
    split <;> omega
  have taken := (List.length_take_le _ s).trans fits
  show ((move str.text 0 _).set _ 0).length = _
  rw [List.length_set, length_move (by omega), length]

/-- A memory that starts with a text contains it once its null is set. -/
theorem contains_fix {max len : ℕ} {text : Text} (noNull : 0 ∉ t) (starts : text.take t.length = t)
    (len_ : len = t.length) (len_le : t.length ≤ max) (length : text.length = max + 1) :
    Contains (fix ⟨max, len, text⟩) t := by
  have split : t ++ text.drop t.length = text := by
    conv_lhs => rw [← starts]
    rw [List.length_take, length, Nat.min_eq_left (len_le.trans (Nat.le_succ max)),
      List.take_append_drop]
  have read : Bytes.string text = t ++ Bytes.string (text.drop t.length) := by
    rw [← string_append noNull, split]
  refine ⟨?_, len_, len_le, ?_⟩
  · rw [string_fix]
    show (Bytes.string text).take len = t
    rw [read, len_, List.take_left]
  · show (text.set len 0).length = max + 1
    rw [List.length_set, length]

/-- A text that is moved into a memory behind what is kept of it. -/
theorem take_move {text bytes : Text} {offset : ℕ} (inside : offset ≤ text.length) :
    (move text offset bytes).take (offset + bytes.length) = text.take offset ++ bytes := by
  have start : (text.take offset ++ bytes).length = offset + bytes.length := by
    rw [List.length_append, List.length_take_of_le inside]
  rw [move, ← start, List.take_left]

/-! ### What is put in -/

/-- A text is appended where there is room for it. -/
theorem Contains.add (contains : Contains str t) {s : Text}
    (room : t.length + Bytes.strlen s ≤ str.max) : Contains (add str s) (t ++ Bytes.string s) := by
  by_cases empty : Bytes.strlen s = 0
  · have none_ : Bytes.string s = [] := List.length_eq_zero_iff.mp empty
    rw [Cstring.add, if_pos empty, none_, List.append_nil]
    exact contains
  have fits : ¬ str.len + Bytes.strlen s > str.max := by
    rw [contains.len]
    exact Nat.not_lt_of_le room
  have inside : str.len ≤ str.text.length := contains.len_le_length
  have length_ : (t ++ Bytes.string s).length = str.len + (Bytes.string s).length := by
    rw [List.length_append, contains.len]
  unfold Cstring.add
  dsimp only
  rw [if_neg empty, if_neg fits, if_neg (by omega), take_strlen]
  refine contains_fix ?_ ?_ length_.symm ?_ ?_
  · rw [List.mem_append, not_or]
    exact ⟨contains.noNull, zero_notMem_string s⟩
  · rw [length_, take_move inside, contains.take_len]
  · rw [List.length_append]
    exact room
  · rw [length_move, contains.length]
    rw [contains.length, contains.len]
    exact room.trans (Nat.le_succ _)

theorem notMem_move {bytes : Text} (noNull : 0 ∉ t) (noNull_ : 0 ∉ bytes) (offset : ℕ) :
    0 ∉ move t offset bytes := by
  rw [move, List.mem_append, List.mem_append, not_or, not_or]
  exact ⟨⟨fun member => noNull (List.mem_of_mem_take member), noNull_⟩,
    fun member => noNull (List.mem_of_mem_drop member)⟩

/-- A text is written over what is there from a place on. -/
theorem Contains.setAt (contains : Contains str t) {offset size : ℕ} {s : Text}
    (within : offset ≤ t.length) (inside : offset < str.max) (fits : offset + size ≤ str.max) :
    Contains (setAt str offset s size) (move t offset ((Bytes.string s).take size)) := by
  have noNull := noNull_take s size
  have short : ((Bytes.string s).take size).length ≤ size := List.length_take_le _ _
  have reached : offset ≤ str.len := contains.len ▸ within
  have room : offset + ((Bytes.string s).take size).length ≤ str.text.length := by
    rw [contains.length]
    omega
  have memory : offset ≤ str.text.length := (Nat.le_add_right _ _).trans room
  rw [setAt_eq inside reached rfl, clipped_of_le fits]
  generalize (Bytes.string s).take size = written at noNull short room ⊢
  split
  next longer =>
    have whole : move t offset written = t.take offset ++ written := by
      rw [move, List.drop_eq_nil_of_le (by rw [← contains.len]; exact longer.le), List.append_nil]
    have length_ : (move t offset written).length = offset + written.length := by
      rw [whole, List.length_append, List.length_take_of_le within]
    show Contains (fix ⟨str.max, offset + written.length, move str.text offset written⟩) _
    refine contains_fix (notMem_move contains.noNull noNull offset) ?_ length_.symm ?_ ?_
    · rw [length_, take_move memory, whole, contains.take within]
    · rw [length_]
      exact (Nat.add_le_add_left short offset).trans fits
    · rw [length_move room, contains.length]
  next behind =>
    have behind_ : offset + written.length ≤ t.length := contains.len ▸ Nat.le_of_not_lt behind
    refine ⟨?_, ?_, ?_, ?_⟩
    · show Bytes.string (move str.text offset written) = _
      rw [string_move_within (by rw [contains.strlen]; exact reached), contains.string,
        string_append noNull, string_drop (by rw [contains.strlen]; exact Nat.le_of_not_lt behind),
        contains.string, move, List.append_assoc]
    · rw [length_move behind_]
      exact contains.len
    · rw [length_move behind_]
      exact contains.len_le
    · show (move str.text offset written).length = str.max + 1
      rw [length_move room, contains.length]

/-- `set` overwrites from a place in the text on, as far as the memory reaches. -/
theorem Contains.setOffset (contains : Contains str t) {offset size : ℕ} {s : Text}
    (within : offset ≤ t.length)
    (given : size ≤ Bytes.strlen s) :
    Contains (setOffset str offset s size) (move t offset ((Bytes.string s).take
      (min (if size = 0 then Bytes.strlen s else size) (str.max - offset)))) := by
  have nothing : move t offset [] = t := by
    rw [move, List.append_nil]
    exact List.take_append_drop offset t
  by_cases empty : Bytes.string s = []
  · rw [Cstring.setOffset, if_pos empty, empty, List.take_nil, nothing]
    exact contains
  rw [Cstring.setOffset, if_neg empty]
  by_cases inside : offset < str.max
  · have given_ : (if size = 0 then Bytes.strlen s else size) ≤ Bytes.strlen s := by split <;> omega
    have same : Cstring.setAt str offset s (if size = 0 then Bytes.strlen s else size) =
        Cstring.setAt str offset s
          (min (if size = 0 then Bytes.strlen s else size) (str.max - offset)) := by
      unfold Cstring.setAt
      rw [clipped_eq_min given_, clipped_of_le (by omega)]
    rw [same]
    exact contains.setAt within inside (by omega)
  · have none_ : str.max - offset = 0 := Nat.sub_eq_zero_of_le (Nat.le_of_not_lt inside)
    rw [setAt_outside (Or.inl (Nat.le_of_not_lt inside)), none_, Nat.min_zero, List.take_zero,
      nothing]
    exact contains

/-- What `paste` makes of a text. -/
def insert (t : Text) (offset : ℕ) (bytes : Text) : Text :=
  t.take offset ++ bytes ++ t.drop offset

theorem length_insert (t : Text) (offset : ℕ) (bytes : Text) :
    (insert t offset bytes).length = t.length + bytes.length := by
  have split : (t.take offset).length + (t.drop offset).length = t.length := by
    rw [← List.length_append, List.take_append_drop]
  rw [insert, List.length_append, List.length_append]
  omega

/-- Room is made in a memory by moving what is behind a place, and then bytes are moved there. -/
theorem move_move {text bytes tail : Text} {offset : ℕ}
    (inside : offset + bytes.length + tail.length ≤ text.length) :
    move (move text (offset + bytes.length) tail) offset bytes =
      text.take offset ++ bytes ++ tail ++ text.drop (offset + bytes.length + tail.length) := by
  have start : (text.take (offset + bytes.length)).length = offset + bytes.length :=
    List.length_take_of_le (by omega)
  have before : (move text (offset + bytes.length) tail).take offset = text.take offset := by
    rw [move, List.append_assoc, List.take_append_of_le_length (by rw [start]; omega),
      List.take_take, Nat.min_eq_left (Nat.le_add_right _ _)]
  have after : (move text (offset + bytes.length) tail).drop (offset + bytes.length) =
      tail ++ text.drop (offset + bytes.length + tail.length) := by
    rw [move, List.append_assoc, List.drop_append_of_le_length start.ge,
      List.drop_eq_nil_of_le start.le, List.nil_append]
  show (move text (offset + bytes.length) tail).take offset ++ bytes ++
    (move text (offset + bytes.length) tail).drop (offset + bytes.length) = _
  rw [before, after, ← List.append_assoc]

theorem length_bytes_set (text : Text) {str size : ℕ} (inside : str + size ≤ text.length)
    (s : Text) : (Bytes.set text str size s).length = text.length := by
  unfold Bytes.set
  split
  · rfl
  next some_ =>
    have fits : (if strlen s ≥ size then size - 1 else strlen s) ≤ size := by split <;> omega
    generalize (if strlen s ≥ size then size - 1 else strlen s) = l at fits ⊢
    dsimp only
    have taken := List.length_take_le l s
    rw [List.length_set]
    exact length_move (by omega)

/-- A text that is set behind what is kept of a memory. -/
theorem take_bytes_set {text s : Text} {offset size : ℕ} (positive : 0 < size)
    (given : size ≤ Bytes.strlen s) (inside : offset + size ≤ text.length) :
    (Bytes.set text offset (size + 1) s).take (offset + size) =
      text.take offset ++ (Bytes.string s).take size := by
  have length_ : (if Bytes.strlen s ≥ size + 1 then size + 1 - 1 else Bytes.strlen s) = size := by
    split <;> omega
  have size_ : ((Bytes.string s).take size).length = size := List.length_take_of_le given
  unfold Bytes.set
  rw [if_neg (by omega), length_]
  dsimp only
  rw [take_eq_of_le given, List.take_set_of_le le_rfl]
  calc (move text offset ((Bytes.string s).take size)).take (offset + size)
      = (move text offset ((Bytes.string s).take size)).take
          (offset + ((Bytes.string s).take size).length) := by rw [size_]
    _ = text.take offset ++ (Bytes.string s).take size := take_move (by omega)

/-- A text is inserted where there is room for it. -/
theorem Contains.paste (contains : Contains str t) {offset size : ℕ} {cp : Text}
    (positive : 0 < size) (given : size ≤ Bytes.strlen cp) (room : size + t.length ≤ str.max) :
    Contains (paste str offset cp size) (insert t offset ((Bytes.string cp).take size)) := by
  have written : cp.take size = (Bytes.string cp).take size := take_eq_of_le given
  have size_ : ((Bytes.string cp).take size).length = size := List.length_take_of_le given
  have noNull : 0 ∉ insert t offset ((Bytes.string cp).take size) := by
    rw [insert, List.mem_append, List.mem_append, not_or, not_or]
    exact ⟨⟨fun member => contains.noNull (List.mem_of_mem_take member), noNull_take cp size⟩,
      fun member => contains.noNull (List.mem_of_mem_drop member)⟩
  have length_ : (insert t offset ((Bytes.string cp).take size)).length = str.len + size := by
    rw [length_insert, size_, contains.len]
  have fits : str.len + size ≤ str.max := by
    rw [contains.len]
    omega
  have memory : str.len + size ≤ str.text.length := by
    rw [contains.length]
    omega
  unfold Cstring.paste
  rw [sum_of_le given, sum_of_le given, Nat.add_comm 1]
  dsimp only
  by_cases behind : offset ≥ str.len
  · rw [if_pos behind]
    have whole : insert t offset ((Bytes.string cp).take size) =
        t ++ (Bytes.string cp).take size := by
      have reached : t.length ≤ offset := contains.len ▸ behind
      rw [insert, List.take_of_length_le reached, List.drop_eq_nil_of_le reached, List.append_nil]
    refine contains_fix noNull ?_ length_.symm (length_.le.trans fits) ?_
    · rw [length_, take_bytes_set positive given memory, contains.take_len, whole]
    · rw [length_bytes_set _ (by rw [contains.length]; omega), contains.length]
  · rw [if_neg behind, written, contains.drop_take]
    have within : offset ≤ t.length := contains.len ▸ Nat.le_of_not_le behind
    have tail : (t.drop offset).length = str.len - offset := by
      rw [List.length_drop, contains.len]
    have moved : move (move str.text (offset + size) (t.drop offset)) offset
        ((Bytes.string cp).take size) = insert t offset ((Bytes.string cp).take size) ++
          str.text.drop (offset + size + (t.drop offset).length) := by
      have both := @move_move str.text ((Bytes.string cp).take size) (t.drop offset) offset
        (by rw [size_, tail]; omega)
      rw [size_, contains.take within] at both
      exact both
    rw [moved]
    refine contains_fix noNull List.take_left length_.symm (length_.le.trans fits) ?_
    rw [List.length_append, length_, List.length_drop, tail, contains.length]
    omega

/-! ### What is taken out -/

/-- The first characters of a text are left. -/
theorem Contains.shorten (contains : Contains str t) {offset : ℕ} (within : offset ≤ t.length) :
    Contains (fix { str with len := offset }) (t.take offset) := by
  have length_ : (t.take offset).length = offset := List.length_take_of_le within
  refine contains_fix (fun member => contains.noNull (List.mem_of_mem_take member)) ?_
    length_.symm ?_ contains.length
  · rw [length_, contains.take within]
  · rw [length_]
    exact within.trans contains.len_le

/-- What is behind a part of the text is moved to where the part started. -/
theorem Contains.close (contains : Contains str t) {offset size : ℕ}
    (within : offset + size ≤ t.length) :
    Contains (fix { str with
        text := move str.text offset
          ((str.text.drop (offset + size)).take (str.len - (offset + size)))
        len := str.len - size }) (t.take offset ++ t.drop (offset + size)) := by
  have tail : (t.drop (offset + size)).length = str.len - (offset + size) := by
    rw [List.length_drop, contains.len]
  have start : (t.take offset).length = offset :=
    List.length_take_of_le ((Nat.le_add_right _ _).trans within)
  have length_ : (t.take offset ++ t.drop (offset + size)).length =
      offset + (t.drop (offset + size)).length := by
    rw [List.length_append, start]
  have whole : offset + (t.drop (offset + size)).length = str.len - size := by
    rw [tail, contains.len]
    omega
  have memory := contains.len_le_length
  rw [contains.drop_take]
  refine contains_fix ?_ ?_ (length_.trans whole).symm ?_ ?_
  · rw [List.mem_append, not_or]
    exact ⟨fun member => contains.noNull (List.mem_of_mem_take member),
      fun member => contains.noNull (List.mem_of_mem_drop member)⟩
  · rw [length_, take_move (by omega), contains.take ((Nat.le_add_right _ _).trans within)]
  · rw [length_, whole]
    exact (Nat.sub_le _ _).trans (contains.len ▸ contains.len_le)
  · rw [length_move, contains.length]
    omega

theorem Contains.clear (contains : Contains str t) : Contains (clear str) [] := by
  have text := string_set str []
  rw [string_nil, List.take_nil] at text
  refine ⟨text.1, text.2, Nat.zero_le _, ?_⟩
  exact length_set contains.length []

theorem Contains.cut (contains : Contains str t) (offset size : ℕ) :
    Contains (cut str offset size) (t.take offset ++
      t.drop (offset + if size = 0 then t.length else size)) := by
  unfold Cstring.cut
  dsimp only
  rw [contains.len]
  generalize (if size = 0 then t.length else size) = size
  split
  next behind =>
    rw [List.take_of_length_le behind, List.drop_eq_nil_of_le (behind.le.trans
      (Nat.le_add_right _ _)), List.append_nil]
    exact contains
  next before =>
  split
  next beyond =>
    rw [List.drop_eq_nil_of_le beyond, List.append_nil]
    exact contains.shorten (Nat.le_of_not_le before)
  next within =>
    rw [← contains.len, Nat.sub_sub]
    exact contains.close (Nat.le_of_not_le within)

theorem Contains.chop (contains : Contains str t) (clist : Text) :
    Contains (chop str clist) (t.rdropWhile (strchr clist)) := by
  have kept := List.rdropWhile_prefix (strchr clist) t
  unfold Cstring.chop
  dsimp only
  rw [contains.take_len, contains.len]
  split
  next empty =>
    have nil : t = [] := List.length_eq_zero_iff.mp empty
    subst nil
    exact contains
  split
  next none_ =>
    rw [List.length_eq_zero_iff.mp none_]
    exact contains.clear
  split
  next whole =>
    rw [kept.eq_of_length whole]
    exact contains
  next =>
    have left := contains.shorten kept.length_le
    rwa [← List.prefix_iff_eq_take.mp kept] at left

theorem Contains.trim (contains : Contains str t) (clist : Text) :
    Contains (trim str clist) (t.dropWhile (strchr clist)) := by
  have split_ := List.takeWhile_append_dropWhile (p := strchr clist) (l := t)
  have left := congrArg (List.drop (t.takeWhile (strchr clist)).length) split_
  rw [List.drop_left] at left
  have within : (t.takeWhile (strchr clist)).length ≤ t.length :=
    (List.takeWhile_sublist _).length_le
  unfold Cstring.trim
  dsimp only
  rw [contains.take_len, contains.len, left]
  generalize (t.takeWhile (strchr clist)).length = offset at within ⊢
  split
  next none_ =>
    rw [none_]
    exact contains
  split
  next whole =>
    rw [whole, List.drop_length]
    exact contains.clear
  next =>
    have closed := @Contains.close str t contains 0 offset (by rw [Nat.zero_add]; exact within)
    rw [Nat.zero_add, List.take_zero, List.nil_append, contains.len] at closed
    exact closed

theorem Contains.strip (contains : Contains str t) (clist : Text) :
    Contains (strip str clist) ((t.dropWhile (strchr clist)).rdropWhile (strchr clist)) :=
  (contains.trim clist).chop clist

end Contains

/-! ### The size -/

section Size

variable (str : Cstring)

@[simp]
theorem max_add (s : Text) : (add str s).max = str.max := by
  unfold add
  dsimp only
  split
  · rfl
  generalize (if str.len + Bytes.strlen s > str.max then str.max - str.len else Bytes.strlen s) =
    size
  split <;> rfl

@[simp]
theorem max_paste (offset : ℕ) (cp : Text) (size : ℕ) : (paste str offset cp size).max = str.max :=
  rfl

@[simp]
theorem max_cut (offset size : ℕ) : (cut str offset size).max = str.max := by
  unfold cut
  split
  · rfl
  dsimp only
  generalize (if size = 0 then str.len else size) = size
  split <;> rfl

@[simp]
theorem max_chop (clist : Text) : (chop str clist).max = str.max := by
  unfold chop
  split
  · rfl
  dsimp only
  split
  · rfl
  split <;> rfl

@[simp]
theorem max_trim (clist : Text) : (trim str clist).max = str.max := by
  unfold trim
  dsimp only
  split
  · rfl
  split <;> rfl

@[simp]
theorem max_setAt (offset : ℕ) (s : Text) (size : ℕ) : (setAt str offset s size).max = str.max := by
  unfold setAt
  split
  · rfl
  dsimp only
  generalize (if offset + size > str.max then str.max - offset else size) = size
  split <;> rfl

@[simp]
theorem max_setOffset (offset : ℕ) (s : Text) (size : ℕ) :
    (setOffset str offset s size).max = str.max := by
  unfold setOffset
  split
  · rfl
  · exact max_setAt str offset s _

end Size

end Cstring

end CommonCpp
