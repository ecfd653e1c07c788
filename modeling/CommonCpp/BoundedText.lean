/-
This file settles what the static functions of `String` that write a text into a buffer of a given
size leave in it.

None of them writes behind the buffer. But `set` does nothing at all where the size is one, so that
the buffer is not terminated when it was not before; the duplicate of an empty text is made so, in
memory that holds anything. The function `add` that is given a length does not look at it. And
`rset` keeps as many of the last characters as the buffer has bytes, of which `set` leaves out the
last, and not the first.

What is copied is read before anything is written, and so may be in the same memory.
-/

import CommonCpp.CstringTexts

namespace CommonCpp

open Bytes

namespace BoundedText

/-! ### The functions -/

/-- Bytes written in a memory. There is no outcome when they do not fit in it. -/
def write (text : Text) (offset : ℕ) (bytes : Text) : Option Text :=
  if offset + bytes.length ≤ text.length then some (move text offset bytes) else none

/-- What both functions `set` do with so many characters, where `str` is this far in the memory. -/
def place (text : Text) (str l : ℕ) (s : Text) : Option Text :=
  if l = 0 then write text str [0]
  else do
    let text ← write text str (s.take l)
    write text (str + l) [0]

/-- `String::set(char *, size_t, const char *, size_t)`. -/
def setLen (text : Text) (str size : ℕ) (s : Text) (len : ℕ) : Option Text :=
  if size < 2 then some text
  else
    let l := if strlen s ≥ size then size - 1 else strlen s
    place text str (if l > len then len else l) s

/-- `String::set(char *, size_t, const char *)`. -/
def set (text : Text) (str size : ℕ) (s : Text) : Option Text :=
  if size < 2 then some text
  else place text str (if strlen s ≥ size then size - 1 else strlen s) s

/-- `String::rset(char *, size_t, const char *)`. -/
def rset (text : Text) (size : ℕ) (s : Text) : Option Text :=
  let len := strlen s
  set text 0 size (if len > size then s.drop (len - size) else s)

/-- `String::add(char *, size_t, const char *, size_t)`. -/
def addLen (text : Text) (size : ℕ) (s : Text) (_len : ℕ) : Option Text :=
  let l := strlen s
  let o := strlen text
  if o ≥ size - 1 then some text else setLen text o (size - o) s l

/-- `String::add(char *, size_t, const char *)`. -/
def add (text : Text) (size : ℕ) (s : Text) : Option Text :=
  let o := strlen text
  if o ≥ size - 1 then some text else set text o (size - o) s

/-- `String::dup(const char *)`, where this is the memory that is allocated. -/
def dup (mem : Text) (cp : Text) : Option Text :=
  let len := strlen cp + 1
  set mem 0 len cp

/-- `MemoryProtocol::dup(const char *)`, where this is the memory that is allocated. -/
def protocolDup (mem : Text) (str : Text) : Option Text :=
  let len := strlen str + 1
  set mem 0 len str

/-- Within the memory the characters are moved there and the null is set behind them. -/
theorem place_eq {text s : Text} {str l : ℕ} (inside : str + l < text.length)
    (short : l ≤ strlen s) :
    place text str l s = some ((move text str (s.take l)).set (str + l) 0) := by
  have length : (s.take l).length = l :=
    List.length_take_of_le (short.trans (strlen_le_length s))
  unfold place
  split
  next zero =>
    have empty : move text str [] = text := by
      rw [move, List.append_nil]
      exact List.take_append_drop str text
    rw [zero, List.take_zero, empty, Nat.add_zero, set_eq_move (by omega)]
    exact if_pos (by rw [List.length_singleton]; omega)
  next =>
    have moved : (move text str (s.take l)).length = text.length := length_move (by omega)
    rw [write, if_pos (by omega), Option.bind_eq_bind, Option.bind_some, write, moved,
      if_pos (by rw [List.length_singleton]; omega), set_eq_move (by omega)]

/-- Within the memory, `set` is what it is for a memory without an end. -/
theorem set_eq {text : Text} {str size : ℕ} (inside : str + size ≤ text.length) (s : Text) :
    set text str size s = some (Bytes.set text str size s) := by
  unfold set Bytes.set
  split
  · rfl
  next =>
    have fits : (if strlen s ≥ size then size - 1 else strlen s) < size := by split <;> omega
    have short : (if strlen s ≥ size then size - 1 else strlen s) ≤ strlen s := by split <;> omega
    exact place_eq (by omega) short

/-! ### The operations -/

inductive Operation
  | set (s : Text)
  | setLen (s : Text) (len : ℕ)
  | add (s : Text)
  | addLen (s : Text) (len : ℕ)
  | rset (s : Text)
  | dup (s : Text)
  | protocolDup (s : Text)

/-- What an operation does with a buffer of this size. -/
def perform (size : ℕ) (text : Text) : Operation → Option Text
  | .set s => set text 0 size s
  | .setLen s len => setLen text 0 size s len
  | .add s => add text size s
  | .addLen s len => addLen text size s len
  | .rset s => rset text size s
  | .dup s => dup text s
  | .protocolDup s => protocolDup text s

/-- What an operation needs: for `add` a text in the buffer, and for a duplicate memory of its
size. -/
def Given (size : ℕ) (text : Text) : Operation → Prop
  | .set _ | .setLen _ _ | .rset _ => True
  | .add _ | .addLen _ _ => 0 ∈ text
  | .dup s | .protocolDup s => size = strlen s + 1

/-- The text that is to be in the buffer. -/
def left (size : ℕ) (text : Text) : Operation → Text
  | .set s => (string s).take (size - 1)
  | .setLen s len => (string s).take (min len (size - 1))
  | .add s => string text ++ (string s).take (size - 1 - strlen text)
  | .addLen s len => string text ++ ((string s).take len).take (size - 1 - strlen text)
  | .rset s => (string s).drop (strlen s - (size - 1))
  | .dup s | .protocolDup s => string s

/-- The operation stays in the buffer, and leaves this text in it, with its null. -/
def Leaves (size : ℕ) (text : Text) (operation : Operation) : Prop :=
  ∃ next, perform size text operation = some next ∧ 0 ∈ next ∧
    string next = left size text operation

/-- The characters of a text are all the same. -/
def Uniform (t : Text) : Prop := ∀ ch ∈ t, ch = t.headD 0

/-- Where the operation leaves what it is to leave. -/
def Right (size : ℕ) (text : Text) : Operation → Prop
  | .set _ | .setLen _ _ => size = 1 → text.headD 0 = 0
  | .add _ => True
  | .addLen s len => min (strlen s) (size - 1 - strlen text) ≤ len
  | .rset s => (size = 1 → text.headD 0 = 0) ∧
      (size ≤ strlen s → Uniform ((string s).drop (strlen s - size)))
  | .dup s | .protocolDup s => string s = [] → text.headD 0 = 0

/-! ### What is written -/

section Written

variable {text s : Text} {str size l : ℕ}

/-- Characters that are put behind the text, or a part of it, are read behind it. -/
theorem place_leaves (behind : str ≤ strlen text) (inside : str + l < text.length)
    (short : l ≤ strlen s) : ∃ next, place text str l s = some next ∧ 0 ∈ next ∧
      string next = (string text).take str ++ (string s).take l := by
  have written : s.take l = (string s).take l := take_eq_of_le short
  have length : ((string s).take l).length = l := List.length_take_of_le short
  refine ⟨_, place_eq inside short, ?_, ?_⟩
  · refine List.mem_of_getElem? (i := str + l) ?_
    rw [List.getElem?_set_self]
    rw [written, length_move (by omega)]
    exact inside
  · rw [written, string_set_zero, string_move_within behind,
      string_append (Cstring.noNull_take s l), ← List.append_assoc]
    refine List.take_left' ?_
    rw [List.length_append, List.length_take_of_le behind, length]

/-- A length that leaves out nothing that has room makes no difference. -/
theorem setLen_eq_set {len : ℕ} (enough : min (size - 1) (strlen s) ≤ len) :
    setLen text str size s len = set text str size s := by
  unfold setLen set
  split
  · rfl
  · dsimp only
    rw [if_neg (by split <;> omega)]

/-- A buffer with room for more than a null. -/
theorem setLen_leaves (some_ : 2 ≤ size) (behind : str ≤ strlen text)
    (inside : str + size ≤ text.length) (s : Text) (len : ℕ) :
    ∃ next, setLen text str size s len = some next ∧ 0 ∈ next ∧
      string next = (string text).take str ++ (string s).take (min len (size - 1)) := by
  have size_ : (if (if strlen s ≥ size then size - 1 else strlen s) > len then len
      else if strlen s ≥ size then size - 1 else strlen s) =
        min (min len (size - 1)) (strlen s) := by
    split <;> split <;> omega
  have placed := @place_leaves text s str (min (min len (size - 1)) (strlen s)) behind (by omega)
    (Nat.min_le_right _ _)
  rw [strlen, ← List.take_eq_take_min] at placed
  rw [setLen, if_neg (by omega)]
  dsimp only
  rw [size_]
  exact placed

theorem set_leaves (some_ : 2 ≤ size) (behind : str ≤ strlen text)
    (inside : str + size ≤ text.length) (s : Text) : ∃ next, set text str size s = some next ∧
      0 ∈ next ∧ string next = (string text).take str ++ (string s).take (size - 1) := by
  have left := setLen_leaves some_ behind inside s (size - 1)
  rwa [setLen_eq_set (Nat.min_le_left _ _), Nat.min_self] at left

/-- A buffer of one byte, which is left as it is, is terminated when it was before. -/
theorem single_iff (one : text.length = 1) : 0 ∈ text ∧ string text = [] ↔ text.headD 0 = 0 := by
  obtain ⟨ch, rfl⟩ := List.length_eq_one_iff.mp one
  rw [List.mem_singleton, List.headD_cons]
  constructor
  · exact fun null => null.1.symm
  · rintro rfl
    exact ⟨rfl, rfl⟩

/-- A text is the same without its last character and without its first when its characters are all
the same. -/
theorem dropLast_eq_tail_iff (t : Text) : t.dropLast = t.tail ↔ Uniform t := by
  cases t with
  | nil => exact iff_of_true rfl nofun
  | cons ch t =>
    have all : (ch :: t).dropLast = t ↔ ∀ ch' ∈ t, ch' = ch := by
      induction t generalizing ch with
      | nil => exact iff_of_true rfl nofun
      | cons ch' t inductionHypothesis =>
        rw [List.dropLast_cons_cons, List.cons.injEq, inductionHypothesis, List.forall_mem_cons]
        constructor
        · rintro ⟨rfl, same⟩
          exact ⟨rfl, same⟩
        · rintro ⟨rfl, same⟩
          exact ⟨rfl, same⟩
    rw [List.tail_cons, all, Uniform, List.forall_mem_cons]
    exact (and_iff_right rfl).symm

end Written

/-! ### What is left -/

section Left

variable {text s : Text} {size : ℕ}

/-- A buffer of one byte that no function writes into. -/
theorem unchanged_iff (length : text.length = 1) {t : Text} (empty : t = []) :
    (∃ next, some text = some next ∧ 0 ∈ next ∧ string next = t) ↔ text.headD 0 = 0 := by
  rw [empty, ← single_iff length]
  constructor
  · rintro ⟨next, same, ended⟩
    cases same
    exact ended
  · exact fun ended => ⟨text, rfl, ended⟩

theorem setLen_iff (length : text.length = size) (positive : 1 ≤ size) (s : Text) (len : ℕ) :
    (∃ next, setLen text 0 size s len = some next ∧ 0 ∈ next ∧
      string next = (string s).take (min len (size - 1))) ↔ (size = 1 → text.headD 0 = 0) := by
  by_cases one : size = 1
  · rw [setLen, if_pos (by omega), forall_prop_of_true one]
    refine unchanged_iff (length.trans one) ?_
    rw [one, Nat.sub_self, Nat.min_zero, List.take_zero]
  · have left := @setLen_leaves text 0 size (by omega) (Nat.zero_le _) (by omega) s len
    exact iff_of_true left fun zero => absurd zero one

theorem set_iff (length : text.length = size) (positive : 1 ≤ size) (s : Text) :
    (∃ next, set text 0 size s = some next ∧ 0 ∈ next ∧
      string next = (string s).take (size - 1)) ↔ (size = 1 → text.headD 0 = 0) := by
  have settled := setLen_iff length positive s (size - 1)
  rwa [setLen_eq_set (Nat.min_le_left _ _), Nat.min_self] at settled

/-- `add` appends what finds room. -/
theorem add_leaves (length : text.length = size) (null : 0 ∈ text) (s : Text) :
    ∃ next, add text size s = some next ∧ 0 ∈ next ∧
      string next = string text ++ (string s).take (size - 1 - strlen text) := by
  unfold add
  dsimp only
  split
  next full =>
    refine ⟨text, rfl, null, ?_⟩
    rw [Nat.sub_eq_zero_of_le full, List.take_zero, List.append_nil]
  next room =>
    have left := @set_leaves text (strlen text) (size - strlen text) (by omega) le_rfl (by omega) s
    rw [strlen, List.take_length, Nat.sub_right_comm] at left
    exact left

/-- The `add` that is given a length does what the other does. -/
theorem addLen_eq_add (text : Text) (size : ℕ) (s : Text) (len : ℕ) :
    addLen text size s len = add text size s := by
  unfold addLen add
  dsimp only
  rw [setLen_eq_set (Nat.min_le_right _ _)]

/-- What `rset` gives to `set`. -/
theorem string_rset (s : Text) (size : ℕ) :
    string (if strlen s > size then s.drop (strlen s - size) else s) =
      (string s).drop (strlen s - size) := by
  split
  next longer => exact string_drop (Nat.sub_le _ _)
  next fits => rw [Nat.sub_eq_zero_of_le (Nat.le_of_not_lt fits), List.drop_zero]

/-- The first characters of the last ones are the last ones when there are no more than fit, or when
they are all the same. -/
theorem take_last_iff (s : Text) (positive : 1 ≤ size) :
    ((string s).drop (strlen s - size)).take (size - 1) =
        (string s).drop (strlen s - (size - 1)) ↔
      (size ≤ strlen s → Uniform ((string s).drop (strlen s - size))) := by
  by_cases long : size ≤ strlen s
  · have length : ((string s).drop (strlen s - size)).length = size := by
      rw [List.length_drop]
      show strlen s - (strlen s - size) = size
      omega
    have init : ((string s).drop (strlen s - size)).take (size - 1) =
        ((string s).drop (strlen s - size)).dropLast := by
      rw [List.dropLast_eq_take, length]
    have rest : (string s).drop (strlen s - (size - 1)) =
        ((string s).drop (strlen s - size)).tail := by
      rw [List.tail_drop]
      exact congrArg (fun n => (string s).drop n) (by omega)
    rw [init, rest, dropLast_eq_tail_iff, forall_prop_of_true long]
  · refine iff_of_true ?_ fun long_ => absurd long_ long
    have none_ : strlen s - size = 0 := by omega
    have none' : strlen s - (size - 1) = 0 := by omega
    rw [none_, none', List.drop_zero]
    exact List.take_of_length_le (show strlen s ≤ size - 1 by omega)

theorem rset_iff (length : text.length = size) (positive : 1 ≤ size) (s : Text) :
    (∃ next, rset text size s = some next ∧ 0 ∈ next ∧
      string next = (string s).drop (strlen s - (size - 1))) ↔
      (size = 1 → text.headD 0 = 0) ∧
        (size ≤ strlen s → Uniform ((string s).drop (strlen s - size))) := by
  have left := set_iff length positive (if strlen s > size then s.drop (strlen s - size) else s)
  rw [string_rset] at left
  unfold rset
  dsimp only
  rw [← left, ← take_last_iff s positive]
  constructor
  · rintro ⟨next, done, null, text_⟩
    have same : ((string s).drop (strlen s - size)).take (size - 1) =
        (string s).drop (strlen s - (size - 1)) := by
      by_cases one : size = 1
      · rw [one, Nat.sub_self, List.take_zero, Nat.sub_zero]
        exact List.drop_length.symm
      · obtain ⟨next', done', -, text'⟩ := @set_leaves text 0 size (by omega) (Nat.zero_le _)
          (by omega) (if strlen s > size then s.drop (strlen s - size) else s)
        rw [done] at done'
        cases done'
        rw [string_rset, List.take_zero, List.nil_append] at text'
        rw [← text', text_]
    exact ⟨⟨next, done, null, text_.trans same.symm⟩, same⟩
  · rintro ⟨⟨next, done, null, text_⟩, same⟩
    exact ⟨next, done, null, text_.trans same⟩

theorem addLen_iff (length : text.length = size) (null : 0 ∈ text) (s : Text) (len : ℕ) :
    (∃ next, addLen text size s len = some next ∧ 0 ∈ next ∧
      string next = string text ++ ((string s).take len).take (size - 1 - strlen text)) ↔
      min (strlen s) (size - 1 - strlen text) ≤ len := by
  obtain ⟨next, done, null_, text_⟩ := add_leaves length null s
  rw [← addLen_eq_add text size s len] at done
  have same : (string s).take (size - 1 - strlen text) =
      ((string s).take len).take (size - 1 - strlen text) ↔
        min (strlen s) (size - 1 - strlen text) ≤ len := by
    rw [List.take_take, List.take_eq_take_iff]
    show min _ (strlen s) = min (min _ len) (strlen s) ↔ _
    omega
  rw [← same]
  constructor
  · rintro ⟨next', done', -, text'⟩
    rw [done] at done'
    cases done'
    exact List.append_cancel_left (text_.symm.trans text')
  · intro whole
    rw [whole] at text_
    exact ⟨next, done, null_, text_⟩

/-- A duplicate is terminated, unless it is that of an empty text. -/
theorem dup_iff (given : size = strlen s + 1) (length : text.length = size) :
    (∃ next, dup text s = some next ∧ 0 ∈ next ∧ string next = string s) ↔
      (string s = [] → text.headD 0 = 0) := by
  have left := set_iff length (by omega) s
  have whole : (string s).take (size - 1) = string s := by
    rw [given, Nat.add_sub_cancel]
    exact List.take_length
  have single : size = 1 ↔ string s = [] := by
    rw [given, Nat.add_eq_right]
    exact List.length_eq_zero_iff
  rw [whole, single] at left
  unfold dup
  dsimp only
  rw [← given]
  exact left

/-- Every operation stays in the buffer and leaves in it, with its null, what it is to leave,
exactly under its condition. -/
theorem leaves_iff {operation : Operation} (length : text.length = size) (positive : 1 ≤ size)
    (given : Given size text operation) :
    Leaves size text operation ↔ Right size text operation := by
  cases operation with
  | set s => exact set_iff length positive s
  | setLen s len => exact setLen_iff length positive s len
  | add s => exact iff_of_true (add_leaves length given s) trivial
  | addLen s len => exact addLen_iff length given s len
  | rset s => exact rset_iff length positive s
  | dup s => exact dup_iff given length
  | protocolDup s => exact dup_iff given length

end Left

theorem leaves_iff_hi : Leaves 3 [0x48, 0, 0] (.add [0x69, 0x21]) :=
  (@leaves_iff [0x48, 0, 0] 3 (.add [0x69, 0x21]) (by decide) (by decide)
    (show (0 : UInt8) ∈ ([0x48, 0, 0] : Text) by decide)).mpr trivial

/-- The duplicate of an empty text is the byte that was in its memory; `ab` is set at the right of a
buffer of two bytes as `a`; and `add` appends both characters where it is to append one. -/
theorem dup_not_terminated : ¬ Leaves 1 [0x41] (.dup []) ∧
    rset [0, 0] 2 [0x61, 0x62] = some [0x61, 0] ∧
    left 2 [0, 0] (.rset [0x61, 0x62]) = [0x62] ∧
    addLen [0, 0, 0] 3 [0x61, 0x62] 1 = some [0x61, 0x62, 0] ∧
    left 3 [0, 0, 0] (.addLen [0x61, 0x62] 1) = [0x61] := by
  refine ⟨?_, by decide, by decide, by decide, by decide⟩
  rintro ⟨next, done, null, -⟩
  cases done
  exact absurd null (by decide)

end BoundedText

end CommonCpp
