/-
This file models `UString`, the string that is addressed by code points, with the functions
that count the code points of a text and find a place among them.

A string that is set from code points is empty: the length of a new buffer is zero, and it is
where the text is ended at last. A part of a string is empty too, as a string without a buffer
is not given one when it is set. What is cut out starts at the code point it should start at,
but its size in bytes is that of as many code points at the front of the string. It is right
where both take as many bytes, or when what is cut out reaches the end in either case.

The null pointer is `none`. What fresh memory holds is not known, and a `wchar_t` has 32 bits.
-/

import CommonCpp.Cstring
import CommonCpp.Unicode

namespace CommonCpp

open Bytes

namespace Utf8

/-! ### Places in a text -/

def count : Text → ℕ
  | [] => 0
  | ch :: string =>
    if ch = 0 then 0
    else if codesize : size (ch :: string) = 0 then 0
    else
      have : ((ch :: string).drop (size (ch :: string))).length < (ch :: string).length := by
        rw [List.length_drop]
        exact Nat.sub_lt (Nat.succ_pos _) (Nat.pos_of_ne_zero codesize)
      count ((ch :: string).drop (size (ch :: string))) + 1
termination_by string => string.length

/-- The loop of `offset`: how far it goes in the text. -/
def offsetLoop : ℕ → Text → Option ℕ
  | 0, _ => some 0
  | pos + 1, string =>
    if size string = 0 then none
    else (offsetLoop pos (string.drop (size string))).map (size string + ·)

/-- `offset`, as how far the place is from the start of the text. -/
def offset (string : Text) (pos : ℤ) : Option ℕ :=
  let codepoints := count string
  if pos > codepoints then none
  else if pos = 0 then some 0
  else if pos < 0 then
    if -pos > codepoints then none else offsetLoop (codepoints - (-pos).toNat) string
  else offsetLoop pos.toNat string

/-- `chars(const unicode_t)`. -/
def charsText : List ℕ → ℕ
  | [] => 0
  | chr :: string => if chr = 0 then 0 else chars chr + charsText string

/-- The loop of `unpack`, from this place in the memory on. -/
def unpackLoop (bufsize : ℕ) : List ℕ → Text → ℕ → Text
  | [], text, buf => text.set buf 0
  | code :: string, text, buf =>
    if code = 0 then text.set buf 0
    else
      let ps := chars code
      if ps > (bufsize + (2 ^ 64 - 1)) % 2 ^ 64 then text.set buf 0
      else unpackLoop bufsize string (move text buf (put code)) (buf + ps)

/-- `unpack` into a memory. -/
def unpack (string : List ℕ) (text : Text) (bufsize : ℕ) : Text :=
  unpackLoop bufsize string text 0

/-! ### The places of code points -/

/-- The encoding of a list of code points. -/
def encodeText (codes : List ℕ) : Text := codes.flatMap encode

/-- The code points that are in use. -/
def InRange (codes : List ℕ) : Prop := ∀ code ∈ codes, 1 ≤ code ∧ code ≤ 0x10ffff

theorem InRange.encodes {codes : List ℕ} (inRange : InRange codes) {code : ℕ}
    (member : code ∈ codes) : Encodes (encode code) code (width code) :=
  encode_encodes (inRange code member).1 ((inRange code member).2.trans (by decide))

theorem InRange.take {codes : List ℕ} (inRange : InRange codes) (pos : ℕ) :
    InRange (codes.take pos) :=
  fun code member => inRange code (List.mem_of_mem_take member)

theorem InRange.drop {codes : List ℕ} (inRange : InRange codes) (pos : ℕ) :
    InRange (codes.drop pos) :=
  fun code member => inRange code (List.mem_of_mem_drop member)

theorem width_pos (code : ℕ) : 0 < width code := by
  unfold width
  split_ifs <;> decide

theorem encodeText_cons (code : ℕ) (codes : List ℕ) :
    encodeText (code :: codes) = encode code ++ encodeText codes := List.flatMap_cons

theorem encodeText_append (codes more : List ℕ) :
    encodeText (codes ++ more) = encodeText codes ++ encodeText more := List.flatMap_append

/-- Each code point has a byte at least. -/
theorem length_le_encodeText {codes : List ℕ} (inRange : InRange codes) :
    codes.length ≤ (encodeText codes).length := by
  induction codes with
  | nil => exact le_rfl
  | cons code codes inductionHypothesis =>
    have first := (inRange.encodes List.mem_cons_self).length
    have positive := width_pos code
    have later :=
      inductionHypothesis fun code' member => inRange code' (List.mem_cons_of_mem _ member)
    rw [encodeText_cons, List.length_append, List.length_cons]
    omega

theorem encodeText_eq_nil_iff {codes : List ℕ} (inRange : InRange codes) :
    encodeText codes = [] ↔ codes = [] := by
  cases codes with
  | nil => exact iff_of_true rfl rfl
  | cons code codes =>
    refine iff_of_false (fun none_ => ?_) (List.cons_ne_nil _ _)
    have length_ := (inRange.encodes List.mem_cons_self).length
    rw [encodeText_cons, List.append_eq_nil_iff] at none_
    rw [none_.1] at length_
    exact Nat.ne_of_lt (width_pos code) length_

/-- A character of some size is counted, and what comes behind it. -/
theorem count_eq {string : Text} (visible : string.headD 0 ≠ 0) (codesize : size string ≠ 0) :
    count string = count (string.drop (size string)) + 1 := by
  cases string with
  | nil => exact absurd rfl visible
  | cons ch string =>
    rw [List.headD_cons] at visible
    rw [count, if_neg visible, dif_neg codesize]

/-- The first character of an encoding, and what comes behind it. -/
theorem step_encodeText {code : ℕ} {codes : List ℕ} (inRange : InRange (code :: codes))
    (after : Text) :
    (encodeText (code :: codes) ++ after).headD 0 ≠ 0 ∧
      size (encodeText (code :: codes) ++ after) = (encode code).length ∧
      (encodeText (code :: codes) ++ after).drop (encode code).length =
        encodeText codes ++ after ∧
      0 < (encode code).length := by
  have encoded := inRange.encodes List.mem_cons_self
  have positive : 0 < (encode code).length := by
    rw [encoded.length]
    exact width_pos code
  rw [encodeText_cons, List.append_assoc]
  refine ⟨?_, (encoded.size _).trans encoded.length.symm, List.drop_left, positive⟩
  obtain ⟨ch, more, encode_⟩ := List.exists_cons_of_ne_nil (List.length_pos_iff.mp positive)
  have visible := encoded.visible
  rw [encode_] at visible ⊢
  exact fun null => visible (null ▸ List.mem_cons_self)

theorem count_encodeText {codes : List ℕ} (inRange : InRange codes) {after : Text}
    (ended : after.headD 0 = 0) : count (encodeText codes ++ after) = codes.length := by
  induction codes with
  | nil =>
    show count after = 0
    cases after with
    | nil => rw [count]
    | cons ch after =>
      rw [List.headD_cons] at ended
      rw [count, if_pos ended]
  | cons code codes inductionHypothesis =>
    have later : InRange codes := fun code' member => inRange code' (List.mem_cons_of_mem _ member)
    obtain ⟨visible, size_, behind, positive⟩ := step_encodeText inRange after
    rw [count_eq visible (by omega), size_, behind, inductionHypothesis later, List.length_cons]

theorem offsetLoop_encodeText {codes : List ℕ} (inRange : InRange codes) (after : Text) {pos : ℕ}
    (within : pos ≤ codes.length) : offsetLoop pos (encodeText codes ++ after) =
      some (encodeText (codes.take pos)).length := by
  induction pos generalizing codes with
  | zero => rfl
  | succ pos inductionHypothesis =>
    cases codes with
    | nil => exact absurd within (Nat.not_succ_le_zero pos)
    | cons code codes =>
      have later : InRange codes :=
        fun code' member => inRange code' (List.mem_cons_of_mem _ member)
      obtain ⟨_, size_, behind, positive⟩ := step_encodeText inRange after
      rw [offsetLoop, size_, if_neg (Nat.ne_of_gt positive), behind,
        inductionHypothesis later (Nat.le_of_succ_le_succ within), Option.map_some,
        List.take_succ_cons, encodeText_cons, List.length_append]

/-- A place among the code points of a text is found. -/
theorem offset_encodeText {codes : List ℕ} (inRange : InRange codes) {after : Text}
    (ended : after.headD 0 = 0) {pos : ℕ} (within : pos ≤ codes.length) :
    offset (encodeText codes ++ after) pos = some (encodeText (codes.take pos)).length := by
  unfold offset
  rw [count_encodeText inRange ended]
  dsimp only
  rw [if_neg (by omega)]
  by_cases first : (pos : ℤ) = 0
  · have zero : pos = 0 := by omega
    rw [if_pos first, zero]
    rfl
  · rw [if_neg first, if_neg (by omega), Int.toNat_natCast]
    exact offsetLoop_encodeText inRange after within

end Utf8

open Utf8

namespace UString

/-! ### The code -/

/-- The text of a string, which is empty when it has no buffer. -/
def text : Option Cstring → Text
  | none => []
  | some str => str.text

def len : Option Cstring → ℕ
  | none => 0
  | some str => str.len

def npos : ℕ := 2 ^ 64 - 1

/-- `set(const unicode_t)`, and with it `UString(const unicode_t)`. -/
def set (text : List ℕ) (junk : ℕ → UInt8) : Option Cstring :=
  let size := charsText text
  let str := Cstring.create size junk
  let str := { str with text := unpack text str.text str.max }
  some str.fix

/-- `String::set(size_t, const char *, size_t)`. -/
def setOffset (str : Option Cstring) (offset : ℕ) (s : Text) (size : ℕ) : Option Cstring :=
  str.map fun str => str.setOffset offset s size

/-- `UString(const char *, size_t)`. -/
def ofText (text : Text) (size : ℕ) : Option Cstring := setOffset none 0 text size

/-- `get(unicode_t, size_t)`. -/
def getUnicode (str : Option Cstring) (points : ℕ) : List ℕ × ℕ := pack (text str) points

/-- `String::offset(const char *)`, where `s` is this far from the text. -/
def offsetOf (str : Cstring) : Option ℕ → ℕ
  | none => npos
  | some s => if s > str.max then npos else if s > str.len then str.len else s

def cut (str : Option Cstring) (pos size : ℕ) : Option Cstring :=
  str.map fun str =>
    let bpos := if pos ≠ 0 ∧ pos ≠ npos then offsetOf str (offset str.text pos) else 0
    let blen := if size ≠ 0 ∧ size ≠ npos then offsetOf str (offset str.text size) else 0
    str.cut bpos blen

/-- A text read as wide characters. -/
def wide : Text → List ℕ
  | byte₀ :: byte₁ :: byte₂ :: byte₃ :: text =>
    (byte₀.toNat + 2 ^ 8 * byte₁.toNat + 2 ^ 16 * byte₂.toNat + 2 ^ 24 * byte₃.toNat) :: wide text
  | _ => []

/-- `get(size_t, size_t)`. A place beyond the end makes it take the text for wide characters. -/
def get (str : Option Cstring) (pos size : ℕ) (junk : ℕ → UInt8) : Option Cstring :=
  match str with
  | none => ofText [] 0
  | some str =>
    match offset str.text pos with
    | none => ofText [] 0
    | some substr =>
      let substr := str.text.drop substr
      if size = 0 then ofText substr 0
      else
        match offset substr size with
        | none => set (wide substr) junk
        | some end_ => ofText substr (end_ + 1)

/-! ### Strings of code points -/

/-- The string is read as these code points, and has the length of their encoding. -/
def Reads (str : Option Cstring) (codes : List ℕ) : Prop :=
  string (text str) = encodeText codes ∧ len str = (encodeText codes).length

/-- A buffer that holds these code points. -/
structure Holds (str : Cstring) (codes : List ℕ) : Prop where
  valid : str.Valid
  word : str.max < npos
  inRange : InRange codes
  reads : Reads (some str) codes

/-- A string that is built from code points or set to them is these code points, and gives them
back. -/
def Built (codes : List ℕ) (junk : ℕ → UInt8) : Prop :=
  Reads (set codes junk) codes ∧
    getUnicode (set codes junk) (codes.length + 1) = (codes ++ [0], codes.length)

/-- What is set is empty. -/
theorem reads_set (codes : List ℕ) (junk : ℕ → UInt8) : Reads (set codes junk) [] := by
  refine ⟨?_, rfl⟩
  show string ((unpack codes _ _).set 0 0) = []
  rw [string_set_zero, List.take_zero]

theorem built_iff {codes : List ℕ} (inRange : InRange codes) (junk : ℕ → UInt8) :
    Built codes junk ↔ codes = [] := by
  have empty := (reads_set codes junk).1
  constructor
  · rintro ⟨⟨same, -⟩, -⟩
    rw [empty] at same
    exact (encodeText_eq_nil_iff inRange).mp same.symm
  · rintro rfl
    refine ⟨reads_set [] junk, ?_⟩
    have none_ : (([] : List ℕ).length + 1 + (2 ^ 64 - 1)) % 2 ^ 64 = 0 := rfl
    rw [getUnicode, pack, none_]
    rfl

section Holds

variable {str : Cstring} {codes : List ℕ}

/-- The memory starts with the encoding, and ends its text there. -/
theorem Holds.split (holds : Holds str codes) :
    ∃ after, str.text = encodeText codes ++ after ∧ after.headD 0 = 0 := by
  obtain ⟨after, split, ended⟩ := string_split str.text
  have reads : string str.text = encodeText codes := holds.reads.1
  exact ⟨after, by rwa [reads] at split, ended⟩

/-- The bytes of the first code points are found in front of them. -/
theorem Holds.bytes (holds : Holds str codes) {pos : ℕ} (within : pos ≤ codes.length) :
    (if pos ≠ 0 ∧ pos ≠ npos then offsetOf str (offset str.text pos) else 0) =
      (encodeText (codes.take pos)).length := by
  obtain ⟨after, split, ended⟩ := holds.split
  have len_ : str.len = (encodeText codes).length := holds.reads.2
  have fits := holds.valid.len_le
  have word := holds.word
  have shorter := length_le_encodeText holds.inRange
  have less : (encodeText (codes.take pos)).length ≤ (encodeText codes).length := by
    conv_rhs => rw [← List.take_append_drop pos codes, encodeText_append, List.length_append]
    exact Nat.le_add_right _ _
  by_cases first : pos = 0
  · rw [first]
    rfl
  · rw [if_pos ⟨first, by omega⟩, split, offset_encodeText holds.inRange ended within, offsetOf,
      if_neg (by omega), if_neg (by omega)]

/-- A part of a string is never given a buffer. -/
theorem not_reads_get (holds : Holds str codes) {pos n : ℕ} (positive : 0 < n)
    (within : pos + n ≤ codes.length) (junk : ℕ → UInt8) :
    ¬ Reads (get (some str) pos n junk) ((codes.drop pos).take n) := by
  obtain ⟨after, split, ended⟩ := holds.split
  have start := offset_encodeText holds.inRange ended (show pos ≤ codes.length by omega)
  have behind : str.text.drop (encodeText (codes.take pos)).length =
      encodeText (codes.drop pos) ++ after := by
    conv_lhs => rw [split, ← List.take_append_drop pos codes, encodeText_append]
    rw [List.take_append_drop, List.append_assoc, List.drop_left]
  have last := offset_encodeText (holds.inRange.drop pos) ended
    (show n ≤ (codes.drop pos).length by rw [List.length_drop]; omega)
  have nothing : get (some str) pos n junk = none := by
    rw [get]
    rw [← split] at start
    rw [start]
    dsimp only
    rw [if_neg (Nat.ne_of_gt positive), behind, last]
    rfl
  rw [nothing]
  rintro ⟨same, -⟩
  have none_ := (encodeText_eq_nil_iff ((holds.inRange.drop pos).take n)).mp same.symm
  have length_ := congrArg List.length none_
  rw [List.length_take, List.length_drop, List.length_nil] at length_
  omega

/-- What is left of some bytes when a front is dropped is their end only if the front was dropped,
or if there was nothing behind it. -/
theorem drop_append_eq_iff (front behind : Text) (size : ℕ) :
    (front ++ behind).drop size = behind ↔
      size = front.length ∨ behind = [] ∧ front.length ≤ size := by
  constructor
  · intro same
    have length_ := congrArg List.length same
    rw [List.length_drop, List.length_append] at length_
    by_cases exact_ : size = front.length
    · exact Or.inl exact_
    · exact Or.inr ⟨List.length_eq_zero_iff.mp (by omega), by omega⟩
  · rintro (rfl | ⟨rfl, long⟩)
    · exact List.drop_left
    · rw [List.append_nil, List.drop_eq_nil_of_le long]

theorem reads_cut_iff (holds : Holds str codes) {pos n : ℕ} (positive : 0 < n)
    (within : pos + n ≤ codes.length) :
    Reads (cut (some str) pos n) (codes.take pos ++ codes.drop (pos + n)) ↔
      (encodeText (codes.take n)).length = (encodeText ((codes.drop pos).take n)).length ∨
        pos + n = codes.length ∧
          (encodeText (codes.drop pos)).length ≤ (encodeText (codes.take n)).length := by
  have reads : string str.text = encodeText codes := holds.reads.1
  have len_ : str.len = (encodeText codes).length := holds.reads.2
  have middle : codes.drop pos = (codes.drop pos).take n ++ codes.drop (pos + n) := by
    rw [← List.drop_drop, List.take_append_drop]
  have parts : encodeText codes = encodeText (codes.take pos) ++
      (encodeText ((codes.drop pos).take n) ++ encodeText (codes.drop (pos + n))) := by
    conv_lhs => rw [← List.take_append_drop pos codes, middle]
    rw [encodeText_append, encodeText_append]
  have filled : ∀ {part : List ℕ}, InRange part → 0 < part.length →
      0 < (encodeText part).length := by
    intro part inRange some_
    rw [List.length_pos_iff]
    exact mt (encodeText_eq_nil_iff inRange).mp (List.length_pos_iff.mp some_)
  have blen := filled (holds.inRange.take n) (by rw [List.length_take]; omega)
  have inner := filled ((holds.inRange.drop pos).take n)
    (by rw [List.length_take, List.length_drop]; omega)
  have inside : (encodeText (codes.take pos)).length < str.len := by
    rw [len_, parts, List.length_append, List.length_append]
    omega
  obtain ⟨text_, length_⟩ := Cstring.string_cut
    (len_.trans (congrArg List.length reads.symm)) inside blen
  have cut_ : cut (some str) pos n = some (str.cut (encodeText (codes.take pos)).length
      (encodeText (codes.take n)).length) := by
    rw [cut, Option.map_some, holds.bytes (by omega), holds.bytes (by omega)]
  have rest : (encodeText codes).take (encodeText (codes.take pos)).length ++
      (encodeText codes).drop
        ((encodeText (codes.take pos)).length + (encodeText (codes.take n)).length) =
      encodeText (codes.take pos) ++
        (encodeText ((codes.drop pos).take n) ++ encodeText (codes.drop (pos + n))).drop
          (encodeText (codes.take n)).length := by
    rw [parts, List.take_left, ← List.drop_drop, List.drop_left]
  have end_ : encodeText (codes.drop (pos + n)) = [] ↔ pos + n = codes.length := by
    rw [encodeText_eq_nil_iff (holds.inRange.drop _), List.drop_eq_nil_iff]
    omega
  rw [cut_, Reads, text, len, text_, length_, reads, rest, encodeText_append,
    and_iff_left_of_imp (congrArg List.length), List.append_cancel_left_eq, drop_append_eq_iff,
    end_]
  refine or_congr_right (and_congr_right fun reached => ?_)
  have all : encodeText (codes.drop pos) = encodeText ((codes.drop pos).take n) := by
    conv_lhs => rw [middle, encodeText_append, end_.mpr reached, List.append_nil]
  rw [all]

end Holds

/-! ### The string of code points -/

/-- The letters "A" and "é" in a buffer. -/
def accented : Cstring := ⟨3, 3, [0x41, 0xc3, 0xa9, 0]⟩

theorem holds_accented : Holds accented [0x41, 0xe9] :=
  ⟨⟨by decide, by decide, by decide⟩, by decide +kernel, by simp [InRange],
    ⟨by decide +kernel, by decide +kernel⟩⟩

/-- A string is what it is set to only when that is nothing. A part of it is never what it should
be. What is left when a part is cut out is what it should be exactly when the part takes as many
bytes as the same number of code points at the front, or when it is the end of the string and
takes no more than these. -/
theorem ustring_iff {set_ : List ℕ} (inRange : InRange set_) {str : Cstring} {codes : List ℕ}
    (holds : Holds str codes) {pos n : ℕ} (positive : 0 < n) (within : pos + n ≤ codes.length)
    (junk : ℕ → UInt8) :
    (Built set_ junk ↔ set_ = []) ∧
      ¬ Reads (get (some str) pos n junk) ((codes.drop pos).take n) ∧
      (Reads (cut (some str) pos n) (codes.take pos ++ codes.drop (pos + n)) ↔
        (encodeText (codes.take n)).length = (encodeText ((codes.drop pos).take n)).length ∨
          pos + n = codes.length ∧
            (encodeText (codes.drop pos)).length ≤ (encodeText (codes.take n)).length) :=
  ⟨built_iff inRange junk, not_reads_get holds positive within junk,
    reads_cut_iff holds positive within⟩

/-- Nothing is set, and the first letter is cut out. -/
theorem ustring_iff_first :
    Built [] (fun _ => 0) ∧ Reads (cut (some accented) 0 1) [0xe9] := by
  have nothing : InRange [] := fun code member => by cases member
  obtain ⟨built, -, reads⟩ :=
    @ustring_iff [] nothing _ _ holds_accented 0 1 Nat.one_pos (by decide) fun _ => 0
  exact ⟨built.mpr rfl, reads.mpr (Or.inl rfl)⟩

/-- A string that is set to "A" is empty, the first letter of a string is not given, and when the
second letter is cut out half of it is left. -/
theorem ustring_loses :
    ¬ Built [0x41] (fun _ => 0) ∧
      Holds accented [0x41, 0xe9] ∧
      ¬ Reads (get (some accented) 0 1 fun _ => 0) [0x41] ∧
      cut (some accented) 1 1 = some ⟨3, 2, [0x41, 0xa9, 0, 0]⟩ ∧
      ¬ Reads (cut (some accented) 1 1) [0x41] := by
  refine ⟨?_, holds_accented, ?_, by decide +kernel, ?_⟩
  · rw [built_iff (by simp [InRange])]
    exact List.cons_ne_nil _ _
  · exact not_reads_get holds_accented Nat.one_pos (by decide) _
  · rintro ⟨-, len_⟩
    exact absurd len_ (by decide +kernel)

end UString

end CommonCpp
