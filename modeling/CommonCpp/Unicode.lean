/-
This file models the UTF-8 helpers: the size of a character, the code point that is read from
one, its encoding, and the change of whole texts to and from code points.

A code point of a number of bits has one encoding of the least size. The encoder uses one byte
too many for the last code point of two bytes, and `chars`, which is asked for the size of a
code point, says one byte too few for the first. The readers take both as they are, and so
every encoding is read back; but whoever goes on by `chars` of what was read, as `pack` does,
then stands within a character.

A `ucs4_t` is a natural number, and `EOF` is none. A code point is never negative otherwise. A
`size_t` has 64 bits, which matters where `pack` counts down from nothing.
-/

import Mathlib.Data.Nat.Bitwise
import CommonCpp.Ctype

namespace CommonCpp

namespace Utf8

/-! ### Characters -/

/-- How many bytes are to follow the first one of a character in `get`, and what bits it has. -/
def getLead (ch : UInt8) : Option (ℕ × ℕ) :=
  if ch = 0 then none
  else if ch < 0x80 then some (0, ch.toNat)
  else if ch &&& 0xe0 = 0xc0 then some (1, (ch &&& 0x1f).toNat)
  else if ch &&& 0xf0 = 0xe0 then some (2, (ch &&& 0x0f).toNat)
  else if ch &&& 0xf8 = 0xf0 then some (3, (ch &&& 0x07).toNat)
  else if ch &&& 0xfc = 0xf8 then some (4, (ch &&& 0x03).toNat)
  else if ch &&& 0xfe = 0xfc then some (5, (ch &&& 0x01).toNat)
  else none

/-- The bytes that follow in `get`. -/
def getLoop : ℕ → Text → ℕ → Option ℕ
  | 0, _, code => some code
  | count + 1, cp, code =>
    let ch := cp.headD 0
    if ch = 0 then none
    else if ch &&& 0xc0 ≠ 0x80 then none
    else getLoop count cp.tail (code <<< 6 ||| (ch &&& 0x3f).toNat)

def get (cp : Text) : Option ℕ :=
  match getLead (cp.headD 0) with
  | none => none
  | some (count, code) => getLoop count cp.tail code

def size (string : Text) : ℕ :=
  let v := string.headD 0
  if v < 0x80 then 1
  else if v &&& 0xe0 = 0xc0 then 2
  else if v &&& 0xf0 = 0xe0 then 3
  else if v &&& 0xf8 = 0xf0 then 4
  else if v &&& 0xfc = 0xf8 then 5
  else if v &&& 0xfe = 0xfc then 6
  else 0

/-- The bits of the first byte in `codepoint`. -/
def codepointLead (codesize : ℕ) (encoded : UInt8) : ℕ :=
  match codesize with
  | 1 => encoded.toNat
  | 2 => (encoded &&& 0x1f).toNat
  | 3 => (encoded &&& 0x0f).toNat
  | 4 => (encoded &&& 0x07).toNat
  | 5 => (encoded &&& 0x03).toNat
  | 6 => (encoded &&& 0x01).toNat
  | _ => 0

/-- The bytes that follow in `codepoint`, which is zero when one of them is invalid. -/
def codepointLoop : ℕ → Text → ℕ → ℕ
  | 0, _, code => code
  | codesize + 1, string, code =>
    let encoded := string.headD 0
    if encoded &&& 0xc0 ≠ 0x80 then 0
    else codepointLoop codesize string.tail (code <<< 6 ||| (encoded &&& 0x3f).toNat)

def codepoint (string : Text) : Option ℕ :=
  let codesize := size string
  let encoded := string.headD 0
  if encoded = 0 then some 0
  else if codesize = 0 then none
  else some (codepointLoop (codesize - 1) string.tail (codepointLead codesize encoded))

def chars (code : ℕ) : ℕ :=
  if code ≤ 0x80 then 1
  else if code ≤ 0x7ff then 2
  else if code ≤ 0xffff then 3
  else if code ≤ 0x1fffff then 4
  else if code ≤ 0x3ffffff then 5
  else 6

/-- The bytes that `put` writes. -/
def put (code : ℕ) : Text :=
  if code < 0x80 then [UInt8.ofNat code]
  else if code < 0x7ff then
    [UInt8.ofNat (code >>> 6 ||| 0xc0), UInt8.ofNat (code &&& 0x3f ||| 0x80)]
  else if code ≤ 0xffff then
    [UInt8.ofNat (code >>> 12 ||| 0xe0), UInt8.ofNat (code >>> 6 &&& 0x3f ||| 0x80),
      UInt8.ofNat (code &&& 0x3f ||| 0x80)]
  else if code ≤ 0x1fffff then
    [UInt8.ofNat (code >>> 18 ||| 0xf0), UInt8.ofNat (code >>> 12 &&& 0x3f ||| 0x80),
      UInt8.ofNat (code >>> 6 &&& 0x3f ||| 0x80), UInt8.ofNat (code &&& 0x3f ||| 0x80)]
  else if code ≤ 0x3ffffff then
    [UInt8.ofNat (code >>> 24 ||| 0xf8), UInt8.ofNat (code >>> 18 &&& 0x3f ||| 0x80),
      UInt8.ofNat (code >>> 12 &&& 0x3f ||| 0x80), UInt8.ofNat (code >>> 6 &&& 0x3f ||| 0x80),
      UInt8.ofNat (code &&& 0x3f ||| 0x80)]
  else
    [UInt8.ofNat (code >>> 30 ||| 0xfc), UInt8.ofNat (code >>> 24 &&& 0x3f ||| 0x80),
      UInt8.ofNat (code >>> 18 &&& 0x3f ||| 0x80), UInt8.ofNat (code >>> 12 &&& 0x3f ||| 0x80),
      UInt8.ofNat (code >>> 6 &&& 0x3f ||| 0x80), UInt8.ofNat (code &&& 0x3f ||| 0x80)]

/-! ### Texts -/

/-- The rounds of the loop of `pack`, so many at most: the code points it stores. -/
def packLoop : ℕ → Text → List ℕ
  | 0, _ => []
  | len + 1, str =>
    match get str with
    | none => []
    | some code => if code = 0 then [] else code :: packLoop len (str.drop (chars code))

/-- What is stored, with its null, and how much is said to be. The length is counted down before
it is looked at. -/
def pack (str : Text) (len : ℕ) : List ℕ × ℕ :=
  let target := packLoop ((len + (2 ^ 64 - 1)) % 2 ^ 64) str
  (target ++ [0], target.length)

/-! ### Encodings -/

/-- The bytes that follow the first one of an encoding, six bits in each. -/
def rest : ℕ → ℕ → Text
  | 0, _ => []
  | count + 1, code =>
    UInt8.ofNat (code >>> (6 * count) &&& 0x3f ||| 0x80) :: rest count code

/-- An encoding with so many bytes that follow the first one, which has these marks. -/
def sequence (mark count code : ℕ) : Text :=
  UInt8.ofNat (code >>> (6 * count) ||| mark) :: rest count code

@[simp]
theorem length_rest (count code : ℕ) : (rest count code).length = count := by
  induction count with
  | zero => rfl
  | succ count inductionHypothesis => rw [rest, List.length_cons, inductionHypothesis]

theorem sextet_eq (code place : ℕ) : code >>> place &&& 0x3f = code / 2 ^ place % 64 := by
  rw [Nat.shiftRight_eq_div_pow]
  exact Nat.and_two_pow_sub_one_eq_mod (code / 2 ^ place) 6

/-- A byte that follows is recognised, and has its six bits. -/
theorem sextet_read {bits : ℕ} (small : bits < 64) : UInt8.ofNat (bits ||| 0x80) ≠ 0 ∧
    UInt8.ofNat (bits ||| 0x80) &&& 0xc0 = 0x80 ∧
    (UInt8.ofNat (bits ||| 0x80) &&& 0x3f).toNat = bits := by
  have all : ∀ bits < 64, UInt8.ofNat (bits ||| 0x80) ≠ 0 ∧
      UInt8.ofNat (bits ||| 0x80) &&& 0xc0 = 0x80 ∧
      (UInt8.ofNat (bits ||| 0x80) &&& 0x3f).toNat = bits := by decide +kernel
  exact all bits small

/-- Six more bits on the right. -/
theorem gather_eq {bits : ℕ} (small : bits < 64) (code : ℕ) :
    code <<< 6 ||| bits = code * 64 + bits := by
  have less : bits < 2 ^ 6 := small
  rw [← Nat.shiftLeft_add_eq_or_of_lt less, Nat.shiftLeft_eq]

theorem gather_mod (code value count : ℕ) :
    (value * 64 + code / 2 ^ (6 * count) % 64) * 2 ^ (6 * count) + code % 2 ^ (6 * count) =
      value * 2 ^ (6 * (count + 1)) + code % 2 ^ (6 * (count + 1)) := by
  have power : 2 ^ (6 * (count + 1)) = 2 ^ (6 * count) * 64 := by
    rw [Nat.mul_succ, pow_add]
    rfl
  rw [power, Nat.mod_mul]
  ring

/-- Both readers gather what is encoded in the bytes that follow. -/
theorem getLoop_rest (count code value : ℕ) (after : Text) :
    getLoop count (rest count code ++ after) value =
      some (value * 2 ^ (6 * count) + code % 2 ^ (6 * count)) := by
  induction count generalizing value with
  | zero => simp [getLoop, Nat.mod_one]
  | succ count inductionHypothesis =>
    have small : code / 2 ^ (6 * count) % 64 < 64 := Nat.mod_lt _ (by decide)
    obtain ⟨visible, marked, bits⟩ := sextet_read small
    rw [rest, sextet_eq]
    refine (if_neg visible).trans ((if_neg (not_not.mpr marked)).trans ?_)
    show getLoop count (rest count code ++ after)
      (value <<< 6 ||| (UInt8.ofNat (code / 2 ^ (6 * count) % 64 ||| 0x80) &&& 0x3f).toNat) = _
    rw [bits, gather_eq small, inductionHypothesis, gather_mod]

theorem codepointLoop_rest (count code value : ℕ) (after : Text) :
    codepointLoop count (rest count code ++ after) value =
      value * 2 ^ (6 * count) + code % 2 ^ (6 * count) := by
  induction count generalizing value with
  | zero => simp [codepointLoop, Nat.mod_one]
  | succ count inductionHypothesis =>
    have small : code / 2 ^ (6 * count) % 64 < 64 := Nat.mod_lt _ (by decide)
    obtain ⟨_, marked, bits⟩ := sextet_read small
    rw [rest, sextet_eq]
    refine (if_neg (not_not.mpr marked)).trans ?_
    show codepointLoop count (rest count code ++ after)
      (value <<< 6 ||| (UInt8.ofNat (code / 2 ^ (6 * count) % 64 ||| 0x80) &&& 0x3f).toNat) = _
    rw [bits, gather_eq small, inductionHypothesis, gather_mod]

/-- What the readers make of the first byte of an encoding. -/
structure Lead (mark count bound : ℕ) : Prop where
  get : ∀ bits < bound, getLead (UInt8.ofNat (bits ||| mark)) = some (count, bits)
  size : ∀ bits < bound, Utf8.size [UInt8.ofNat (bits ||| mark)] = count + 1
  codepoint : ∀ bits < bound, UInt8.ofNat (bits ||| mark) ≠ 0 ∧
    codepointLead (count + 1) (UInt8.ofNat (bits ||| mark)) = bits

theorem lead_two : Lead 0xc0 1 32 := ⟨by decide +kernel, by decide +kernel, by decide +kernel⟩

theorem lead_three : Lead 0xe0 2 16 := ⟨by decide +kernel, by decide +kernel, by decide +kernel⟩

theorem lead_four : Lead 0xf0 3 8 := ⟨by decide +kernel, by decide +kernel, by decide +kernel⟩

theorem lead_five : Lead 0xf8 4 4 := ⟨by decide +kernel, by decide +kernel, by decide +kernel⟩

theorem lead_six : Lead 0xfc 5 2 := ⟨by decide +kernel, by decide +kernel, by decide +kernel⟩

/-- The bytes that follow are no null. -/
theorem zero_notMem_rest (count code : ℕ) : 0 ∉ rest count code := by
  induction count with
  | zero => exact List.not_mem_nil
  | succ count inductionHypothesis =>
    have small : code / 2 ^ (6 * count) % 64 < 64 := Nat.mod_lt _ (by decide)
    rw [rest, sextet_eq, List.mem_cons, not_or]
    exact ⟨Ne.symm (sextet_read small).1, inductionHypothesis⟩

/-- The encoding of a code point, in so many bytes: the readers all take a text that starts with it
for that. -/
structure Encodes (encoding : Text) (code width : ℕ) : Prop where
  length : encoding.length = width
  visible : 0 ∉ encoding
  size : ∀ after, Utf8.size (encoding ++ after) = width
  get : ∀ after, Utf8.get (encoding ++ after) = some code
  codepoint : ∀ after, Utf8.codepoint (encoding ++ after) = some code

theorem Lead.encodes {mark count bound : ℕ} (lead : Lead mark count bound) {code : ℕ}
    (small : code < bound * 2 ^ (6 * count)) :
    Encodes (sequence mark count code) code (count + 1) := by
  have bits : code / 2 ^ (6 * count) < bound :=
    Nat.div_lt_of_lt_mul (by rwa [Nat.mul_comm] at small)
  have size : ∀ after, Utf8.size (sequence mark count code ++ after) = count + 1 := by
    intro after
    rw [sequence, Nat.shiftRight_eq_div_pow]
    exact lead.size _ bits
  refine ⟨by simp [sequence], ?_, size, fun after => ?_, fun after => ?_⟩
  · rw [sequence, Nat.shiftRight_eq_div_pow, List.mem_cons, not_or]
    exact ⟨Ne.symm (lead.codepoint _ bits).1, zero_notMem_rest count code⟩
  · rw [sequence, Nat.shiftRight_eq_div_pow, List.cons_append, Utf8.get, List.headD_cons,
      lead.get _ bits]
    dsimp only [List.tail_cons]
    rw [getLoop_rest, Nat.div_add_mod']
  · obtain ⟨visible, first⟩ := lead.codepoint _ bits
    rw [Utf8.codepoint, size, sequence, Nat.shiftRight_eq_div_pow]
    refine (if_neg visible).trans ((if_neg (Nat.succ_ne_zero count)).trans ?_)
    show some (codepointLoop count (rest count code ++ after)
      (codepointLead (count + 1) (UInt8.ofNat (code / 2 ^ (6 * count) ||| mark)))) = some code
    rw [first, codepointLoop_rest, Nat.div_add_mod']

theorem encodes_one {code : ℕ} (positive : 1 ≤ code) (small : code < 0x80) :
    Encodes [UInt8.ofNat code] code 1 := by
  have all : ∀ code < 0x80, 1 ≤ code → UInt8.ofNat code ≠ 0 ∧
      getLead (UInt8.ofNat code) = some (0, code) ∧ Utf8.size [UInt8.ofNat code] = 1 ∧
      (UInt8.ofNat code).toNat = code := by decide +kernel
  obtain ⟨visible, first, size, byte⟩ := all code small positive
  refine ⟨rfl, ?_, fun after => size, fun after => ?_, fun after => ?_⟩
  · rw [List.mem_singleton]
    exact Ne.symm visible
  · show (match getLead (UInt8.ofNat code) with
      | none => none
      | some (count, code) => getLoop count after code) = some code
    rw [first]
    rfl
  · have size' : Utf8.size ([UInt8.ofNat code] ++ after) = 1 := size
    rw [Utf8.codepoint, size']
    show (if UInt8.ofNat code = 0 then some 0
      else if 1 = 0 then none else some (UInt8.ofNat code).toNat) = some code
    rw [if_neg visible, if_neg Nat.one_ne_zero, byte]

/-- The least number of bytes that a code point can be encoded in. -/
def width (code : ℕ) : ℕ :=
  if code < 0x80 then 1
  else if code < 0x800 then 2
  else if code < 0x10000 then 3
  else if code < 0x200000 then 4
  else if code < 0x4000000 then 5
  else 6

/-- The encoding of a code point in UTF-8. -/
def encode (code : ℕ) : Text :=
  if code < 0x80 then [UInt8.ofNat code]
  else if code < 0x800 then sequence 0xc0 1 code
  else if code < 0x10000 then sequence 0xe0 2 code
  else if code < 0x200000 then sequence 0xf0 3 code
  else if code < 0x4000000 then sequence 0xf8 4 code
  else sequence 0xfc 5 code

theorem encode_encodes {code : ℕ} (positive : 1 ≤ code) (small : code ≤ 0x7fffffff) :
    Encodes (encode code) code (width code) := by
  unfold encode width
  split
  next one => exact encodes_one positive one
  split
  next two => exact lead_two.encodes two
  split
  next three => exact lead_three.encodes three
  split
  next four => exact lead_four.encodes four
  split
  next five => exact lead_five.encodes five
  next => exact lead_six.encodes (Nat.lt_succ_of_le small)

/-- The encoder is right but for the last code point of two bytes. -/
theorem put_eq {code : ℕ} (apart : code ≠ 0x7ff) : put code = encode code := by
  unfold put encode
  by_cases one : code < 0x80
  · rw [if_pos one, if_pos one]
  rw [if_neg one, if_neg one]
  by_cases two : code < 0x7ff
  · rw [if_pos two, if_pos (two.trans (by decide))]
    rfl
  rw [if_neg two, if_neg (show ¬ code < 0x800 by omega)]
  by_cases three : code ≤ 0xffff
  · rw [if_pos three, if_pos (Nat.lt_succ_of_le three)]
    rfl
  rw [if_neg three, if_neg (show ¬ code < 0x10000 by omega)]
  by_cases four : code ≤ 0x1fffff
  · rw [if_pos four, if_pos (Nat.lt_succ_of_le four)]
    rfl
  rw [if_neg four, if_neg (show ¬ code < 0x200000 by omega)]
  by_cases five : code ≤ 0x3ffffff
  · rw [if_pos five, if_pos (Nat.lt_succ_of_le five)]
    rfl
  rw [if_neg five, if_neg (show ¬ code < 0x4000000 by omega)]
  rfl

/-- The last code point of two bytes is put in three. -/
theorem put_last : put 0x7ff = sequence 0xe0 2 0x7ff := by decide +kernel

/-- The size of a code point is right but for the first one of two bytes. -/
theorem chars_eq {code : ℕ} (apart : code ≠ 0x80) : chars code = width code := by
  unfold chars width
  split_ifs <;> omega

/-- What is put is read back in any case. -/
theorem put_encodes {code : ℕ} (positive : 1 ≤ code) (small : code ≤ 0x7fffffff) :
    Encodes (put code) code (put code).length := by
  by_cases last : code = 0x7ff
  · rw [last, put_last]
    exact lead_three.encodes (by decide)
  · have encoded := encode_encodes positive small
    rw [put_eq last]
    exact ⟨rfl, encoded.visible, fun after => (encoded.size after).trans encoded.length.symm,
      encoded.get, encoded.codepoint⟩

/-- A code point that the encoder and `chars` both take for what it is. -/
def Plain (code : ℕ) : Prop := code ≠ 0x80 ∧ code ≠ 0x7ff

/-- What is put has the size that `chars` says for all code points but two. -/
theorem length_put_iff {code : ℕ} (positive : 1 ≤ code) (small : code ≤ 0x7fffffff) :
    (put code).length = chars code ↔ Plain code := by
  constructor
  · intro same
    refine ⟨?_, ?_⟩
    · rintro rfl
      exact absurd same (by decide +kernel)
    · rintro rfl
      exact absurd same (by decide +kernel)
  · rintro ⟨first, last⟩
    rw [put_eq last, chars_eq first, (encode_encodes positive small).length]

/-! ### One code point -/

/-- The code point is put in as many bytes as `chars` says, which is their size, and is read back
whatever comes after. -/
def Agree (code : ℕ) : Prop :=
  (put code).length = chars code ∧ ∀ after, size (put code ++ after) = chars code ∧
    get (put code ++ after) = some code ∧ codepoint (put code ++ after) = some code

theorem agree_iff {code : ℕ} (positive : 1 ≤ code) (small : code ≤ 0x7fffffff) :
    Agree code ↔ Plain code := by
  have encoded := put_encodes positive small
  rw [← length_put_iff positive small]
  constructor
  · intro agree
    exact agree.1
  · intro same
    exact ⟨same, fun after => ⟨(encoded.size after).trans same, encoded.get after,
      encoded.codepoint after⟩⟩

/-! ### Texts of code points -/

/-- Behind a code point that is not plain, `pack` stands in the middle of a character. -/
theorem get_astray {code : ℕ} (astray : ¬ Plain code) (after : Text) :
    get ((put code ++ after).drop (chars code)) = none := by
  have either : code = 0x80 ∨ code = 0x7ff := by
    by_contra neither
    rw [not_or] at neither
    exact astray neither
  have refused : ∀ {cp : Text}, getLead (cp.headD 0) = none → get cp = none := by
    intro cp lead
    rw [get, lead]
  rcases either with rfl | rfl
  · have head : ((put 0x80 ++ after).drop (chars 0x80)).headD 0 = 0x80 := rfl
    exact refused (by rw [head]; decide +kernel)
  · have head : ((put 0x7ff ++ after).drop (chars 0x7ff)).headD 0 = 0xbf := rfl
    exact refused (by rw [head]; decide +kernel)

/-- The code points that are put are all packed, up to the length, exactly when those that are gone
on from are plain. -/
theorem packLoop_iff {codes : List ℕ} (within : ∀ code ∈ codes, 1 ≤ code ∧ code ≤ 0x7fffffff)
    (junk : Text) (len : ℕ) :
    packLoop len (codes.flatMap put ++ 0 :: junk) = codes.take len ↔
      ∀ code ∈ (codes.take len).dropLast, Plain code := by
  induction codes generalizing len with
  | nil =>
    cases len with
    | zero => simp [packLoop]
    | succ len => simp [packLoop, get, getLead]
  | cons code codes inductionHypothesis =>
    cases len with
    | zero => simp [packLoop]
    | succ len =>
      obtain ⟨⟨positive, small⟩, later⟩ := List.forall_mem_cons.mp within
      have encoded := put_encodes positive small
      have first : packLoop (len + 1) ((code :: codes).flatMap put ++ 0 :: junk) =
          code ::
            packLoop len ((put code ++ (codes.flatMap put ++ 0 :: junk)).drop (chars code)) := by
        rw [List.flatMap_cons, List.append_assoc, packLoop, encoded.get]
        exact if_neg (Nat.ne_of_gt positive)
      rw [first, List.take_succ_cons, List.cons.injEq, and_iff_right rfl]
      by_cases plain : Plain code
      · have behind : (put code ++ (codes.flatMap put ++ 0 :: junk)).drop (chars code) =
            codes.flatMap put ++ 0 :: junk := by
          rw [← (length_put_iff positive small).mpr plain, List.drop_left]
        rw [behind, inductionHypothesis later]
        cases codes.take len with
        | nil => simp
        | cons next more => simp [plain]
      · have stopped : packLoop len
            ((put code ++ (codes.flatMap put ++ 0 :: junk)).drop (chars code)) = [] := by
          cases len with
          | zero => rfl
          | succ len => rw [packLoop, get_astray plain]
        rw [stopped]
        cases codes.take len with
        | nil => simp
        | cons next more => simp [plain]

/-- The code points that are put are packed as far as the length goes, with a null for which there
is room. -/
def Packed (codes : List ℕ) (junk : Text) (len : ℕ) : Prop :=
  pack (codes.flatMap put ++ 0 :: junk) len =
      (codes.take (len - 1) ++ [0], (codes.take (len - 1)).length) ∧
    (pack (codes.flatMap put ++ 0 :: junk) len).1.length ≤ len

theorem packed_iff {codes : List ℕ} (within : ∀ code ∈ codes, 1 ≤ code ∧ code ≤ 0x7fffffff)
    (junk : Text) {len : ℕ} (word : len < 2 ^ 64) :
    Packed codes junk len ↔
      0 < len ∧ ∀ code ∈ (codes.take (len - 1)).dropLast, Plain code := by
  cases len with
  | zero =>
    refine iff_of_false ?_ fun positive => Nat.lt_irrefl 0 positive.1
    rintro ⟨-, fits⟩
    rw [pack, List.length_append] at fits
    exact Nat.not_succ_le_zero _ fits
  | succ len =>
    have counted : (len + 1 + (2 ^ 64 - 1)) % 2 ^ 64 = len := by omega
    rw [Packed, pack, counted, Nat.add_sub_cancel, ← packLoop_iff within junk len]
    simp only [Prod.mk.injEq, List.append_cancel_right_eq, Nat.succ_pos, true_and,
      List.length_append, List.length_singleton, Nat.add_le_add_iff_right]
    constructor
    · rintro ⟨⟨same, -⟩, -⟩
      exact same
    · intro same
      rw [same]
      exact ⟨⟨rfl, rfl⟩, List.length_take_le len codes⟩

/-- The encoder and the readers agree on a code point exactly when it is plain, and a text of code
points is packed to them, up to a length, exactly when there is room for the null and each of
those that are gone on from is plain. -/
theorem utf8_agrees_iff {code : ℕ} (positive : 1 ≤ code) (small : code ≤ 0x7fffffff)
    {codes : List ℕ} (within : ∀ code ∈ codes, 1 ≤ code ∧ code ≤ 0x7fffffff) (junk : Text) {len : ℕ}
    (word : len < 2 ^ 64) :
    (Agree code ↔ code ≠ 0x80 ∧ code ≠ 0x7ff) ∧
      (Packed codes junk len ↔
        0 < len ∧ ∀ code ∈ (codes.take (len - 1)).dropLast, code ≠ 0x80 ∧ code ≠ 0x7ff) :=
  ⟨agree_iff positive small, packed_iff within junk word⟩

/-- A euro sign and a letter. -/
theorem utf8_agrees_iff_euro : Agree 0x20ac ∧ Packed [0x20ac, 0x41] [] 3 := by
  have within : ∀ code ∈ [0x20ac, 0x41], 1 ≤ code ∧ code ≤ 0x7fffffff := by simp
  obtain ⟨agree, packed⟩ :=
    @utf8_agrees_iff 0x20ac (by decide) (by decide) _ within [] 3 (by decide)
  exact ⟨agree.mpr (by decide), packed.mpr ⟨by decide, by simp⟩⟩

/-- A control character and a letter after it: the letter is lost. -/
theorem put_disagrees :
    ¬ Agree 0x80 ∧ ¬ Agree 0x7ff ∧ pack ([0x80, 0x41].flatMap put ++ [0]) 3 = ([0x80, 0], 1) ∧
      ¬ Packed [0x80, 0x41] [] 3 := by
  refine ⟨?_, ?_, by decide +kernel, ?_⟩
  · rw [agree_iff (by decide) (by decide)]
    exact fun plain => plain.1 rfl
  · rw [agree_iff (by decide) (by decide)]
    exact fun plain => plain.2 rfl
  · rintro ⟨same, -⟩
    exact absurd same (by decide +kernel)

end Utf8

end CommonCpp
