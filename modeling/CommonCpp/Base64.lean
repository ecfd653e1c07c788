/-
This file models the base64 functions of `String`, and shows that what is encoded is
counted and decoded back.

The encoder writes whole groups of four characters while there is room for a group and
the null, so that what it writes is the code of a part of the bytes from the start. The
counter and the decoder gather four characters behind a leading one bit, which tells how
many they have gathered when the text ends. White space is passed over by both before
anything else is done with a character, and so makes no difference to them.

A `size_t` is a natural number.
-/

import Mathlib.Data.Nat.Bitwise
import CommonCpp.Ctype

namespace CommonCpp

open Ctype

namespace Base64

/-! ### The code -/

/-- The characters from `A` to `Z`, from `a` to `z`, from `0` to `9`, `+` and `/`. -/
def alphabetText : Text :=
  (List.range 26).map (fun i => UInt8.ofNat (0x41 + i)) ++
    (List.range 26).map (fun i => UInt8.ofNat (0x61 + i)) ++
    (List.range 10).map (fun i => UInt8.ofNat (0x30 + i)) ++ [0x2b, 0x2f]

def alphabet (i : ℕ) : UInt8 := alphabetText.getD i 0

/-- The table that the counter and the decoder fill in before they start. -/
def decoderTable : List ℕ :=
  (List.range 64).foldl (fun decoder i => decoder.set (alphabet i).toNat i)
    (List.replicate 256 64)

def decoder (c : UInt8) : ℕ := decoderTable.getD c.toNat 64

def b64size (size : ℕ) : ℕ := size * 4 / 3 + 4

/-- The loop of `b64encode`: what it writes, how many bytes it takes, those it leaves, and the room
that is left. -/
def encodeLoop : List UInt8 → ℕ → Text × ℕ × List UInt8 × ℕ
  | bin₀ :: bin₁ :: bin₂ :: bin, dsize =>
    if dsize > 4 then
      let bits := bin₀.toNat <<< 16 ||| bin₁.toNat <<< 8 ||| bin₂.toNat
      let (dest, count, left, dsize) := encodeLoop bin (dsize - 4)
      (alphabet (bits >>> 18) :: alphabet (bits >>> 12 &&& 0x3f) ::
        alphabet (bits >>> 6 &&& 0x3f) :: alphabet (bits &&& 0x3f) :: dest,
        count + 3, left, dsize)
    else ([], 0, bin₀ :: bin₁ :: bin₂ :: bin, dsize)
  | bin, dsize => ([], 0, bin, dsize)

/-- What `b64encode` writes after its loop, and how many bytes it takes for it. -/
def encodeTail (bin : List UInt8) (dsize : ℕ) : Text × ℕ :=
  match bin with
  | [] => ([], 0)
  | bin₀ :: bin =>
    if dsize > 4 then
      let bits := bin₀.toNat <<< 16
      match bin with
      | [] => ([alphabet (bits >>> 18), alphabet (bits >>> 12 &&& 0x3f), 0x3d, 0x3d], 1)
      | bin₁ :: _ =>
        let more := bits ||| bin₁.toNat <<< 8
        ([alphabet (bits >>> 18), alphabet (more >>> 12 &&& 0x3f),
          alphabet (more >>> 6 &&& 0x3f), 0x3d], 2)
    else ([], 0)

/-- What is written, with its null, and how many bytes are taken. -/
def b64encode (bin : List UInt8) (dsize : ℕ) : Text × ℕ :=
  let dsize := if dsize = 0 then b64size bin.length else dsize
  if dsize = 0 ∨ bin.length = 0 then ([0], 0)
  else
    let (dest, count, left, dsize) := encodeLoop bin dsize
    let (rest, more) := encodeTail left dsize
    (dest ++ rest ++ [0], count + more)

/-- The loop of `b64count`: the bits that are gathered when it ends, and the count. -/
def countLoop (ws : Bool) : Text → ℕ → ℕ → ℕ × ℕ
  | [], bits, count => (bits, count)
  | c :: src, bits, count =>
    if c = 0 then (bits, count)
    else if isspace c then if ws then countLoop ws src bits count else (bits, count)
    else if c = 0x3d then (bits, count)
    else if decoder c = 64 then (bits, count)
    else
      let bits := bits <<< 6 + decoder c
      if bits &&& 0x1000000 ≠ 0 then countLoop ws src 1 (count + 3)
      else countLoop ws src bits count

/-- What `b64count` adds after its loop. -/
def countEnd : ℕ × ℕ → ℕ
  | (bits, count) =>
    if bits &&& 0x40000 ≠ 0 then count + 2
    else if bits &&& 0x1000 ≠ 0 then count + 1
    else count

def b64count (src : Text) (ws : Bool) : ℕ := countEnd (countLoop ws src 1 0)

/-- What the loop of `b64decode` comes to: what it has written, the bits that are gathered, the room
that is left, and the count. -/
structure Decoded where
  dest : List UInt8
  bits : ℕ
  size : ℕ
  count : ℕ

/-- The byte of the bits from a place on. -/
def byteAt (bits place : ℕ) : UInt8 := UInt8.ofNat (bits >>> place &&& 0xff)

def decodeLoop (ws : Bool) : Text → ℕ → ℕ → Decoded
  | [], size, bits => ⟨[], bits, size, 0⟩
  | c :: src, size, bits =>
    if c = 0 then ⟨[], bits, size, 0⟩
    else if isspace c then
      if ws then
        let next := decodeLoop ws src size bits
        { next with count := next.count + 1 }
      else ⟨[], bits, size, 0⟩
    else if c = 0x3d then ⟨[], bits, size, if src.head? = some 0x3d then 2 else 1⟩
    else if decoder c = 64 then ⟨[], bits, size, 0⟩
    else
      let bits := bits <<< 6 + decoder c
      if bits &&& 0x1000000 ≠ 0 then
        if size < 3 then ⟨[], 1, size, 1⟩
        else
          let next := decodeLoop ws src (size - 3) 1
          { next with
            dest := byteAt bits 16 :: byteAt bits 8 :: byteAt bits 0 :: next.dest
            count := next.count + 1 }
      else
        let next := decodeLoop ws src size bits
        { next with count := next.count + 1 }

/-- What has been written when `b64decode` has ended. -/
def decodeEnd (decoded : Decoded) : List UInt8 :=
  if decoded.bits &&& 0x40000 ≠ 0 then
    if decoded.size ≥ 2 then
      decoded.dest ++ [byteAt decoded.bits 10, byteAt decoded.bits 2]
    else decoded.dest
  else if decoded.bits &&& 0x1000 ≠ 0 ∧ decoded.size ≠ 0 then
    decoded.dest ++ [byteAt decoded.bits 4]
  else decoded.dest

/-- What is written, and how many characters are read. -/
def b64decode (src : Text) (size : ℕ) (ws : Bool) : List UInt8 × ℕ :=
  let decoded := decodeLoop ws src size 1
  (decodeEnd decoded, decoded.count)

example : b64encode [0x20, 0x55, 0x77, 0x78] 0 =
    ([0x49, 0x46, 0x56, 0x33, 0x65, 0x41, 0x3d, 0x3d, 0], 4) := by decide

example : b64decode [0x49, 0x46, 0x56, 0x33, 0x65, 0x41] 4 false =
    ([0x20, 0x55, 0x77, 0x78], 6) := by
  decide +kernel

/-! ### Bits -/

/-- A bit is set when it is the last one of what stands from it on. -/
theorem and_two_pow_ne_zero (bits place : ℕ) :
    bits &&& 2 ^ place ≠ 0 ↔ bits / 2 ^ place % 2 = 1 := by
  rw [Nat.and_two_pow, Nat.testBit_eq_decide_div_mod_eq]
  by_cases set : bits / 2 ^ place % 2 = 1 <;> simp [set]

theorem full_iff (bits : ℕ) : bits &&& 0x1000000 ≠ 0 ↔ bits / 2 ^ 24 % 2 = 1 :=
  and_two_pow_ne_zero bits 24

theorem three_iff (bits : ℕ) : bits &&& 0x40000 ≠ 0 ↔ bits / 2 ^ 18 % 2 = 1 :=
  and_two_pow_ne_zero bits 18

theorem two_iff (bits : ℕ) : bits &&& 0x1000 ≠ 0 ↔ bits / 2 ^ 12 % 2 = 1 :=
  and_two_pow_ne_zero bits 12

theorem byteAt_eq (bits place : ℕ) : byteAt bits place = UInt8.ofNat (bits / 2 ^ place % 256) := by
  rw [byteAt, Nat.shiftRight_eq_div_pow]
  exact congrArg UInt8.ofNat (Nat.and_two_pow_sub_one_eq_mod (bits / 2 ^ place) 8)

theorem sextet_eq (bits place : ℕ) : bits >>> place &&& 0x3f = bits / 2 ^ place % 64 := by
  rw [Nat.shiftRight_eq_div_pow]
  exact Nat.and_two_pow_sub_one_eq_mod (bits / 2 ^ place) 6

/-- A character of the alphabet is no null, no white space and no padding, and has its place in the
table. -/
theorem alphabet_read {i : ℕ} (small : i < 64) : alphabet i ≠ 0 ∧ isspace (alphabet i) = false ∧
    alphabet i ≠ 0x3d ∧ decoder (alphabet i) = i := by
  have all : ∀ i < 64, alphabet i ≠ 0 ∧ isspace (alphabet i) = false ∧ alphabet i ≠ 0x3d ∧
      decoder (alphabet i) = i := by decide +kernel
  exact all i small

/-! ### The code of some bytes -/

/-- The code of some bytes: a character for each six bits, in groups of four. -/
def code : List UInt8 → Text
  | [] => []
  | [bin₀] => [alphabet (bin₀.toNat / 4), alphabet (bin₀.toNat % 4 * 16), 0x3d, 0x3d]
  | [bin₀, bin₁] =>
    [alphabet (bin₀.toNat / 4), alphabet (bin₀.toNat % 4 * 16 + bin₁.toNat / 16),
      alphabet (bin₁.toNat % 16 * 4), 0x3d]
  | bin₀ :: bin₁ :: bin₂ :: bin =>
    alphabet (bin₀.toNat / 4) :: alphabet (bin₀.toNat % 4 * 16 + bin₁.toNat / 16) ::
      alphabet (bin₁.toNat % 16 * 4 + bin₂.toNat / 64) :: alphabet (bin₂.toNat % 64) :: code bin

theorem length_code (bin : List UInt8) : (code bin).length = (bin.length + 2) / 3 * 4 := by
  fun_induction code bin with
  | case4 bin₀ bin₁ bin₂ bin inductionHypothesis =>
    simp only [List.length_cons, inductionHypothesis]
    omega
  | _ => simp

theorem group_bits (bin₀ bin₁ bin₂ : UInt8) :
    bin₀.toNat <<< 16 ||| bin₁.toNat <<< 8 ||| bin₂.toNat =
      bin₀.toNat * 65536 + bin₁.toNat * 256 + bin₂.toNat := by
  have less₁ : bin₁.toNat <<< 8 < 2 ^ 16 := by
    have byte := bin₁.toNat_lt
    rw [Nat.shiftLeft_eq]
    omega
  have less₂ : bin₂.toNat < 2 ^ 8 := bin₂.toNat_lt
  have high : bin₀.toNat <<< 16 ||| bin₁.toNat <<< 8 = (bin₀.toNat * 256 + bin₁.toNat) <<< 8 := by
    rw [← Nat.shiftLeft_add_eq_or_of_lt less₁]
    simp only [Nat.shiftLeft_eq]
    omega
  rw [high, ← Nat.shiftLeft_add_eq_or_of_lt less₂, Nat.shiftLeft_eq]
  omega

/-- The four sextets of a group of three bytes. -/
theorem sextets_group {bits : ℕ} {bin₀ bin₁ bin₂ : UInt8}
    (grouped : bits = bin₀.toNat * 65536 + bin₁.toNat * 256 + bin₂.toNat) :
    bits >>> 18 = bin₀.toNat / 4 ∧
      bits >>> 12 &&& 0x3f = bin₀.toNat % 4 * 16 + bin₁.toNat / 16 ∧
      bits >>> 6 &&& 0x3f = bin₁.toNat % 16 * 4 + bin₂.toNat / 64 ∧
      bits &&& 0x3f = bin₂.toNat % 64 := by
  have byte₀ := bin₀.toNat_lt
  have byte₁ := bin₁.toNat_lt
  have byte₂ := bin₂.toNat_lt
  have last := sextet_eq bits 0
  rw [Nat.shiftRight_zero] at last
  rw [Nat.shiftRight_eq_div_pow, sextet_eq, sextet_eq, last, grouped]
  refine ⟨?_, ?_, ?_, ?_⟩ <;> omega

theorem group_one (bin₀ : UInt8) :
    bin₀.toNat <<< 16 = bin₀.toNat * 65536 + (0 : UInt8).toNat * 256 + (0 : UInt8).toNat := by
  simp [Nat.shiftLeft_eq]

theorem group_two (bin₀ bin₁ : UInt8) : bin₀.toNat <<< 16 ||| bin₁.toNat <<< 8 =
    bin₀.toNat * 65536 + bin₁.toNat * 256 + (0 : UInt8).toNat := by
  have grouped := group_bits bin₀ bin₁ 0
  rwa [UInt8.toNat_zero, Nat.or_zero] at grouped

/-- The tail writes the code of less than three bytes, when there is room for it. -/
theorem encodeTail_eq {bin : List UInt8} (short : bin.length < 3) (dsize : ℕ) :
    encodeTail bin dsize = if dsize > 4 then (code bin, bin.length) else ([], 0) := by
  match bin, short with
  | [], _ =>
    split
    · rfl
    · rfl
  | [bin₀], _ =>
    obtain ⟨first, second, -⟩ := sextets_group (group_one bin₀)
    rw [UInt8.toNat_zero, Nat.zero_div, Nat.add_zero] at second
    simp only [encodeTail, first, second]
    rfl
  | [bin₀, bin₁], _ =>
    obtain ⟨-, second, third, -⟩ := sextets_group (group_two bin₀ bin₁)
    rw [UInt8.toNat_zero, Nat.zero_div, Nat.add_zero] at third
    have first := (sextets_group (group_one bin₀)).1
    simp only [encodeTail, first, second, third]
    rfl

/-- What the loop and the tail write is the code of the bytes they take. It leaves room for the
null, and is all when there is room for all. -/
theorem encode_eq (bin : List UInt8) {dsize : ℕ} (room : 0 < dsize) :
    ∃ n ≤ bin.length, (encodeLoop bin dsize).1 ++
        (encodeTail (encodeLoop bin dsize).2.2.1 (encodeLoop bin dsize).2.2.2).1 =
          code (bin.take n) ∧
      (encodeLoop bin dsize).2.1 +
        (encodeTail (encodeLoop bin dsize).2.2.1 (encodeLoop bin dsize).2.2.2).2 = n ∧
      (code (bin.take n)).length < dsize ∧
      ((bin.length + 2) / 3 * 4 < dsize → n = bin.length) := by
  fun_induction encodeLoop bin dsize with
  | case1 bin₀ bin₁ bin₂ bin dsize fits bits dest count left left' looped inductionHypothesis =>
    obtain ⟨n, n_le, written, taken, less, whole⟩ := inductionHypothesis (by omega)
    rw [looped] at written taken
    dsimp only at written taken ⊢
    refine ⟨n + 3, by simpa using n_le, ?_, ?_, ?_, ?_⟩
    · have grouped : bits = bin₀.toNat * 65536 + bin₁.toNat * 256 + bin₂.toNat :=
        group_bits bin₀ bin₁ bin₂
      obtain ⟨first, second, third, fourth⟩ := sextets_group grouped
      simp only [first, second, third, fourth, List.cons_append, written, List.take_succ_cons, code]
    · omega
    · simp only [List.take_succ_cons, code, List.length_cons]
      omega
    · simp only [List.length_cons]
      omega
  | case2 bin₀ bin₁ bin₂ bin dsize full =>
    have tail : encodeTail (bin₀ :: bin₁ :: bin₂ :: bin) dsize = ([], 0) := if_neg full
    refine ⟨0, Nat.zero_le _, ?_, ?_, room, ?_⟩
    · rw [tail]
      rfl
    · rw [tail]
      rfl
    · simp only [List.length_cons]
      omega
  | case3 bin dsize short =>
    have short_ : bin.length < 3 := by
      match bin, short with
      | [], _ => exact Nat.succ_pos 2
      | [bin₀], _ => exact Nat.one_lt_succ_succ 1
      | [bin₀, bin₁], _ => exact Nat.lt_succ_self 2
      | bin₀ :: bin₁ :: bin₂ :: rest, short => exact absurd rfl (short bin₀ bin₁ bin₂ rest)
    by_cases fits : dsize > 4
    · refine ⟨bin.length, le_rfl, ?_, ?_, ?_, fun _ => rfl⟩
      · rw [encodeTail_eq short_, if_pos fits, List.take_length]
        rfl
      · rw [encodeTail_eq short_, if_pos fits]
        exact Nat.zero_add _
      · rw [List.take_length, length_code]
        omega
    · refine ⟨0, Nat.zero_le _, ?_, ?_, room, ?_⟩
      · rw [encodeTail_eq short_, if_neg fits]
        rfl
      · rw [encodeTail_eq short_, if_neg fits]
        rfl
      · intro roomy
        omega

/-- What is written into some room is the code of the bytes that are taken, within the room; they
are all when there is room for all. -/
theorem b64encode_eq (bin : List UInt8) {dsize : ℕ} (room : 0 < dsize) :
    ∃ n ≤ bin.length, b64encode bin dsize = (code (bin.take n) ++ [0], n) ∧
      (code (bin.take n)).length < dsize ∧ ((bin.length + 2) / 3 * 4 < dsize → n = bin.length) := by
  obtain ⟨n, n_le, written, taken, less, whole⟩ := encode_eq bin room
  refine ⟨n, n_le, ?_, less, whole⟩
  have size : (if dsize = 0 then b64size bin.length else dsize) = dsize :=
    if_neg (Nat.ne_of_gt room)
  unfold b64encode
  rw [size]
  cases bin with
  | nil =>
    have none_ : n = 0 := Nat.le_zero.mp n_le
    rw [none_]
    exact if_pos (Or.inr rfl)
  | cons bin₀ bin =>
    rw [if_neg (by simp only [List.length_cons]; omega)]
    show ((encodeLoop (bin₀ :: bin) dsize).1 ++ (encodeTail _ _).1 ++ [0],
      (encodeLoop (bin₀ :: bin) dsize).2.1 + (encodeTail _ _).2) = _
    rw [written, taken]

/-- The default room is enough for all bytes. -/
theorem b64encode_default (bin : List UInt8) :
    b64encode bin 0 = (code bin ++ [0], bin.length) ∧
      (code bin ++ [0]).length ≤ b64size bin.length := by
  have room : 0 < b64size bin.length := Nat.succ_pos _
  obtain ⟨n, _, written, less, whole⟩ := b64encode_eq bin room
  have all : n = bin.length := whole (by unfold b64size; omega)
  subst all
  rw [List.take_length] at written less
  have default : b64encode bin 0 = b64encode bin (b64size bin.length) := by
    unfold b64encode
    rw [if_pos rfl, if_neg (Nat.ne_of_gt room)]
  refine ⟨default.trans written, ?_⟩
  rw [List.length_append]
  exact less

/-! ### White space -/

/-- A text with white space in it, which `ws` allows. -/
def Spaced (ws : Bool) (text spaced : Text) : Prop :=
  (spaced.filter fun c => !isspace c) = text ∧ (ws = false → spaced = text)

/-- What is behind a null is not read. -/
theorem countLoop_null (ws : Bool) {src : Text} (noNull : 0 ∉ src) (junk : Text)
    (bits count : ℕ) :
    countLoop ws (src ++ 0 :: junk) bits count = countLoop ws src bits count := by
  induction src generalizing bits count with
  | nil => rfl
  | cons c src inductionHypothesis =>
    have later : 0 ∉ src := fun member => noNull (List.mem_cons_of_mem _ member)
    rw [List.cons_append, countLoop, countLoop]
    simp only [inductionHypothesis later]

theorem decodeLoop_null (ws : Bool) {src : Text} (noNull : 0 ∉ src) (junk : Text)
    (size bits : ℕ) : decodeLoop ws (src ++ 0 :: junk) size bits = decodeLoop ws src size bits := by
  induction src generalizing size bits with
  | nil => rfl
  | cons c src inductionHypothesis =>
    have later : 0 ∉ src := fun member => noNull (List.mem_cons_of_mem _ member)
    have peeked : (src ++ 0 :: junk).head? = some 0x3d ↔ src.head? = some 0x3d := by
      cases src with
      | nil => simp
      | cons => rfl
    rw [List.cons_append, decodeLoop, decodeLoop]
    simp only [inductionHypothesis later, peeked]

/-- Nor is what is behind white space, where that is not allowed. -/
theorem decodeLoop_space {src : Text} (dark : ∀ c ∈ src, isspace c = false) {space : UInt8}
    (blank : isspace space) (junk : Text) (size bits : ℕ) :
    decodeLoop false (src ++ space :: junk) size bits = decodeLoop false src size bits := by
  have noPad : space ≠ 0x3d := by
    rintro rfl
    exact absurd blank (by decide)
  induction src generalizing size bits with
  | nil =>
    show decodeLoop false (space :: junk) size bits = ⟨[], bits, size, 0⟩
    rw [decodeLoop, if_pos blank, if_neg Bool.false_ne_true]
    exact ite_self _
  | cons c src inductionHypothesis =>
    have later := fun c member => dark c (List.mem_cons_of_mem _ member)
    have peeked : (src ++ space :: junk).head? = some 0x3d ↔ src.head? = some 0x3d := by
      cases src with
      | nil => simp [noPad]
      | cons => rfl
    rw [List.cons_append, decodeLoop, decodeLoop]
    simp only [inductionHypothesis later, peeked]

/-- White space is passed over, where it is allowed. -/
theorem countLoop_filter (src : Text) (bits count : ℕ) :
    countLoop true src bits count =
      countLoop true (src.filter fun c => !isspace c) bits count := by
  induction src generalizing bits count with
  | nil => rfl
  | cons c src inductionHypothesis =>
    by_cases space : isspace c
    · have visible : c ≠ 0 := by
        rintro rfl
        exact absurd space (by decide)
      rw [countLoop, if_neg visible, if_pos space, if_pos rfl, inductionHypothesis,
        List.filter_cons_of_neg (by simp [space])]
    · rw [List.filter_cons_of_pos (by simp [space]), countLoop, countLoop]
      simp only [inductionHypothesis]

theorem decodeLoop_filter (src : Text) (size bits : ℕ) :
    (decodeLoop true src size bits).dest =
        (decodeLoop true (src.filter fun c => !isspace c) size bits).dest ∧
      (decodeLoop true src size bits).bits =
        (decodeLoop true (src.filter fun c => !isspace c) size bits).bits ∧
      (decodeLoop true src size bits).size =
        (decodeLoop true (src.filter fun c => !isspace c) size bits).size := by
  induction src generalizing size bits with
  | nil => exact ⟨rfl, rfl, rfl⟩
  | cons c src inductionHypothesis =>
    by_cases space : isspace c
    · have visible : c ≠ 0 := by
        rintro rfl
        exact absurd space (by decide)
      rw [decodeLoop, if_neg visible, if_pos space, if_pos rfl,
        List.filter_cons_of_neg (by simp [space])]
      exact inductionHypothesis size bits
    · rw [List.filter_cons_of_pos (by simp [space]), decodeLoop, decodeLoop]
      simp only [if_neg space]
      split
      · exact ⟨rfl, rfl, rfl⟩
      split
      · exact ⟨rfl, rfl, rfl⟩
      split
      · exact ⟨rfl, rfl, rfl⟩
      split
      · split
        · exact ⟨rfl, rfl, rfl⟩
        · obtain ⟨dest, bits_, size_⟩ := inductionHypothesis (size - 3) 1
          exact ⟨by simp only [dest], bits_, size_⟩
      · exact inductionHypothesis size _

/-! ### Reading the code -/

section Sextets

variable {ws : Bool} {i bits : ℕ} {src : Text}

theorem shiftLeft_add (bits i : ℕ) : bits <<< 6 + i = bits * 64 + i := by
  rw [Nat.shiftLeft_eq]

theorem incomplete (within : bits * 64 + i < 2 ^ 24) : ¬ (bits * 64 + i) &&& 0x1000000 ≠ 0 := by
  rw [full_iff]
  omega

theorem complete (small : i < 64) (gathered : bits / 2 ^ 18 = 1) :
    (bits * 64 + i) &&& 0x1000000 ≠ 0 := by
  rw [full_iff]
  omega

/-- Both loops gather a character of the alphabet. -/
theorem countLoop_alphabet (small : i < 64) (count : ℕ) :
    countLoop ws (alphabet i :: src) bits count =
      if (bits * 64 + i) &&& 0x1000000 ≠ 0 then countLoop ws src 1 (count + 3)
      else countLoop ws src (bits * 64 + i) count := by
  obtain ⟨noNull, dark, noPad, read⟩ := alphabet_read small
  rw [countLoop, if_neg noNull, if_neg (by simp [dark]), if_neg noPad, read,
    if_neg (Nat.ne_of_lt small), shiftLeft_add]

theorem decodeLoop_alphabet (small : i < 64) (size : ℕ) :
    decodeLoop ws (alphabet i :: src) size bits =
      if (bits * 64 + i) &&& 0x1000000 ≠ 0 then
        if size < 3 then ⟨[], 1, size, 1⟩
        else
          let next := decodeLoop ws src (size - 3) 1
          let bits := bits * 64 + i
          { next with
            dest := byteAt bits 16 :: byteAt bits 8 :: byteAt bits 0 :: next.dest
            count := next.count + 1 }
      else
        let next := decodeLoop ws src size (bits * 64 + i)
        { next with count := next.count + 1 } := by
  obtain ⟨noNull, dark, noPad, read⟩ := alphabet_read small
  rw [decodeLoop, if_neg noNull, if_neg (by simp [dark]), if_neg noPad, read,
    if_neg (Nat.ne_of_lt small), shiftLeft_add]

/-- A character that does not complete a group is gathered. -/
theorem countLoop_sextet (small : i < 64) (within : bits * 64 + i < 2 ^ 24) (count : ℕ) :
    countLoop ws (alphabet i :: src) bits count = countLoop ws src (bits * 64 + i) count :=
  (countLoop_alphabet small count).trans (if_neg (incomplete within))

/-- The fourth character completes a group. -/
theorem countLoop_fourth (small : i < 64) (gathered : bits / 2 ^ 18 = 1) (count : ℕ) :
    countLoop ws (alphabet i :: src) bits count = countLoop ws src 1 (count + 3) :=
  (countLoop_alphabet small count).trans (if_pos (complete small gathered))

theorem decodeLoop_sextet (small : i < 64) (within : bits * 64 + i < 2 ^ 24) (size : ℕ) :
    decodeLoop ws (alphabet i :: src) size bits =
      let next := decodeLoop ws src size (bits * 64 + i)
      { next with count := next.count + 1 } :=
  (decodeLoop_alphabet small size).trans (if_neg (incomplete within))

theorem decodeLoop_fourth (small : i < 64) (gathered : bits / 2 ^ 18 = 1) (size : ℕ) :
    decodeLoop ws (alphabet i :: src) (size + 3) bits =
      let next := decodeLoop ws src size 1
      let bits := bits * 64 + i
      { next with
        dest := byteAt bits 16 :: byteAt bits 8 :: byteAt bits 0 :: next.dest
        count := next.count + 1 } := by
  rw [decodeLoop_alphabet small, if_pos (complete small gathered)]
  exact if_neg (by omega)

/-- Padding ends both loops. -/
theorem countLoop_pad (count : ℕ) : countLoop ws (0x3d :: src) bits count = (bits, count) := rfl

end Sextets

/-- A code has the count of its bytes. -/
theorem countEnd_code (ws : Bool) (bin : List UInt8) (count : ℕ) :
    countEnd (countLoop ws (code bin) 1 count) = count + bin.length := by
  fun_induction code bin generalizing count with
  | case1 => rfl
  | case2 bin₀ =>
    have byte₀ := bin₀.toNat_lt
    rw [countLoop_sextet (by omega) (by omega), countLoop_sextet (by omega) (by omega),
      countLoop_pad, countEnd, if_neg, if_pos]
    · rfl
    · rw [two_iff]
      omega
    · rw [three_iff]
      omega
  | case3 bin₀ bin₁ =>
    have byte₀ := bin₀.toNat_lt
    have byte₁ := bin₁.toNat_lt
    rw [countLoop_sextet (by omega) (by omega), countLoop_sextet (by omega) (by omega),
      countLoop_sextet (by omega) (by omega), countLoop_pad, countEnd, if_pos]
    · rfl
    · rw [three_iff]
      omega
  | case4 bin₀ bin₁ bin₂ bin inductionHypothesis =>
    have byte₀ := bin₀.toNat_lt
    have byte₁ := bin₁.toNat_lt
    have byte₂ := bin₂.toNat_lt
    rw [countLoop_sextet (by omega) (by omega), countLoop_sextet (by omega) (by omega),
      countLoop_sextet (by omega) (by omega), countLoop_fourth (by omega) (by omega),
      inductionHypothesis]
    simp only [List.length_cons]
    omega

theorem byteAt_eq_of_toNat {bits place : ℕ} {byte : UInt8}
    (same : bits / 2 ^ place % 256 = byte.toNat) : byteAt bits place = byte := by
  rw [byteAt_eq, same, UInt8.ofNat_toNat]

/-- What has been written stays in front of what the end writes. -/
theorem decodeEnd_append (before dest : List UInt8) (bits size count count' : ℕ) :
    decodeEnd ⟨before ++ dest, bits, size, count⟩ =
      before ++ decodeEnd ⟨dest, bits, size, count'⟩ := by
  unfold decodeEnd
  dsimp only
  split
  · split
    · rw [List.append_assoc]
    · rfl
  · split
    · rw [List.append_assoc]
    · rfl

/-- A code is decoded to its bytes, into as much room. -/
theorem decodeEnd_code (ws : Bool) (bin : List UInt8) :
    decodeEnd (decodeLoop ws (code bin) bin.length 1) = bin := by
  fun_induction code bin with
  | case1 =>
    show decodeEnd ⟨[], 1, 0, 0⟩ = []
    decide
  | case2 bin₀ =>
    have byte₀ := bin₀.toNat_lt
    rw [decodeLoop_sextet (by omega) (by omega), decodeLoop_sextet (by omega) (by omega)]
    show decodeEnd ⟨[], (1 * 64 + bin₀.toNat / 4) * 64 + bin₀.toNat % 4 * 16, 1, _⟩ = [bin₀]
    rw [decodeEnd, if_neg, if_pos, byteAt_eq_of_toNat]
    · rfl
    · dsimp only
      omega
    · exact ⟨(two_iff _).mpr (by dsimp only; omega), Nat.one_ne_zero⟩
    · rw [three_iff]
      dsimp only
      omega
  | case3 bin₀ bin₁ =>
    have byte₀ := bin₀.toNat_lt
    have byte₁ := bin₁.toNat_lt
    rw [decodeLoop_sextet (by omega) (by omega), decodeLoop_sextet (by omega) (by omega),
      decodeLoop_sextet (by omega) (by omega)]
    show decodeEnd ⟨[], ((1 * 64 + bin₀.toNat / 4) * 64 +
      (bin₀.toNat % 4 * 16 + bin₁.toNat / 16)) * 64 + bin₁.toNat % 16 * 4, 2, _⟩ = [bin₀, bin₁]
    have first : byteAt (((1 * 64 + bin₀.toNat / 4) * 64 +
        (bin₀.toNat % 4 * 16 + bin₁.toNat / 16)) * 64 + bin₁.toNat % 16 * 4) 10 = bin₀ :=
      byteAt_eq_of_toNat (by omega)
    have second : byteAt (((1 * 64 + bin₀.toNat / 4) * 64 +
        (bin₀.toNat % 4 * 16 + bin₁.toNat / 16)) * 64 + bin₁.toNat % 16 * 4) 2 = bin₁ :=
      byteAt_eq_of_toNat (by omega)
    rw [decodeEnd, if_pos, if_pos, first, second]
    · rfl
    · exact le_rfl
    · rw [three_iff]
      dsimp only
      omega
  | case4 bin₀ bin₁ bin₂ bin inductionHypothesis =>
    have byte₀ := bin₀.toNat_lt
    have byte₁ := bin₁.toNat_lt
    have byte₂ := bin₂.toNat_lt
    show decodeEnd (decodeLoop ws _ (bin.length + 3) 1) = _
    rw [decodeLoop_sextet (by omega) (by omega), decodeLoop_sextet (by omega) (by omega),
      decodeLoop_sextet (by omega) (by omega), decodeLoop_fourth (by omega) (by omega)]
    show decodeEnd ⟨[byteAt _ 16, byteAt _ 8, byteAt _ 0] ++
      (decodeLoop ws (code bin) bin.length 1).dest, _, _, _⟩ = [bin₀, bin₁, bin₂] ++ bin
    rw [decodeEnd_append _ _ _ _ _ (decodeLoop ws (code bin) bin.length 1).count]
    have first : byteAt ((((1 * 64 + bin₀.toNat / 4) * 64 +
        (bin₀.toNat % 4 * 16 + bin₁.toNat / 16)) * 64 + (bin₁.toNat % 16 * 4 + bin₂.toNat / 64)) *
        64 + bin₂.toNat % 64) 16 = bin₀ := byteAt_eq_of_toNat (by omega)
    have second : byteAt ((((1 * 64 + bin₀.toNat / 4) * 64 +
        (bin₀.toNat % 4 * 16 + bin₁.toNat / 16)) * 64 + (bin₁.toNat % 16 * 4 + bin₂.toNat / 64)) *
        64 + bin₂.toNat % 64) 8 = bin₁ := byteAt_eq_of_toNat (by omega)
    have third : byteAt ((((1 * 64 + bin₀.toNat / 4) * 64 +
        (bin₀.toNat % 4 * 16 + bin₁.toNat / 16)) * 64 + (bin₁.toNat % 16 * 4 + bin₂.toNat / 64)) *
        64 + bin₂.toNat % 64) 0 = bin₂ := byteAt_eq_of_toNat (by omega)
    rw [first, second, third]
    exact congrArg ([bin₀, bin₁, bin₂] ++ ·) inductionHypothesis

/-- All characters of the code of whole groups are read. -/
theorem count_code (ws : Bool) {bin : List UInt8} (whole : bin.length % 3 = 0) :
    (decodeLoop ws (code bin) bin.length 1).count = (code bin).length := by
  fun_induction code bin with
  | case1 => rfl
  | case2 bin₀ => cases whole
  | case3 bin₀ bin₁ => cases whole
  | case4 bin₀ bin₁ bin₂ bin inductionHypothesis =>
    have byte₀ := bin₀.toNat_lt
    have byte₁ := bin₁.toNat_lt
    have byte₂ := bin₂.toNat_lt
    have rest : bin.length % 3 = 0 := (Nat.add_mod_right bin.length 3).symm.trans whole
    show (decodeLoop ws _ (bin.length + 3) 1).count = _
    rw [decodeLoop_sextet (by omega) (by omega), decodeLoop_sextet (by omega) (by omega),
      decodeLoop_sextet (by omega) (by omega), decodeLoop_fourth (by omega) (by omega)]
    show (decodeLoop ws (code bin) bin.length 1).count + 1 + 1 + 1 + 1 = _
    rw [inductionHypothesis rest]
    rfl

/-- A code is of the alphabet and of padding. -/
theorem forall_mem_code {Holds : UInt8 → Prop} (letter : ∀ i < 64, Holds (alphabet i))
    (pad : Holds 0x3d) (bin : List UInt8) : ∀ c ∈ code bin, Holds c := by
  fun_induction code bin with
  | case1 => simp
  | case2 bin₀ =>
    have byte₀ := bin₀.toNat_lt
    simp only [List.forall_mem_cons, pad]
    exact ⟨letter _ (by omega), letter _ (by omega), by simp⟩
  | case3 bin₀ bin₁ =>
    have byte₀ := bin₀.toNat_lt
    have byte₁ := bin₁.toNat_lt
    simp only [List.forall_mem_cons, pad]
    exact ⟨letter _ (by omega), letter _ (by omega), letter _ (by omega), by simp⟩
  | case4 bin₀ bin₁ bin₂ bin inductionHypothesis =>
    have byte₀ := bin₀.toNat_lt
    have byte₁ := bin₁.toNat_lt
    have byte₂ := bin₂.toNat_lt
    simp only [List.forall_mem_cons]
    exact ⟨letter _ (by omega), letter _ (by omega), letter _ (by omega), letter _ (by omega),
      inductionHypothesis⟩

/-- A code has no null and no white space in it. -/
theorem code_visible (bin : List UInt8) : ∀ c ∈ code bin, c ≠ 0 ∧ isspace c = false :=
  forall_mem_code (fun _ small => ⟨(alphabet_read small).1, (alphabet_read small).2.1⟩)
    (by decide) bin

/-- White space in a code and what is behind its null make no difference: its bytes are counted and
decoded. -/
theorem read_code (ws : Bool) {bin : List UInt8} {spaced : Text}
    (readable : Spaced ws (code bin) spaced)
    (junk : Text) : b64count (spaced ++ 0 :: junk) ws = bin.length ∧
      (b64decode (spaced ++ 0 :: junk) bin.length ws).1 = bin := by
  have noNull : 0 ∉ spaced := by
    intro member
    have kept : (0 : UInt8) ∈ code bin := by
      rw [← readable.1]
      exact List.mem_filter.mpr ⟨member, by decide⟩
    exact (code_visible bin 0 kept).1 rfl
  rw [b64count, b64decode, countLoop_null ws noNull, decodeLoop_null ws noNull]
  cases ws with
  | false =>
    rw [readable.2 rfl]
    exact ⟨by rw [countEnd_code, Nat.zero_add], decodeEnd_code false bin⟩
  | true =>
    rw [countLoop_filter, readable.1]
    refine ⟨by rw [countEnd_code, Nat.zero_add], ?_⟩
    obtain ⟨dest, bits, size⟩ := decodeLoop_filter spaced bin.length 1
    rw [readable.1] at dest bits size
    calc decodeEnd (decodeLoop true spaced bin.length 1)
        = decodeEnd (decodeLoop true (code bin) bin.length 1) := by
          simp only [decodeEnd, dest, bits, size]
      _ = bin := decodeEnd_code true bin

/-! ### The round trip -/

/-- The default room is enough for all bytes, and whatever room there is, what is written fits in it
and is counted and decoded, with any white space in it that is allowed, to the bytes that were
taken. -/
theorem base64_roundTrip (bin : List UInt8) :
    (∃ text, b64encode bin 0 = (text ++ [0], bin.length) ∧ 0 ∉ text ∧
      (text ++ [0]).length ≤ b64size bin.length ∧
      ∀ ws spaced junk, Spaced ws text spaced →
        b64count (spaced ++ 0 :: junk) ws = bin.length ∧
          (b64decode (spaced ++ 0 :: junk) bin.length ws).1 = bin) ∧
    ∀ dsize, 1 ≤ dsize → ∃ text n, b64encode bin dsize = (text ++ [0], n) ∧ 0 ∉ text ∧
      n ≤ bin.length ∧ (text ++ [0]).length ≤ dsize ∧
      ∀ ws spaced junk, Spaced ws text spaced →
        b64count (spaced ++ 0 :: junk) ws = n ∧
          (b64decode (spaced ++ 0 :: junk) n ws).1 = bin.take n := by
  have noNull : ∀ bin : List UInt8, 0 ∉ code bin :=
    fun bin member => (code_visible bin 0 member).1 rfl
  constructor
  · obtain ⟨written, fits⟩ := b64encode_default bin
    exact ⟨code bin, written, noNull bin, fits,
      fun ws spaced junk readable => read_code ws readable junk⟩
  · intro dsize room
    obtain ⟨n, n_le, written, less, _⟩ := b64encode_eq bin room
    refine ⟨code (bin.take n), n, written, noNull _, n_le, ?_, ?_⟩
    · rw [List.length_append]
      exact less
    · intro ws spaced junk readable
      have read := read_code ws readable junk
      rwa [List.length_take_of_le n_le] at read

end Base64

end CommonCpp
