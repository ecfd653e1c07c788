/-
This file gives words of bits and the bytes that they are kept in, the lowest byte first or the
highest byte first.

A word of a memory stands behind those before it, so the bytes of a memory are cut into slices of
one length, and each slice is a word. What is copied into a memory leaves the bytes around it.
-/

import CommonCpp.Blocks
import Mathlib.Data.List.GetD
import Mathlib.Data.List.OfFn
import Mathlib.Tactic.Common

namespace Words

variable {width : ℕ}

/-- The word of these bytes, the lowest first. -/
def little : List UInt8 → BitVec width
  | [] => 0
  | byte :: bytes => byte.toBitVec.setWidth width ||| little bytes <<< 8

/-- The word of these bytes, the highest first. -/
def big (bytes : List UInt8) : BitVec width := little bytes.reverse

/-- The byte of a word at this place, the lowest of them at `0`. -/
def byteAt (word : BitVec width) (place : ℕ) : UInt8 :=
  UInt8.ofBitVec ((word >>> (8 * place)).setWidth 8)

/-- The lowest bytes of a word, the lowest first. -/
def littleBytes (count : ℕ) (word : BitVec width) : List UInt8 :=
  (List.range count).map (byteAt word)

/-- The lowest bytes of a word, the lowest last. -/
def bigBytes (count : ℕ) (word : BitVec width) : List UInt8 := (littleBytes count word).reverse

/-- The slice of a memory in this place, where all of them have one size. -/
def slice {Item : Type*} (size : ℕ) (memory : List Item) (place : ℕ) : List Item :=
  (memory.drop (size * place)).take size

/-- A memory with some bytes copied into it. -/
def memcpy {size : ℕ} (memory : Vector UInt8 size) (offset : ℕ) (bytes : List UInt8) :
    Vector UInt8 size :=
  Vector.ofFn fun i =>
    if offset ≤ i ∧ i < offset + bytes.length then bytes.getD (i - offset) 0 else memory.get i

/-! ### Words of bytes -/

theorem getLsbD_little (bytes : List UInt8) {i : ℕ} (inside : i < width) :
    (little bytes : BitVec width).getLsbD i =
      (bytes.getD (i / 8) 0).toBitVec.getLsbD (i % 8) := by
  induction bytes generalizing i with
  | nil => simp [little]
  | cons byte bytes inductionHypothesis =>
    rw [little, BitVec.getLsbD_or, BitVec.getLsbD_setWidth, BitVec.getLsbD_shiftLeft]
    by_cases low : i < 8
    · simp [inside, low, Nat.div_eq_of_lt low, Nat.mod_eq_of_lt low]
    · have high : 8 ≤ i := Nat.le_of_not_lt low
      have above : byte.toBitVec.getLsbD i = false := BitVec.getLsbD_of_ge _ _ high
      rw [inductionHypothesis (Nat.lt_of_le_of_lt (Nat.sub_le i 8) inside), above,
        show i / 8 = (i - 8) / 8 + 1 by omega, show i % 8 = (i - 8) % 8 by omega]
      simp [inside, low]

theorem getLsbD_byteAt (word : BitVec width) (place : ℕ) {i : ℕ} (inside : i < 8) :
    (byteAt word place).toBitVec.getLsbD i = word.getLsbD (8 * place + i) := by
  rw [byteAt, UInt8.toBitVec_ofBitVec, BitVec.getLsbD_setWidth, BitVec.getLsbD_ushiftRight,
    decide_eq_true inside, Bool.true_and]

theorem byteAt_little {bytes : List UInt8} {place : ℕ} (inside : 8 * (place + 1) ≤ width) :
    byteAt (little bytes : BitVec width) place = bytes.getD place 0 := by
  refine UInt8.toBitVec_inj.mp (BitVec.eq_of_getLsbD_eq fun i low => ?_)
  rw [getLsbD_byteAt _ _ low, getLsbD_little _ (by omega),
    show (8 * place + i) / 8 = place by omega, show (8 * place + i) % 8 = i by omega]

theorem littleBytes_little {bytes : List UInt8} (inside : 8 * bytes.length ≤ width) :
    littleBytes bytes.length (little bytes : BitVec width) = bytes := by
  refine List.ext_getElem (by simp [littleBytes]) fun place first second => ?_
  have read : byteAt (little bytes : BitVec width) place = bytes[place] := by
    rw [byteAt_little (by omega), List.getD_eq_getElem _ _ second]
  simpa [littleBytes] using read

@[simp]
theorem length_littleBytes (count : ℕ) (word : BitVec width) :
    (littleBytes count word).length = count := by
  rw [littleBytes, List.length_map, List.length_range]

@[simp]
theorem length_bigBytes (count : ℕ) (word : BitVec width) :
    (bigBytes count word).length = count := by
  rw [bigBytes, List.length_reverse, length_littleBytes]

theorem getD_littleBytes {count place : ℕ} (inside : place < count) (word : BitVec width) :
    (littleBytes count word).getD place 0 = byteAt word place := by
  rw [List.getD_eq_getElem _ _ (by rwa [length_littleBytes])]
  simp [littleBytes]

theorem getLsbD_big (bytes : List UInt8) {i : ℕ} (inside : i < width)
    (within : i / 8 < bytes.length) :
    (big bytes : BitVec width).getLsbD i =
      (bytes.getD (bytes.length - 1 - i / 8) 0).toBitVec.getLsbD (i % 8) := by
  rw [big, getLsbD_little _ inside, List.getD_eq_getElem?_getD, List.getElem?_reverse within,
    ← List.getD_eq_getElem?_getD]

theorem byteAt_big {bytes : List UInt8} {place : ℕ} (within : place < bytes.length)
    (inside : 8 * bytes.length ≤ width) :
    byteAt (big bytes : BitVec width) place = bytes.getD (bytes.length - 1 - place) 0 := by
  rw [big, byteAt_little (by omega), List.getD_eq_getElem?_getD, List.getElem?_reverse within,
    ← List.getD_eq_getElem?_getD]

/-- A word is known by its bytes. -/
theorem eq_big_of_byteAt {bytes : List UInt8} (whole : 8 * bytes.length = width)
    {word : BitVec width}
    (same : ∀ place < bytes.length, byteAt word place = bytes.getD (bytes.length - 1 - place) 0) :
    word = big bytes := by
  refine BitVec.eq_of_getLsbD_eq fun i inside => ?_
  have within : i / 8 < bytes.length := by omega
  rw [getLsbD_big _ inside within, ← same _ within, getLsbD_byteAt _ _ (by omega),
    Nat.div_add_mod]

/-! ### Bytes in the other order -/

theorem getLsbD_big_littleBytes {size i : ℕ} (inside : i < width) (within : i / 8 < size)
    {wide : ℕ} (word : BitVec wide) :
    (big (littleBytes size word) : BitVec width).getLsbD i =
      word.getLsbD (8 * (size - 1 - i / 8) + i % 8) := by
  rw [getLsbD_big _ inside (by rwa [length_littleBytes]), length_littleBytes,
    getD_littleBytes (by omega), getLsbD_byteAt _ _ (by omega)]

theorem getLsbD_rotateLeft_mod (word : BitVec width) {distance i : ℕ} (short : distance < width)
    (inside : i < width) :
    (word.rotateLeft distance).getLsbD i = word.getLsbD ((i + width - distance) % width) := by
  rw [BitVec.getLsbD_rotateLeft_of_le short]
  by_cases low : i < distance
  · rw [decide_eq_true low, cond_true, Nat.mod_eq_of_lt (by omega)]
    congr 1
    omega
  · have turn : (i + width - distance) % width = i - distance := by
      rw [show i + width - distance = i - distance + width by omega, Nat.add_mod_right,
        Nat.mod_eq_of_lt (by omega)]
    rw [decide_eq_false low, cond_false, decide_eq_true inside, Bool.true_and, turn]

/-- Two turns of a word of four bytes, each with every other byte of it, turn the bytes round. -/
theorem rotateLeft_or_rotateLeft (word : BitVec 32) :
    word.rotateLeft 24 &&& 0xff00ff00 ||| word.rotateLeft 8 &&& 0x00ff00ff =
      big (littleBytes 4 word) := by
  have odd : ∀ i < 32, (0xff00ff00 : BitVec 32).getLsbD i = decide (i / 8 % 2 = 1) := by decide
  have even : ∀ i < 32, (0x00ff00ff : BitVec 32).getLsbD i = decide (i / 8 % 2 = 0) := by decide
  refine BitVec.eq_of_getLsbD_eq fun i inside => ?_
  rw [getLsbD_big_littleBytes inside (by omega), BitVec.getLsbD_or, BitVec.getLsbD_and,
    BitVec.getLsbD_and, odd i inside, even i inside,
    getLsbD_rotateLeft_mod _ (by decide) inside, getLsbD_rotateLeft_mod _ (by decide) inside]
  rcases Nat.mod_two_eq_zero_or_one (i / 8) with parity | parity
  · rw [show 8 * (4 - 1 - i / 8) + i % 8 = (i + 32 - 8) % 32 by omega]
    simp [parity]
  · rw [show 8 * (4 - 1 - i / 8) + i % 8 = (i + 32 - 24) % 32 by omega]
    simp [parity]

/-- The bytes of some words, with the highest byte of each first, one by one. -/
theorem map_byteAt_eq_flatMap (size : ℕ) (words : List (BitVec width)) :
    (List.range (words.length * size)).map
        (fun i => byteAt (words.getD (i / size) 0) (size - 1 - i % size)) =
      words.flatMap (bigBytes size) := by
  induction words with
  | nil => rw [List.length_nil, Nat.zero_mul, List.range_zero, List.map_nil, List.flatMap_nil]
  | cons word words inductionHypothesis =>
    have front : (List.range size).map (fun i => byteAt word (size - 1 - i)) =
        bigBytes size word := by
      refine List.ext_getElem (by simp) fun i first second => ?_
      simp [bigBytes, littleBytes]
    rw [List.flatMap_cons, ← inductionHypothesis, ← front, List.length_cons, Nat.succ_mul,
      Nat.add_comm, List.range_add, List.map_append, List.map_map]
    refine congrArg₂ _ (List.map_congr_left fun i member => ?_)
      (List.map_congr_left fun i member => ?_)
    · have small := List.mem_range.mp member
      rw [Nat.div_eq_of_lt small, Nat.mod_eq_of_lt small, List.getD_cons_zero]
    · rcases Nat.eq_zero_or_pos size with none | positive
      · rw [none, Nat.mul_zero] at member
        cases member
      · simp only [Function.comp_apply]
        rw [Nat.add_div_left _ positive, Nat.add_mod_left, List.getD_cons_succ]

/-! ### Slices -/

section Slices

variable {Item : Type*} {size place : ℕ} {memory : List Item}

theorem length_slice (within : size * (place + 1) ≤ memory.length) :
    (slice size memory place).length = size := by
  rw [slice, List.length_take_of_le]
  rw [List.length_drop]
  rw [Nat.mul_succ] at within
  omega

theorem getD_slice {offset : ℕ} (inside : offset < size) (default : Item) :
    (slice size memory place).getD offset default =
      memory.getD (size * place + offset) default := by
  rw [slice, List.getD_eq_getElem?_getD, List.getElem?_take_of_lt inside, List.getElem?_drop,
    ← List.getD_eq_getElem?_getD]

end Slices

/-! ### Memories -/

theorem getElem_memcpy {size offset : ℕ} {bytes : List UInt8} (memory : Vector UInt8 size) {i : ℕ}
    (inside : i < size) :
    (memcpy memory offset bytes)[i] =
      if offset ≤ i ∧ i < offset + bytes.length then bytes.getD (i - offset) 0 else memory[i] :=
  Vector.getElem_ofFn inside

/-- A memory up to the end of what was copied into it. -/
theorem take_memcpy {size offset : ℕ} {bytes : List UInt8} (memory : Vector UInt8 size)
    (fits : offset + bytes.length ≤ size) :
    (memcpy memory offset bytes).toList.take (offset + bytes.length) =
      memory.toList.take offset ++ bytes := by
  have front : (memory.toList.take offset).length = offset := by
    rw [List.length_take_of_le]
    rw [Vector.length_toList]
    omega
  refine List.ext_getElem ?_ fun i first second => ?_
  · rw [List.length_append, front, List.length_take_of_le]
    rwa [Vector.length_toList]
  · have inside : i < offset + bytes.length := by rwa [List.length_append, front] at second
    rw [List.getElem_take, Vector.getElem_toList, getElem_memcpy]
    by_cases before : i < offset
    · rw [if_neg (by omega), List.getElem_append_left (by omega), List.getElem_take,
        Vector.getElem_toList]
    · rw [if_pos (by omega), List.getElem_append_right (by omega),
        List.getD_eq_getElem _ _ (by omega)]
      simp only [front]

/-- A memory that is filled up to its end. -/
theorem toList_memcpy {size offset : ℕ} {bytes : List UInt8} (memory : Vector UInt8 size)
    (fills : offset + bytes.length = size) :
    (memcpy memory offset bytes).toList = memory.toList.take offset ++ bytes := by
  rw [← take_memcpy memory (Nat.le_of_eq fills), fills,
    List.take_of_length_le (Nat.le_of_eq Vector.length_toList)]

/-- The rest of a message that is copied to the front of a memory. -/
theorem take_memcpy_rest {size : ℕ} (positive : 0 < size) (memory : Vector UInt8 size)
    (message : List UInt8) :
    (memcpy memory 0 (Blocks.rest size message)).toList.take (message.length % size) =
      Blocks.rest size message := by
  have fits : 0 + (Blocks.rest size message).length ≤ size := by
    rw [Nat.zero_add]
    exact Nat.le_of_lt (Blocks.rest_lt positive message)
  have copied := take_memcpy memory fits
  rwa [Nat.zero_add, Blocks.length_rest, List.take_zero, List.nil_append] at copied

/-! ### Counts of bits -/

/-- How many bytes of a block of 64 a count of bits leaves over. -/
theorem toNat_bits_mod (length : ℕ) :
    ((BitVec.ofNat 64 (8 * length) >>> 3) &&& (63 : BitVec 64)).toNat = length % 64 := by
  have ones : (63 : BitVec 64).toNat = 2 ^ 6 - 1 := rfl
  rw [BitVec.toNat_and, ones, Nat.and_two_pow_sub_one_eq_mod, BitVec.toNat_ushiftRight,
    BitVec.toNat_ofNat, Nat.shiftRight_eq_div_pow]
  omega

theorem bits_append (first second : List UInt8) :
    BitVec.ofNat 64 (8 * first.length) + BitVec.ofNat 64 second.length <<< 3 =
      BitVec.ofNat 64 (8 * (first ++ second).length) := by
  refine BitVec.eq_of_toNat_eq ?_
  rw [BitVec.toNat_add, BitVec.toNat_shiftLeft, BitVec.toNat_ofNat, BitVec.toNat_ofNat,
    BitVec.toNat_ofNat, List.length_append, Nat.shiftLeft_eq]
  omega

end Words
