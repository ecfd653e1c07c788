/-
This file models the checksums of `String`, `crc24` and `crc16`, and shows that they are
remainders over GF(2).

The register of `crc24` holds the highest power in its highest bit, and the bits of a byte are
taken from the highest. The register of `crc16` is reflected: its lowest bit holds the highest
power, and the bits of a byte are taken from the lowest. Both loops are the one shift register.
-/

import Mathlib.Data.Nat.Bitwise
import Mathlib.Tactic.IntervalCases
import Mathlib.Tactic.Ring
import CommonCpp.Ctype
import CommonCpp.Remainders

namespace CommonCpp

open Ctype Polynomial Remainders

namespace Strings

/-! ### The code -/

def CRC24_INIT : UInt32 := 0xb704ce

def CRC24_POLY : UInt32 := 0x1864cfb

/-- One round of the inner loop of `crc24`. -/
def crc24Bit (crc : UInt32) : UInt32 :=
  let crc := crc <<< 1
  if crc &&& 0x1000000 ≠ 0 then crc ^^^ CRC24_POLY else crc

/-- One round of its outer loop. -/
def crc24Byte (crc : UInt32) (byte : UInt8) : UInt32 :=
  crc24Bit^[8] (crc ^^^ byte.toUInt32 <<< 16)

def crc24 (binary : Text) : UInt32 := binary.foldl crc24Byte CRC24_INIT &&& 0xffffff

/-- One round of the inner loop of `crc16`. -/
def crc16Bit (crc : UInt16) : UInt16 :=
  if crc &&& 1 ≠ 0 then (crc >>> 1) ^^^ 0xa001 else crc >>> 1

/-- One round of its outer loop. -/
def crc16Byte (crc : UInt16) (byte : UInt8) : UInt16 := crc16Bit^[8] (crc ^^^ byte.toUInt16)

def crc16 (binary : Text) : UInt16 := binary.foldl crc16Byte 0xffff

/-! ### The bits of a message and of a register -/

/-- The bits of a byte in the order in which `crc24` takes them. -/
def highBits (byte : UInt8) : List Bool := [7, 6, 5, 4, 3, 2, 1, 0].map byte.toNat.testBit

/-- The bits of a byte in the order in which `crc16` takes them. -/
def lowBits (byte : UInt8) : List Bool := [0, 1, 2, 3, 4, 5, 6, 7].map byte.toNat.testBit

/-- The polynomial in the register of `crc24`. -/
noncomputable def word24 (crc : UInt32) : (ZMod 2)[X] := ofPlaces 24 crc.toNat.testBit

/-- The polynomial in the register of `crc16`. -/
noncomputable def word16 (crc : UInt16) : (ZMod 2)[X] :=
  ofPlaces 16 (fun i => crc.toNat.testBit (15 - i))

noncomputable def generator24 : (ZMod 2)[X] := generator 24 CRC24_POLY.toNat.testBit

noncomputable def generator16 : (ZMod 2)[X] :=
  generator 16 (fun i => (0xa001 : UInt16).toNat.testBit (15 - i))

/-- The places of a byte are its bits, the highest first. -/
theorem ofBits_highBits (byte : UInt8) :
    ofBits (highBits byte) = ofPlaces 8 byte.toNat.testBit := by
  rw [ofBits_eq]
  refine ofPlaces_congr fun i inside => ?_
  have inside : i < 8 := inside
  interval_cases i <;> rfl

/-- A number that is moved up keeps its bits at higher powers. -/
theorem ofPlaces_shiftLeft (n k w : ℕ) :
    ofPlaces (k + w) (n <<< k).testBit = ofPlaces w n.testBit * X ^ k := by
  have low : ofPlaces k (n <<< k).testBit = 0 := by
    refine Finset.sum_eq_zero fun i inside => ?_
    have below := Finset.mem_range.mp inside
    rw [Nat.testBit_shiftLeft, decide_eq_false (by omega), Bool.false_and]
    exact zero_mul _
  have high : (fun i => (n <<< k).testBit (k + i)) = n.testBit := by
    funext i
    rw [Nat.testBit_shiftLeft, decide_eq_true (by omega), Bool.true_and, Nat.add_sub_cancel_left]
  rw [ofPlaces_add, low, add_zero, high]

/-! ### The loop of `crc24` -/

section Crc24

variable {crc : UInt32}

theorem bit_crc24Bit (small : crc.toNat < 2 ^ 24) (i : ℕ) :
    (crc24Bit crc).toNat.testBit i = ((i != 0 && crc.toNat.testBit (i - 1)) ^^
      (crc.toNat.testBit 23 && CRC24_POLY.toNat.testBit i)) := by
  have doubled : (crc <<< 1).toNat = crc.toNat <<< 1 := by
    rw [UInt32.toNat_shiftLeft, show (1 : UInt32).toNat % 32 = 1 from rfl, Nat.shiftLeft_eq]
    exact Nat.mod_eq_of_lt (by omega)
  have moved : ∀ j, (crc <<< 1).toNat.testBit j = (j != 0 && crc.toNat.testBit (j - 1)) := by
    intro j
    rw [doubled, Nat.testBit_shiftLeft]
    cases j <;> rfl
  have leaves : crc <<< 1 &&& 0x1000000 ≠ 0 ↔ crc.toNat.testBit 23 = true := by
    have top := moved 24
    rw [← UInt32.toNat_inj.ne, UInt32.toNat_and, show (0x1000000 : UInt32).toNat = 2 ^ 24 from rfl,
      Nat.and_two_pow, top]
    show ((crc.toNat.testBit 23).toNat * 2 ^ 24 ≠ 0) ↔ _
    cases crc.toNat.testBit 23 <;> simp
  rw [crc24Bit]
  split
  next set => rw [UInt32.toNat_xor, Nat.testBit_xor, moved, leaves.mp set, Bool.true_and]
  next clear => rw [moved, Bool.eq_false_of_not_eq_true (leaves.not.mp clear), Bool.false_and,
      Bool.xor_false]

/-- The highest bit of the generator clears the bit that leaves. -/
theorem crc24Bit_lt (small : crc.toNat < 2 ^ 24) : (crc24Bit crc).toNat < 2 ^ 24 := by
  refine Nat.lt_pow_two_of_testBit _ fun i outside => ?_
  rw [bit_crc24Bit small]
  rcases outside.eq_or_lt with rfl | above
  · show (crc.toNat.testBit 23 ^^ (crc.toNat.testBit 23 && true)) = false
    cases crc.toNat.testBit 23 <;> rfl
  · have before : crc.toNat.testBit (i - 1) = false :=
      Nat.testBit_lt_two_pow (small.trans_le (Nat.pow_le_pow_right (by decide) (by omega)))
    have generator : CRC24_POLY.toNat.testBit i = false :=
      Nat.testBit_lt_two_pow ((by decide : CRC24_POLY.toNat < 2 ^ 25).trans_le
        (Nat.pow_le_pow_right (by decide) above))
    rw [before, generator, Bool.and_false, Bool.and_false]
    rfl

/-- A round of the inner loop shifts the register. -/
theorem word24_crc24Bit (small : crc.toNat < 2 ^ 24) :
    word24 (crc24Bit crc) = shift generator24 (word24 crc) := by
  have shifted := shift_ofPlaces crc.toNat.testBit CRC24_POLY.toNat.testBit 23
  exact (ofPlaces_congr fun i _ => bit_crc24Bit small i).trans shifted.symm

theorem natDegree_generator24 : generator24.natDegree = 24 := natDegree_generator

theorem coeff_generator24 : generator24.coeff 0 ≠ 0 := coeff_generator (by decide) (by decide)

theorem degree_word24 : (word24 crc).degree < generator24.natDegree := by
  rw [natDegree_generator24]
  exact degree_ofPlaces_lt

theorem toNat_shifted (byte : UInt8) : (byte.toUInt32 <<< 16).toNat = byte.toNat <<< 16 := by
  have small := byte.toNat_lt
  rw [UInt32.toNat_shiftLeft, show (16 : UInt32).toNat % 32 = 16 from rfl, UInt8.toNat_toUInt32,
    Nat.shiftLeft_eq]
  exact Nat.mod_eq_of_lt (by omega)

/-- The byte is added to the highest bits of the register. -/
theorem word24_byte (byte : UInt8) :
    word24 (crc ^^^ byte.toUInt32 <<< 16) =
      word24 crc + ofBits (highBits byte) *
        X ^ (generator24.natDegree - (highBits byte).length) := by
  have added : word24 (crc ^^^ byte.toUInt32 <<< 16) =
      ofPlaces 24 (fun i => crc.toNat.testBit i ^^ (byte.toNat <<< 16).testBit i) := by
    refine ofPlaces_congr fun i _ => ?_
    rw [UInt32.toNat_xor, Nat.testBit_xor, toNat_shifted]
  rw [added, ofPlaces_xor, natDegree_generator24, ofBits_highBits]
  show _ = _ + _ * X ^ 16
  rw [← ofPlaces_shiftLeft byte.toNat 16 8]
  rfl

theorem xor_byte_lt (small : crc.toNat < 2 ^ 24) (byte : UInt8) :
    (crc ^^^ byte.toUInt32 <<< 16).toNat < 2 ^ 24 := by
  have bound := byte.toNat_lt
  rw [UInt32.toNat_xor, toNat_shifted]
  refine Nat.xor_lt_two_pow small ?_
  rw [Nat.shiftLeft_eq]
  omega

/-- The register of `crc24`. -/
noncomputable def register24 : Register generator24 UInt32 UInt8 where
  word := word24
  Fits crc := crc.toNat < 2 ^ 24
  round := crc24Bit
  add crc byte := crc ^^^ byte.toUInt32 <<< 16
  bits := highBits
  monic := monic_generator
  degree_lt _ := degree_word24
  fits_round := crc24Bit_lt
  word_round := word24_crc24Bit
  fits_add := xor_byte_lt
  word_add _ := word24_byte
  bits_pos _ := Nat.zero_lt_succ 7
  bits_le _ := natDegree_generator24 ▸ Nat.le_add_left 8 16

theorem INIT_lt : CRC24_INIT.toNat < 2 ^ 24 := by decide

/-- The mask at the end takes nothing away. -/
theorem crc24_eq (binary : Text) : crc24 binary = binary.foldl crc24Byte CRC24_INIT := by
  have small := (register24.word_foldl INIT_lt binary).1
  refine UInt32.toNat_inj.mp ?_
  rw [crc24, UInt32.toNat_and, show (0xffffff : UInt32).toNat = 2 ^ 24 - 1 from rfl,
    Nat.and_two_pow_sub_one_eq_mod]
  exact Nat.mod_eq_of_lt small

theorem word24_inj {crc crc' : UInt32} (small : crc.toNat < 2 ^ 24) (small' : crc'.toNat < 2 ^ 24)
    (same : word24 crc = word24 crc') : crc = crc' := by
  refine UInt32.toNat_inj.mp (Nat.eq_of_testBit_eq fun i => ?_)
  by_cases inside : i < 24
  · exact ofPlaces_inj.mp same i inside
  · have above : 2 ^ 24 ≤ 2 ^ i := Nat.pow_le_pow_right (by decide) (not_lt.mp inside)
    rw [Nat.testBit_lt_two_pow (small.trans_le above),
      Nat.testBit_lt_two_pow (small'.trans_le above)]

/-- The three bytes of a checksum, the highest first. -/
def crc24Text (crc : UInt32) : Text := [(crc >>> 16).toUInt8, (crc >>> 8).toUInt8, crc.toUInt8]

theorem length_crc24Text (crc : UInt32) : ((crc24Text crc).flatMap highBits).length = 24 := rfl

theorem word24_zero : word24 0 = 0 := by simp [word24, ofPlaces, bit]

theorem ofBits_crc24Text (crc : UInt32) :
    ofBits ((crc24Text crc).flatMap highBits) = word24 crc := by
  have part : ∀ k : ℕ, k < 32 → ofPlaces 8 (crc >>> UInt32.ofNat k).toUInt8.toNat.testBit =
      ofPlaces 8 (fun i => crc.toNat.testBit (k + i)) := by
    intro k inside
    refine ofPlaces_congr fun i below => ?_
    rw [UInt32.toNat_toUInt8, Nat.testBit_mod_two_pow, decide_eq_true below, Bool.true_and,
      UInt32.toNat_shiftRight, Nat.testBit_shiftRight, UInt32.toNat_ofNat',
      Nat.mod_eq_of_lt (inside.trans (by decide)), Nat.mod_eq_of_lt inside]
  have last : ofPlaces 8 crc.toUInt8.toNat.testBit = ofPlaces 8 crc.toNat.testBit := by
    refine ofPlaces_congr fun i below => ?_
    rw [UInt32.toNat_toUInt8, Nat.testBit_mod_two_pow, decide_eq_true below, Bool.true_and]
  have whole : word24 crc = ofPlaces 8 (fun i => crc.toNat.testBit (16 + i)) * X ^ 16 +
      (ofPlaces 8 (fun i => crc.toNat.testBit (8 + i)) * X ^ 8 +
        ofPlaces 8 crc.toNat.testBit) := by
    rw [← ofPlaces_add 8 8, ← ofPlaces_add 16 8]
    rfl
  rw [whole, ← part 16 (by decide), ← part 8 (by decide), ← last, ← ofBits_highBits,
    ← ofBits_highBits, ← ofBits_highBits, crc24Text, List.flatMap_cons, List.flatMap_cons,
    List.flatMap_cons, List.flatMap_nil, List.append_nil, ofBits_append, ofBits_append]
  rfl

end Crc24

/-! ### The loop of `crc16` -/

section Crc16

variable {crc : UInt16}

theorem bit_crc16Bit (i : ℕ) :
    (crc16Bit crc).toNat.testBit i =
      (crc.toNat.testBit (i + 1) ^^
        (crc.toNat.testBit 0 && (0xa001 : UInt16).toNat.testBit i)) := by
  have moved : (crc >>> 1).toNat.testBit i = crc.toNat.testBit (i + 1) := by
    rw [UInt16.toNat_shiftRight, show (1 : UInt16).toNat % 16 = 1 from rfl,
      Nat.testBit_shiftRight, Nat.add_comm]
  have leaves : crc &&& 1 ≠ 0 ↔ crc.toNat.testBit 0 = true := by
    rw [← UInt16.toNat_inj.ne, UInt16.toNat_and, show (1 : UInt16).toNat = 2 ^ 0 from rfl,
      Nat.and_two_pow]
    show ((crc.toNat.testBit 0).toNat * 2 ^ 0 ≠ 0) ↔ _
    cases crc.toNat.testBit 0 <;> simp
  rw [crc16Bit]
  split
  next set => rw [UInt16.toNat_xor, Nat.testBit_xor, moved, leaves.mp set, Bool.true_and]
  next clear => rw [moved, Bool.eq_false_of_not_eq_true (leaves.not.mp clear), Bool.false_and,
      Bool.xor_false]

/-- A round of the inner loop shifts the reflected register. -/
theorem word16_crc16Bit (crc : UInt16) :
    word16 (crc16Bit crc) = shift generator16 (word16 crc) := by
  have bits : ∀ i < 16, (crc16Bit crc).toNat.testBit (15 - i) =
      ((i != 0 && crc.toNat.testBit (15 - (i - 1))) ^^
        (crc.toNat.testBit (15 - 15) && (0xa001 : UInt16).toNat.testBit (15 - i))) := by
    intro i inside
    rw [bit_crc16Bit]
    congr 1
    cases i with
    | zero => exact Nat.testBit_lt_two_pow crc.toNat_lt
    | succ i =>
      rw [show 15 - (i + 1) + 1 = 15 - i by omega]
      rfl
  have shifted := shift_ofPlaces (fun i => crc.toNat.testBit (15 - i))
    (fun i => (0xa001 : UInt16).toNat.testBit (15 - i)) 15
  exact (ofPlaces_congr bits).trans shifted.symm

theorem natDegree_generator16 : generator16.natDegree = 16 := natDegree_generator

theorem coeff_generator16 : generator16.coeff 0 ≠ 0 := coeff_generator (by decide) (by decide)

theorem degree_word16 : (word16 crc).degree < generator16.natDegree := by
  rw [natDegree_generator16]
  exact degree_ofPlaces_lt

/-- The places of a byte are its bits, the lowest first. -/
theorem ofBits_lowBits (byte : UInt8) :
    ofBits (lowBits byte) = ofPlaces 8 (fun i => byte.toNat.testBit (7 - i)) := by
  rw [ofBits_eq]
  refine ofPlaces_congr fun i inside => ?_
  have inside : i < 8 := inside
  interval_cases i <;> rfl

/-- The places of a reflected register, in two bytes. -/
theorem ofPlaces_reflected (n : ℕ) :
    ofPlaces 16 (fun i => n.testBit (15 - i)) =
      ofPlaces 8 (fun i => n.testBit (7 - i)) * X ^ 8 +
        ofPlaces 8 (fun i => (n >>> 8).testBit (7 - i)) := by
  have high : ofPlaces 8 (fun i => n.testBit (15 - (8 + i))) =
      ofPlaces 8 (fun i => n.testBit (7 - i)) := by
    refine ofPlaces_congr fun i _ => ?_
    rw [show 15 - (8 + i) = 7 - i by omega]
  have low : ofPlaces 8 (fun i => n.testBit (15 - i)) =
      ofPlaces 8 (fun i => (n >>> 8).testBit (7 - i)) := by
    refine ofPlaces_congr fun i inside => ?_
    rw [Nat.testBit_shiftRight, show 8 + (7 - i) = 15 - i by omega]
  rw [← high, ← low]
  exact ofPlaces_add 8 8 (fun i => n.testBit (15 - i))

/-- The byte is added to the lowest bits of the register, which are at the highest powers. -/
theorem word16_byte (crc : UInt16) (byte : UInt8) :
    word16 (crc ^^^ byte.toUInt16) =
      word16 crc + ofBits (lowBits byte) *
        X ^ (generator16.natDegree - (lowBits byte).length) := by
  have added : word16 (crc ^^^ byte.toUInt16) =
      ofPlaces 16 (fun i => crc.toNat.testBit (15 - i) ^^ byte.toNat.testBit (15 - i)) := by
    refine ofPlaces_congr fun i _ => ?_
    rw [UInt16.toNat_xor, Nat.testBit_xor, UInt8.toNat_toUInt16]
  have low : ofPlaces 8 (fun i => (byte.toNat >>> 8).testBit (7 - i)) = 0 := by
    rw [Nat.shiftRight_eq_div_pow, Nat.div_eq_of_lt byte.toNat_lt]
    refine Finset.sum_eq_zero fun i _ => ?_
    show bit (Nat.testBit 0 (7 - i)) * _ = 0
    rw [Nat.zero_testBit]
    exact zero_mul _
  rw [added, ofPlaces_xor, ofPlaces_reflected byte.toNat, low, add_zero, natDegree_generator16,
    ofBits_lowBits]
  rfl

/-- The register of `crc16`. -/
noncomputable def register16 : Register generator16 UInt16 UInt8 where
  word := word16
  Fits _ := True
  round := crc16Bit
  add crc byte := crc ^^^ byte.toUInt16
  bits := lowBits
  monic := monic_generator
  degree_lt _ := degree_word16
  fits_round _ := trivial
  word_round _ := word16_crc16Bit _
  fits_add _ _ := trivial
  word_add := word16_byte
  bits_pos _ := Nat.zero_lt_succ 7
  bits_le _ := natDegree_generator16 ▸ Nat.le_add_left 8 8

theorem word16_inj {crc crc' : UInt16} (same : word16 crc = word16 crc') : crc = crc' := by
  refine UInt16.toNat_inj.mp (Nat.eq_of_testBit_eq fun i => ?_)
  by_cases inside : i < 16
  · have equal := ofPlaces_inj.mp same (15 - i) (by omega)
    rwa [show 15 - (15 - i) = i by omega] at equal
  · have above : 2 ^ 16 ≤ 2 ^ i := Nat.pow_le_pow_right (by decide) (not_lt.mp inside)
    rw [Nat.testBit_lt_two_pow (crc.toNat_lt.trans_le above),
      Nat.testBit_lt_two_pow (crc'.toNat_lt.trans_le above)]

/-- The two bytes of a checksum, the lowest first. -/
def crc16Text (crc : UInt16) : Text := [crc.toUInt8, (crc >>> 8).toUInt8]

theorem length_crc16Text (crc : UInt16) : ((crc16Text crc).flatMap lowBits).length = 16 := rfl

theorem word16_zero : word16 0 = 0 := by simp [word16, ofPlaces, bit]

theorem ofBits_crc16Text (crc : UInt16) :
    ofBits ((crc16Text crc).flatMap lowBits) = word16 crc := by
  have first : ofPlaces 8 (fun i => crc.toUInt8.toNat.testBit (7 - i)) =
      ofPlaces 8 (fun i => crc.toNat.testBit (7 - i)) := by
    refine ofPlaces_congr fun i _ => ?_
    rw [UInt16.toNat_toUInt8, Nat.testBit_mod_two_pow, decide_eq_true (by omega), Bool.true_and]
  have second : ofPlaces 8 (fun i => (crc >>> 8).toUInt8.toNat.testBit (7 - i)) =
      ofPlaces 8 (fun i => (crc.toNat >>> 8).testBit (7 - i)) := by
    refine ofPlaces_congr fun i _ => ?_
    rw [UInt16.toNat_toUInt8, Nat.testBit_mod_two_pow, decide_eq_true (by omega), Bool.true_and,
      UInt16.toNat_shiftRight, show (8 : UInt16).toNat % 16 = 8 from rfl]
  rw [word16, ofPlaces_reflected, ← first, ← second, ← ofBits_lowBits, ← ofBits_lowBits, crc16Text,
    List.flatMap_cons, List.flatMap_cons, List.flatMap_nil, List.append_nil, ofBits_append]
  rfl

end Crc16

/-! ### Remainders -/

/-- Two messages whose bits, in the order of `bits`, differ in a row of at most so many bits. -/
def Burst (bits : UInt8 → List Bool) (width : ℕ) (m m' : Text) : Prop :=
  ∃ front d d' rear, m.flatMap bits = front ++ d ++ rear ∧
    m'.flatMap bits = front ++ d' ++ rear ∧ d.length = d'.length ∧ d.length ≤ width ∧ d ≠ d'

/-- The checksums are the remainders of the message, with the first register added to its first
bits; a message with its own checksum behind it has checksum zero, and a short burst changes the
checksum. -/
theorem crcs_are_remainders :
    (∀ m, crc24 m < 0x1000000 ∧
      word24 (crc24 m) = remainder generator24 (word24 CRC24_INIT) (m.flatMap highBits)) ∧
    (∀ m, word16 (crc16 m) = remainder generator16 (word16 0xffff) (m.flatMap lowBits)) ∧
    (∀ m, crc24 (m ++ crc24Text (crc24 m)) = 0) ∧
    (∀ m, crc16 (m ++ crc16Text (crc16 m)) = 0) ∧
    (∀ m m', Burst highBits 24 m m' → crc24 m ≠ crc24 m') ∧
    (∀ m m', Burst lowBits 16 m m' → crc16 m ≠ crc16 m') := by
  refine ⟨fun m => ?_, fun m => ?_, fun m => ?_, fun m => ?_, fun m m' burst => ?_,
    fun m m' burst => ?_⟩
  · rw [crc24_eq]
    exact register24.word_foldl INIT_lt m
  · exact (register16.word_foldl trivial m).2
  · have fits := (register24.word_foldl INIT_lt m).1
    rw [crc24_eq, crc24_eq, List.foldl_append]
    refine word24_inj (register24.word_foldl fits _).1 (by decide) ?_
    refine (register24.word_own fits
      ((length_crc24Text _).trans natDegree_generator24.symm) (ofBits_crc24Text _)).trans ?_
    exact word24_zero.symm
  · refine word16_inj ?_
    rw [crc16, List.foldl_append]
    refine (register16.word_own trivial
      ((length_crc16Text _).trans natDegree_generator16.symm) (ofBits_crc16Text _)).trans ?_
    exact word16_zero.symm
  · obtain ⟨front, d, d', rear, bits, bits', length, short, differ⟩ := burst
    rw [crc24_eq, crc24_eq]
    exact register24.foldl_ne INIT_lt coeff_generator24 bits bits' length
      (short.trans_eq natDegree_generator24.symm) differ
  · obtain ⟨front, d, d', rear, bits, bits', length, short, differ⟩ := burst
    exact register16.foldl_ne trivial coeff_generator16 bits bits' length
      (short.trans_eq natDegree_generator16.symm) differ

theorem crcs_of_two_digits :
    crc24 [0x31, 0x32] ≠ crc24 [0x31, 0x33] ∧ crc16 [0x31, 0x32] ≠ crc16 [0x31, 0x33] :=
  ⟨crcs_are_remainders.2.2.2.2.1 _ _
      ⟨highBits 0x31, highBits 0x32, highBits 0x33, [], rfl, rfl, rfl, by decide, by decide⟩,
    crcs_are_remainders.2.2.2.2.2 _ _
      ⟨lowBits 0x31, lowBits 0x32, lowBits 0x33, [], rfl, rfl, rfl, by decide, by decide⟩⟩

end Strings

end CommonCpp
