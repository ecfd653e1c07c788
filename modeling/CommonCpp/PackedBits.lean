/-
This file gives the bits of a string of bytes where the lowest bit of each byte comes first, and
how one of them is tested and put with a mask.

A place is a byte and a bit of it. The mask of a place has this bit alone. To put it changes the
bit at this place and at no other.
-/

import Mathlib.Data.List.GetD
import Mathlib.Data.Nat.Bitwise
import Mathlib.Tactic.Common

namespace PackedBits

/-- The bit of a byte that belongs to a place. -/
def mask (place : ℕ) : UInt8 := 1 <<< UInt8.ofNat (place % 8)

/-- The bit at a place, which is clear behind the bytes. -/
def bit (bytes : List UInt8) (place : ℕ) : Bool :=
  (bytes.getD (place / 8) 0).toNat.testBit (place % 8)

/-- A byte with the bits of a mask put to one value. -/
def put (mode : Bool) (byte mask : UInt8) : UInt8 :=
  if mode then byte ||| mask else byte &&& ~~~mask

variable {bytes : List UInt8} {byte : UInt8} {place other : ℕ}

theorem bit_of_le (behind : bytes.length ≤ place / 8) : bit bytes place = false := by
  rw [bit, List.getD_eq_default _ _ behind]
  exact Nat.zero_testBit _

theorem toNat_mask (place : ℕ) : (mask place).toNat = 2 ^ (place % 8) := by
  have all : ∀ n < 8, ((1 : UInt8) <<< UInt8.ofNat n).toNat = 2 ^ n := by decide
  exact all _ (Nat.mod_lt _ (by decide))

theorem testBit_mask (place other : ℕ) :
    (mask place).toNat.testBit (other % 8) = decide (place % 8 = other % 8) := by
  rw [toNat_mask, Nat.testBit_two_pow]

theorem testBit_not_mask (place other : ℕ) :
    (~~~mask place).toNat.testBit (other % 8) = !decide (place % 8 = other % 8) := by
  have all : ∀ n < 8, ∀ m < 8, (~~~((1 : UInt8) <<< UInt8.ofNat n)).toNat.testBit m =
      !decide (n = m) := by decide
  exact all _ (Nat.mod_lt _ (by decide)) _ (Nat.mod_lt _ (by decide))

/-- A mask tests the bit at its place. -/
theorem test_mask (byte : UInt8) (place : ℕ) :
    byte &&& mask place ≠ 0 ↔ byte.toNat.testBit (place % 8) = true := by
  rw [Ne, ← UInt8.toNat_inj, UInt8.toNat_and, toNat_mask, Nat.and_two_pow]
  cases byte.toNat.testBit (place % 8) with
  | false => simp
  | true => simp

theorem testBit_put (mode : Bool) (byte : UInt8) (place other : ℕ) :
    (put mode byte (mask place)).toNat.testBit (other % 8) =
      if place % 8 = other % 8 then mode else byte.toNat.testBit (other % 8) := by
  cases mode with
  | true =>
    rw [put, if_pos rfl, UInt8.toNat_or, Nat.testBit_or, testBit_mask]
    by_cases same : place % 8 = other % 8
    · rw [if_pos same, decide_eq_true same, Bool.or_true]
    · rw [if_neg same, decide_eq_false same, Bool.or_false]
  | false =>
    rw [put, if_neg Bool.false_ne_true, UInt8.toNat_and, Nat.testBit_and, testBit_not_mask]
    by_cases same : place % 8 = other % 8
    · rw [if_pos same, decide_eq_true same, Bool.not_true, Bool.and_false]
    · rw [if_neg same, decide_eq_false same, Bool.not_false, Bool.and_true]

/-- To put a bit changes no other. -/
theorem bit_put (mode : Bool) (within : place / 8 < bytes.length) (other : ℕ) :
    bit (bytes.set (place / 8) (put mode (bytes.getD (place / 8) 0) (mask place))) other =
      if other = place then mode else bit bytes other := by
  by_cases sameByte : other / 8 = place / 8
  · rw [bit, sameByte, List.getD_eq_getElem?_getD, List.getElem?_set_self within, Option.getD_some,
      testBit_put]
    by_cases sameBit : place % 8 = other % 8
    · rw [if_pos sameBit, if_pos (by omega)]
    · rw [if_neg sameBit, if_neg (by omega), bit, sameByte]
  · have apart : other ≠ place := fun same => sameByte (by rw [same])
    rw [if_neg apart]
    simp only [bit, List.getD_eq_getElem?_getD, List.getElem?_set_ne (Ne.symm sameByte)]

end PackedBits
