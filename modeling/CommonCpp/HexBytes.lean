/-
This file settles how many bytes `hex2bin` writes, against the pairs of digits that `hexcount`
counts.

Both functions read the same pairs of every text. But `hex2bin` tests its bound only behind the
byte that it has written, and with the number of those before it, so that it writes one byte more
than it may when there are so many pairs.

Sizes are those of things in memory and do not wrap.
-/

import CommonCpp.StringEncodes

namespace CommonCpp

open Bytes Ctype Hex

namespace Strings

/-! ### The code -/

/-- `hexcount(const char *, bool)`. -/
def hexcount (ws : Bool) : Text → ℕ
  | [] => 0
  | char :: str =>
    if char = 0 then 0
    else if ws ∧ isspace char then hexcount ws str
    else
      match str with
      | [] => 0
      | char' :: str =>
        if hexcode char < 0 ∨ hexcode char' < 0 then 0 else hexcount ws str + 1

/-- `typeref<const uint8_t *>::hex`: what is in its memory, where `junk` was before, and nothing
when there is no pair. -/
def typerefHex (ws : Bool) (str junk : Text) : Option Text :=
  let size := hexcount ws str
  if size = 0 then none else some ((move junk 0 (hex2bin ws size 0 str).1).take size)

/-! ### Pairs of digits -/

/-- The value of a hex digit of either case. -/
def hexvalue (char : UInt8) : Option ℕ :=
  if 0x30 ≤ char ∧ char ≤ 0x39 then some (char.toNat - 0x30)
  else if 0x41 ≤ char ∧ char ≤ 0x46 then some (char.toNat - 0x41 + 10)
  else if 0x61 ≤ char ∧ char ≤ 0x66 then some (char.toNat - 0x61 + 10)
  else none

/-- The bytes of the pairs of digits a text starts with. White space may stand between the pairs,
where it is allowed. -/
def pairs (ws : Bool) : Text → List UInt8
  | [] => []
  | char :: text =>
    if ws ∧ isspace char then pairs ws text
    else
      match text with
      | [] => []
      | char' :: text =>
        match hexvalue char, hexvalue char' with
        | some hi, some lo => UInt8.ofNat (16 * hi + lo) :: pairs ws text
        | _, _ => []

theorem hexcode_eq (char : UInt8) : hexcode char = (hexvalue char).elim (-1) fun v => (v : ℤ) := by
  have all : ∀ n < 256, hexcode (UInt8.ofNat n) =
      (hexvalue (UInt8.ofNat n)).elim (-1) fun v => (v : ℤ) := by decide +kernel
  have this := all char.toNat char.toNat_lt
  rwa [UInt8.ofNat_toNat] at this

theorem hexvalue_lt {char : UInt8} {value : ℕ} (digit : hexvalue char = some value) :
    value < 16 := by
  have all : ∀ n < 256, ((hexvalue (UInt8.ofNat n)).all fun v => decide (v < 16)) = true := by
    decide +kernel
  have this := all char.toNat char.toNat_lt
  rw [UInt8.ofNat_toNat, digit] at this
  exact of_decide_eq_true this

theorem byte_of_digits {hi lo : ℕ} (small : lo < 16) :
    UInt8.ofNat ((hi : ℤ).toNat <<< 4 ||| (lo : ℤ).toNat) = UInt8.ofNat (16 * hi + lo) := by
  rw [Int.toNat_natCast, Int.toNat_natCast, ← Nat.shiftLeft_add_eq_or_of_lt (by exact small),
    Nat.shiftLeft_eq, Nat.mul_comm]

/-! ### The scanners -/

theorem hexcode_digit {char : UInt8} {value : ℕ} (digit : hexvalue char = some value) :
    hexcode char = value := by
  rw [hexcode_eq, digit]
  rfl

theorem ne_null_of_digit {char : UInt8} {value : ℕ} (digit : hexvalue char = some value) :
    char ≠ 0 := by
  rintro rfl
  have none_ : hexvalue 0 = none := by decide
  exact nomatch none_.symm.trans digit

/-- Where there is no pair of digits, one of the codes is that of an error. -/
theorem hexcode_neg {char char' : UInt8}
    (other : ∀ hi lo, hexvalue char = some hi → hexvalue char' = some lo → False) :
    hexcode char < 0 ∨ hexcode char' < 0 := by
  rw [hexcode_eq, hexcode_eq]
  rcases high : hexvalue char with _ | hi
  · exact Or.inl (by decide)
  · rcases low : hexvalue char' with _ | lo
    · exact Or.inr (by decide)
    · exact (other hi lo high low).elim

/-- `hexcount` counts the pairs. -/
theorem hexcount_eq (ws : Bool) (text : Text) : hexcount ws text = (pairs ws text).length := by
  fun_induction pairs ws text with
  | case1 => rfl
  | case2 char text space inductionHypothesis =>
    have visible : char ≠ 0 := fun null => absurd (null ▸ space.2) (by decide)
    rw [hexcount.eq_def]
    dsimp only
    rw [if_neg visible, if_pos space, inductionHypothesis]
  | case3 char dark =>
    rw [hexcount.eq_def]
    dsimp only
    rw [if_neg dark, ite_self]
    rfl
  | case4 char dark char' text hi lo low high inductionHypothesis =>
    have digits : ¬ (hexcode char < 0 ∨ hexcode char' < 0) := by
      rw [hexcode_digit high, hexcode_digit low]
      omega
    rw [hexcount.eq_def]
    dsimp only
    rw [if_neg (ne_null_of_digit high), if_neg dark, if_neg digits, inductionHypothesis]
    rfl
  | case5 char dark char' text other =>
    rw [hexcount.eq_def]
    dsimp only
    rw [if_neg dark, if_pos (hexcode_neg other), ite_self]
    rfl

/-- `hex2bin` writes the bytes of the pairs, and one more than the bound allows. -/
theorem hex2bin_eq (ws : Bool) (text : Text) {max out : ℕ} (before : out ≤ max) :
    (hex2bin ws max out text).1 = (pairs ws text).take (max + 1 - out) := by
  fun_induction pairs ws text generalizing out with
  | case1 => rw [hex2bin, List.take_nil]
  | case2 char text space inductionHypothesis =>
    have visible : char ≠ 0 := fun null => absurd (null ▸ space.2) (by decide)
    rw [hex2bin.eq_def]
    dsimp only
    rw [if_neg visible, if_pos space]
    exact inductionHypothesis before
  | case3 char dark =>
    rw [hex2bin.eq_def]
    dsimp only
    rw [if_neg dark, ite_self, List.take_nil]
  | case4 char dark char' text hi lo low high inductionHypothesis =>
    have digits : ¬ (hexcode char < 0 ∨ hexcode char' < 0) := by
      rw [hexcode_digit high, hexcode_digit low]
      omega
    rw [hex2bin.eq_def]
    dsimp only
    rw [if_neg (ne_null_of_digit high), if_neg dark, if_neg digits, hexcode_digit high,
      hexcode_digit low, byte_of_digits (hexvalue_lt low)]
    split
    next last =>
      rw [show max + 1 - out = 1 by omega]
      rfl
    next more =>
      rw [show max + 1 - out = max + 1 - (out + 1) + 1 by omega, List.take_succ_cons,
        ← inductionHypothesis (by omega)]
  | case5 char dark char' text other =>
    rw [hex2bin.eq_def]
    dsimp only
    rw [if_neg dark, if_pos (hexcode_neg other), ite_self, List.take_nil]

/-- The digits of some bytes are their pairs, up to the null. -/
theorem pairs_flatMap (ws : Bool) (binary : List UInt8) (after : Text) :
    pairs ws (binary.flatMap hexbyte ++ 0 :: after) = binary := by
  let max := binary.length + (pairs ws (binary.flatMap hexbyte ++ 0 :: after)).length
  have read := hex2bin_flatMap ws binary after (show 0 + binary.length ≤ max by omega)
  have written := hex2bin_eq ws (binary.flatMap hexbyte ++ 0 :: after) (Nat.zero_le max)
  rw [read, List.take_of_length_le (by omega)] at written
  exact written.symm

/-- With the number of pairs for a bound, all of them are decoded. -/
theorem hex2bin_all (ws : Bool) (text : Text) :
    (hex2bin ws (hexcount ws text) 0 text).1 = pairs ws text := by
  rw [hex2bin_eq ws text (Nat.zero_le _), hexcount_eq]
  exact List.take_of_length_le (by omega)

/-! ### The bound -/

/-- `hex2bin` writes the first pairs, as many as there are and the bound allows, and nothing behind
the bound. -/
def Bounded (ws : Bool) (max : ℕ) (text : Text) : Prop :=
  let bin := (hex2bin ws max 0 text).1
  bin.length = min (hexcount ws text) max ∧
    bin = (pairs ws text).take (min (hexcount ws text) max) ∧ bin.length ≤ max

theorem bounded_iff_le (ws : Bool) (max : ℕ) (text : Text) :
    Bounded ws max text ↔ hexcount ws text ≤ max := by
  rw [Bounded, hex2bin_eq ws text (Nat.zero_le max), hexcount_eq, Nat.sub_zero, List.length_take]
  constructor
  · rintro ⟨-, -, inside⟩
    omega
  · intro fits
    refine ⟨by omega, ?_, by omega⟩
    rw [Nat.min_eq_left fits, List.take_length, List.take_of_length_le (by omega)]

/-- The bound holds only for a text that has no more pairs; the pairs that are counted are those
that are decoded, as `typeref::hex` does, and the digits of bytes are decoded to these. -/
theorem hex2bin_bounded_iff (ws : Bool) (max : ℕ) (text : Text) :
    (Bounded ws max text ↔ hexcount ws text ≤ max) ∧
    (hex2bin ws (hexcount ws text) 0 text).1 = pairs ws text ∧
    (∀ junk, typerefHex ws text junk = if pairs ws text = [] then none else some (pairs ws text)) ∧
    (∀ binary after, let text := binary.flatMap hexbyte ++ 0 :: after
      hexcount ws text = binary.length ∧ (hex2bin ws (hexcount ws text) 0 text).1 = binary) := by
  refine ⟨bounded_iff_le ws max text, hex2bin_all ws text, fun junk => ?_,
    fun binary after => ⟨?_, ?_⟩⟩
  · rw [typerefHex, hex2bin_all, hexcount_eq, move, List.take_zero, List.nil_append]
    rw [List.take_left]
    exact if_congr List.length_eq_zero_iff rfl rfl
  · rw [hexcount_eq, pairs_flatMap]
  · rw [hex2bin_all, pairs_flatMap]

/-- A bound of one byte lets two be written. -/
theorem hex2bin_overruns :
    (hex2bin false 1 0 [0x34, 0x31, 0x34, 0x32]).1 = [0x41, 0x42] ∧
      ¬ Bounded false 1 [0x34, 0x31, 0x34, 0x32] := by
  refine ⟨by decide, ?_⟩
  rintro ⟨-, -, inside⟩
  exact absurd inside (by decide)

end Strings

end CommonCpp
