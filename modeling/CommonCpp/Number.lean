/-
This file models the numbers that stand in a text at a fixed width: `Number`, which
reads one, and `ZNumber`, which writes one with leading zeros.

A number that has no more digits than the width is written as the digits at its
places, and read back from them.
-/

import CommonCpp.Ctype

namespace CommonCpp

open Ctype

/-! ### The code -/

namespace Number

/-- The loop of `get`, up to the end of the number or a character that is no digit. -/
def getLoop : ℕ → Text → ℤ → ℤ
  | 0, _, ret => ret
  | _ + 1, [], ret => ret
  | count + 1, char :: bp, ret =>
    if isdigit char then getLoop count bp (ret * 10 + (char.toNat - 0x30)) else ret

def get (size : ℕ) (buffer : Text) : ℤ :=
  if buffer.head? = some 0x2d then -getLoop (size - 1) buffer.tail 0
  else if buffer.head? = some 0x2b then getLoop (size - 1) buffer.tail 0
  else getLoop size buffer 0

end Number

namespace ZNumber

/-- The loop of `set`, in which `max` is a power of ten. -/
def setLoop : ℕ → ℤ → Text
  | 0, _ => []
  | exp + 1, value =>
    let max := 10 ^ exp
    (0x30 + UInt8.ofInt (value / max)) :: setLoop exp (value - value / max * max)

/-- What is written at the start of the buffer. -/
def set (size : ℕ) (value : ℤ) : Text :=
  if value < 0 then 0x2d :: setLoop (size - 1) (-value) else setLoop size value

end ZNumber

/-! ### Numbers that fit -/

/-- The character that is written for the first place of a number. -/
theorem place_char {size value : ℕ} (small : value < 10 ^ (size + 1)) :
    0x30 + UInt8.ofInt ((value : ℤ) / 10 ^ size) = digit (value / 10 ^ size % 10) := by
  have leading : value / 10 ^ size < 10 := Nat.div_lt_of_lt_mul (by rwa [pow_succ] at small)
  have quotient : (value : ℤ) / 10 ^ size = (value / 10 ^ size : ℕ) := by push_cast; rfl
  have same : (((value / 10 ^ size : ℕ) : ℤ) % 2 ^ 8).toNat = value / 10 ^ size := by
    clear quotient
    generalize value / 10 ^ size = place at leading
    omega
  rw [quotient, Nat.mod_eq_of_lt leading, digit, UInt8.ofInt, same, UInt8.ofNat_add]
  rfl

/-- What is left of a number behind its first place. -/
theorem place_left (size value : ℕ) :
    (value : ℤ) - value / 10 ^ size * 10 ^ size = (value % 10 ^ size : ℕ) := by
  have whole : ((value / 10 ^ size * 10 ^ size + value % 10 ^ size : ℕ) : ℤ) = value :=
    congrArg Nat.cast (Nat.div_add_mod' value (10 ^ size))
  push_cast at whole ⊢
  omega

/-- The loop writes the digits of a number that has no more than the width. -/
theorem ZNumber.setLoop_eq {size value : ℕ} (small : value < 10 ^ size) :
    setLoop size value = decimal size value := by
  induction size generalizing value with
  | zero => rfl
  | succ size inductionHypothesis =>
    have less : value % 10 ^ size < 10 ^ size := Nat.mod_lt _ (Nat.pow_pos (by decide))
    show (0x30 + UInt8.ofInt ((value : ℤ) / 10 ^ size)) ::
      setLoop size (value - value / 10 ^ size * 10 ^ size) = _
    rw [decimal, place_char small, place_left, inductionHypothesis less, decimal_mod le_rfl]

/-- A number that has no more digits than the width is written as its digits. -/
theorem ZNumber.set_eq_decimal {size value : ℕ} (small : value < 10 ^ size) :
    set size value = decimal size value := by
  have positive : ¬ (value : ℤ) < 0 := not_lt.mpr (Int.natCast_nonneg value)
  rw [set, if_neg positive, setLoop_eq small]

/-- Where a digit stands, `get` finds no sign. -/
theorem Number.get_digit_cons {size value : ℕ} (small : value < 10) (rest : Text) :
    get (size + 1) (digit value :: rest) = getLoop size rest value := by
  have unsigned : digit value ≠ 0x2d ∧ digit value ≠ 0x2b := by
    simp only [ne_eq, ← UInt8.toNat_inj, toNat_digit small, UInt8.reduceToNat]
    omega
  have head : (digit value :: rest).head? = some (digit value) := rfl
  rw [get, head, if_neg (by simpa using unsigned.1), if_neg (by simpa using unsigned.2), getLoop,
    if_pos (isdigit_digit small), toNat_digit small]
  congr 1
  omega

/-- The loop reads the digits of a number, and goes on behind them. -/
theorem Number.getLoop_append {size value : ℕ} (small : value < 10 ^ size) (more : ℕ) (rest : Text)
    (ret : ℤ) : getLoop (size + more) (decimal size value ++ rest) ret =
      getLoop more rest (ret * 10 ^ size + value) := by
  induction size generalizing value ret with
  | zero =>
    have none_ : value = 0 := by omega
    simp [decimal, none_]
  | succ size inductionHypothesis =>
    have leading : value / 10 ^ size < 10 :=
      Nat.div_lt_of_lt_mul (by rwa [pow_succ] at small)
    have less : value % 10 ^ size < 10 ^ size := Nat.mod_lt _ (Nat.pow_pos (by decide))
    have last : value / 10 ^ size % 10 < 10 := Nat.mod_lt _ (by decide)
    rw [Nat.add_right_comm, decimal, List.cons_append, getLoop, if_pos (isdigit_digit last),
      toNat_digit last, ← decimal_mod le_rfl value, inductionHypothesis less,
      Nat.mod_eq_of_lt leading]
    have whole : ((10 ^ size * (value / 10 ^ size) + value % 10 ^ size : ℕ) : ℤ) = value :=
      congrArg Nat.cast (Nat.div_add_mod value (10 ^ size))
    congr 1
    rw [← whole]
    push_cast
    ring

/-- The loop reads the digits of a number that has no more. -/
theorem Number.getLoop_decimal {size value : ℕ} (small : value < 10 ^ size) (rest : Text)
    (ret : ℤ) : getLoop size (decimal size value ++ rest) ret = ret * 10 ^ size + value :=
  getLoop_append small 0 rest ret

/-- A number that has no more digits than the width is read back. -/
theorem Number.get_decimal {size value : ℕ} (small : value < 10 ^ size) (rest : Text)
    (sized : 0 < size) : get size (decimal size value ++ rest) = value := by
  obtain ⟨width, rfl⟩ : ∃ width, size = width + 1 := ⟨size - 1, by omega⟩
  have last : value / 10 ^ width % 10 < 10 := Nat.mod_lt _ (by decide)
  have leading : value / 10 ^ width < 10 := Nat.div_lt_of_lt_mul (by rwa [pow_succ] at small)
  have less : value % 10 ^ width < 10 ^ width := Nat.mod_lt _ (Nat.pow_pos (by decide))
  rw [decimal, List.cons_append, get_digit_cons last, ← decimal_mod le_rfl value,
    getLoop_decimal less, Nat.mod_eq_of_lt leading]
  have whole : ((value / 10 ^ width * 10 ^ width + value % 10 ^ width : ℕ) : ℤ) = value :=
    congrArg Nat.cast (Nat.div_add_mod' value (10 ^ width))
  rw [← whole]
  push_cast
  rfl

end CommonCpp
