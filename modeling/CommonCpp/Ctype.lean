/-
This file gives the functions of the C library that the texts of this library rest on:
the classes of characters, the change of case, and the reading of numbers.

They are those of the "C" locale, where only the characters of ASCII are letters,
digits or white space. A text is the bytes before its null, or a longer part of the
memory it stands in, whose null ends what is read.
-/

import Mathlib.Tactic.Common
import Mathlib.Tactic.Ring
import Mathlib.Data.Nat.ModEq

namespace CommonCpp

/-- The bytes of a text. -/
abbrev Text := List UInt8

namespace Ctype

def isdigit (char : UInt8) : Bool := 0x30 ≤ char ∧ char ≤ 0x39

def isalnum (char : UInt8) : Bool :=
  isdigit char ∨ 0x41 ≤ char ∧ char ≤ 0x5a ∨ 0x61 ≤ char ∧ char ≤ 0x7a

def isspace (char : UInt8) : Bool := char = 0x20 ∨ 0x09 ≤ char ∧ char ≤ 0x0d

def toupper (char : UInt8) : UInt8 := if 0x61 ≤ char ∧ char ≤ 0x7a then char - 0x20 else char

def tolower (char : UInt8) : UInt8 := if 0x41 ≤ char ∧ char ≤ 0x5a then char + 0x20 else char

/-- Where `strtol` stops in a number without a sign, and what it has read. -/
def digits : Text → ℕ → ℕ × Text
  | [], value => (value, [])
  | char :: text, value =>
    if isdigit char then digits text (value * 10 + (char.toNat - 0x30)) else (value, char :: text)

/-- `strtol` to the base ten, with what it leaves. It leaves all when there is no digit, and a
number outside of a `long` gives the nearest. -/
def strtol (text : Text) : ℤ × Text :=
  match text.dropWhile isspace with
  | [] => (0, text)
  | sign :: number =>
    let negative := sign = 0x2d
    let number := if sign = 0x2d ∨ sign = 0x2b then number else sign :: number
    if number.head?.any isdigit then
      let (value, ep) := digits number 0
      (if negative then max (-2 ^ 63) (-value) else min (2 ^ 63 - 1) value, ep)
    else (0, text)

def atol (text : Text) : ℤ := (strtol text).1

/-! ### Decimal digits -/

/-- A digit as a character. -/
def digit (value : ℕ) : UInt8 := UInt8.ofNat (0x30 + value)

/-- The last digits of a number, so many of them. -/
def decimal : ℕ → ℕ → Text
  | 0, _ => []
  | width + 1, value => digit (value / 10 ^ width % 10) :: decimal width value

theorem toNat_digit {value : ℕ} (small : value < 10) : (digit value).toNat = 0x30 + value := by
  unfold digit
  rw [UInt8.toNat_ofNat']
  omega

theorem isdigit_iff (char : UInt8) : isdigit char ↔ 0x30 ≤ char.toNat ∧ char.toNat ≤ 0x39 := by
  simp [isdigit, UInt8.le_iff_toNat_le]

theorem ne_zero_of_isdigit {char : UInt8} (isdigit_ : isdigit char) : char ≠ 0 := by
  rintro rfl
  exact absurd isdigit_ (by decide)

theorem isdigit_digit {value : ℕ} (small : value < 10) : isdigit (digit value) := by
  rw [isdigit_iff, toNat_digit small]
  omega

theorem isdigit_of_mem_decimal {width value : ℕ} {char : UInt8}
    (member : char ∈ decimal width value) : isdigit char := by
  induction width with
  | zero => cases member
  | succ width inductionHypothesis =>
    rcases List.mem_cons.mp member with rfl | later
    · exact isdigit_digit (Nat.mod_lt _ (by decide))
    · exact inductionHypothesis later

theorem length_decimal (width value : ℕ) : (decimal width value).length = width := by
  induction width with
  | zero => rfl
  | succ width inductionHypothesis => rw [decimal, List.length_cons, inductionHypothesis]

/-- The last digits are those of what the number leaves. -/
theorem decimal_mod {width more : ℕ} (fits : width ≤ more) (value : ℕ) :
    decimal width (value % 10 ^ more) = decimal width value := by
  induction width with
  | zero => rfl
  | succ width inductionHypothesis =>
    have divides : 10 ^ width * 10 ∣ 10 ^ more := pow_succ 10 width ▸ Nat.pow_dvd_pow 10 fits
    rw [decimal, decimal, inductionHypothesis (Nat.le_of_succ_le fits),
      ← Nat.mod_mul_right_div_self, Nat.mod_mod_of_dvd _ divides, Nat.mod_mul_right_div_self]

/-- The digits of a number that has no more are read back, up to a character that is none. -/
theorem digits_decimal {width value : ℕ} (small : value < 10 ^ width) {rest : Text}
    (stop : ∀ char, rest.head? = some char → isdigit char = false) (read : ℕ) :
    digits (decimal width value ++ rest) read = (read * 10 ^ width + value, rest) := by
  induction width generalizing read value with
  | zero =>
    have none_ : value = 0 := by omega
    subst none_
    cases rest with
    | nil => simp [decimal, digits]
    | cons char rest => simp [decimal, digits, stop char rfl]
  | succ width inductionHypothesis =>
    have leading : value / 10 ^ width < 10 :=
      Nat.div_lt_of_lt_mul (by rwa [pow_succ] at small)
    have less : value % 10 ^ width < 10 ^ width := Nat.mod_lt _ (Nat.pow_pos (by decide))
    have last : value / 10 ^ width % 10 < 10 := Nat.mod_lt _ (by decide)
    rw [decimal, List.cons_append, digits, if_pos (isdigit_digit last), toNat_digit last,
      ← decimal_mod le_rfl value, inductionHypothesis less, Nat.mod_eq_of_lt leading,
      Nat.add_sub_cancel_left]
    have whole := Nat.div_add_mod value (10 ^ width)
    refine Prod.ext ?_ rfl
    show (read * 10 + value / 10 ^ width) * 10 ^ width + value % 10 ^ width =
      read * 10 ^ (width + 1) + value
    calc (read * 10 + value / 10 ^ width) * 10 ^ width + value % 10 ^ width
        = read * 10 ^ (width + 1) + (10 ^ width * (value / 10 ^ width) + value % 10 ^ width) := by
          ring
      _ = read * 10 ^ (width + 1) + value := by rw [whole]

/-- A number that starts with a digit is read up to where its digits end. -/
theorem strtol_eq {first : UInt8} (isdigit_ : isdigit first) (text : Text) :
    strtol (first :: text) =
      (min (2 ^ 63 - 1) ((digits (first :: text) 0).1 : ℤ), (digits (first :: text) 0).2) := by
  obtain ⟨least, most⟩ := (isdigit_iff first).mp isdigit_
  have dark : isspace first = false := by
    simp only [isspace, decide_eq_false_iff_not, UInt8.le_iff_toNat_le, ← UInt8.toNat_inj,
      UInt8.reduceToNat]
    omega
  have unsigned : first ≠ 0x2d ∧ first ≠ 0x2b := by
    simp only [ne_eq, ← UInt8.toNat_inj, UInt8.reduceToNat]
    omega
  have whole : (first :: text).dropWhile isspace = first :: text :=
    List.dropWhile_cons_of_neg (by simp [dark])
  unfold strtol
  rw [whole]
  simp [unsigned.1, unsigned.2, isdigit_]

/-- A number that has no more digits is read back. -/
theorem atol_decimal {width value : ℕ} (small : value < 10 ^ (width + 1)) (word : width < 18)
    {rest : Text} (stop : ∀ char, rest.head? = some char → isdigit char = false) :
    atol (decimal (width + 1) value ++ rest) = value := by
  have read := digits_decimal small stop 0
  have first : isdigit (digit (value / 10 ^ width % 10)) :=
    isdigit_digit (Nat.mod_lt _ (by decide))
  have within : 10 ^ (width + 1) ≤ 10 ^ 18 := Nat.pow_le_pow_right (by decide) word
  rw [atol, decimal, List.cons_append, strtol_eq first, ← List.cons_append, ← decimal, read]
  show min (2 ^ 63 - 1) (((0 * 10 ^ (width + 1) + value : ℕ) : ℤ)) = value
  rw [zero_mul, zero_add]
  exact min_eq_right (by omega)

end Ctype

end CommonCpp
