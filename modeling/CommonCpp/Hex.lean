/-
This file models the formatted hex functions of `String`: the size of what a format makes
of some bytes, its text, and the bytes of that text.

The three functions read the format each for itself. A number in it tells how many bytes
follow, and anything else stands for itself. They are shown to read the same counts from
every format, so that the text is packed to its bytes again. The size is another matter:
a count is doubled as an `unsigned` before it is added to the size, which is the length
of the text only while the counts are less than half of what an `unsigned` can hold.

A `size_t` is a natural number.
-/

import CommonCpp.Ctype

namespace CommonCpp

open Ctype

namespace Hex

/-! ### Digits -/

def hexcode (ch : UInt8) : ℤ :=
  let ch := toupper ch
  if 0x30 ≤ ch ∧ ch ≤ 0x39 then ch.toNat - 0x30
  else if 0x41 ≤ ch ∧ ch ≤ 0x46 then ch.toNat - 0x41 + 10
  else -1

def hexdigit (value : ℕ) : UInt8 :=
  UInt8.ofNat (if value < 10 then 0x30 + value else 0x61 + (value - 10))

/-- What `snprintf` writes for `%02x`. -/
def hexbyte (byte : UInt8) : Text := [hexdigit (byte.toNat / 16), hexdigit (byte.toNat % 16)]

/-- A number as an `unsigned`. -/
def unsigned (value : ℤ) : ℕ := (value % 2 ^ 32).toNat

/-! ### Formats -/

theorem length_digits_le (text : Text) (value : ℕ) :
    (digits text value).2.length ≤ text.length := by
  induction text generalizing value with
  | nil => exact le_rfl
  | cons char text inductionHypothesis =>
    rw [digits]
    split
    · exact (inductionHypothesis _).trans (Nat.le_succ _)
    · exact le_rfl

/-- A number takes at least its first digit from a format. -/
theorem length_strtol_le {char : UInt8} (isdigit_ : isdigit char) (format : Text) :
    (strtol (char :: format)).2.length ≤ format.length := by
  rw [strtol_eq isdigit_, digits, if_pos isdigit_]
  exact length_digits_le format _

def hexsize : Text → ℕ
  | [] => 0
  | char :: format =>
    if char = 0 then 0
    else if isdigit_ : isdigit char then
      let skip := unsigned (strtol (char :: format)).1
      have := length_strtol_le isdigit_ format
      skip * 2 % 2 ^ 32 + hexsize (strtol (char :: format)).2
    else hexsize format + 1
termination_by format => format.length

/-- What is written for so many bytes, and the bytes that are left. -/
def dumpBytes : ℕ → List UInt8 → Text × List UInt8
  | 0, binary => ([], binary)
  | skip + 1, binary =>
    let (string, left) := dumpBytes skip binary.tail
    (hexbyte (binary.headD 0) ++ string, left)

/-- What `hexdump` has written and counted at the end of the format. -/
def dumpLoop (binary : List UInt8) : Text → Text × ℕ
  | [] => ([], 0)
  | char :: format =>
    if char = 0 then ([], 0)
    else if isdigit_ : isdigit char then
      let skip := unsigned (strtol (char :: format)).1
      have := length_strtol_le isdigit_ format
      let (bytes, left) := dumpBytes skip binary
      let (string, count) := dumpLoop left (strtol (char :: format)).2
      (bytes ++ string, skip * 2 % 2 ^ 32 + count)
    else
      let (string, count) := dumpLoop binary format
      (char :: string, count + 1)
termination_by format => format.length

def hexdump (binary : List UInt8) (format : Text) : Text × ℕ :=
  let (string, count) := dumpLoop binary format
  (string ++ [0], count)

/-- The bytes of so many pairs of characters, and the text that is left. -/
def packBytes : ℕ → Text → List UInt8 × Text
  | 0, string => ([], string)
  | skip + 1, string =>
    let byte := UInt8.ofInt (hexcode (string.getD 0 0) * 16 + hexcode (string.getD 1 0))
    let (binary, left) := packBytes skip (string.drop 2)
    (byte :: binary, left)

/-- What is written and counted. -/
def hexpack (string : Text) : Text → List UInt8 × ℕ
  | [] => ([], 0)
  | char :: format =>
    if char = 0 then ([], 0)
    else if isdigit_ : isdigit char then
      let skip := unsigned (strtol (char :: format)).1
      have := length_strtol_le isdigit_ format
      let (bytes, left) := packBytes skip string
      let (binary, count) := hexpack left (strtol (char :: format)).2
      (bytes ++ binary, skip * 2 % 2 ^ 32 + count)
    else if string.headD 0 ≠ char then ([], 0)
    else
      let (binary, count) := hexpack string.tail format
      (binary, count + 1)
termination_by format => format.length

example : hexdump [0x01, 0x10, 0x2f, 0x45] [0x33, 0x2d, 0x31] =
    ([0x30, 0x31, 0x31, 0x30, 0x32, 0x66, 0x2d, 0x34, 0x35, 0], 9) := by decide +kernel

/-! ### What a format says -/

/-- The counts of a format, as the numbers that are written there. -/
def counts : Text → List ℕ
  | [] => []
  | char :: format =>
    if char = 0 then []
    else if isdigit_ : isdigit char then
      have := length_strtol_le isdigit_ format
      (digits (char :: format) 0).1 :: counts (strtol (char :: format)).2
    else counts format
termination_by format => format.length

/-- The characters of a format that stand for themselves. -/
def literals : Text → ℕ
  | [] => 0
  | char :: format =>
    if char = 0 then 0
    else if isdigit_ : isdigit char then
      have := length_strtol_le isdigit_ format
      literals (strtol (char :: format)).2
    else literals format + 1
termination_by format => format.length

/-- A number that an `unsigned` can hold is read as it is. -/
theorem unsigned_strtol {char : UInt8} (isdigit_ : isdigit char) {format : Text}
    (fits : (digits (char :: format) 0).1 < 2 ^ 32) :
    unsigned (strtol (char :: format)).1 = (digits (char :: format) 0).1 := by
  rw [strtol_eq isdigit_, unsigned]
  show (min (2 ^ 63 - 1) ((digits (char :: format) 0).1 : ℤ) % 2 ^ 32).toNat = _
  omega

/-- A digit is read back. -/
theorem hexdigit_read {value : ℕ} (small : value < 16) :
    hexdigit value ≠ 0 ∧ hexcode (hexdigit value) = value := by
  have all : ∀ value < 16, hexdigit value ≠ 0 ∧ hexcode (hexdigit value) = value := by decide
  exact all value small

theorem hexbyte_read (byte : UInt8) :
    UInt8.ofInt (hexcode (hexdigit (byte.toNat / 16)) * 16 + hexcode (hexdigit (byte.toNat % 16))) =
      byte := by
  have small := byte.toNat_lt
  have whole : ((byte.toNat / 16 : ℕ) : ℤ) * 16 + ((byte.toNat % 16 : ℕ) : ℤ) = byte.toNat := by
    omega
  have within : ((byte.toNat : ℤ) % 2 ^ 8).toNat = byte.toNat := by omega
  rw [(hexdigit_read (by omega)).2, (hexdigit_read (by omega)).2, whole]
  show UInt8.ofNat ((byte.toNat : ℤ) % 2 ^ 8).toNat = byte
  rw [within, UInt8.ofNat_toNat]

/-! ### Runs of bytes -/

theorem dumpBytes_eq {skip : ℕ} {binary : List UInt8} (enough : skip ≤ binary.length) :
    dumpBytes skip binary = ((binary.take skip).flatMap hexbyte, binary.drop skip) := by
  induction skip generalizing binary with
  | zero => rfl
  | succ skip inductionHypothesis =>
    cases binary with
    | nil => exact absurd enough (Nat.not_succ_le_zero skip)
    | cons byte binary =>
      rw [dumpBytes, List.tail_cons, inductionHypothesis (Nat.le_of_succ_le_succ enough)]
      rfl

/-- The text of some bytes is packed to these bytes, whatever comes after it. -/
theorem packBytes_flatMap (binary : List UInt8) (rest : Text) :
    packBytes binary.length (binary.flatMap hexbyte ++ rest) = (binary, rest) := by
  induction binary with
  | nil => rfl
  | cons byte binary inductionHypothesis =>
    show (UInt8.ofInt (hexcode (hexdigit (byte.toNat / 16)) * 16 +
        hexcode (hexdigit (byte.toNat % 16))) ::
      (packBytes binary.length (binary.flatMap hexbyte ++ rest)).1,
      (packBytes binary.length (binary.flatMap hexbyte ++ rest)).2) = _
    rw [hexbyte_read, inductionHypothesis]

theorem length_flatMap_hexbyte (binary : List UInt8) :
    (binary.flatMap hexbyte).length = 2 * binary.length := by
  induction binary with
  | nil => rfl
  | cons byte binary inductionHypothesis =>
    rw [List.flatMap_cons, List.length_append, inductionHypothesis, List.length_cons]
    show 2 + 2 * binary.length = _
    ring

theorem zero_notMem_flatMap (binary : List UInt8) : 0 ∉ binary.flatMap hexbyte := by
  intro member
  obtain ⟨byte, -, written⟩ := List.mem_flatMap.mp member
  have small := byte.toNat_lt
  rcases List.mem_cons.mp written with high | written
  · exact (hexdigit_read (by omega)).1 high.symm
  · exact (hexdigit_read (by omega)).1 (List.mem_singleton.mp written).symm

/-! ### The three readers of a format -/

/-- The size counts each character that stands for itself, and twice each count, as an
`unsigned`. -/
theorem hexsize_eq {format : Text} (counted : ∀ n ∈ counts format, n < 2 ^ 32) :
    hexsize format = literals format + ((counts format).map fun n => n * 2 % 2 ^ 32).sum := by
  fun_induction counts format with
  | case1 => rw [hexsize, literals]; rfl
  | case2 format => rw [hexsize, literals, if_pos rfl, if_pos rfl]; rfl
  | case3 char format char_ isdigit_ _ inductionHypothesis =>
    rw [hexsize, literals, if_neg char_, if_neg char_, dif_pos isdigit_, dif_pos isdigit_,
      inductionHypothesis fun n member => counted n (List.mem_cons_of_mem _ member),
      unsigned_strtol isdigit_ (counted _ List.mem_cons_self), List.map_cons, List.sum_cons]
    exact Nat.add_left_comm ..
  | case4 char format char_ isdigit_ inductionHypothesis =>
    rw [hexsize, literals, if_neg char_, if_neg char_, dif_neg isdigit_, dif_neg isdigit_,
      inductionHypothesis counted]
    exact Nat.add_right_comm ..

/-- The text has each character that stands for itself, and two for each byte. What is counted is
the size, and the text is packed to the bytes with the same count. -/
theorem dumpLoop_read {format : Text} (counted : ∀ n ∈ counts format, n < 2 ^ 32)
    {binary : List UInt8} (sized : binary.length = (counts format).sum) :
    (dumpLoop binary format).1.length = literals format + 2 * (counts format).sum ∧
      0 ∉ (dumpLoop binary format).1 ∧
      (dumpLoop binary format).2 = hexsize format ∧
      ∀ rest, hexpack ((dumpLoop binary format).1 ++ rest) format = (binary, hexsize format) := by
  fun_induction counts format generalizing binary with
  | case1 =>
    have none_ : binary = [] := List.length_eq_zero_iff.mp sized
    simp [dumpLoop, literals, hexsize, hexpack, none_]
  | case2 format =>
    have none_ : binary = [] := List.length_eq_zero_iff.mp sized
    simp [dumpLoop, literals, hexsize, hexpack, none_]
  | case3 char format char_ isdigit_ _ inductionHypothesis =>
    have later : ∀ n ∈ counts (strtol (char :: format)).2, n < 2 ^ 32 :=
      fun n member => counted n (List.mem_cons_of_mem _ member)
    have fits := counted _ List.mem_cons_self
    generalize skip_ : (digits (char :: format) 0).1 = skip at fits sized ⊢
    rw [List.sum_cons] at sized ⊢
    have enough : skip ≤ binary.length := by omega
    have taken : (binary.take skip).length = skip := List.length_take_of_le enough
    obtain ⟨length_, noNull, count_, packed⟩ := @inductionHypothesis later (binary.drop skip)
      (by rw [List.length_drop]; omega)
    have dumped : dumpLoop binary (char :: format) =
        ((binary.take skip).flatMap hexbyte ++
            (dumpLoop (binary.drop skip) (strtol (char :: format)).2).1,
          skip * 2 % 2 ^ 32 + (dumpLoop (binary.drop skip) (strtol (char :: format)).2).2) := by
      rw [dumpLoop, if_neg char_, dif_pos isdigit_, unsigned_strtol isdigit_ (by omega), skip_]
      dsimp only
      rw [dumpBytes_eq enough]
    have size_ : hexsize (char :: format) =
        skip * 2 % 2 ^ 32 + hexsize (strtol (char :: format)).2 := by
      rw [hexsize, if_neg char_, dif_pos isdigit_, unsigned_strtol isdigit_ (by omega), skip_]
    rw [dumped, size_, literals, if_neg char_, dif_pos isdigit_]
    refine ⟨?_, ?_, congrArg (skip * 2 % 2 ^ 32 + ·) count_, ?_⟩
    · rw [List.length_append, length_flatMap_hexbyte, taken, length_]
      ring
    · rw [List.mem_append, not_or]
      exact ⟨zero_notMem_flatMap _, noNull⟩
    · intro rest
      have bytes := packBytes_flatMap (binary.take skip)
        ((dumpLoop (binary.drop skip) (strtol (char :: format)).2).1 ++ rest)
      rw [taken] at bytes
      rw [hexpack, if_neg char_, dif_pos isdigit_, unsigned_strtol isdigit_ (by omega), skip_,
        List.append_assoc]
      dsimp only
      rw [bytes]
      dsimp only
      rw [packed, List.take_append_drop]
  | case4 char format char_ isdigit_ inductionHypothesis =>
    obtain ⟨length_, noNull, count_, packed⟩ := inductionHypothesis counted sized
    have dumped : dumpLoop binary (char :: format) =
        (char :: (dumpLoop binary format).1, (dumpLoop binary format).2 + 1) := by
      rw [dumpLoop, if_neg char_, dif_neg isdigit_]
    have size_ : hexsize (char :: format) = hexsize format + 1 := by
      rw [hexsize, if_neg char_, dif_neg isdigit_]
    rw [dumped, size_, literals, if_neg char_, dif_neg isdigit_]
    refine ⟨?_, ?_, congrArg (· + 1) count_, ?_⟩
    · rw [List.length_cons, length_]
      ring
    · rw [List.mem_cons, not_or]
      exact ⟨fun null => char_ null.symm, noNull⟩
    · intro rest
      rw [hexpack, if_neg char_, dif_neg isdigit_]
      show (if char ≠ char then ([], 0) else
        let (packed, count) := hexpack ((dumpLoop binary format).1 ++ rest) format
        (packed, count + 1)) = _
      rw [if_neg (not_not.mpr rfl), packed]

/-- Doubled counts add up to the same as an `unsigned` each only when none is too large. -/
theorem sum_mod_eq_iff (numbers : List ℕ) :
    (numbers.map fun n => n * 2 % 2 ^ 32).sum = 2 * numbers.sum ↔ ∀ n ∈ numbers, n < 2 ^ 31 := by
  have less : ∀ numbers : List ℕ,
      (numbers.map fun n => n * 2 % 2 ^ 32).sum ≤ 2 * numbers.sum := by
    intro numbers
    induction numbers with
    | nil => exact le_rfl
    | cons n numbers inductionHypothesis =>
      rw [List.map_cons, List.sum_cons, List.sum_cons]
      have wrapped := Nat.mod_le (n * 2) (2 ^ 32)
      omega
  induction numbers with
  | nil => simp
  | cons n numbers inductionHypothesis =>
    have rest := less numbers
    rw [List.map_cons, List.sum_cons, List.sum_cons, List.forall_mem_cons]
    constructor
    · intro same
      exact ⟨by omega, inductionHypothesis.mp (by omega)⟩
    · rintro ⟨small, all⟩
      have same := inductionHypothesis.mpr all
      omega

/-! ### The round trip -/

/-- The bytes are dumped to a text of the size of the format, and packed from it again. -/
def RoundTrip (binary : List UInt8) (format : Text) : Prop :=
  ∃ string, hexdump binary format = (string ++ [0], hexsize format) ∧ 0 ∉ string ∧
    string.length = hexsize format ∧ hexpack (string ++ [0]) format = (binary, hexsize format)

/-- They are when each count is doubled to what it is. -/
theorem roundTrip_iff_sum {binary : List UInt8} {format : Text}
    (counted : ∀ n ∈ counts format, n < 2 ^ 32) (sized : binary.length = (counts format).sum) :
    RoundTrip binary format ↔
      ((counts format).map fun n => n * 2 % 2 ^ 32).sum = 2 * (counts format).sum := by
  obtain ⟨length_, noNull, count_, packed⟩ := dumpLoop_read counted sized
  have dumped : hexdump binary format = ((dumpLoop binary format).1 ++ [0], hexsize format) :=
    congrArg (Prod.mk _) count_
  rw [← @Nat.add_right_inj _ _ (literals format), ← hexsize_eq counted, ← length_]
  constructor
  · rintro ⟨string, dumped', _, sameLength, _⟩
    have same : (dumpLoop binary format).1 = string := by
      have both := congrArg Prod.fst (dumped.symm.trans dumped')
      exact List.append_cancel_right both
    rw [same, sameLength]
  · intro sameLength
    exact ⟨_, dumped, noNull, sameLength.symm, packed [0]⟩

/-- The round trip holds of a format exactly when each of its counts is less than half of what an
`unsigned` can hold. -/
theorem roundTrip_iff {binary : List UInt8} {format : Text}
    (counted : ∀ n ∈ counts format, n < 2 ^ 32) (sized : binary.length = (counts format).sum) :
    RoundTrip binary format ↔ ∀ n ∈ counts format, n < 2 ^ 31 :=
  (roundTrip_iff_sum counted sized).trans (sum_mod_eq_iff _)

/-- Four bytes with a dash before the last one. -/
theorem roundTrip_iff_dashed :
    RoundTrip [0x01, 0x10, 0x2f, 0x45] [0x33, 0x2d, 0x31] ↔
      ∀ n ∈ counts [0x33, 0x2d, 0x31], n < 2 ^ 31 := by
  have counts_ : counts [0x33, 0x2d, 0x31] = [3, 1] := by decide +kernel
  exact roundTrip_iff (by rw [counts_]; decide) (by rw [counts_]; decide)

/-- Two gigabytes of zeros, in one count, are given the size of an empty text. -/
theorem hexdump_loses_size :
    (∀ n ∈ counts (decimal 10 2147483648), n < 2 ^ 32) ∧
      (List.replicate 2147483648 (0 : UInt8)).length = (counts (decimal 10 2147483648)).sum ∧
      hexsize (decimal 10 2147483648) = 0 ∧
      ¬ RoundTrip (List.replicate 2147483648 0) (decimal 10 2147483648) := by
  have counts_ : counts (decimal 10 2147483648) = [2147483648] := by decide +kernel
  have counted : ∀ n ∈ counts (decimal 10 2147483648), n < 2 ^ 32 := by
    rw [counts_]
    decide
  have sized : (List.replicate 2147483648 (0 : UInt8)).length =
      (counts (decimal 10 2147483648)).sum := by
    rw [counts_, List.length_replicate]
    rfl
  refine ⟨counted, sized, by decide +kernel, ?_⟩
  rw [roundTrip_iff_sum counted sized, counts_]
  decide

end Hex

end CommonCpp
