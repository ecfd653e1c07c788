/-
This file settles whether the strings that `String::hex` and `String::b64` return are strings of
what they have encoded.

Both construct a string with the room they expect to need, and write the encoding into its memory.
Neither sets the length, which stays zero, so that the text of the string is not known to it. The
room that `b64` asks for is besides too small for any bytes whose number is not a multiple of three:
the last characters and the null are written behind the memory.

Sizes are those of things in memory and do not wrap.
-/

import CommonCpp.Base64
import CommonCpp.CstringTexts
import CommonCpp.Hex

namespace CommonCpp

open Bytes Ctype Hex Base64

namespace Strings

/-! ### The encoders -/

/-- The loop of `hex`, where `buf` is this far in the memory. There is no outcome when it leaves the
memory. -/
def hexLoop : List UInt8 → ℕ → Text → Option Text
  | [], _, text => some text
  | byte :: binary, buf, text =>
    if buf + 3 ≤ text.length then hexLoop binary (buf + 2) (move text buf (hexbyte byte ++ [0]))
    else none

/-- `String::hex(const uint8_t *, size_t)`: the buffer of the string, whose memory was this before
it was constructed. -/
def hex (binary : List UInt8) (junk : ℕ → UInt8) : Option Cstring := do
  let out := Cstring.create (binary.length * 2) junk
  let text ← hexLoop binary 0 out.text
  some { out with text := text }

/-- `String::b64(const uint8_t *, size_t)`. -/
def b64 (bin : List UInt8) (junk : ℕ → UInt8) : Option Cstring :=
  let dsize := bin.length * 4 / 3 + 1
  let out := Cstring.create dsize junk
  let written := (b64encode bin 0).1
  if written.length ≤ out.text.length then some { out with text := move out.text 0 written }
  else none

/-- `hex2bin(const char *, uint8_t *, size_t, bool)`, where `out` bytes have been written: those it
writes, and how many characters it reads. -/
def hex2bin (ws : Bool) (max : ℕ) : ℕ → Text → List UInt8 × ℕ
  | _, [] => ([], 0)
  | out, char :: str =>
    if char = 0 then ([], 0)
    else if ws ∧ isspace char then
      let (bin, count) := hex2bin ws max out str
      (bin, count + 1)
    else
      match str with
      | [] => ([], 0)
      | char' :: str =>
        let hi := hexcode char
        let lo := hexcode char'
        if hi < 0 ∨ lo < 0 then ([], 0)
        else
          let byte := UInt8.ofNat (hi.toNat <<< 4 ||| lo.toNat)
          if out + 1 > max then ([byte], 2)
          else
            let (bin, count) := hex2bin ws max (out + 1) str
            (byte :: bin, count + 2)

example : hex2bin false 2 0 [0x61, 0x42, 0x30, 0x39, 0x67] = ([0xab, 0x09], 4) := by decide

/-! ### The memory of the string -/

/-- The memory of a new buffer, which starts with a null. -/
theorem create_text (size : ℕ) (junk : ℕ → UInt8) :
    ∃ after : Text, (Cstring.create size junk).text = 0 :: after ∧ after.length = size := by
  refine ⟨(List.range size).map fun i => junk (i + 1), ?_, ?_⟩
  · show ((List.range (size + 1)).map junk).set 0 0 = _
    rw [List.range_succ_eq_map, List.map_cons, List.set_cons_zero, List.map_map]
    rfl
  · rw [List.length_map, List.length_range]

/-- The digits of a byte take the place of the null, and a null is put behind them. -/
theorem hexLoop_eq (binary : List UInt8) {shown after : Text}
    (room : 2 * binary.length ≤ after.length) :
    hexLoop binary shown.length (shown ++ 0 :: after) =
      some (shown ++ binary.flatMap hexbyte ++ 0 :: after.drop (2 * binary.length)) := by
  induction binary generalizing shown after with
  | nil =>
    rw [List.flatMap_nil, List.append_nil]
    rfl
  | cons byte binary inductionHypothesis =>
    rw [List.length_cons] at room
    have memory : shown.length + 3 ≤ (shown ++ 0 :: after).length := by
      rw [List.length_append, List.length_cons]
      omega
    have written : move (shown ++ 0 :: after) shown.length (hexbyte byte ++ [0]) =
        shown ++ hexbyte byte ++ 0 :: after.drop 2 := by
      have behind : (shown ++ 0 :: after).drop (shown.length + (hexbyte byte ++ [0]).length) =
          after.drop 2 := by
        rw [List.drop_append, List.drop_eq_nil_of_le (Nat.le_add_right _ _),
          Nat.add_sub_cancel_left]
        rfl
      rw [move, behind, List.take_left]
      simp only [List.append_assoc, List.singleton_append]
    have next : (shown ++ hexbyte byte).length = shown.length + 2 := List.length_append
    rw [hexLoop, if_pos memory, written, ← next,
      inductionHypothesis (by rw [List.length_drop]; omega), List.drop_drop, List.flatMap_cons,
      List.append_assoc shown, List.length_cons, Nat.mul_succ, Nat.add_comm 2]

/-- `hex` stays in its memory and fills it, and leaves the length at zero. -/
theorem hex_eq (binary : List UInt8) (junk : ℕ → UInt8) :
    hex binary junk = some ⟨binary.length * 2, 0, binary.flatMap hexbyte ++ [0]⟩ := by
  obtain ⟨after, text, length⟩ := create_text (binary.length * 2) junk
  have filled := @hexLoop_eq binary [] after (by omega)
  have none_ : after.drop (2 * binary.length) = [] := List.drop_eq_nil_of_le (by omega)
  unfold hex
  dsimp only
  rw [text]
  rw [none_] at filled
  rw [show hexLoop binary 0 (0 :: after) = _ from filled]
  rfl

/-- `b64` stays in its memory only when there is nothing left over from groups of three bytes. -/
theorem b64_isSome_iff (bin : List UInt8) (junk : ℕ → UInt8) :
    (b64 bin junk).isSome ↔ bin.length % 3 = 0 := by
  have size : (Cstring.create (bin.length * 4 / 3 + 1) junk).text.length =
      bin.length * 4 / 3 + 1 + 1 := Cstring.length_create _ junk
  have written : (code bin ++ [0]).length = (bin.length + 2) / 3 * 4 + 1 := by
    rw [List.length_append, length_code]
    rfl
  unfold b64
  dsimp only
  rw [(b64encode_default bin).1, size, written]
  have groups : (bin.length + 2) / 3 * 4 + 1 ≤ bin.length * 4 / 3 + 1 + 1 ↔ bin.length % 3 = 0 := by
    have less := Nat.mod_lt bin.length (by decide : 3 > 0)
    have left : bin.length % 3 = 0 ∨ bin.length % 3 = 1 ∨ bin.length % 3 = 2 := by omega
    rcases left with none_ | one | two <;> omega
  split
  next fits => exact iff_of_true rfl (groups.mp fits)
  next overruns => exact iff_of_false Bool.false_ne_true fun whole => overruns (groups.mpr whole)

/-- Where `b64` stays in its memory it writes the code, and leaves the length at zero. -/
theorem b64_eq {bin : List UInt8} {junk : ℕ → UInt8} {out : Cstring}
    (encoded : b64 bin junk = some out) :
    out.len = 0 ∧ ∃ after, out.text = code bin ++ 0 :: after := by
  unfold b64 at encoded
  dsimp only at encoded
  split at encoded
  next =>
    cases encoded
    refine ⟨rfl, (Cstring.create (bin.length * 4 / 3 + 1) junk).text.drop
      (0 + (code bin ++ [0]).length), ?_⟩
    show move _ 0 (b64encode bin 0).1 = _
    rw [(b64encode_default bin).1, move, List.take_zero, List.nil_append, List.append_assoc]
    rfl
  next => cases encoded

/-! ### What is encoded -/

theorem hexdigit_dark {value : ℕ} (small : value < 16) : isspace (hexdigit value) = false := by
  have all : ∀ value < 16, isspace (hexdigit value) = false := by decide
  exact all value small

/-- Both digits of a byte are put together again. -/
theorem ofNat_digits (byte : UInt8) :
    UInt8.ofNat ((byte.toNat / 16) <<< 4 ||| byte.toNat % 16) = byte := by
  have low : byte.toNat % 16 < 2 ^ 4 := Nat.mod_lt _ (by decide)
  rw [← Nat.shiftLeft_add_eq_or_of_lt low, Nat.shiftLeft_eq, Nat.mul_comm, Nat.div_add_mod,
    UInt8.ofNat_toNat]

/-- The digits of some bytes are read back, up to the null. -/
theorem hex2bin_flatMap (ws : Bool) {max : ℕ} (binary : List UInt8) (after : Text) {out : ℕ}
    (room : out + binary.length ≤ max) :
    hex2bin ws max out (binary.flatMap hexbyte ++ 0 :: after) = (binary, 2 * binary.length) := by
  induction binary generalizing out with
  | nil =>
    rw [List.flatMap_nil, List.nil_append]
    unfold hex2bin
    rw [if_pos rfl]
    rfl
  | cons byte binary inductionHypothesis =>
    rw [List.length_cons] at room
    have small := byte.toNat_lt
    obtain ⟨visible, high⟩ := @hexdigit_read (byte.toNat / 16) (by omega)
    obtain ⟨-, low⟩ := @hexdigit_read (byte.toNat % 16) (by omega)
    have dark : ¬ (ws = true ∧ isspace (hexdigit (byte.toNat / 16)) = true) := by
      rw [hexdigit_dark (by omega)]
      exact fun space => Bool.false_ne_true space.2
    have next := @inductionHypothesis (out + 1) (by omega)
    show hex2bin ws max out (hexdigit (byte.toNat / 16) :: hexdigit (byte.toNat % 16) ::
      (binary.flatMap hexbyte ++ 0 :: after)) = _
    rw [hex2bin, if_neg visible, if_neg dark]
    dsimp only
    rw [high, low, if_neg (by omega), Int.toNat_natCast, Int.toNat_natCast, ofNat_digits,
      if_neg (by omega), next]
    rfl

/-- The string of `hex` has the length of its text, which is twice the number of bytes, and decodes
to these. -/
def HexProper (binary : List UInt8) (junk : ℕ → UInt8) : Prop :=
  ∃ out, hex binary junk = some out ∧ out.len = strlen out.text ∧ out.len = 2 * binary.length ∧
    ∀ ws max, binary.length ≤ max → (hex2bin ws max 0 out.text).1 = binary

/-- The string of `b64` has the length of its text, which is four for each three bytes, and decodes
to these. -/
def B64Proper (bin : List UInt8) (junk : ℕ → UInt8) : Prop :=
  ∃ out, b64 bin junk = some out ∧ out.len = strlen out.text ∧
    out.len = (bin.length + 2) / 3 * 4 ∧ ∀ ws, (b64decode out.text bin.length ws).1 = bin

/-- What `hex` writes is right for all bytes; it is the length that is not. -/
theorem hex_text (binary : List UInt8) (junk : ℕ → UInt8) : ∃ out, hex binary junk = some out ∧
    strlen out.text = 2 * binary.length ∧
    ∀ ws max, binary.length ≤ max → (hex2bin ws max 0 out.text).1 = binary := by
  refine ⟨_, hex_eq binary junk, ?_, fun ws max room => ?_⟩
  · show strlen (binary.flatMap hexbyte ++ [0]) = _
    rw [strlen, string_append (zero_notMem_flatMap binary), string_cons_zero, List.append_nil,
      length_flatMap_hexbyte]
  · have read := @hex2bin_flatMap ws max binary [] 0 (by omega)
    exact congrArg Prod.fst read

/-- So is what `b64` writes, where it stays in its memory. -/
theorem b64_text {bin : List UInt8} {junk : ℕ → UInt8} {out : Cstring}
    (encoded : b64 bin junk = some out) : strlen out.text = (bin.length + 2) / 3 * 4 ∧
      ∀ ws, (b64decode out.text bin.length ws).1 = bin := by
  obtain ⟨-, after, text⟩ := b64_eq encoded
  have noNull : 0 ∉ code bin := fun member => (code_visible bin 0 member).1 rfl
  have readable : ∀ ws, Spaced ws (code bin) (code bin) := by
    refine fun ws => ⟨List.filter_eq_self.mpr fun c member => ?_, fun _ => rfl⟩
    rw [(code_visible bin c member).2]
    rfl
  rw [text]
  refine ⟨?_, fun ws => (read_code ws (readable ws) after).2⟩
  rw [strlen, string_append noNull, string_cons_zero, List.append_nil, length_code]

/-- The strings are what they should be only for no bytes at all. -/
theorem encodes_iff (binary : List UInt8) (junk : ℕ → UInt8) :
    (HexProper binary junk ↔ binary = []) ∧ (B64Proper binary junk ↔ binary = []) := by
  refine ⟨⟨?_, ?_⟩, ⟨?_, ?_⟩⟩
  · rintro ⟨out, encoded, -, size, -⟩
    rw [hex_eq] at encoded
    cases encoded
    have none_ : (0 : ℕ) = 2 * binary.length := size
    exact List.length_eq_zero_iff.mp (by omega)
  · rintro rfl
    obtain ⟨out, encoded, size, decoded⟩ := hex_text [] junk
    have len_ : out.len = 0 := by
      rw [hex_eq] at encoded
      cases encoded
      rfl
    exact ⟨out, encoded, len_.trans size.symm, len_, decoded⟩
  · rintro ⟨out, encoded, -, size, -⟩
    rw [(b64_eq encoded).1] at size
    exact List.length_eq_zero_iff.mp (by omega)
  · rintro rfl
    obtain ⟨out, encoded⟩ := Option.isSome_iff_exists.mp ((b64_isSome_iff [] junk).mpr rfl)
    obtain ⟨size, decoded⟩ := b64_text encoded
    have len_ := (b64_eq encoded).1
    exact ⟨out, encoded, len_.trans size.symm, len_, decoded⟩

/-- The byte `0xab` makes a string that reads `ab` and whose length is zero; the byte `0` is
encoded behind the memory. -/
theorem hex_loses_length :
    ((hex [0xab] fun _ => 0).map fun out => (string out.text, out.len)) = some ([0x61, 0x62], 0) ∧
      (b64 [0] fun _ => 0) = none ∧ ¬ HexProper [0xab] (fun _ => 0) ∧
      ¬ B64Proper [0] (fun _ => 0) := by
  refine ⟨by decide, by decide +kernel, ?_, ?_⟩
  · rintro ⟨out, encoded, -, size, -⟩
    rw [hex_eq] at encoded
    cases encoded
    exact absurd size (by decide)
  · rintro ⟨out, encoded, -, size, -⟩
    rw [(b64_eq encoded).1] at size
    exact absurd size (by decide)

end Strings

end CommonCpp
