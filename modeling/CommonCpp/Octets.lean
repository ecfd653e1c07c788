/-
This file gives the bits of a string of bytes in the order of a network, the highest of each byte
first, and what the operations on bytes do to them.

A mask is a row of ones with zeros behind it. Where a mask is laid over some bits, the first bits
stay and the others are cleared.
-/

import Mathlib.Data.List.OfFn
import Mathlib.Tactic.Ring

namespace Octets

/-- The bits of a byte, the highest first. -/
def byteBits (byte : UInt8) : List Bool := List.ofFn fun i : Fin 8 => byte.toBitVec.getMsbD i

/-- The bits of some bytes. -/
def bits (bytes : List UInt8) : List Bool := bytes.flatMap byteBits

/-- A row of ones, and zeros up to a width. -/
def mask (width ones : ℕ) : List Bool :=
  List.replicate ones true ++ List.replicate (width - ones) false

@[simp]
theorem length_byteBits (byte : UInt8) : (byteBits byte).length = 8 := List.length_ofFn

@[simp]
theorem bits_nil : bits [] = [] := rfl

theorem bits_cons (byte : UInt8) (bytes : List UInt8) :
    bits (byte :: bytes) = byteBits byte ++ bits bytes := rfl

@[simp]
theorem length_bits (bytes : List UInt8) : (bits bytes).length = 8 * bytes.length := by
  induction bytes with
  | nil => rfl
  | cons byte bytes inductionHypothesis =>
    rw [bits_cons, List.length_append, length_byteBits, inductionHypothesis, List.length_cons]
    ring

/-! ### Bytes and bits are the same -/

theorem byteBits_injective : Function.Injective byteBits := by
  intro first second equal
  have places := List.ofFn_injective equal
  refine UInt8.toBitVec_inj.mp (BitVec.eq_of_getMsbD_eq fun i inside => ?_)
  exact congrFun places ⟨i, inside⟩

theorem bits_injective : Function.Injective bits := by
  intro first
  induction first with
  | nil =>
    intro second equal
    cases second with
    | nil => rfl
    | cons byte bytes =>
      have lengths := congrArg List.length equal
      rw [length_bits, length_bits] at lengths
      simp at lengths
  | cons byte bytes inductionHypothesis =>
    intro second equal
    cases second with
    | nil =>
      have lengths := congrArg List.length equal
      rw [length_bits, length_bits] at lengths
      simp at lengths
    | cons byte' bytes' =>
      rw [bits_cons, bits_cons] at equal
      have alike := List.append_inj equal (by rw [length_byteBits, length_byteBits])
      rw [byteBits_injective alike.1, inductionHypothesis alike.2]

/-! ### Operations on every byte -/

/-- An operation that works on each bit of two bytes works on each bit of all of them. -/
theorem bits_zipWith {byteOp : UInt8 → UInt8 → UInt8} {bitOp : Bool → Bool → Bool}
    (bitwise : ∀ first second : UInt8, ∀ i < 8,
      (byteOp first second).toBitVec.getMsbD i =
        bitOp (first.toBitVec.getMsbD i) (second.toBitVec.getMsbD i))
    (first second : List UInt8) :
    bits (first.zipWith byteOp second) = (bits first).zipWith bitOp (bits second) := by
  have oneByte (a b : UInt8) :
      byteBits (byteOp a b) = (byteBits a).zipWith bitOp (byteBits b) := by
    refine List.ext_getElem (by simp) fun i inside _ => ?_
    rw [length_byteBits] at inside
    simp only [byteBits, List.getElem_ofFn, List.getElem_zipWith]
    exact bitwise a b i inside
  induction first generalizing second with
  | nil => rfl
  | cons a first inductionHypothesis =>
    cases second with
    | nil => rw [List.zipWith_nil_right, bits_nil, List.zipWith_nil_right]
    | cons b second =>
      rw [List.zipWith_cons_cons, bits_cons, bits_cons, bits_cons, oneByte, inductionHypothesis,
        List.zipWith_append (by rw [length_byteBits, length_byteBits])]

theorem bits_and (first second : List UInt8) :
    bits (first.zipWith (· &&& ·) second) = (bits first).zipWith (· && ·) (bits second) :=
  bits_zipWith (fun _ _ _ _ => by rw [UInt8.toBitVec_and, BitVec.getMsbD_and]) first second

theorem bits_or_not (first second : List UInt8) :
    bits (first.zipWith (fun a b => a ||| ~~~b) second) =
      (bits first).zipWith (fun a b => a || !b) (bits second) :=
  bits_zipWith (fun _ _ i inside => by
    rw [UInt8.toBitVec_or, UInt8.toBitVec_not, BitVec.getMsbD_or, BitVec.getMsbD_not,
      decide_eq_true inside, Bool.true_and]) first second

/-! ### Masks -/

variable {row : List Bool} {width ones : ℕ}

/-- A mask meets the first bits with ones and the others with zeros. -/
theorem zipWith_mask (bitOp : Bool → Bool → Bool) (length : row.length = width)
    (fits : ones ≤ width) :
    row.zipWith bitOp (mask width ones) =
      (row.take ones).map (bitOp · true) ++ (row.drop ones).map (bitOp · false) := by
  have constant {part : List Bool} {n : ℕ} (whole : part.length = n) (bit : Bool) :
      part.zipWith bitOp (List.replicate n bit) = part.map (bitOp · bit) := by
    rw [← whole, ← List.map_const', List.zipWith_map_right, List.zipWith_self]
  have front : (row.take ones).length = ones := List.length_take_of_le (fits.trans length.ge)
  have back : (row.drop ones).length = width - ones := List.length_drop.trans (by rw [length])
  calc row.zipWith bitOp (mask width ones)
      = (row.take ones ++ row.drop ones).zipWith bitOp (mask width ones) := by
        rw [List.take_append_drop]
    _ = (row.take ones).zipWith bitOp (List.replicate ones true) ++
          (row.drop ones).zipWith bitOp (List.replicate (width - ones) false) :=
        List.zipWith_append (front.trans List.length_replicate.symm)
    _ = _ := by rw [constant front, constant back]

/-- A mask keeps the first bits, and clears the others. -/
theorem zipWith_and_mask (length : row.length = width) (fits : ones ≤ width) :
    row.zipWith (· && ·) (mask width ones) =
      row.take ones ++ List.replicate (width - ones) false := by
  rw [zipWith_mask _ length fits]
  simp only [Bool.and_true, Bool.and_false, List.map_id_fun', id_eq, List.map_const',
    List.length_drop, length]

/-- The complement of a mask keeps the first bits, and sets the others. -/
theorem zipWith_or_not_mask (length : row.length = width) (fits : ones ≤ width) :
    row.zipWith (fun a b => a || !b) (mask width ones) =
      row.take ones ++ List.replicate (width - ones) true := by
  rw [zipWith_mask _ length fits]
  simp only [Bool.not_true, Bool.not_false, Bool.or_false, Bool.or_true, List.map_id_fun', id_eq,
    List.map_const', List.length_drop, length]

/-- A mask goes on behind a part that is full. -/
theorem mask_append_mask (part width ones : ℕ) :
    mask part (min ones part) ++ mask width (ones - part) = mask (part + width) ones := by
  rcases Nat.le_total ones part with within | beyond
  · have rest : part + width - ones = (part - ones) + width := by omega
    rw [Nat.min_eq_left within, Nat.sub_eq_zero_of_le within, mask, mask, mask, rest,
      ← List.replicate_append_replicate, List.replicate_zero, List.nil_append, Nat.sub_zero,
      List.append_assoc]
  · have rest : part + width - ones = width - (ones - part) := by omega
    rw [Nat.min_eq_right beyond, mask, mask, mask, rest, Nat.sub_self, List.replicate_zero,
      List.append_nil, ← List.append_assoc, List.replicate_append_replicate,
      Nat.add_sub_cancel' beyond]

theorem takeWhile_mask (width ones : ℕ) :
    (mask width ones).takeWhile id = List.replicate ones true := by
  have set_ : ∀ bit ∈ List.replicate ones true, id bit = true :=
    fun bit member => List.eq_of_mem_replicate member
  rw [mask, List.takeWhile_append_of_pos set_]
  cases width - ones with
  | zero => exact List.append_nil _
  | succ zeros =>
    rw [List.replicate_succ, List.takeWhile_cons_of_neg (by decide), List.append_nil]

end Octets
