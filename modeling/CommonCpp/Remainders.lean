/-
This file develops the remainders over GF(2) that a shift register computes.

The bits of a message, the first of which stands at the highest power, are a polynomial. Its
remainder is taken behind as many zero bits as the generator has degree, and what stood in the
register before is added to the first bits. A register of that width holds a polynomial of a
lower degree: to shift it is to multiply by `X`, and the generator is subtracted when the bit that
leaves it is set.

A message with its own remainder behind it has remainder zero, and two messages that differ in no
more bits in a row than the generator has degree have different remainders.
-/

import Mathlib.Algebra.Field.ZMod
import Mathlib.Algebra.CharP.Two
import Mathlib.Algebra.Polynomial.FieldDivision
import Mathlib.Data.List.GetD
import Mathlib.RingTheory.Coprime.Lemmas
import Mathlib.Tactic.LinearCombination

namespace Remainders

open Polynomial

noncomputable section

/-- One bit as a coefficient. -/
def bit (b : Bool) : (ZMod 2)[X] := if b then 1 else 0

/-- The bits at the places below `w`, each at the power of its place. -/
def ofPlaces (w : ℕ) (f : ℕ → Bool) : (ZMod 2)[X] := ∑ i ∈ Finset.range w, bit (f i) * X ^ i

/-- The bits of a list, the first of which stands at the highest power. -/
def ofBits : List Bool → (ZMod 2)[X]
  | [] => 0
  | b :: bits => bit b * X ^ bits.length + ofBits bits

/-- The generator of degree `w` whose other coefficients are the bits at the places below. -/
def generator (w : ℕ) (g : ℕ → Bool) : (ZMod 2)[X] := X ^ w + ofPlaces w g

/-- The remainder that is left of the bits, behind which stand as many zeros as the generator has
degree, where the register `r` is added to the first of them. -/
def remainder (G r : (ZMod 2)[X]) (bits : List Bool) : (ZMod 2)[X] :=
  (r * X ^ bits.length + ofBits bits * X ^ G.natDegree) %ₘ G

/-- A register shifted by one place. -/
def shift (G r : (ZMod 2)[X]) : (ZMod 2)[X] :=
  if r.coeff (G.natDegree - 1) = 0 then X * r else X * r + G

variable {G r : (ZMod 2)[X]} {f g : ℕ → Bool} {w : ℕ}

/-! ### Bits and places -/

theorem bit_xor (a b : Bool) : bit (a ^^ b) = bit a + bit b := by
  cases a <;> cases b <;> simp [bit, CharTwo.add_self_eq_zero]

theorem ofPlaces_congr (same : ∀ i < w, f i = g i) : ofPlaces w f = ofPlaces w g := by
  refine Finset.sum_congr rfl fun i inside => ?_
  rw [same i (Finset.mem_range.mp inside)]

theorem ofPlaces_xor : ofPlaces w (fun i => f i ^^ g i) = ofPlaces w f + ofPlaces w g := by
  simp only [ofPlaces, bit_xor, add_mul, Finset.sum_add_distrib]

/-- The places from `k` on stand at powers that are higher by `k`. -/
theorem ofPlaces_add (k w : ℕ) (f : ℕ → Bool) :
    ofPlaces (k + w) f = ofPlaces w (fun i => f (k + i)) * X ^ k + ofPlaces k f := by
  rw [ofPlaces, Finset.sum_range_add, add_comm, ofPlaces, Finset.sum_mul]
  refine congrArg (· + ofPlaces k f) (Finset.sum_congr rfl fun i _ => ?_)
  rw [pow_add]
  ring

/-- What is multiplied by `X` moves up by one place. -/
theorem X_mul_ofPlaces (f : ℕ → Bool) :
    X * ofPlaces w f = ofPlaces (w + 1) (fun i => i != 0 && f (i - 1)) := by
  rw [Nat.add_comm w 1, ofPlaces_add]
  simp [ofPlaces, bit, mul_comm]

theorem coeff_bit_mul (b : Bool) (i j : ℕ) :
    (bit b * X ^ i).coeff j = if j = i ∧ b = true then 1 else 0 := by
  cases b <;> simp [bit, coeff_X_pow]

theorem coeff_ofPlaces (i : ℕ) :
    (ofPlaces w f).coeff i = if i < w ∧ f i = true then 1 else 0 := by
  rw [ofPlaces, finsetSum_coeff]
  simp only [coeff_bit_mul]
  by_cases inside : i < w
  · rw [Finset.sum_eq_single i]
    · simp [inside]
    · intro j _ other
      exact if_neg fun both => other both.1.symm
    · exact fun outside => absurd (Finset.mem_range.mpr inside) outside
  · rw [if_neg fun both => inside both.1]
    refine Finset.sum_eq_zero fun j below => if_neg fun both => inside ?_
    rw [both.1]
    exact Finset.mem_range.mp below

/-- Bits at different places are different polynomials. -/
theorem ofPlaces_inj : ofPlaces w f = ofPlaces w g ↔ ∀ i < w, f i = g i := by
  refine ⟨fun same i inside => ?_, ofPlaces_congr⟩
  have equal : (ofPlaces w f).coeff i = (ofPlaces w g).coeff i := by rw [same]
  rw [coeff_ofPlaces, coeff_ofPlaces] at equal
  revert equal
  cases f i <;> cases g i <;> simp [inside]

theorem degree_ofPlaces_lt : (ofPlaces w f).degree < w := by
  rw [degree_lt_iff_coeff_zero]
  intro i outside
  rw [coeff_ofPlaces, if_neg fun both => absurd both.1 (not_lt.mpr outside)]

/-! ### The generator -/

theorem monic_generator : (generator w g).Monic := monic_X_pow_add degree_ofPlaces_lt

theorem natDegree_generator : (generator w g).natDegree = w := by
  refine natDegree_eq_of_degree_eq_some ?_
  rw [generator, degree_add_eq_left_of_degree_lt, degree_X_pow]
  rw [degree_X_pow]
  exact degree_ofPlaces_lt

theorem coeff_generator (positive : 0 < w) (set : g 0 = true) :
    (generator w g).coeff 0 ≠ 0 := by
  rw [generator, coeff_add, coeff_X_pow, if_neg positive.ne, zero_add, coeff_ofPlaces,
    if_pos ⟨positive, set⟩]
  exact one_ne_zero

/-! ### Bits of a list -/

theorem ofBits_append (front rear : List Bool) :
    ofBits (front ++ rear) = ofBits front * X ^ rear.length + ofBits rear := by
  induction front with
  | nil => simp [ofBits]
  | cons b front inductionHypothesis =>
    rw [List.cons_append, ofBits, inductionHypothesis, ofBits, List.length_append, pow_add]
    ring

/-- The bits of a list stand at the places counted from its end. -/
theorem ofBits_eq (bits : List Bool) :
    ofBits bits = ofPlaces bits.length (fun i => bits.reverse.getD i false) := by
  induction bits with
  | nil => rfl
  | cons b bits inductionHypothesis =>
    rw [ofBits, inductionHypothesis, List.length_cons, ofPlaces, ofPlaces,
      Finset.sum_range_succ, add_comm]
    refine congrArg₂ (· + ·) ?_ ?_
    · refine Finset.sum_congr rfl fun i inside => ?_
      have before : i < bits.reverse.length := by simpa using inside
      rw [List.reverse_cons, List.getD_append _ _ _ _ before]
    · rw [List.reverse_cons, List.getD_append_right _ _ _ _ (by simp)]
      simp

theorem degree_ofBits_lt (bits : List Bool) : (ofBits bits).degree < bits.length := by
  rw [ofBits_eq]
  exact degree_ofPlaces_lt

/-- Lists of one length with the same polynomial are the same. -/
theorem ofBits_injective {a b : List Bool} (length : a.length = b.length)
    (same : ofBits a = ofBits b) : a = b := by
  rw [ofBits_eq, ofBits_eq, length, ofPlaces_inj] at same
  refine List.reverse_injective (List.ext_getElem (by simpa using length) fun i inA inB => ?_)
  have equal := same i (by simpa using inB)
  rwa [List.getD_eq_getElem _ _ inA, List.getD_eq_getElem _ _ inB] at equal

/-! ### The register -/

/-- A shift is the remainder of what is multiplied by `X`. -/
theorem shift_eq (monic : G.Monic) (positive : 0 < G.natDegree) (below : r.degree < G.natDegree) :
    shift G r = (X * r) %ₘ G := by
  have shifted : (X * r).degree ≤ (G.natDegree : WithBot ℕ) := by
    rw [degree_le_iff_coeff_zero]
    intro i above
    obtain ⟨k, rfl⟩ : ∃ k, i = k + 1 := by
      rcases i with _ | k
      · exact absurd above (by simp)
      · exact ⟨k, rfl⟩
    rw [coeff_X_mul]
    refine coeff_eq_zero_of_degree_lt (below.trans_le ?_)
    have : G.natDegree < k + 1 := by exact_mod_cast above
    exact_mod_cast Nat.lt_succ_iff.mp this
  have top : (X * r).coeff G.natDegree = r.coeff (G.natDegree - 1) := by
    obtain ⟨k, degree⟩ := Nat.exists_eq_succ_of_ne_zero positive.ne'
    rw [degree, Nat.succ_sub_one, coeff_X_mul]
  have degreeG : G.degree = G.natDegree := degree_eq_natDegree monic.ne_zero
  rw [shift]
  split
  next zero =>
    refine ((modByMonic_eq_self_iff monic).mpr ?_).symm
    rw [degreeG]
    refine lt_of_le_of_ne shifted fun equal => ?_
    exact coeff_ne_zero_of_eq_degree equal (top.trans zero)
  next set =>
    -- The two leading coefficients are one, and they cancel.
    have one : (X * r).coeff G.natDegree = 1 := by
      rw [top]
      generalize r.coeff (G.natDegree - 1) = c at set
      revert set
      decide +revert
    have smaller : (X * r + G).degree < G.degree := by
      rw [degreeG]
      refine (degree_lt_iff_coeff_zero _ _).mpr fun i atLeast => ?_
      rcases atLeast.eq_or_lt with rfl | above
      · rw [coeff_add, one, monic.coeff_natDegree]
        exact CharTwo.add_self_eq_zero 1
      · rw [coeff_add, coeff_eq_zero_of_degree_lt (shifted.trans_lt (by exact_mod_cast above)),
          coeff_eq_zero_of_natDegree_lt above, add_zero]
    calc X * r + G
        = (X * r + G) %ₘ G := ((modByMonic_eq_self_iff monic).mpr smaller).symm
      _ = (X * r) %ₘ G := by rw [add_modByMonic, modByMonic_self monic, add_zero]

/-- A shift moves each bit up by one place, and flips those of the generator when the bit that
leaves is set. -/
theorem shift_ofPlaces (f g : ℕ → Bool) (w : ℕ) :
    shift (generator (w + 1) g) (ofPlaces (w + 1) f) =
      ofPlaces (w + 1) (fun i => (i != 0 && f (i - 1)) ^^ (f w && g i)) := by
  have moved : X * ofPlaces (w + 1) f =
      bit (f w) * X ^ (w + 1) + ofPlaces (w + 1) (fun i => i != 0 && f (i - 1)) := by
    rw [X_mul_ofPlaces, ofPlaces, Finset.sum_range_succ, add_comm]
    rfl
  rw [shift, natDegree_generator, Nat.add_sub_cancel, coeff_ofPlaces, ofPlaces_xor, moved]
  cases leaves : f w
  · rw [if_pos (if_neg fun both => nomatch both.2)]
    simp [bit, ofPlaces]
  · have cancel : (X : (ZMod 2)[X]) ^ (w + 1) + X ^ (w + 1) = 0 := CharTwo.add_self_eq_zero _
    rw [if_neg (by simp), generator]
    simp only [bit, if_true, one_mul, Bool.true_and]
    linear_combination cancel

/-- Multiplying what is left is multiplying before the division. -/
theorem mul_modByMonic (p q : (ZMod 2)[X]) : (p * (q %ₘ G)) %ₘ G = (p * q) %ₘ G := by
  by_cases monic : G.Monic
  · rw [← sub_eq_zero, ← sub_modByMonic, modByMonic_eq_zero_iff_dvd monic, ← mul_sub]
    exact (dvd_modByMonic_sub q G).mul_left p
  · simp only [modByMonic_eq_of_not_monic _ monic]

/-- Shifts in a row divide once. -/
theorem iterate_shift (monic : G.Monic) (positive : 0 < G.natDegree)
    (below : r.degree < G.natDegree) (n : ℕ) : (shift G)^[n] r = (X ^ n * r) %ₘ G := by
  induction n with
  | zero =>
    rw [Function.iterate_zero, pow_zero, one_mul]
    refine ((modByMonic_eq_self_iff monic).mpr ?_).symm
    rwa [degree_eq_natDegree monic.ne_zero]
  | succ n inductionHypothesis =>
    have left : ((X ^ n * r) %ₘ G).degree < G.natDegree := by
      rw [← degree_eq_natDegree monic.ne_zero]
      exact degree_modByMonic_lt _ monic
    rw [Function.iterate_succ_apply', inductionHypothesis, shift_eq monic positive left,
      mul_modByMonic, pow_succ', mul_assoc]

/-- Bits that are added at the top of the register are shifted in. -/
theorem iterate_shift_add (monic : G.Monic) (below : r.degree < G.natDegree) (bits : List Bool)
    (length : bits.length ≤ G.natDegree) (some_ : 0 < bits.length) :
    (shift G)^[bits.length] (r + ofBits bits * X ^ (G.natDegree - bits.length)) =
      remainder G r bits := by
  have added : (ofBits bits * X ^ (G.natDegree - bits.length)).degree <
      (G.natDegree : WithBot ℕ) := by
    rw [degree_mul, degree_X_pow]
    calc (ofBits bits).degree + ((G.natDegree - bits.length : ℕ) : WithBot ℕ)
        < (bits.length : WithBot ℕ) + ((G.natDegree - bits.length : ℕ) : WithBot ℕ) :=
          WithBot.add_lt_add_right (WithBot.natCast_ne_bot _) (degree_ofBits_lt bits)
      _ = G.natDegree := by
          rw [← Nat.cast_add, Nat.add_sub_cancel' length]
  rw [iterate_shift monic (some_.trans_le length)
    ((degree_add_le _ _).trans_lt (max_lt below added)), remainder]
  refine congrArg (· %ₘ G) ?_
  rw [mul_add, mul_comm (X ^ bits.length) r, mul_left_comm, ← pow_add,
    Nat.add_sub_cancel' length]

/-! ### Remainders -/

theorem remainder_nil (monic : G.Monic) (below : r.degree < G.natDegree) :
    remainder G r [] = r := by
  rw [remainder, ofBits, List.length_nil, pow_zero, mul_one, zero_mul, add_zero]
  refine (modByMonic_eq_self_iff monic).mpr ?_
  rwa [degree_eq_natDegree monic.ne_zero]

/-- The register behind the first bits is all that the rest of them sees. -/
theorem remainder_append (front rear : List Bool) :
    remainder G (remainder G r front) rear = remainder G r (front ++ rear) := by
  rw [remainder, add_modByMonic, mul_comm, remainder, mul_modByMonic, ← add_modByMonic, remainder,
    ofBits_append, List.length_append, pow_add]
  refine congrArg (· %ₘ G) ?_
  ring

/-- A register that meets its own bits is cleared. -/
theorem remainder_own {bits : List Bool} (width : bits.length = G.natDegree)
    (own : ofBits bits = r) : remainder G r bits = 0 := by
  rw [remainder, own, width, CharTwo.add_self_eq_zero, zero_modByMonic]

/-- The remainders of two messages of one length differ by that of their difference. -/
theorem remainder_sub {a b : List Bool} (length : a.length = b.length) :
    remainder G r a - remainder G r b = ((ofBits a - ofBits b) * X ^ G.natDegree) %ₘ G := by
  rw [remainder, remainder, ← sub_modByMonic, length]
  refine congrArg (· %ₘ G) ?_
  ring

/-- A generator whose last coefficient is set leaves a remainder of every difference that is
not longer than its degree. -/
theorem remainder_ne {front rear d d' : List Bool} (monic : G.Monic) (odd : G.coeff 0 ≠ 0)
    (length : d.length = d'.length) (short : d.length ≤ G.natDegree) (differ : d ≠ d') :
    remainder G r (front ++ d ++ rear) ≠ remainder G r (front ++ d' ++ rear) := by
  intro same
  have divides : G ∣ (ofBits d - ofBits d') * X ^ (rear.length + G.natDegree) := by
    rw [← modByMonic_eq_zero_iff_dvd monic]
    have zero := remainder_sub (G := G) (r := r) (a := front ++ d ++ rear)
      (b := front ++ d' ++ rear) (by simp [length])
    rw [same, sub_self, ofBits_append, ofBits_append, ofBits_append, ofBits_append, length] at zero
    rw [zero, pow_add]
    refine congrArg (· %ₘ G) ?_
    ring
  have coprime : IsCoprime G (X ^ (rear.length + G.natDegree)) := by
    refine IsCoprime.pow_right ?_
    have prime : Prime (X : (ZMod 2)[X]) := prime_X
    exact ((Prime.coprime_iff_not_dvd prime).mpr fun divides => odd (X_dvd_iff.mp divides)).symm
  have difference := coprime.dvd_of_dvd_mul_right divides
  have smaller : (ofBits d - ofBits d').degree < G.degree := by
    rw [degree_eq_natDegree monic.ne_zero]
    refine (degree_sub_le _ _).trans_lt (max_lt ?_ ?_)
    · exact (degree_ofBits_lt d).trans_le (by exact_mod_cast short)
    · exact (degree_ofBits_lt d').trans_le (by exact_mod_cast length ▸ short)
  refine differ (ofBits_injective length (sub_eq_zero.mp ?_))
  by_contra nonzero
  exact absurd (degree_le_of_dvd difference nonzero) (not_le.mpr smaller)

/-! ### Registers in words -/

/-- A register that is kept in a word, and the bits of a byte that are added at its top before it
is shifted once for each of them. -/
structure Register (G : (ZMod 2)[X]) (Word Byte : Type) where
  word : Word → (ZMod 2)[X]
  Fits : Word → Prop
  round : Word → Word
  add : Word → Byte → Word
  bits : Byte → List Bool
  monic : G.Monic
  degree_lt : ∀ {crc}, Fits crc → (word crc).degree < G.natDegree
  fits_round : ∀ {crc}, Fits crc → Fits (round crc)
  word_round : ∀ {crc}, Fits crc → word (round crc) = shift G (word crc)
  fits_add : ∀ {crc}, Fits crc → ∀ byte, Fits (add crc byte)
  word_add : ∀ crc byte, word (add crc byte) =
    word crc + ofBits (bits byte) * X ^ (G.natDegree - (bits byte).length)
  bits_pos : ∀ byte, 0 < (bits byte).length
  bits_le : ∀ byte, (bits byte).length ≤ G.natDegree

namespace Register

variable {Word Byte : Type} (register : Register G Word Byte) {crc : Word}

/-- What one byte does to the register. -/
def step (crc : Word) (byte : Byte) : Word :=
  register.round^[(register.bits byte).length] (register.add crc byte)

theorem word_iterate (fits : register.Fits crc) (n : ℕ) :
    register.Fits (register.round^[n] crc) ∧
      register.word (register.round^[n] crc) = (shift G)^[n] (register.word crc) := by
  induction n generalizing crc with
  | zero => exact ⟨fits, rfl⟩
  | succ n inductionHypothesis =>
    simp only [Function.iterate_succ_apply]
    rw [← register.word_round fits]
    exact inductionHypothesis (register.fits_round fits)

theorem word_step (fits : register.Fits crc) (byte : Byte) :
    register.Fits (register.step crc byte) ∧
      register.word (register.step crc byte) =
        remainder G (register.word crc) (register.bits byte) := by
  obtain ⟨kept, shifted⟩ := register.word_iterate (register.fits_add fits byte)
    (register.bits byte).length
  refine ⟨kept, ?_⟩
  rw [step, shifted, register.word_add]
  exact iterate_shift_add register.monic (register.degree_lt fits) _ (register.bits_le byte)
    (register.bits_pos byte)

/-- The register behind the bytes holds their remainder. -/
theorem word_foldl (fits : register.Fits crc) (bytes : List Byte) :
    register.Fits (bytes.foldl register.step crc) ∧
      register.word (bytes.foldl register.step crc) =
        remainder G (register.word crc) (bytes.flatMap register.bits) := by
  induction bytes generalizing crc with
  | nil => exact ⟨fits, (remainder_nil register.monic (register.degree_lt fits)).symm⟩
  | cons byte bytes inductionHypothesis =>
    obtain ⟨kept, first⟩ := register.word_step fits byte
    obtain ⟨last, rest⟩ := inductionHypothesis kept
    refine ⟨last, ?_⟩
    rw [List.foldl_cons, rest, first, remainder_append, List.flatMap_cons]

/-- Bytes whose bits are those of the register clear it. -/
theorem word_own {bytes : List Byte} (fits : register.Fits crc)
    (width : (bytes.flatMap register.bits).length = G.natDegree)
    (own : ofBits (bytes.flatMap register.bits) = register.word crc) :
    register.word (bytes.foldl register.step crc) = 0 := by
  rw [(register.word_foldl fits bytes).2]
  exact remainder_own width own

/-- Messages that differ in a short row of bits leave different registers. -/
theorem foldl_ne {message message' : List Byte} {front d d' rear : List Bool}
    (fits : register.Fits crc) (odd : G.coeff 0 ≠ 0)
    (bits : message.flatMap register.bits = front ++ d ++ rear)
    (bits' : message'.flatMap register.bits = front ++ d' ++ rear) (length : d.length = d'.length)
    (short : d.length ≤ G.natDegree) (differ : d ≠ d') :
    message.foldl register.step crc ≠ message'.foldl register.step crc := by
  intro same
  have first := (register.word_foldl fits message).2
  have second := (register.word_foldl fits message').2
  rw [same, second, bits, bits'] at first
  exact remainder_ne register.monic odd length short differ first.symm

end Register

end

end Remainders
