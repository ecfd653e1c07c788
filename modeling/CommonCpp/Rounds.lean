/-
This file gives two ways in which a loop saves itself from moving values, and what they stand for.

Registers whose values would each go one on in every round may stay where they are while their
names go back by one. And of a sequence in which each term is made of some of the terms before,
a ring of cells that are used again and again holds as many of the last terms as it has cells.
-/

import Mathlib.Algebra.Group.Fin.Basic
import Mathlib.Data.List.Range
import Mathlib.Tactic.Ring

namespace Rounds

variable {Value : Type*} {size : ℕ} [NeZero size]

/-! ### Names that go round -/

/-- The register that has this name in a round. -/
def place (round : ℕ) (name : Fin size) : Fin size := name - Fin.ofNat size round

/-- The value of the register that has this name in a round. -/
def named (registers : Vector Value size) (round : ℕ) (name : Fin size) : Value :=
  registers[place round name]

def setNamed (registers : Vector Value size) (round : ℕ) (name : Fin size) (value : Value) :
    Vector Value size :=
  registers.set (place round name) value (place round name).isLt

theorem place_injective (round : ℕ) :
    Function.Injective (place round : Fin size → Fin size) :=
  fun _ _ equal => sub_left_injective equal

omit [NeZero size] in
theorem getElem_set (registers : Vector Value size) (first second : Fin size) (value : Value) :
    (registers.set first value first.isLt)[second] =
      if first = second then value else registers[second] := by
  simp only [Fin.getElem_fin, Vector.getElem_set, Fin.ext_iff]

@[simp]
theorem named_setNamed (registers : Vector Value size) (round : ℕ) (first second : Fin size)
    (value : Value) :
    named (setNamed registers round first value) round second =
      if first = second then value else named registers round second := by
  rw [named, setNamed, getElem_set]
  simp only [(place_injective round).eq_iff, named]

/-- In the next round each name is that of the register behind. -/
theorem place_succ (round : ℕ) (name : Fin size) :
    place (round + 1) name = place round (name - 1) := by
  have next : Fin.ofNat size (round + 1) = 1 + Fin.ofNat size round := by
    rw [add_comm]
    exact Fin.ext (by simp [Fin.val_add])
  rw [place, place, next, sub_add_eq_sub_sub]

theorem place_zero (name : Fin size) : place 0 name = name := sub_zero name

theorem named_succ (registers : Vector Value size) (round : ℕ) (name : Fin size) :
    named registers (round + 1) name = named registers round (name - 1) := by
  simp only [named, place_succ]

theorem named_zero (registers : Vector Value size) (name : Fin size) :
    named registers 0 name = registers[name] := by
  simp only [named, place_zero]

/-- After a number of rounds that the registers divide, the names are as they were. -/
theorem place_of_dvd {round : ℕ} (whole : size ∣ round) (name : Fin size) :
    place round name = name := by
  have first : Fin.ofNat size round = 0 := Fin.ext (Nat.mod_eq_zero_of_dvd whole)
  rw [place, first, sub_zero]

theorem named_of_dvd (registers : Vector Value size) {round : ℕ} (whole : size ∣ round)
    (name : Fin size) : named registers round name = registers[name] := by
  simp only [named, place_of_dvd whole]

theorem ofNat_mod_of_dvd {whole : ℕ} (divides : size ∣ whole) (round : ℕ) :
    Fin.ofNat size (round % whole) = Fin.ofNat size round :=
  Fin.ext (Nat.mod_mod_of_dvd round divides)

theorem named_mod_of_dvd {whole : ℕ} (divides : size ∣ whole) (registers : Vector Value size)
    (round : ℕ) (name : Fin size) :
    named registers (round % whole) name = named registers round name := by
  simp only [named, place, ofNat_mod_of_dvd divides]

theorem setNamed_mod_of_dvd {whole : ℕ} (divides : size ∣ whole) (registers : Vector Value size)
    (round : ℕ) (name : Fin size) (value : Value) :
    setNamed registers (round % whole) name value = setNamed registers round name value := by
  simp only [setNamed, place, ofNat_mod_of_dvd divides]

/-! ### The last terms of a sequence -/

/-- The cells hold the last terms of a sequence that come before this one. -/
def Holds (cells : Vector Value size) (sequence : ℕ → Value) (next : ℕ) : Prop :=
  ∀ term, term < next → next ≤ term + size → cells[Fin.ofNat size term] = sequence term

theorem holds_set {cells : Vector Value size} {sequence : ℕ → Value} {next : ℕ}
    (holds : Holds cells sequence next) :
    Holds (cells.set (Fin.ofNat size next) (sequence next) (Fin.ofNat size next).isLt) sequence
      (next + 1) := by
  intro term before within
  rw [getElem_set]
  by_cases last : term = next
  · rw [last, if_pos rfl]
  · have apart : Fin.ofNat size next ≠ Fin.ofNat size term := by
      intro equal
      have congruent : next % size = term % size := congrArg Fin.val equal
      have gap := Nat.sub_mod_eq_zero_of_mod_eq congruent
      rw [Nat.mod_eq_of_lt (by omega)] at gap
      omega
    rw [if_neg apart]
    exact holds term (by omega) (by omega)

theorem Holds.oldest {cells : Vector Value size} {sequence : ℕ → Value} {next : ℕ}
    (holds : Holds cells sequence next) (enough : size ≤ next) :
    cells[Fin.ofNat size next] = sequence (next - size) := by
  have positive := Nat.pos_of_neZero size
  have turn : Fin.ofNat size next = Fin.ofNat size (next - size) :=
    Fin.ext (Nat.mod_eq_sub_mod enough)
  calc cells[Fin.ofNat size next] = cells[Fin.ofNat size (next - size)] :=
        congrArg (fun place : Fin size => cells[place]) turn
    _ = sequence (next - size) := holds _ (by omega) (by omega)

/-- The cell so far ahead of the next one, counted round the ring, holds a term before it. -/
theorem Holds.ahead {cells : Vector Value size} {sequence : ℕ → Value} {next : ℕ}
    (holds : Holds cells sequence next) {distance : ℕ} (short : distance < size)
    (enough : size ≤ next) :
    cells[Fin.ofNat size next + Fin.ofNat size distance] = sequence (next + distance - size) := by
  have turn : Fin.ofNat size next + Fin.ofNat size distance =
      Fin.ofNat size (next + distance - size) := by
    refine Fin.ext ?_
    have round : next + distance = next + distance - size + size := by omega
    simp only [Fin.val_add, Fin.val_ofNat, Nat.add_mod_mod, Nat.mod_add_mod]
    conv_lhs => rw [round, Nat.add_mod_right]
  rw [turn]
  exact holds _ (by omega) (by omega)

/-! ### Loops -/

/-- A loop of loops is one loop. -/
theorem foldl_range_mul (step : Value → ℕ → ℕ → Value) (outer : ℕ) {inner : ℕ}
    (positive : 0 < inner) (start : Value) :
    (List.range outer).foldl
        (fun value i => (List.range inner).foldl (fun value j => step value i j) value) start =
      (List.range (outer * inner)).foldl (fun value k => step value (k / inner) (k % inner))
        start := by
  induction outer with
  | zero => simp
  | succ outer inductionHypothesis =>
    rw [List.range_succ, List.foldl_concat, inductionHypothesis, Nat.succ_mul, List.range_add,
      List.foldl_append, List.foldl_map]
    refine List.foldl_ext _ _ _ fun value j member => ?_
    have small := List.mem_range.mp member
    rw [Nat.add_comm, Nat.add_mul_div_right _ _ positive, Nat.add_mul_mod_self_right,
      Nat.div_eq_of_lt small, Nat.mod_eq_of_lt small, Nat.zero_add]

end Rounds
