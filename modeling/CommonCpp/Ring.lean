/-
This file gives the windows of a ring: the cells a position and a length pick out
of an array whose last cell is followed by its first.

The code of a ring moves an index by one and starts again at zero when it has
passed the end. A window read from such an index is a list; the rules say how it
grows at its end, shrinks at either end, and that a write outside it leaves it
alone.
-/

import Mathlib.Data.List.Basic
import Mathlib.Data.Nat.ModEq
import Mathlib.Logic.Function.Basic
import Mathlib.Tactic.Common

namespace Memory

/-! ### Positions -/

/-- The index after an index, which is zero after the last one. -/
def advance (size index : Nat) : Nat :=
  if index + 1 ≥ size then 0 else index + 1

variable {size start : Nat}

theorem advance_eq_mod {index : Nat} (inside : index < size) :
    advance size index = (index + 1) % size := by
  unfold advance
  split
  next passed =>
    have last : index + 1 = size := by omega
    rw [last, Nat.mod_self]
  next => rw [Nat.mod_eq_of_lt (by omega)]

theorem advance_lt {index : Nat} (inside : index < size) : advance size index < size := by
  rw [advance_eq_mod inside]
  exact Nat.mod_lt _ (by omega)

/-- Positions less than a whole turn apart are different. -/
theorem position_ne {first second : Nat} (apart : first < second) (turn : second < first + size) :
    (start + first) % size ≠ (start + second) % size := by
  intro same
  have equal : first ≡ second [MOD size] := Nat.ModEq.add_left_cancel' start same
  have turns : size ∣ second - first := (Nat.modEq_iff_dvd' apart.le).mp equal
  have whole := Nat.le_of_dvd (by omega) turns
  omega

/-! ### Windows -/

variable {Cell : Type} {cells cells' : Nat → Cell} {length : Nat}

/-- The cells of a ring from a position on. -/
def window (cells : Nat → Cell) (size start length : Nat) : List Cell :=
  (List.range length).map fun offset => cells ((start + offset) % size)

@[simp] theorem length_window : (window cells size start length).length = length := by
  simp [window]

@[simp] theorem window_zero : window cells size start 0 = [] := rfl

/-- A window depends on its own cells only. -/
theorem window_congr
    (same : ∀ offset < length, cells' ((start + offset) % size) = cells ((start + offset) % size)) :
    window cells' size start length = window cells size start length := by
  refine List.map_congr_left fun offset member => ?_
  exact same offset (List.mem_range.mp member)

/-- A window ends with its last cell. -/
theorem window_succ_last :
    window cells size start (length + 1) =
      window cells size start length ++ [cells ((start + length) % size)] := by
  simp [window, List.range_succ]

/-- A window begins with its first cell. -/
theorem window_succ_first :
    window cells size start (length + 1) =
      cells (start % size) :: window cells size ((start + 1) % size) length := by
  unfold window
  rw [List.range_succ_eq_map, List.map_cons, List.map_map, Nat.add_zero]
  refine congrArg (cells (start % size) :: ·) (List.map_congr_left fun offset _ => ?_)
  have shifted : start + (offset + 1) = start + 1 + offset := by omega
  rw [Function.comp_apply, Nat.succ_eq_add_one, shifted, Nat.mod_add_mod]

/-- A write behind a window that leaves a cell of the ring free does not change the window. -/
theorem window_update_last (value : Cell) (room : length < size) :
    window (Function.update cells ((start + length) % size) value) size start length =
      window cells size start length := by
  refine window_congr fun offset inside => Function.update_of_ne ?_ _ _
  exact position_ne inside (by omega)

/-- A write in front of a window that leaves a cell of the ring free does not change the window. -/
theorem window_update_first (value : Cell) (room : length < size) :
    window (Function.update cells (start % size) value) size ((start + 1) % size) length =
      window cells size ((start + 1) % size) length := by
  refine window_congr fun offset inside => Function.update_of_ne ?_ _ _
  have shifted : (start + 1) % size + offset ≡ start + (1 + offset) [MOD size] := by
    rw [← Nat.add_assoc]
    exact (Nat.mod_modEq _ _).add_right _
  rw [shifted]
  have different : (start + 0) % size ≠ (start + (1 + offset)) % size :=
    position_ne (by omega) (by omega)
  exact different.symm

end Memory
