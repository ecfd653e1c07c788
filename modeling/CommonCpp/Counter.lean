/-
This file gives the counters of a program: natural numbers that wrap where the
`unsigned` of 32 bits that they stand for does.

A counter that has room counts like a number. What is proved of numbers is
therefore used of counters as long as none of them is raised past its end or
lowered below zero.
-/

import Mathlib.Algebra.Group.Nat.Defs

namespace Counter

/-- A counter raised by an amount. -/
def raise (value amount : Nat) : Nat := (value + amount) % 2 ^ 32

/-- A counter lowered by an amount. -/
def lower (value amount : Nat) : Nat :=
  if amount ≤ value then value - amount else value + 2 ^ 32 - amount

theorem raise_of_lt {value amount : Nat} (room : value + amount < 2 ^ 32) :
    raise value amount = value + amount :=
  Nat.mod_eq_of_lt room

theorem raise_lt (value amount : Nat) : raise value amount < 2 ^ 32 :=
  Nat.mod_lt _ (by decide)

/-- A counter raised by one is another. -/
theorem raise_one_ne (value : Nat) : raise value 1 ≠ value := by
  unfold raise
  omega

theorem lower_of_le {value amount : Nat} (enough : amount ≤ value) :
    lower value amount = value - amount := by
  simp [lower, enough]

end Counter
