/-
This file gives the forests that nodes form through two links: to the next sibling, and
to the first child.

A forest is the siblings that a pointer leads through, each with the forest below it. Its
preorder lists a node before the nodes below it, and these before the siblings behind. A
search tests a node, then goes down, and goes on to the siblings only when it has found
nothing there: it finds the first node of the preorder that passes the test.
-/

import Mathlib.Data.List.Basic
import Mathlib.Tactic.Common

namespace Memory

/-- Siblings, each with its children. -/
inductive Siblings (Address : Type) where
  | nil
  | cons (address : Address) (children others : Siblings Address)

variable {Address : Type} {next head : Address → Option Address} {pointer : Option Address}

namespace Siblings

/-- A node, what is below it, and what is behind it. -/
def preorder : Siblings Address → List Address
  | nil => []
  | cons address children others => address :: (children.preorder ++ others.preorder)

/-- The pointer leads through these siblings, and each of them to its children. -/
def Spelled (next head : Address → Option Address) : Option Address → Siblings Address → Prop
  | pointer, nil => pointer = none
  | pointer, cons address children others =>
    pointer = some address ∧ Spelled next head (head address) children ∧
      Spelled next head (next address) others

end Siblings

/-- The search of the siblings from a pointer on, and below each of them. It has no outcome when it
is deeper than the fuel. -/
def seek (next head : Address → Option Address) (test : Address → Bool) :
    ℕ → Option Address → Option (Option Address)
  | _, none => some none
  | 0, some _ => none
  | fuel + 1, some address =>
    if test address then some (some address)
    else
      (seek next head test fuel (head address)).bind fun
        | some found => some (some found)
        | none => seek next head test fuel (next address)

/-- The search finds the first node of the preorder that passes. -/
theorem seek_eq (test : Address → Bool) {siblings : Siblings Address}
    (spelled : siblings.Spelled next head pointer) {fuel : ℕ}
    (enough : siblings.preorder.length ≤ fuel) :
    seek next head test fuel pointer = some (siblings.preorder.find? test) := by
  induction siblings generalizing pointer fuel with
  | nil =>
    cases spelled
    cases fuel <;> rfl
  | cons address children others below behind =>
    obtain ⟨rfl, down, onward⟩ := spelled
    rw [Siblings.preorder, List.length_cons, List.length_append] at enough
    cases fuel with
    | zero => omega
    | succ fuel =>
      rw [seek, Siblings.preorder, below down (by omega), behind onward (by omega)]
      by_cases passes : test address
      · rw [if_pos passes, List.find?_cons_of_pos passes]
      · rw [if_neg passes, List.find?_cons_of_neg passes, List.find?_append, Option.bind_some]
        cases children.preorder.find? test <;> rfl

end Memory
