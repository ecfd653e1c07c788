/-
This file gives the pass over a list that keeps the element of the greatest key found so far, when
it starts from a key and no element.

An element is kept only when its key is above the one the pass starts from. So the pass finds an
element of the greatest key if any key is above the start, and none otherwise. It is right about
every list exactly when the start is below every key.
-/

import Mathlib.Order.Lattice
import Mathlib.Tactic.Common

namespace Selection

variable {Element Key : Type*} [LinearOrder Key] (key : Element → Key)

/-- The better of what was kept and the next element. -/
def keep (kept : Key × Option Element) (element : Element) : Key × Option Element :=
  if kept.1 < key element then (key element, some element) else kept

/-- What the pass keeps of a list. -/
def best (start : Key) (list : List Element) : Option Element :=
  (list.foldl (keep key) (start, none)).2

/-- What is kept is an element of the list or what was kept before it, it has the key it is kept
with, and no key of the list is above that one. -/
theorem foldl_keep (list : List Element) (kept : Key × Option Element) :
    (list.foldl (keep key) kept = kept ∨
        ∃ element ∈ list, kept.1 < key element ∧
          list.foldl (keep key) kept = (key element, some element)) ∧
      kept.1 ≤ (list.foldl (keep key) kept).1 ∧
      ∀ element ∈ list, key element ≤ (list.foldl (keep key) kept).1 := by
  induction list generalizing kept with
  | nil => exact ⟨.inl rfl, le_rfl, fun element member => by cases member⟩
  | cons element rest inductionHypothesis =>
    rw [List.foldl_cons]
    by_cases better : kept.1 < key element
    · have kept' : keep key kept element = (key element, some element) := if_pos better
      rw [kept']
      obtain ⟨found, above, bound⟩ := inductionHypothesis (key element, some element)
      refine ⟨.inr ?_, better.le.trans above, List.forall_mem_cons.mpr ⟨above, bound⟩⟩
      rcases found with stays | ⟨other, member, beats, isOther⟩
      · exact ⟨element, List.mem_cons_self, better, stays⟩
      · exact ⟨other, List.mem_cons_of_mem _ member, better.trans beats, isOther⟩
    · have kept' : keep key kept element = kept := if_neg better
      rw [kept']
      obtain ⟨found, above, bound⟩ := inductionHypothesis kept
      refine ⟨found.imp_right ?_, above,
        List.forall_mem_cons.mpr ⟨(not_lt.mp better).trans above, bound⟩⟩
      rintro ⟨other, member, beats, isOther⟩
      exact ⟨other, List.mem_cons_of_mem _ member, beats, isOther⟩

/-- The pass finds nothing when no key is above its start. -/
theorem best_eq_none_iff {start : Key} {list : List Element} :
    best key start list = none ↔ ∀ element ∈ list, key element ≤ start := by
  obtain ⟨found, -, bound⟩ := foldl_keep key list (start, none)
  rcases found with stays | ⟨element, member, beats, isElement⟩
  · rw [stays] at bound
    exact iff_of_true (congrArg Prod.snd stays) bound
  · refine iff_of_false (fun none_ => ?_) fun low => (low element member).not_gt beats
    rw [best, isElement] at none_
    cases none_

/-- What the pass finds is in the list, and its key is the greatest. -/
theorem best_eq_some {start : Key} {list : List Element} {element : Element}
    (found : best key start list = some element) :
    element ∈ list ∧ ∀ other ∈ list, key other ≤ key element := by
  obtain ⟨cases_, -, bound⟩ := foldl_keep key list (start, none)
  rcases cases_ with stays | ⟨other, member, -, isOther⟩
  · rw [best, stays] at found
    cases found
  · rw [best, isOther] at found
    cases found
    rw [isOther] at bound
    exact ⟨member, bound⟩

/-- The answer is an element of the greatest key, and there is none for the empty list only. -/
def IsBest (list : List Element) (answer : Option Element) : Prop :=
  (answer = none ↔ list = []) ∧
    ∀ element, answer = some element →
      element ∈ list ∧ ∀ other ∈ list, key other ≤ key element

/-- The pass is right about the empty list, and where a key is above its start. -/
theorem isBest_best_iff {start : Key} {list : List Element} :
    IsBest key list (best key start list) ↔ list = [] ∨ ∃ element ∈ list, start < key element := by
  have missed : (∃ element ∈ list, start < key element) ↔ best key start list ≠ none := by
    rw [Ne, best_eq_none_iff]
    simp only [not_forall, not_le, exists_prop]
  rw [missed]
  constructor
  · rintro ⟨none_, -⟩
    rw [← none_]
    exact em _
  · intro right
    refine ⟨⟨fun none_ => right.resolve_right (not_not_intro none_), fun empty => ?_⟩,
      fun element found => best_eq_some key found⟩
    rw [empty]
    rfl

end Selection
