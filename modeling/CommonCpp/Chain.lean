/-
This file gives the singly linked lists of a memory.

A memory is seen through the link field of its nodes: an address that is not
allocated has none, and an allocated one has a link that may be null. A chain
spells out the addresses a pointer leads through until a null link. The rules
are those the code of a list uses: a chain depends on its own nodes only, its
first node can be taken off, and a node can be put behind its last one.
-/

import Mathlib.Tactic.Common
import Mathlib.Data.List.Basic

namespace Memory

variable {Address : Type}

/-- The pointer leads through exactly these addresses, in this order. -/
def Chain (next : Address → Option (Option Address)) : Option Address → List Address → Prop
  | pointer, [] => pointer = none
  | pointer, address :: rest =>
    pointer = some address ∧ ∃ link, next address = some link ∧ Chain next link rest

namespace Chain

variable {next next' : Address → Option (Option Address)} {pointer : Option Address}
  {list : List Address} {address : Address}

theorem head_eq (chain : Chain next pointer list) : pointer = list.head? := by
  cases list with
  | nil => exact chain
  | cons address rest => exact chain.1

/-- The nodes of a chain are allocated. -/
theorem allocated (chain : Chain next pointer list) (member : address ∈ list) :
    next address ≠ none := by
  induction list generalizing pointer with
  | nil => cases member
  | cons first rest inductionHypothesis =>
    obtain ⟨_, link, linked, tail⟩ := chain
    rcases List.mem_cons.mp member with rfl | member
    · rw [linked]
      exact Option.some_ne_none link
    · exact inductionHypothesis tail member

/-- A chain depends on its own nodes only. -/
theorem congr (chain : Chain next pointer list)
    (same : ∀ address ∈ list, next' address = next address) : Chain next' pointer list := by
  induction list generalizing pointer with
  | nil => exact chain
  | cons first rest inductionHypothesis =>
    obtain ⟨leads, link, linked, tail⟩ := chain
    obtain ⟨here, later⟩ := List.forall_mem_cons.mp same
    exact ⟨leads, link, here.trans linked, inductionHypothesis tail later⟩

/-- A pointer that is not null leads to the first node of its chain. -/
theorem uncons (chain : Chain next (some address) list) :
    ∃ link rest, list = address :: rest ∧ next address = some link ∧ Chain next link rest := by
  cases list with
  | nil => cases chain
  | cons first rest =>
    obtain ⟨leads, link, linked, tail⟩ := chain
    cases leads
    exact ⟨link, rest, rfl, linked, tail⟩

/-- A node with a null link, put behind the last node of a chain, ends the chain. -/
theorem append (chain : Chain next pointer list) (distinct : list.Nodup)
    (same : ∀ other ∈ list, list.getLast? ≠ some other → next' other = next other)
    (linked : ∀ other, list.getLast? = some other → next' other = some (some address))
    (ends : next' address = some none) :
    Chain next' (pointer.or (some address)) (list ++ [address]) := by
  induction list generalizing pointer with
  | nil =>
    cases chain
    exact ⟨rfl, none, ends, rfl⟩
  | cons first rest inductionHypothesis =>
    obtain ⟨rfl, link, leads, tail⟩ := chain
    obtain ⟨outside, distinct⟩ := List.nodup_cons.mp distinct
    cases rest with
    | nil =>
      cases tail
      exact ⟨rfl, some address, linked first rfl, rfl, none, ends, rfl⟩
    | cons second tail' =>
      have last : (first :: second :: tail').getLast? = (second :: tail').getLast? :=
        List.getLast?_cons_cons
      have here : next' first = next first := by
        refine same first List.mem_cons_self fun ends => outside ?_
        rw [last] at ends
        exact List.mem_of_getLast? ends
      have onward : link.or (some address) = link := by
        rw [tail.head_eq]
        rfl
      refine ⟨rfl, link, here.trans leads, ?_⟩
      rw [← onward]
      exact inductionHypothesis tail distinct
        (fun other member behind => same other (List.mem_cons_of_mem _ member)
          (by rw [last]; exact behind))
        fun other ends => linked other (by rw [last]; exact ends)

end Chain

end Memory
