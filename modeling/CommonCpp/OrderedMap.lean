/-
This file develops the map that keeps its entries in the order of their keys, each key once.

Two maps with the same entries are equal. To write an entry behind all others is to append it, so
that a map is made again by writing its entries in their order.
-/

import Mathlib.Data.List.Lex
import Mathlib.Data.Prod.Lex

/-- The entries, by ascending keys. -/
@[ext]
structure OrderedMap (Key Value : Type) [LinearOrder Key] where
  entries : List (Key × Value)
  ascending : entries.Pairwise fun entry entry' => entry.1 < entry'.1

namespace OrderedMap

section Entries

variable {Key Value : Type} [LinearOrder Key]

/-- The entries with this value at the key, which is put where it belongs if it is new. -/
def place (key : Key) (value : Value) : List (Key × Value) → List (Key × Value)
  | [] => [(key, value)]
  | entry :: entries =>
    if key < entry.1 then (key, value) :: entry :: entries
    else if entry.1 < key then entry :: place key value entries
    else (key, value) :: entries

theorem mem_place {key : Key} {value : Value} {entry : Key × Value}
    {entries : List (Key × Value)} (listed : entry ∈ place key value entries) :
    entry = (key, value) ∨ entry ∈ entries := by
  induction entries with
  | nil => exact .inl (List.mem_singleton.mp listed)
  | cons first entries inductionHypothesis =>
    rw [place] at listed
    split_ifs at listed with below above
    · exact List.mem_cons.mp listed
    · rcases List.mem_cons.mp listed with rfl | later
      · exact .inr List.mem_cons_self
      · exact (inductionHypothesis later).imp_right (List.mem_cons_of_mem _)
    · exact (List.mem_cons.mp listed).imp_right (List.mem_cons_of_mem _)

theorem length_place_le (key : Key) (value : Value) (entries : List (Key × Value)) :
    (place key value entries).length ≤ entries.length + 1 := by
  induction entries with
  | nil => exact le_refl _
  | cons first entries inductionHypothesis =>
    rw [place]
    split_ifs
    · exact le_refl _
    · exact Nat.succ_le_succ inductionHypothesis
    · exact Nat.le_succ _

theorem ascending_place (key : Key) (value : Value) {entries : List (Key × Value)}
    (ascending : entries.Pairwise fun entry entry' => entry.1 < entry'.1) :
    (place key value entries).Pairwise fun entry entry' => entry.1 < entry'.1 := by
  induction entries with
  | nil => exact List.pairwise_singleton _ _
  | cons first entries inductionHypothesis =>
    obtain ⟨least, later⟩ := List.pairwise_cons.mp ascending
    rw [place]
    split_ifs with below above
    · refine List.pairwise_cons.mpr ⟨fun entry listed => ?_, ascending⟩
      rcases List.mem_cons.mp listed with rfl | behind
      · exact below
      · exact below.trans (least entry behind)
    · refine List.pairwise_cons.mpr ⟨fun entry listed => ?_, inductionHypothesis later⟩
      rcases mem_place listed with rfl | behind
      · exact above
      · exact least entry behind
    · have same : key = first.1 := le_antisymm (not_lt.mp above) (not_lt.mp below)
      exact List.pairwise_cons.mpr ⟨fun entry listed => same ▸ least entry listed, later⟩

theorem place_last {key : Key} (value : Value) {entries : List (Key × Value)}
    (last : ∀ entry ∈ entries, entry.1 < key) :
    place key value entries = entries ++ [(key, value)] := by
  induction entries with
  | nil => rfl
  | cons first entries inductionHypothesis =>
    have above : first.1 < key := last first List.mem_cons_self
    rw [place, if_neg above.not_gt, if_pos above,
      inductionHypothesis fun entry listed => last entry (List.mem_cons_of_mem _ listed)]
    rfl

/-! ### The map -/

def empty : OrderedMap Key Value := ⟨[], List.Pairwise.nil⟩

/-- The map with this value at the key. -/
def set (map : OrderedMap Key Value) (key : Key) (value : Value) : OrderedMap Key Value :=
  ⟨place key value map.entries, ascending_place key value map.ascending⟩

theorem mem_set {map : OrderedMap Key Value} {key : Key} {value : Value} {entry : Key × Value}
    (listed : entry ∈ (map.set key value).entries) : entry = (key, value) ∨ entry ∈ map.entries :=
  mem_place listed

theorem length_set_le (map : OrderedMap Key Value) (key : Key) (value : Value) :
    (map.set key value).entries.length ≤ map.entries.length + 1 :=
  length_place_le key value map.entries

/-- To write the entry that comes next in a map into the map of those before it. -/
theorem set_next {map : OrderedMap Key Value} {entries later : List (Key × Value)}
    {entry : Key × Value} {before : OrderedMap Key Value} (parts : before.entries = entries)
    (whole : map.entries = entries ++ entry :: later) :
    (before.set entry.1 entry.2).entries = entries ++ [entry] := by
  refine (place_last entry.2 fun other listed => ?_).trans (congrArg (· ++ [entry]) parts)
  have ascending := whole ▸ map.ascending
  exact (List.pairwise_append.mp ascending).2.2 other (parts ▸ listed) entry List.mem_cons_self

end Entries

/-! ### The order of the maps -/

/-- Maps are compared entry by entry, and an entry by its key and then by its value. -/
def sequence {Key Value : Type} [LinearOrder Key] (map : OrderedMap Key Value) :
    List (Key ×ₗ Value) :=
  map.entries.map toLex

theorem sequence_injective {Key Value : Type} [LinearOrder Key] :
    Function.Injective (sequence : OrderedMap Key Value → List (Key ×ₗ Value)) := by
  intro map map' equal
  exact OrderedMap.ext (List.map_injective_iff.mpr toLex.injective equal)

instance {Key Value : Type} [LinearOrder Key] [LinearOrder Value] :
    LinearOrder (OrderedMap Key Value) :=
  LinearOrder.lift' sequence sequence_injective

end OrderedMap
