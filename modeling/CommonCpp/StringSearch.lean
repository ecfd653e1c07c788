/-
This file settles which occurrence of a text `search` finds.

Behind an occurrence `search` goes on with what follows the rest of the string, which is its null.
So it finds the first occurrence, and no other; and the number of those it finds is what `replace`
returns only where `replace` goes round its loop no more than once.
-/

import Mathlib.Data.Set.Card
import CommonCpp.StringReplace

namespace CommonCpp

open Bytes Occurrences

namespace Strings

/-! ### The loop -/

/-- The loop of `search`: `text` and `result` are distances from the text of the string, and
`result` is the null pointer when nothing is found. -/
def searchLoop (memory substring : Text) : ℕ → ℕ → Option ℕ → Option ℕ
  | 0, _, result => result
  | _ + 1, _, none => none
  | instance_ + 1, text, some _ =>
    match strstr (memory.drop text) substring with
    | none => searchLoop memory substring instance_ text none
    | some found =>
      let result := text + found
      searchLoop memory substring instance_ (result + strlen (memory.drop result)) (some result)

section

variable {Name : Type}

/-- `search(const char *, unsigned, unsigned)` without flags. -/
def search (state : State Name) (this : Name) (substring : Text) (instance_ : ℕ) : Option ℕ :=
  match state.str this with
  | none => none
  | some str =>
    let str := state.heap.cstring str
    if str.len = 0 then none
    else searchLoop str.text substring (if instance_ = 0 then 1 else instance_) 0 (some 0)

theorem searchLoop_none (memory substring : Text) (instance_ text : ℕ) :
    searchLoop memory substring instance_ text none = none := by
  cases instance_ <;> rfl

/-- Behind the null nothing is found. -/
theorem searchLoop_end {memory substring : Text} {text : ℕ} (filled : string substring ≠ [])
    (ended : string (memory.drop text) = []) (instance_ : ℕ) (result : Option ℕ) :
    searchLoop memory substring (instance_ + 1) text result = none := by
  have missing : strstr (memory.drop text) substring = none := by
    rw [strstr, ended]
    exact first_eq_none_iff.mpr fun occurs => filled (List.infix_nil.mp occurs)
  cases result with
  | none => rfl
  | some result =>
    rw [searchLoop, missing]
    exact searchLoop_none memory substring instance_ text

/-- The rest of a text ends with its null. -/
theorem string_behind (memory : Text) (text : ℕ) :
    string (memory.drop (text + strlen (memory.drop text))) = [] := by
  rw [← List.drop_drop]
  generalize memory.drop text = memory
  rw [string_drop le_rfl]
  exact List.drop_length

/-! ### What is found -/

variable {state : State Name} {this : Name} {t substring : Text}

/-- The first occurrence is found, and no other. -/
theorem search_eq (filled : string substring ≠ []) (spells : Spells state this t) {k : ℕ}
    (positive : 1 ≤ k) :
    search state this substring k = if k = 1 then first (string substring) t else none := by
  have nothing : t = [] → first (string substring) t = none := by
    intro empty
    rw [empty]
    exact first_eq_none_iff.mpr fun occurs => filled (List.infix_nil.mp occurs)
  obtain ⟨none_, empty⟩ | ⟨str, reads⟩ := spells
  · rw [search, none_, nothing empty, ite_self]
  · unfold search
    rw [reads.points]
    dsimp only
    rw [reads.contains.len]
    split
    next zero => rw [nothing (List.length_eq_zero_iff.mp zero), ite_self]
    next some_ =>
      obtain ⟨k, rfl⟩ := Nat.exists_eq_add_of_le' positive
      rw [if_neg (Nat.succ_ne_zero k), searchLoop, List.drop_zero, strstr, reads.contains.string]
      cases first (string substring) t with
      | none =>
        rw [ite_self]
        exact searchLoop_none _ _ _ _
      | some found =>
        dsimp only
        cases k with
        | zero =>
          rw [if_pos (Nat.zero_add 1), Nat.zero_add]
          rfl
        | succ k =>
          rw [if_neg (by omega)]
          exact searchLoop_end filled (string_behind _ _) k _

/-- `search` is right about the first occurrence, and about those that are not there. -/
theorem search_eq_place_iff (filled : string substring ≠ []) (spells : Spells state this t) {k : ℕ}
    (positive : 1 ≤ k) :
    search state this substring k = place (string substring) t k ↔
      k = 1 ∨ count (string substring) t < k := by
  rw [search_eq filled spells positive]
  split
  next one =>
    rw [one]
    exact iff_of_true (place_one filled t).symm (Or.inl rfl)
  next later =>
    rw [or_iff_right later, eq_comm, ← Option.not_isSome_iff_eq_none, place_isSome_iff, Nat.not_le]

/-- The numbers for which `search` finds something. -/
def Finds (state : State Name) (this : Name) (substring : Text) : Set ℕ :=
  {k | 1 ≤ k ∧ (search state this substring k).isSome}

theorem ncard_finds (filled : string substring ≠ []) (spells : Spells state this t) :
    (Finds state this substring).ncard = if string substring <:+: t then 1 else 0 := by
  have only : ∀ k, k ∈ Finds state this substring ↔ k = 1 ∧ string substring <:+: t := by
    intro k
    have occurs : (first (string substring) t).isSome ↔ string substring <:+: t := by
      rw [Option.isSome_iff_ne_none, Ne, first_eq_none_iff, not_not]
    constructor
    · rintro ⟨positive, found_⟩
      rw [search_eq filled spells positive] at found_
      split at found_
      next one => exact ⟨one, occurs.mp found_⟩
      next => cases found_
    · rintro ⟨rfl, there⟩
      refine ⟨le_rfl, ?_⟩
      rw [search_eq filled spells le_rfl, if_pos rfl]
      exact occurs.mpr there
  split
  next there =>
    have one : Finds state this substring = {1} := by
      ext k
      rw [only, Set.mem_singleton_iff, and_iff_left there]
    rw [one, Set.ncard_singleton]
  next missing =>
    have none_ : Finds state this substring = ∅ :=
      Set.eq_empty_of_forall_notMem fun k member => missing ((only k).mp member).2
    rw [none_, Set.ncard_empty]

/-- The text occurs, and goes once, modulo what an `unsigned` holds, round the loop of `replace`. -/
def FrontOnce (s t : Text) : Prop := ∃ k, Fronts s t k ∧ k % 2 ^ 32 = 1

/-- `search` finds the occurrence it is asked for when that is the first one or is not there, and
finds as many as `replace` counts when there is none or `replace` counts one. -/
theorem search_iff [DecidableEq Name] (filled : string substring ≠ [])
    (spells : Spells state this t) :
    (∀ k, 1 ≤ k → (search state this substring k = place (string substring) t k ↔
      k = 1 ∨ count (string substring) t < k)) ∧
    ∀ cp rounds target n, replaceCount rounds state this substring cp = some (target, n) →
      ((Finds state this substring).ncard = n ↔
        ¬ string substring <:+: t ∨ FrontOnce (string substring) t) := by
  refine ⟨fun k positive => search_eq_place_iff filled spells positive,
    fun cp rounds target n ended => ?_⟩
  obtain ⟨k, fronts⟩ := exists_fronts filled t
  obtain ⟨counted, -⟩ := (replaceCount_fronts filled spells fronts).1 rounds target n ended
  have once : FrontOnce (string substring) t ↔ n = 1 := by
    rw [counted]
    constructor
    · rintro ⟨j, fronts_, one⟩
      rw [fronts.unique fronts_]
      exact one
    · exact fun one => ⟨k, fronts, one⟩
  rw [ncard_finds filled spells, once]
  split
  next there =>
    rw [or_iff_right (not_not.mpr there)]
    exact eq_comm
  next missing =>
    have zero : Fronts (string substring) t 0 := by
      refine ⟨nofun, ?_⟩
      rw [Nat.zero_mul, List.drop_zero]
      exact missing
    rw [counted, fronts.unique zero]
    exact iff_of_true rfl (Or.inl missing)

end

/-- In `Hi` the second `i` is not there, and is not found. -/
theorem search_iff_hi : search hi false [0x69] 2 = place [0x69] [0x48, 0x69] 2 :=
  ((search_iff (by decide) spells_hi).1 2 (by decide)).mpr (Or.inr (by decide))

/-- A string with this text. -/
def oo : State Bool := perform (start Bool) (.construct false (.text (some [0x6f, 0x6f])))

/-- In `oo` the second `o` is, and is not found. -/
theorem search_misses : Spells oo false [0x6f, 0x6f] ∧ search oo false [0x6f] 2 = none ∧
    place [0x6f] ([0x6f, 0x6f] : Text) 2 = some 1 :=
  ⟨Or.inr ⟨0, by decide, by decide, ⟨by decide, by decide, by decide, by decide⟩⟩, by decide,
    by decide⟩

end Strings

end CommonCpp
