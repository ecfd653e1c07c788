/-
This file gives logs of writes to keys that are compared up to an equivalence, and
what such a log leaves: a value for each key, and a listing.

The value of a key is that of the latest write of an equal key, unless it was cleared
since. The listing has the writes that were neither repeated nor cleared since, in the
order they were made. A list that is kept by taking the old entry of a key off and
putting the new one at the end is the listing of its log.
-/

import Mathlib.Data.List.Basic
import Mathlib.Data.List.Induction
import Mathlib.Data.List.Pairwise
import Mathlib.Tactic.Common

namespace KeyLog

/-- A comparison of keys that is an equivalence. -/
structure Comparison (Key : Type) where
  same : Key → Key → Bool
  refl : ∀ key, same key key
  symm : ∀ {key key'}, same key key' → same key' key
  trans : ∀ {key key' key''}, same key key' → same key' key'' → same key key''

/-- One entry of a log. -/
inductive LogEntry (Key Value : Type)
  | set (key : Key) (value : Value)
  | clear (key : Key)

namespace LogEntry

variable {Key Value : Type}

def key : LogEntry Key Value → Key
  | set key _ => key
  | clear key => key

def value? : LogEntry Key Value → Option Value
  | set _ value => some value
  | clear _ => none

end LogEntry

namespace Comparison

variable {Key Value : Type} (comparison : Comparison Key)

/-! ### Distinct keys -/

/-- No two of the keys are the same. -/
def Distinct (keys : List Key) : Prop :=
  keys.Pairwise fun key key' => ¬ comparison.same key key'

/-- The value of a key in a listing. -/
def lookup (entries : List (Key × Value)) (key : Key) : Option Value :=
  (entries.find? fun entry => comparison.same key entry.1).map Prod.snd

variable {comparison}

theorem same_comm (key key' : Key) : comparison.same key key' = comparison.same key' key :=
  Bool.eq_iff_iff.mpr ⟨comparison.symm, comparison.symm⟩

/-- Two of the keys are not both the same as a third one. -/
theorem same_congr {key key' : Key} (same : comparison.same key key') (other : Key) :
    comparison.same key other = comparison.same key' other :=
  Bool.eq_iff_iff.mpr ⟨comparison.trans (comparison.symm same), comparison.trans same⟩

/-- Where the keys are distinct, to take out the one that is found is to take out all that are the
same. -/
theorem filter_ne_of_find {Object : Type} [DecidableEq Object] {name : Object → Key}
    {list : List Object} (distinct : comparison.Distinct (list.map name)) {key : Key}
    {object : Object} (found : list.find? (fun other => comparison.same key (name other)) =
      some object) :
    list.filter (fun other => other ≠ object) =
      list.filter fun other => !comparison.same key (name other) := by
  have member := List.mem_of_find?_eq_some found
  have here : comparison.same key (name object) := by simpa using List.find?_some found
  have symmetric : Std.Symm fun object object' => ¬ comparison.same (name object) (name object') :=
    ⟨fun _ _ apart same => apart (comparison.symm same)⟩
  refine List.filter_congr fun other on => ?_
  by_cases equal : other = object
  · simp [equal, here]
  · have apart := (List.pairwise_map.mp distinct).forall on member equal
    rw [comparison.same_congr here, comparison.same_comm]
    simp [equal, apart]

/-- Where none is found, there is none to take out. -/
theorem filter_of_not_found {Object : Type} {name : Object → Key} {list : List Object} {key : Key}
    (missed : list.find? (fun other => comparison.same key (name other)) = none) :
    (list.filter fun other => !comparison.same key (name other)) = list :=
  List.filter_eq_self.mpr fun other member => by
    simpa using List.find?_eq_none.mp missed other member

/-- Distinct keys that are all among some are no more than these. -/
theorem Distinct.length_le {keys others : List Key} (distinct : comparison.Distinct keys)
    (covered : ∀ key ∈ keys, ∃ other ∈ others, comparison.same key other) :
    keys.length ≤ others.length := by
  induction keys generalizing others with
  | nil => exact Nat.zero_le _
  | cons key rest inductionHypothesis =>
    obtain ⟨apart, distinct⟩ := List.pairwise_cons.mp distinct
    obtain ⟨⟨other, member, same⟩, covered⟩ := List.forall_mem_cons.mp covered
    obtain ⟨before, after, rfl⟩ := List.append_of_mem member
    have later : rest.length ≤ (before ++ after).length := by
      refine inductionHypothesis distinct fun key' on => ?_
      obtain ⟨other', member', same'⟩ := covered key' on
      refine ⟨other', ?_, same'⟩
      rcases List.mem_append.mp member' with left | right
      · exact List.mem_append_left after left
      · rcases List.mem_cons.mp right with rfl | right
        · exact absurd (comparison.trans same (comparison.symm same')) (apart key' on)
        · exact List.mem_append_right before right
    calc (key :: rest).length ≤ (before ++ after).length + 1 := Nat.succ_le_succ later
      _ = (before ++ other :: after).length := by
        rw [List.length_append, List.length_append, List.length_cons, Nat.add_assoc]

/-- The value of a key is that of the first list that has the key. -/
theorem lookup_append (first last : List (Key × Value)) (key : Key) :
    comparison.lookup (first ++ last) key =
      (comparison.lookup first key).or (comparison.lookup last key) := by
  unfold lookup
  rw [List.find?_append, Option.map_or]

theorem exists_of_lookup {entries : List (Key × Value)} {key : Key} {value : Value}
    (found : comparison.lookup entries key = some value) :
    ∃ entry ∈ entries, comparison.same key entry.1 := by
  obtain ⟨entry, here, _⟩ := Option.map_eq_some_iff.mp found
  exact ⟨entry, List.mem_of_find?_eq_some here, by simpa using List.find?_some here⟩

/-- Where the keys are distinct, each has its own value. -/
theorem lookup_of_mem {entries : List (Key × Value)}
    (distinct : comparison.Distinct (entries.map Prod.fst)) {entry : Key × Value}
    (member : entry ∈ entries) : comparison.lookup entries entry.1 = some entry.2 := by
  induction entries with
  | nil => cases member
  | cons first rest inductionHypothesis =>
    obtain ⟨apart, distinct⟩ := List.pairwise_cons.mp distinct
    unfold lookup at inductionHypothesis ⊢
    rw [List.find?_cons]
    rcases List.mem_cons.mp member with rfl | member
    · rw [comparison.refl]
      rfl
    · have other := apart entry.1 (List.mem_map_of_mem member)
      rw [comparison.same_comm] at other
      rw [Bool.eq_false_iff.mpr other]
      exact inductionHypothesis distinct member

/-! ### Logs -/

section Logs

variable (comparison)

/-- The value of the latest write of a key that was not cleared since. -/
def latest (log : List (LogEntry Key Value)) (key : Key) : Option Value :=
  (log.reverse.find? fun entry => comparison.same key entry.key).bind LogEntry.value?

/-- The writes of a log that were neither repeated nor cleared since. -/
def listing : List (LogEntry Key Value) → List (Key × Value)
  | [] => []
  | .set key value :: later =>
    if later.any fun entry => comparison.same key entry.key then listing later
    else (key, value) :: listing later
  | .clear _ :: later => listing later

variable {comparison} {log : List (LogEntry Key Value)} {entries : List (Key × Value)}

theorem latest_append (log : List (LogEntry Key Value)) (entry : LogEntry Key Value) (key : Key) :
    comparison.latest (log ++ [entry]) key =
      if comparison.same key entry.key then entry.value? else comparison.latest log key := by
  unfold latest
  rw [List.reverse_append, List.reverse_singleton, List.singleton_append, List.find?_cons]
  split <;> simp [*]

/-- A write or a clear takes the entry of its key off; a write puts the new one at the end. -/
theorem listing_append (log : List (LogEntry Key Value)) (entry : LogEntry Key Value) :
    comparison.listing (log ++ [entry]) =
      (comparison.listing log).filter (fun other => !comparison.same entry.key other.1) ++
        (entry.value?.map fun value => (entry.key, value)).toList := by
  induction log with
  | nil => cases entry <;> rfl
  | cons first later inductionHypothesis =>
    cases first with
    | clear key => exact inductionHypothesis
    | set key value =>
      rw [List.cons_append, listing, listing, List.any_append, inductionHypothesis]
      by_cases repeated : later.any fun entry => comparison.same key entry.key
      · simp [repeated]
      · by_cases here : comparison.same key entry.key
        · have back := comparison.symm here
          simp [repeated, here, back]
        · have back : ¬ comparison.same entry.key key := fun same => here (comparison.symm same)
          simp [repeated, here, back]

theorem exists_set_of_mem_listing {entry : Key × Value} (member : entry ∈ comparison.listing log) :
    LogEntry.set entry.1 entry.2 ∈ log := by
  induction log with
  | nil => cases member
  | cons first later inductionHypothesis =>
    cases first with
    | clear key => exact List.mem_cons_of_mem _ (inductionHypothesis member)
    | set key value =>
      rw [listing] at member
      split at member
      next => exact List.mem_cons_of_mem _ (inductionHypothesis member)
      next =>
        rcases List.mem_cons.mp member with rfl | member
        · exact List.mem_cons_self
        · exact List.mem_cons_of_mem _ (inductionHypothesis member)

/-- No key is listed twice. -/
theorem distinct_listing (log : List (LogEntry Key Value)) :
    comparison.Distinct ((comparison.listing log).map Prod.fst) := by
  induction log with
  | nil => exact List.Pairwise.nil
  | cons first later inductionHypothesis =>
    cases first with
    | clear key => exact inductionHypothesis
    | set key value =>
      rw [listing]
      split
      next => exact inductionHypothesis
      next unrepeated =>
        refine List.pairwise_cons.mpr ⟨fun key' member same => unrepeated ?_, inductionHypothesis⟩
        obtain ⟨entry, listed, rfl⟩ := List.mem_map.mp member
        exact List.any_eq_true.mpr ⟨_, exists_set_of_mem_listing listed, same⟩

/-- The listing has the value of each key. -/
theorem lookup_listing (log : List (LogEntry Key Value)) (key : Key) :
    comparison.lookup (comparison.listing log) key = comparison.latest log key := by
  induction log using List.reverseRecOn with
  | nil => rfl
  | append_singleton log entry inductionHypothesis =>
    rw [latest_append, listing_append, ← inductionHypothesis]
    unfold lookup
    rw [List.find?_append, List.find?_filter]
    split
    next here =>
      have missed : (comparison.listing log).find? (fun other =>
          !comparison.same entry.key other.1 ∧ comparison.same key other.1) = none := by
        refine List.find?_eq_none.mpr fun other _ => ?_
        simp [comparison.same_congr here]
      rw [missed, Option.none_or]
      cases value : entry.value? <;> simp [here]
    next apart =>
      have unaffected : (fun other : Key × Value => decide
          (!comparison.same entry.key other.1 ∧ comparison.same key other.1)) =
          fun other => comparison.same key other.1 := by
        funext other
        by_cases here : comparison.same key other.1
        · rw [comparison.same_congr here, comparison.same_comm] at apart
          simp [here, apart]
        · simp [here]
      rw [unaffected]
      cases value : entry.value? <;> simp [apart]

/-- Writing the entries of a listing gives its keys their values, and leaves the others. -/
theorem latest_append_sets (distinct : comparison.Distinct (entries.map Prod.fst))
    (log : List (LogEntry Key Value)) (key : Key) :
    comparison.latest (log ++ entries.map fun entry => .set entry.1 entry.2) key =
      (comparison.lookup entries key).or (comparison.latest log key) := by
  induction entries generalizing log with
  | nil => simp [lookup]
  | cons first rest inductionHypothesis =>
    obtain ⟨apart, distinct⟩ := List.pairwise_cons.mp distinct
    rw [List.map_cons, List.append_cons, inductionHypothesis distinct, latest_append]
    unfold lookup
    rw [List.find?_cons]
    by_cases here : comparison.same key first.1
    · have missed : rest.find? (fun entry => comparison.same key entry.1) = none := by
        refine List.find?_eq_none.mpr fun other member => ?_
        rw [comparison.same_congr here]
        exact apart other.1 (List.mem_map_of_mem member)
      simp [missed, here, LogEntry.key, LogEntry.value?]
    · simp [here, LogEntry.key]

/-- Writing new keys lists them behind the others. -/
theorem listing_append_sets
    (distinct : comparison.Distinct ((comparison.listing log ++ entries).map Prod.fst)) :
    comparison.listing (log ++ entries.map fun entry => .set entry.1 entry.2) =
      comparison.listing log ++ entries := by
  induction entries generalizing log with
  | nil => rw [List.map_nil, List.append_nil, List.append_nil]
  | cons first rest inductionHypothesis =>
    have new : comparison.listing (log ++ [.set first.1 first.2]) =
        comparison.listing log ++ [first] := by
      rw [listing_append]
      refine congrArg (· ++ [first]) (List.filter_eq_self.mpr fun other member => ?_)
      rw [List.map_append, Distinct, List.pairwise_append] at distinct
      have apart := distinct.2.2 other.1 (List.mem_map_of_mem member) first.1 List.mem_cons_self
      rw [comparison.same_comm] at apart
      simpa [LogEntry.key] using apart
    rw [List.append_cons] at distinct
    rw [List.map_cons, List.append_cons, inductionHypothesis (by rwa [new]), new,
      ← List.append_cons]

end Logs

end Comparison

end KeyLog
