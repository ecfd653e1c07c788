/-
This file settles what `replace` does with a text that occurs in a string.

`replace` looks for the text from an offset on, but then sets the offset to where it has looked
from and not to what it has found. So in each of its rounds it takes as many characters as the text
has off the front of what is left of the string, whatever they are, and puts the replacement in
their place, until the text does not occur any more in what is left.
-/

import CommonCpp.Occurrences
import CommonCpp.StringEdits

namespace CommonCpp

open Bytes Occurrences

namespace Strings

/-! ### Looking for a text -/

/-- `strstr`: how far in the memory the text is found. -/
def strstr (text substring : Text) : Option ℕ := first (string substring) (string text)

section

variable {Name : Type} [DecidableEq Name]

/-- The loop of `replace` with its count. There is no outcome when it goes on after so many
rounds. -/
def replacing (this : Name) (substring : Text) (cp : Option Text) :
    ℕ → ℕ → ℕ → State Name → Option (State Name × ℕ)
  | 0, _, _, _ => none
  | rounds + 1, offset, count, state =>
    match state.str this with
    | none => none
    | some str =>
      match strstr ((state.heap.cstring str).text.drop offset) substring with
      | none => some (state, count)
      | some _ =>
        let count := (count + 1) % 2 ^ 32
        let cpl := strlen (cp.getD [])
        let state := edit state this fun str => str.cut offset (strlen substring)
        if cpl ≠ 0 then
          let state := paste state this offset cp 0
          replacing this substring cp rounds (offset + cpl) count state
        else replacing this substring cp rounds offset count state

/-- `replace(const char *, const char *, unsigned)` without flags: the string, and the number that
is returned. -/
def replaceCount (rounds : ℕ) (state : State Name) (this : Name) (substring : Text)
    (cp : Option Text) : Option (State Name × ℕ) :=
  match state.str this with
  | none => some (state, 0)
  | some str =>
    if (state.heap.cstring str).len = 0 then some (state, 0)
    else replacing this substring cp rounds 0 0 state

/-! ### The buffer of the string -/

/-- The string points to a buffer that contains this text. -/
structure Reads (state : State Name) (this : Name) (str : ℕ) (t : Text) : Prop where
  points : state.str this = some str
  within : str < state.heap.size
  contains : (state.heap.cstring str).Contains t

/-- The text of a string, which is empty when it has no buffer. -/
def Spells (state : State Name) (this : Name) (t : Text) : Prop :=
  state.str this = none ∧ t = [] ∨ ∃ str, Reads state this str t

variable {state : State Name} {this : Name} {str : ℕ} {t : Text}

omit [DecidableEq Name] in
theorem Reads.edit (reads : Reads state this str t) {change : Cstring → Cstring} {t' : Text}
    (contains : (change (state.heap.cstring str)).Contains t') :
    Reads (edit state this change) this str t' := by
  refine ⟨(congrFun (edit_str state this change) this).trans reads.points, ?_, ?_⟩
  · unfold Strings.edit
    rw [reads.points]
    exact reads.within
  · rw [cstring_edit reads.points]
    exact contains

/-- `cow` leaves the text as it is, and a buffer with room for so many more characters. -/
theorem Reads.cow (reads : Reads state this str t) {size : ℕ} {s : Text} (positive : 0 < size)
    (given : size ≤ strlen s) :
    ∃ new, Reads (cow state this size s) this new t ∧
      size + t.length ≤ ((cow state this size s).heap.cstring new).max := by
  have len_ : (state.heap.cstring str).len = t.length := reads.contains.len
  by_cases detaches : Detaches state.heap str size s
  · obtain ⟨points_, larger, new⟩ := cow_new reads.points detaches
    have room : t.length ≤ size + t.length := Nat.le_add_left _ _
    rw [wanted_eq given, len_] at new
    refine ⟨state.heap.size, ⟨points_, ?_, ?_⟩, ?_⟩
    · rw [larger]
      exact Nat.lt_succ_self _
    · rw [new]
      exact contains_cowed reads.contains room (by omega) _
    · rw [new]
      exact le_rfl
  · have room := (room_of_attached positive given detaches).2.2
    rw [cow_attached reads.points detaches]
    rw [len_] at room
    exact ⟨str, reads, room⟩

/-- A whole text is pasted. -/
theorem Reads.paste (reads : Reads state this str t) {cp : Text} (pastes : strlen cp ≠ 0)
    (offset : ℕ) :
    ∃ new, Reads (paste state this offset (some cp) 0) this new
      (Cstring.insert t offset (string cp)) := by
  have positive : 0 < strlen cp := Nat.pos_of_ne_zero pastes
  obtain ⟨new, reads_, room⟩ := reads.cow positive le_rfl
  have pasted_ := @Cstring.Contains.paste _ _ reads_.contains offset _ cp positive le_rfl room
  rw [strlen, List.take_length] at pasted_
  refine ⟨new, ?_⟩
  unfold Strings.paste
  dsimp only
  rw [if_pos rfl, if_neg pastes, reads.points]
  exact reads_.edit pasted_

/-! ### The loop -/

/-- So many times must as many characters as the text has be taken off the front, until it does not
occur any more. -/
structure Fronts (s t : Text) (k : ℕ) : Prop where
  occurs : ∀ i < k, s <:+: t.drop (i * s.length)
  ends : ¬ s <:+: t.drop (k * s.length)

/-- There is such a number. -/
theorem exists_fronts {s : Text} (filled : s ≠ []) (t : Text) : ∃ k, Fronts s t k := by
  have some_ : ∃ k, ¬ s <:+: t.drop (k * s.length) := by
    refine ⟨t.length, fun occurs => ?_⟩
    have longer : t.length ≤ t.length * s.length :=
      Nat.le_mul_of_pos_right _ (List.length_pos_iff.mpr filled)
    rw [List.drop_eq_nil_of_le longer] at occurs
    exact filled (List.infix_nil.mp occurs)
  exact ⟨Nat.find some_, fun i less => not_not.mp (Nat.find_min some_ less), Nat.find_spec some_⟩

theorem Fronts.unique {s t : Text} {k j : ℕ} (fronts : Fronts s t k) (fronts_ : Fronts s t j) :
    k = j :=
  Nat.le_antisymm (Nat.le_of_not_lt fun less => fronts_.ends (fronts.occurs j less))
    (Nat.le_of_not_lt fun less => fronts.ends (fronts_.occurs k less))

/-- What is left when the front has been taken off once. -/
theorem Fronts.next {s t : Text} {k : ℕ} (fronts : Fronts s t (k + 1)) :
    Fronts s (t.drop s.length) k := by
  have drops : ∀ i, (t.drop s.length).drop (i * s.length) = t.drop ((i + 1) * s.length) := by
    intro i
    rw [List.drop_drop, Nat.succ_mul, Nat.add_comm]
  refine ⟨fun i less => ?_, ?_⟩
  · rw [drops]
    exact fronts.occurs (i + 1) (Nat.succ_lt_succ less)
  · rw [drops]
    exact fronts.ends

section Loop

variable {substring : Text} {cp : Option Text} {offset count : ℕ} {shown rest : Text}

omit [DecidableEq Name] in
/-- What the loop finds is found in what is left of the text. -/
theorem strstr_drop (reads : Reads state this str (shown ++ rest)) :
    strstr ((state.heap.cstring str).text.drop shown.length) substring =
      first (string substring) rest := by
  have within : shown.length ≤ strlen (state.heap.cstring str).text := by
    rw [strlen, reads.contains.string, List.length_append]
    exact Nat.le_add_right _ _
  rw [strstr, string_drop within, reads.contains.string, List.drop_left]

/-- A round of the loop puts the replacement in the place of the characters at the offset. -/
theorem replacing_round (reads : Reads state this str (shown ++ rest))
    (filled : string substring ≠ []) (occurs : string substring <:+: rest) (rounds : ℕ) :
    ∃ next new, Reads next this new
        ((shown ++ string (cp.getD [])) ++ rest.drop (string substring).length) ∧
      replacing this substring cp (rounds + 1) shown.length count state =
        replacing this substring cp rounds (shown ++ string (cp.getD [])).length
          ((count + 1) % 2 ^ 32) next := by
  obtain ⟨i, found_⟩ : ∃ i, first (string substring) rest = some i := by
    rw [← Option.isSome_iff_exists, Option.isSome_iff_ne_none, Ne, first_eq_none_iff, not_not]
    exact occurs
  have size : strlen substring ≠ 0 := fun none_ => filled (List.length_eq_zero_iff.mp none_)
  have cut_ : Cstring.Contains ((state.heap.cstring str).cut shown.length (strlen substring))
      (shown ++ rest.drop (string substring).length) := by
    have cut_ := reads.contains.cut shown.length (strlen substring)
    rw [if_neg size, List.take_left, List.drop_append] at cut_
    rw [List.drop_eq_nil_of_le (Nat.le_add_right _ _), Nat.add_sub_cancel_left,
      List.nil_append] at cut_
    exact cut_
  have reads_ :=
    @Reads.edit _ _ _ _ _ reads (fun str => str.cut shown.length (strlen substring)) _ cut_
  rw [replacing, reads.points]
  dsimp only
  rw [strstr_drop reads, found_]
  dsimp only
  split
  next pastes =>
    cases cp with
    | none => exact absurd rfl pastes
    | some cp =>
      obtain ⟨new, pasted_⟩ := reads_.paste pastes shown.length
      have text : Cstring.insert (shown ++ rest.drop (string substring).length) shown.length
          (string cp) = shown ++ string cp ++ rest.drop (string substring).length := by
        rw [Cstring.insert, List.take_left, List.drop_left]
      rw [Option.getD_some, text] at pasted_
      refine ⟨_, new, pasted_, ?_⟩
      rw [List.length_append]
      rfl
  next nothing =>
    have none_ : string (cp.getD []) = [] :=
      List.length_eq_zero_iff.mp (not_not.mp nothing)
    rw [none_, List.append_nil]
    exact ⟨_, str, reads_, rfl⟩

/-- The loop puts one replacement behind the other, and ends when the text does not occur in what is
left. -/
theorem replacing_fronts (filled : string substring ≠ []) {k : ℕ}
    (fronts : Fronts (string substring) rest k)
    (reads : Reads state this str (shown ++ rest)) (small : count < 2 ^ 32) (rounds : ℕ) :
    (rounds ≤ k → replacing this substring cp rounds shown.length count state = none) ∧
      (k < rounds → ∃ next new, Reads next this new (shown ++
          (List.replicate k (string (cp.getD []))).flatten ++
            rest.drop (k * (string substring).length)) ∧
        replacing this substring cp rounds shown.length count state =
          some (next, (count + k) % 2 ^ 32)) := by
  induction k generalizing state str shown rest count rounds with
  | zero =>
    cases rounds with
    | zero => exact ⟨fun _ => rfl, nofun⟩
    | succ rounds =>
      refine ⟨nofun, fun _ => ⟨state, str, ?_, ?_⟩⟩
      · rw [Nat.zero_mul, List.drop_zero, List.replicate_zero, List.flatten_nil, List.append_nil]
        exact reads
      · have missing := fronts.ends
        rw [Nat.zero_mul, List.drop_zero] at missing
        rw [replacing, reads.points]
        dsimp only
        rw [strstr_drop reads, first_eq_none_iff.mpr missing]
        show some (state, count) = some (state, count % 2 ^ 32)
        rw [Nat.mod_eq_of_lt small]
  | succ k inductionHypothesis =>
    cases rounds with
    | zero => exact ⟨fun _ => rfl, nofun⟩
    | succ rounds =>
      have occurs := fronts.occurs 0 (Nat.succ_pos k)
      rw [Nat.zero_mul, List.drop_zero] at occurs
      obtain ⟨next, new, reads_, same⟩ := @replacing_round _ _ _ _ _ _ cp count _ _ reads filled
        occurs rounds
      obtain ⟨early, late⟩ := inductionHypothesis fronts.next reads_
        (Nat.mod_lt _ (by norm_num)) rounds
      rw [same]
      refine ⟨fun le => early (Nat.le_of_succ_le_succ le), fun less => ?_⟩
      obtain ⟨last, new_, read_, ended⟩ := late (Nat.lt_of_succ_lt_succ less)
      refine ⟨last, new_, ?_, ?_⟩
      · rw [List.replicate_succ, List.flatten_cons, ← List.append_assoc, Nat.succ_mul,
          Nat.add_comm, ← List.drop_drop]
        exact read_
      · rw [ended, Nat.mod_add_mod, Nat.add_assoc, Nat.add_comm 1 k]

end Loop

/-! ### What is replaced -/

/-- `replace` ends, returns the number of occurrences, and leaves the text with these replaced. -/
def Replaces (state : State Name) (this : Name) (substring : Text) (cp : Option Text) (t : Text) :
    Prop :=
  ∃ rounds target, replaceCount rounds state this substring cp =
      some (target, count (string substring) t) ∧
    Spells target this (replaced (string substring) (string (cp.getD [])) t)

/-- Nothing is taken off an empty text. -/
theorem Fronts.of_nil {s : Text} {k : ℕ} (filled : s ≠ []) (fronts : Fronts s [] k) : k = 0 := by
  refine fronts.unique ⟨nofun, fun occurs => ?_⟩
  rw [List.drop_nil] at occurs
  exact filled (List.infix_nil.mp occurs)

/-- Nothing is replaced in an empty string. -/
theorem replaceCount_empty (spells : Spells state this []) (substring : Text) (cp : Option Text)
    (rounds : ℕ) : replaceCount rounds state this substring cp = some (state, 0) := by
  obtain ⟨none_, -⟩ | ⟨str, reads⟩ := spells
  · rw [replaceCount, none_]
  · rw [replaceCount, reads.points]
    exact if_pos reads.contains.len

/-- In a string that is not empty, the loop begins at the start of the text. -/
theorem replaceCount_filled (reads : Reads state this str t) (some_ : t ≠ []) (substring : Text)
    (cp : Option Text) (rounds : ℕ) : replaceCount rounds state this substring cp =
      replacing this substring cp rounds ([] : Text).length 0 state := by
  have len_ : (state.heap.cstring str).len ≠ 0 := by
    rw [reads.contains.len]
    exact fun none_ => some_ (List.length_eq_zero_iff.mp none_)
  rw [replaceCount, reads.points]
  exact if_neg len_

/-- What `replace` returns and leaves, for a string with any text. -/
theorem replaceCount_fronts {substring : Text} {cp : Option Text}
    (filled : string substring ≠ []) (spells : Spells state this t) {k : ℕ}
    (fronts : Fronts (string substring) t k) :
    (∀ rounds target n, replaceCount rounds state this substring cp = some (target, n) →
      n = k % 2 ^ 32 ∧ Spells target this ((List.replicate k (string (cp.getD []))).flatten ++
        t.drop (k * (string substring).length))) ∧
      ∃ rounds target, replaceCount rounds state this substring cp = some (target, k % 2 ^ 32) := by
  by_cases empty : t = []
  · subst empty
    obtain rfl := fronts.of_nil filled
    have same := replaceCount_empty spells substring cp
    refine ⟨fun rounds target n ends => ?_, 0, state, same 0⟩
    rw [same] at ends
    cases ends
    refine ⟨rfl, ?_⟩
    rw [Nat.zero_mul]
    exact spells
  · obtain ⟨_, empty_⟩ | ⟨str, reads⟩ := spells
    · exact absurd empty_ empty
    · have same := replaceCount_filled reads empty substring cp
      have loop := @replacing_fronts _ _ _ _ str substring cp 0 [] t filled k fronts reads
        (by norm_num)
      refine ⟨fun rounds target n ends => ?_, k + 1, ?_⟩
      · rw [same] at ends
        by_cases late : k < rounds
        · obtain ⟨next, new, reads_, ended⟩ := (loop rounds).2 late
          rw [ended, Nat.zero_add] at ends
          cases ends
          exact ⟨rfl, Or.inr ⟨new, reads_⟩⟩
        · rw [(loop rounds).1 (Nat.le_of_not_lt late)] at ends
          cases ends
      · obtain ⟨next, new, -, ended⟩ := (loop (k + 1)).2 (Nat.lt_succ_self k)
        rw [Nat.zero_add] at ended
        exact ⟨next, (same (k + 1)).trans ended⟩

/-- All occurrences of the text stand one behind the other at the front, and the number of them
is one of an `unsigned`. -/
def AtFront (s t : Text) : Prop :=
  ∃ n < 2 ^ 32, ∃ rest, ¬ s <:+: rest ∧ t = (List.replicate n s).flatten ++ rest

section Front

variable {s rest : Text}

/-- What is left when some of the occurrences at the front have been taken off. -/
theorem drop_front (rest : Text) {i n : ℕ} (le : i ≤ n) :
    ((List.replicate n s).flatten ++ rest).drop (i * s.length) =
      (List.replicate (n - i) s).flatten ++ rest := by
  have split : List.replicate n s = List.replicate i s ++ List.replicate (n - i) s := by
    rw [List.replicate_append_replicate, Nat.add_sub_cancel' le]
  have size : (List.replicate i s).flatten.length = i * s.length := by
    rw [List.length_flatten, List.map_replicate, List.sum_replicate_nat]
  rw [split, List.flatten_append, List.append_assoc, ← size, List.drop_left]

theorem count_front (filled : s ≠ []) (missing : ¬ s <:+: rest) (n : ℕ) :
    count s ((List.replicate n s).flatten ++ rest) = n := by
  induction n with
  | zero => exact count_of_none (first_eq_none_iff.mpr missing)
  | succ n inductionHypothesis =>
    rw [List.replicate_succ, List.flatten_cons, List.append_assoc, count_append filled,
      inductionHypothesis]

theorem replaced_front (filled : s ≠ []) (cp : Text) (missing : ¬ s <:+: rest) (n : ℕ) :
    replaced s cp ((List.replicate n s).flatten ++ rest) =
      (List.replicate n cp).flatten ++ rest := by
  induction n with
  | zero =>
    show cp.intercalate (parts s rest) = rest
    rw [parts_of_none (first_eq_none_iff.mpr missing), List.intercalate_singleton]
  | succ n inductionHypothesis =>
    rw [List.replicate_succ, List.flatten_cons, List.append_assoc, replaced_append filled,
      inductionHypothesis, ← List.append_assoc]
    rfl

/-- The occurrences at the front are taken off one by one. -/
theorem fronts_front (missing : ¬ s <:+: rest) (n : ℕ) :
    Fronts s ((List.replicate n s).flatten ++ rest) n := by
  refine ⟨fun i less => ?_, ?_⟩
  · rw [drop_front rest less.le]
    have positive : n - i = (n - i - 1) + 1 := by omega
    rw [positive, List.replicate_succ, List.flatten_cons, List.append_assoc]
    exact (List.prefix_append _ _).isInfix
  · rw [drop_front rest le_rfl, Nat.sub_self]
    exact missing

end Front

/-- `replace` always ends, and does what it is for when all occurrences stand at the front. -/
theorem replaces_of_atFront {substring : Text} {cp : Option Text} (filled : string substring ≠ [])
    (spells : Spells state this t) :
    (∃ rounds result, replaceCount rounds state this substring cp = some result) ∧
      (AtFront (string substring) t → Replaces state this substring cp t) := by
  refine ⟨?_, ?_⟩
  · obtain ⟨k, fronts⟩ := exists_fronts filled t
    obtain ⟨-, rounds, target, ended⟩ := @replaceCount_fronts _ _ _ _ _ _ cp filled spells _ fronts
    exact ⟨rounds, _, ended⟩
  · rintro ⟨n, small, rest, missing, rfl⟩
    obtain ⟨returns, rounds, target, ended⟩ := @replaceCount_fronts _ _ _ _ _ _ cp filled spells _
      (fronts_front missing n)
    obtain ⟨-, left⟩ := returns rounds target _ ended
    refine ⟨rounds, target, ?_, ?_⟩
    · rw [ended, count_front filled missing, Nat.mod_eq_of_lt small]
    · rw [replaced_front filled _ missing]
      rwa [drop_front rest le_rfl, Nat.sub_self] at left

end

theorem spells_hi : Spells hi false [0x48, 0x69] :=
  Or.inr ⟨0, alone_hi.points, Nat.zero_lt_one, ⟨by decide, by decide, by decide, by decide⟩⟩

/-- `H` stands at the front of `Hi`. -/
theorem replaces_of_atFront_hi : Replaces hi false [0x48] (some [0x6a, 0x6b]) [0x48, 0x69] :=
  (replaces_of_atFront (by decide) spells_hi).2 ⟨1, by decide, [0x69], by decide, rfl⟩

/-- `i` does not: when it is replaced in `Hi` by `!`, both characters are. -/
theorem replace_shifts :
    ((replaceCount 3 hi false [0x69] (some [0x21])).map fun done =>
      (value done.1 false, done.2)) = some (([0x21, 0x21], 2), 2) ∧
    replaced [0x69] [0x21] ([0x48, 0x69] : Text) = [0x48, 0x21] ∧
    count [0x69] ([0x48, 0x69] : Text) = 1 ∧
    ¬ Replaces hi false [0x69] (some [0x21]) [0x48, 0x69] := by
  refine ⟨by decide +kernel, by decide, by decide, ?_⟩
  rintro ⟨rounds, target, ended, -⟩
  have fronts : Fronts (string [0x69]) [0x48, 0x69] 2 :=
    ⟨by decide, by decide⟩
  obtain ⟨counted, -⟩ := (@replaceCount_fronts _ _ _ _ _ _ (some [0x21]) (by decide) spells_hi _
    fronts).1 rounds target _ ended
  exact absurd counted (by decide)

end Strings

end CommonCpp
