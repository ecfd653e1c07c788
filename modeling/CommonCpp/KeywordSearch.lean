/-
This file settles where `String::find` and `String::ifind` find a key in a list of words, or in a
text.

Given characters that stand between the words, the functions look only where a word starts, and
count down what is left of the text, which has room for the key or not. The key is compared up to
the case of letters by `ifind`, but the characters between the words are not. So the key may be
found where the text has such a character, which is no part of a word, and both functions do the
same only for a key that has none of them in either case.

A pointer is the rest of the memory it points into. A size is that of a text in memory, and is
counted down only where it is positive.
-/

import Mathlib.Data.List.Basic
import CommonCpp.Bytes

namespace CommonCpp

open Bytes Ctype

namespace KeywordSearch

/-! ### The code -/

/-- `strncmp` and `strnicmp`, which fold the characters: whether so many are the same. There is no
outcome behind the memory. -/
def strncmp (fold : UInt8 → UInt8) : ℕ → Text → Text → Option Bool
  | 0, _, _ => some true
  | size + 1, a :: s1, b :: s2 =>
    if fold a ≠ fold b then some false
    else if a = 0 then some true
    else strncmp fold size s1 s2
  | _ + 1, _, _ => none

/-- Where the loops stand: the pointer, how much of the text is left there, and how far it is from
the start. -/
structure Place where
  str : Text
  l1 : ℕ
  far : ℕ

/-- One of the inner loops, which passes over the characters of a kind. -/
def pass (test : UInt8 → Bool) (l2 : ℕ) : Text → ℕ → ℕ → Option Place
  | [], l1, far => if l1 ≥ l2 then none else some ⟨[], l1, far⟩
  | char :: str, l1, far =>
    if l1 ≥ l2 ∧ test char then
      if l1 = 0 then none else pass test l2 str (l1 - 1) (far + 1)
    else some ⟨char :: str, l1, far⟩

/-- Whether the key stands at the pointer, with a delimiter or nothing behind it. -/
def keyAt (fold : UInt8 → UInt8) (key : Text) (delim : Option Text) (l2 : ℕ) (str : Text)
    (l1 : ℕ) : Option Bool :=
  (strncmp fold l2 key str).bind fun same =>
    if !same then some false
    else if l1 = l2 then some true
    else
      match delim with
      | none => some true
      | some delim => str[l2]?.map (strchr delim)

/-- The outer loop, with so many rounds at most: how far from the start the key is found. -/
def searchLoop (fold : UInt8 → UInt8) (key : Text) (delim : Option Text) (l2 : ℕ) :
    ℕ → Place → Option (Option ℕ)
  | 0, _ => none
  | fuel + 1, ⟨str, l1, far⟩ =>
    if l1 < l2 then some none
    else do
      let found ← keyAt fold key delim l2 str l1
      if found then some (some far)
      else
        match delim with
        | none =>
          if l1 = 0 then none else searchLoop fold key none l2 fuel ⟨str.tail, l1 - 1, far + 1⟩
        | some delim => do
          let word ← pass (fun char => !strchr delim char) l2 str l1 far
          let next ← pass (strchr delim) l2 word.str word.l1 word.far
          searchLoop fold key (some delim) l2 fuel next

/-- Both functions, which differ in how they compare. -/
def search (fold : UInt8 → UInt8) (fuel : ℕ) (str key delim : Text) : Option (Option ℕ) :=
  let l1 := strlen str
  let l2 := strlen key
  searchLoop fold key (if delim.headD 0 = 0 then none else some delim) l2 fuel ⟨str, l1, 0⟩

/-- `String::find(const char *, const char *, const char *)`. -/
def find (fuel : ℕ) (str key delim : Text) : Option (Option ℕ) := search id fuel str key delim

/-- `String::ifind(const char *, const char *, const char *)`. -/
def ifind (fuel : ℕ) (str key delim : Text) : Option (Option ℕ) := search tolower fuel str key delim

/-! ### What is to be found -/

/-- A piece of the text that is the key, up to what the characters are folded to. -/
def OccursAt (fold : UInt8 → UInt8) (t key : Text) (i : ℕ) : Prop :=
  ∃ front run rear, t = front ++ run ++ rear ∧ front.length = i ∧ run.map fold = key.map fold

/-- A longest piece without a delimiter that is the key, up to what the characters are folded to. -/
def RunAt (fold : UInt8 → UInt8) (delims t key : Text) (i : ℕ) : Prop :=
  ∃ front run rear, t = front ++ run ++ rear ∧ front.length = i ∧ run.map fold = key.map fold ∧
    (∀ c ∈ run, c ∉ delims) ∧ (∀ c, front.getLast? = some c → c ∈ delims) ∧
    ∀ c, rear.head? = some c → c ∈ delims

/-- The first place of a kind from a place on, if there is one. -/
def FirstFrom (kind : ℕ → Prop) (start : ℕ) : Option ℕ → Prop
  | some i => start ≤ i ∧ kind i ∧ ∀ j, start ≤ j → j < i → ¬ kind j
  | none => ∀ j, start ≤ j → ¬ kind j

variable {fold : UInt8 → UInt8} {delims t key front s : Text}

theorem FirstFrom.later {kind : ℕ → Prop} {start more : ℕ} (le : start ≤ more)
    (none_ : ∀ j, start ≤ j → j < more → ¬ kind j) {result : Option ℕ}
    (first : FirstFrom kind more result) : FirstFrom kind start result := by
  have cases : ∀ j, start ≤ j → j < more ∨ more ≤ j := fun j _ => Nat.lt_or_ge j more
  cases result with
  | none =>
    intro j from_
    rcases cases j from_ with before | behind
    · exact none_ j from_ before
    · exact first j behind
  | some i =>
    obtain ⟨behind, here, earlier⟩ := first
    refine ⟨le.trans behind, here, fun j from_ before => ?_⟩
    rcases cases j from_ with early | late
    · exact none_ j from_ early
    · exact earlier j late before

/-- Nothing as long as the key is left. -/
theorem OccursAt.fits {i : ℕ} (occurs : OccursAt fold t key i) : i + key.length ≤ t.length := by
  obtain ⟨front, run, rear, rfl, rfl, same⟩ := occurs
  have length := congrArg List.length same
  rw [List.length_map, List.length_map] at length
  simp only [List.length_append]
  omega

theorem RunAt.occursAt {i : ℕ} (run : RunAt fold delims t key i) : OccursAt fold t key i := by
  obtain ⟨front, run, rear, text, place, same, -⟩ := run
  exact ⟨front, run, rear, text, place, same⟩

/-- At the place that is looked at, the key is compared with what stands there. -/
theorem occursAt_iff (front s key : Text) : OccursAt fold (front ++ s) key front.length ↔
    (s.take key.length).map fold = key.map fold := by
  constructor
  · rintro ⟨front', run, rear, text, place, same⟩
    rw [List.append_assoc] at text
    obtain ⟨-, rfl⟩ := List.append_inj text place.symm
    have length := congrArg List.length same
    rw [List.length_map, List.length_map] at length
    rw [← length, List.take_left, same]
  · intro same
    exact ⟨front, s.take key.length, s.drop key.length,
      by rw [List.append_assoc, List.take_append_drop], rfl, same⟩

theorem runAt_iff (front s key : Text) : RunAt fold delims (front ++ s) key front.length ↔
    (s.take key.length).map fold = key.map fold ∧ (∀ c ∈ s.take key.length, c ∉ delims) ∧
      (∀ c, front.getLast? = some c → c ∈ delims) ∧
      ∀ c, (s.drop key.length).head? = some c → c ∈ delims := by
  constructor
  · rintro ⟨front', run, rear, text, place, same, free, start, stop⟩
    rw [List.append_assoc] at text
    obtain ⟨rfl, rfl⟩ := List.append_inj text place.symm
    have length := congrArg List.length same
    rw [List.length_map, List.length_map] at length
    rw [← length, List.take_left, List.drop_left]
    exact ⟨same, free, start, stop⟩
  · rintro ⟨same, free, start, stop⟩
    exact ⟨front, s.take key.length, s.drop key.length,
      by rw [List.append_assoc, List.take_append_drop], rfl, same, free, start, stop⟩

/-- A list at one of its places. -/
theorem exists_split {past : Text} {i : ℕ} (inside : i < past.length) :
    ∃ before c after, past = before ++ c :: after ∧ before.length = i ∧ c ∈ past :=
  ⟨past.take i, past[i], past.drop (i + 1),
    by rw [← List.drop_eq_getElem_cons inside, List.take_append_drop],
    List.length_take_of_le inside.le, List.getElem_mem inside⟩

/-- No run starts behind a character that is not a delimiter. -/
theorem not_runAt_behind {past : Text} (others : ∀ c ∈ past, c ∉ delims) (front left key : Text)
    {j : ℕ} (behind : front.length < j) (within : j ≤ front.length + past.length) :
    ¬ RunAt fold delims (front ++ (past ++ left)) key j := by
  obtain ⟨before, c, after, rfl, length, member⟩ :=
    @exists_split past (j - front.length - 1) (by omega)
  have place : (front ++ before ++ [c]).length = j := by
    rw [List.length_append, List.length_append, List.length_singleton, length]
    omega
  have pieces : front ++ (before ++ c :: after ++ left) =
      front ++ before ++ [c] ++ (after ++ left) := by simp
  rw [pieces, ← place, runAt_iff]
  exact fun run => others c member (run.2.2.1 c List.getLast?_concat)

/-- No run of a key starts with a delimiter. -/
theorem not_runAt_delim {past : Text} (kind : ∀ c ∈ past, c ∈ delims) (front left : Text)
    (nonempty : key ≠ []) {j : ℕ} (behind : front.length ≤ j)
    (within : j < front.length + past.length) :
    ¬ RunAt fold delims (front ++ (past ++ left)) key j := by
  obtain ⟨before, c, after, rfl, length, member⟩ := @exists_split past (j - front.length) (by omega)
  have place : (front ++ before).length = j := by
    rw [List.length_append, length]
    omega
  have pieces : front ++ (before ++ c :: after ++ left) =
      front ++ before ++ c :: (after ++ left) := by simp
  rw [pieces, ← place, runAt_iff]
  intro run
  refine run.2.1 c ?_ (kind c member)
  rw [List.take_cons (List.length_pos_iff.mpr nonempty)]
  exact List.mem_cons_self

/-- No run of a key starts within what the loops pass over: a word and the delimiters behind it. -/
theorem not_runAt_passed {word gap : Text} (others : ∀ c ∈ word, c ∉ delims)
    (kind : ∀ c ∈ gap, c ∈ delims) (front left : Text) (nonempty : key ≠ []) {j : ℕ}
    (behind : front.length < j) (within : j < front.length + word.length + gap.length) :
    ¬ RunAt fold delims (front ++ (word ++ (gap ++ left))) key j := by
  rcases Nat.lt_or_ge (front.length + word.length) j with late | early
  · have split : front ++ (word ++ (gap ++ left)) = front ++ word ++ (gap ++ left) :=
      (List.append_assoc ..).symm
    rw [split]
    refine not_runAt_delim kind (front ++ word) left nonempty ?_ ?_
    · rw [List.length_append]
      exact late.le
    · rw [List.length_append]
      exact within
  · exact not_runAt_behind others front (gap ++ left) key behind early

/-! ### The loops -/

/-- Where there is room for the key, `strncmp` compares it with what is there. -/
theorem strncmp_eq (fold : UInt8 → UInt8) {key s : Text} (noNull : 0 ∉ key)
    (fits : key.length ≤ s.length) (after after' : Text) :
    strncmp fold key.length (key ++ after) (s ++ after') =
      some (decide ((s.take key.length).map fold = key.map fold)) := by
  induction key generalizing s with
  | nil => simp [strncmp]
  | cons a key inductionHypothesis =>
    cases s with
    | nil => exact absurd fits (Nat.not_succ_le_zero _)
    | cons b s =>
      have visible : a ≠ 0 := fun null => noNull (null ▸ List.mem_cons_self)
      have rest : 0 ∉ key := fun member => noNull (List.mem_cons_of_mem a member)
      rw [List.length_cons, List.cons_append, List.cons_append, strncmp, if_neg visible,
        inductionHypothesis rest (Nat.le_of_succ_le_succ fits), List.take_succ_cons, List.map_cons,
        List.map_cons]
      by_cases same : fold a = fold b
      · rw [if_neg (not_not.mpr same)]
        simp [same]
      · rw [if_pos same]
        simp [Ne.symm same]

/-- An inner loop passes over characters of its kind, as long as there is room for the key. -/
theorem pass_spec {test : UInt8 → Bool} {l2 : ℕ} (positive : 0 < l2) (s : Text) (far : ℕ) :
    ∃ past left, s = past ++ left ∧ (∀ c ∈ past, test c = true) ∧
      (left.length < l2 ∨ ∃ c rest, left = c :: rest ∧ test c = false) ∧
      pass test l2 (s ++ [0]) s.length far =
        some ⟨left ++ [0], left.length, far + past.length⟩ := by
  induction s generalizing far with
  | nil =>
    refine ⟨[], [], rfl, fun _ member => absurd member List.not_mem_nil, Or.inl positive, ?_⟩
    rw [List.nil_append, List.length_nil, pass, if_neg fun both => by omega]
    rfl
  | cons c s inductionHypothesis =>
    by_cases room : (c :: s).length ≥ l2 ∧ test c = true
    · obtain ⟨past, left, split, kind, stop, passed⟩ := inductionHypothesis (far + 1)
      refine ⟨c :: past, left, by rw [split, List.cons_append], ?_, stop, ?_⟩
      · intro d member
        rcases List.mem_cons.mp member with rfl | later
        · exact room.2
        · exact kind d later
      · rw [List.cons_append, pass, if_pos room, if_neg (by simp)]
        show pass test l2 (s ++ [0]) s.length (far + 1) = _
        rw [passed, List.length_cons, Nat.add_assoc, Nat.add_comm 1]
    · refine ⟨[], c :: s, rfl, fun _ member => absurd member List.not_mem_nil, ?_, ?_⟩
      · rcases not_and_or.mp room with short | other
        · exact Or.inl (not_le.mp short)
        · exact Or.inr ⟨c, s, rfl, Bool.eq_false_of_not_eq_true other⟩
      · rw [List.cons_append, pass, if_neg room]
        rfl

/-- Without delimiters, the key is where it is the same as what stands there. -/
theorem keyAt_plain (noNull : 0 ∉ key) (room : key.length ≤ s.length) :
    keyAt fold (key ++ [0]) none key.length (s ++ [0]) s.length =
      some (decide ((s.take key.length).map fold = key.map fold)) := by
  rw [keyAt, strncmp_eq fold noNull room, Option.bind_some]
  by_cases same : (s.take key.length).map fold = key.map fold
  · rw [decide_eq_true same]
    exact ite_self _
  · rw [decide_eq_false same]
    rfl

theorem strchr_delims (visible : 0 ∉ delims) {c : UInt8} (visible_ : c ≠ 0) :
    strchr (delims ++ [0]) c = decide (c ∈ delims) := by
  rw [strchr, string_append visible, string_cons_zero, List.append_nil]
  exact decide_eq_decide.mpr (or_iff_right visible_)

/-- With delimiters, one of them or nothing stands behind it too. -/
theorem keyAt_delims (visible : 0 ∉ delims) (noNull : 0 ∉ key) (noNull_ : 0 ∉ s)
    (room : key.length ≤ s.length) :
    ∃ told, keyAt fold (key ++ [0]) (some (delims ++ [0])) key.length (s ++ [0]) s.length =
        some told ∧
      (told = true ↔ (s.take key.length).map fold = key.map fold ∧
        ∀ c, (s.drop key.length).head? = some c → c ∈ delims) := by
  rw [keyAt, strncmp_eq fold noNull room, Option.bind_some]
  by_cases same : (s.take key.length).map fold = key.map fold
  · rw [decide_eq_true same, Bool.not_true, if_neg Bool.false_ne_true]
    by_cases whole : s.length = key.length
    · refine ⟨true, if_pos whole, iff_of_true rfl ⟨same, fun c head => ?_⟩⟩
      rw [List.drop_eq_nil_of_le whole.le] at head
      exact absurd head.symm (Option.some_ne_none c)
    · have inside : key.length < s.length := by omega
      have char : s[key.length] ≠ 0 := fun null => noNull_ (null ▸ List.getElem_mem inside)
      have head : (s.drop key.length).head? = some s[key.length] := by
        rw [List.head?_drop, List.getElem?_eq_getElem inside]
      refine ⟨decide (s[key.length] ∈ delims), ?_, decide_eq_true_iff.trans
        ⟨fun delim => ⟨same, fun c same_ => ?_⟩, fun both => both.2 _ head⟩⟩
      · rw [if_neg whole, List.getElem?_append_left inside, List.getElem?_eq_getElem inside]
        exact congrArg some (strchr_delims visible char)
      · exact Option.some.inj (head.symm.trans same_) ▸ delim
  · rw [decide_eq_false same]
    exact ⟨false, rfl, iff_of_false Bool.false_ne_true fun both => same both.1⟩

/-- Where a word may start, the key is found exactly when its run does. -/
theorem keyAt_runAt (visible : 0 ∉ delims) (noNull : 0 ∉ key) (noNull_ : 0 ∉ s)
    (room : key.length ≤ s.length) (apart : ∀ k ∈ key, ∀ d ∈ delims, fold k ≠ fold d)
    (start : ∀ c, front.getLast? = some c → c ∈ delims) :
    ∃ told, keyAt fold (key ++ [0]) (some (delims ++ [0])) key.length (s ++ [0]) s.length =
        some told ∧ (told = true ↔ RunAt fold delims (front ++ s) key front.length) := by
  obtain ⟨told, compared, told_iff⟩ := @keyAt_delims fold delims key s visible noNull noNull_ room
  -- The key is free of delimiters, and so is what is the same.
  have free : (s.take key.length).map fold = key.map fold →
      ∀ c ∈ s.take key.length, c ∉ delims := by
    intro same c member delim
    have folded : fold c ∈ key.map fold := same ▸ List.mem_map_of_mem member
    obtain ⟨k, inKey, equal⟩ := List.mem_map.mp folded
    exact apart k inKey c delim equal
  refine ⟨told, compared, told_iff.trans ?_⟩
  rw [runAt_iff]
  exact ⟨fun both => ⟨both.1, free both.1, start, both.2⟩, fun run => ⟨run.1, run.2.2.2⟩⟩

/-- Both inner loops pass over what is left of a word and over the delimiters behind it. The second
stands where the first has stopped only when there is no room left for the key. -/
theorem pass_word (visible : 0 ∉ delims) (noNull_ : 0 ∉ s) {l2 : ℕ} (positive : 0 < l2) (far : ℕ) :
    ∃ word gap left, s = word ++ (gap ++ left) ∧ (∀ c ∈ word, c ∉ delims) ∧
      (∀ c ∈ gap, c ∈ delims) ∧ (gap = [] → left.length < l2) ∧
      ((pass (fun char => !strchr (delims ++ [0]) char) l2 (s ++ [0]) s.length far).bind fun word =>
        pass (strchr (delims ++ [0])) l2 word.str word.l1 word.far) =
          some ⟨left ++ [0], left.length, far + word.length + gap.length⟩ := by
  obtain ⟨word, rest, rfl, others, stop, passed⟩ :=
    @pass_spec (fun char => !strchr (delims ++ [0]) char) l2 positive s far
  obtain ⟨gap, left, rfl, kind, stop', passed'⟩ :=
    @pass_spec (strchr (delims ++ [0])) l2 positive rest (far + word.length)
  have visible_ : ∀ c ∈ word ++ (gap ++ left), c ≠ 0 :=
    fun c member null => noNull_ (null ▸ member)
  refine ⟨word, gap, left, rfl, fun c member => ?_, fun c member => ?_, ?_, ?_⟩
  · have test := others c member
    rw [strchr_delims visible (visible_ c (by simp [member]))] at test
    simpa using test
  · have test := kind c member
    rw [strchr_delims visible (visible_ c (by simp [member]))] at test
    simpa using test
  · rintro rfl
    rcases stop with few | ⟨c, rest, starts, delim⟩
    · exact few
    rcases stop' with few | ⟨c', rest', starts', other⟩
    · exact few
    have both : c :: rest = c' :: rest' := starts.symm.trans starts'
    cases both
    rw [Bool.not_eq_false'] at delim
    exact nomatch delim.symm.trans other
  · rw [passed, Option.bind_some]
    exact passed'

/-- Without delimiters, the first place of the key is found. -/
theorem searchLoop_plain (noNull : 0 ∉ key) (nonempty : key ≠ []) {fuel : ℕ} (s : Text)
    (enough : s.length < fuel) (front : Text) :
    ∃ result, searchLoop fold (key ++ [0]) none key.length fuel
        ⟨s ++ [0], s.length, front.length⟩ = some result ∧
      FirstFrom (OccursAt fold (front ++ s) key) front.length result := by
  induction fuel generalizing s front with
  | zero => exact absurd enough (Nat.not_lt_zero _)
  | succ fuel inductionHypothesis =>
    rw [searchLoop]
    by_cases short : s.length < key.length
    · refine ⟨none, if_pos short, fun j from_ occurs => ?_⟩
      have fits := occurs.fits
      rw [List.length_append] at fits
      omega
    rw [if_neg short, keyAt_plain noNull (not_lt.mp short)]
    by_cases same : (s.take key.length).map fold = key.map fold
    · refine ⟨some front.length, ?_, le_rfl, (occursAt_iff front s key).mpr same,
        fun j from_ before => absurd before (not_lt.mpr from_)⟩
      simp [same]
    · obtain ⟨c, s, rfl⟩ : ∃ c rest, s = c :: rest := by
        cases s with
        | nil => exact absurd (List.length_pos_iff.mpr nonempty) short
        | cons c rest => exact ⟨c, rest, rfl⟩
      obtain ⟨result, found, first⟩ := inductionHypothesis s (Nat.lt_of_succ_lt_succ enough)
        (front ++ [c])
      rw [List.append_assoc, List.singleton_append, List.length_append] at first
      refine ⟨result, ?_, first.later (Nat.le_succ _) fun j from_ before occurs => ?_⟩
      · rw [List.length_append] at found
        rw [decide_eq_false same]
        exact found
      · obtain rfl : j = front.length := Nat.le_antisymm (Nat.lt_succ_iff.mp before) from_
        exact same ((occursAt_iff front (c :: s) key).mp occurs)

/-- Between delimiters, the first run that is the key is found. -/
theorem searchLoop_delims (visible : 0 ∉ delims) (noNull : 0 ∉ key) (nonempty : key ≠ [])
    (apart : ∀ k ∈ key, ∀ d ∈ delims, fold k ≠ fold d) {fuel : ℕ} (s : Text) (noNull_ : 0 ∉ s)
    (enough : s.length < fuel) (front : Text)
    (start : s.length < key.length ∨ ∀ c, front.getLast? = some c → c ∈ delims) :
    ∃ result, searchLoop fold (key ++ [0]) (some (delims ++ [0])) key.length fuel
        ⟨s ++ [0], s.length, front.length⟩ = some result ∧
      FirstFrom (RunAt fold delims (front ++ s) key) front.length result := by
  have positive := List.length_pos_iff.mpr nonempty
  induction fuel generalizing s front with
  | zero => exact absurd enough (Nat.not_lt_zero _)
  | succ fuel inductionHypothesis =>
    rw [searchLoop]
    by_cases short : s.length < key.length
    · refine ⟨none, if_pos short, fun j from_ run => ?_⟩
      have fits := run.occursAt.fits
      rw [List.length_append] at fits
      omega
    have room : key.length ≤ s.length := not_lt.mp short
    obtain ⟨told, compared, told_iff⟩ := @keyAt_runAt fold delims key front s visible noNull noNull_
      room apart (start.resolve_left short)
    rw [if_neg short, compared]
    by_cases run : RunAt fold delims (front ++ s) key front.length
    · refine ⟨some front.length, ?_, le_rfl, run,
        fun j from_ before => absurd before (not_lt.mpr from_)⟩
      rw [told_iff.mpr run]
      rfl
    · rw [Bool.eq_false_iff.mpr (mt told_iff.mp run)]
      obtain ⟨word, gap, left, rfl, others, kind, moves, passed⟩ :=
        @pass_word delims s visible noNull_ key.length positive front.length
      have less : left.length < fuel := by
        simp only [List.length_append] at enough room
        rcases eq_or_ne gap [] with none_ | some_
        · have few := moves none_
          omega
        · have more := List.length_pos_iff.mpr some_
          omega
      obtain ⟨result, found, first⟩ := inductionHypothesis left
        (fun null => noNull_ (by simp [null])) less (front ++ word ++ gap) (by
          rcases eq_or_ne gap [] with none_ | some_
          · exact Or.inl (moves none_)
          · refine Or.inr fun c last_ => kind c ?_
            rw [List.getLast?_append_of_ne_nil _ some_] at last_
            exact List.mem_of_getLast? last_)
      have pieces : front ++ word ++ gap ++ left = front ++ (word ++ (gap ++ left)) := by simp
      have far : (front ++ word ++ gap).length = front.length + word.length + gap.length := by
        simp [Nat.add_assoc]
      rw [pieces, far] at first
      rw [far] at found
      refine ⟨result, ?_, first.later (by omega) fun j from_ before => ?_⟩
      · show (Option.bind _ fun word => Option.bind _ fun next => _) = _
        rw [← Option.bind_assoc, passed, Option.bind_some]
        exact found
      · rcases from_.eq_or_lt with rfl | behind
        · exact run
        · exact not_runAt_passed others kind front left nonempty behind before

/-! ### The functions -/

/-- The function ends, stays in the memory of its texts, and finds the first place of a kind, if
there is one. -/
def FindsFirst (kind : ℕ → Prop) (t : Text) (function : ℕ → Option (Option ℕ)) : Prop :=
  ∃ result, (∀ fuel, t.length < fuel → function fuel = some result) ∧ FirstFrom kind 0 result

theorem search_eq (noNull : 0 ∉ t) (noNull_ : 0 ∉ key) (fuel : ℕ) (delim : Text) :
    search fold fuel (t ++ [0]) (key ++ [0]) delim =
      searchLoop fold (key ++ [0]) (if delim.headD 0 = 0 then none else some delim) key.length fuel
        ⟨t ++ [0], t.length, 0⟩ := by
  have size : ∀ {text : Text}, 0 ∉ text → strlen (text ++ [0]) = text.length := by
    intro text none_
    rw [strlen, string_append none_, string_cons_zero, List.append_nil]
  rw [search, size noNull, size noNull_]

/-- Any number of rounds that is enough gives the same. -/
theorem FindsFirst.of_each {kind : ℕ → Prop} {function : ℕ → Option (Option ℕ)}
    (each : ∀ fuel, t.length < fuel → ∃ result, function fuel = some result ∧
      FirstFrom kind 0 result) : FindsFirst kind t function := by
  obtain ⟨result, -, first⟩ := each (t.length + 1) (Nat.lt_succ_self _)
  refine ⟨result, fun fuel enough => ?_, first⟩
  obtain ⟨result', found, first'⟩ := each fuel enough
  rw [found]
  congr 1
  cases result with
  | none =>
    cases result' with
    | none => rfl
    | some i => exact absurd first'.2.1 (first i (Nat.zero_le i))
  | some i =>
    cases result' with
    | none => exact absurd first.2.1 (first' i (Nat.zero_le i))
    | some i' =>
      congr 1
      rcases Nat.lt_trichotomy i' i with less | same | more
      · exact absurd first'.2.1 (first.2.2 i' (Nat.zero_le _) less)
      · exact same
      · exact absurd first.2.1 (first'.2.2 i (Nat.zero_le _) more)

theorem search_delims (noNull : 0 ∉ t) (noNull_ : 0 ∉ key) (visible : 0 ∉ delims)
    (some_ : delims ≠ []) (nonempty : key ≠ [])
    (apart : ∀ k ∈ key, ∀ d ∈ delims, fold k ≠ fold d) :
    FindsFirst (RunAt fold delims t key) t fun fuel =>
      search fold fuel (t ++ [0]) (key ++ [0]) (delims ++ [0]) := by
  have given : (delims ++ [0]).headD 0 ≠ 0 := by
    cases delims with
    | nil => exact absurd rfl some_
    | cons d delims => exact fun null => visible (null ▸ List.mem_cons_self)
  refine .of_each fun fuel enough => ?_
  rw [search_eq noNull noNull_, if_neg given]
  exact searchLoop_delims visible noNull_ nonempty apart t noNull enough []
    (Or.inr fun c last => nomatch last)

theorem search_plain (noNull : 0 ∉ t) (noNull_ : 0 ∉ key) (nonempty : key ≠ []) :
    FindsFirst (OccursAt fold t key) t fun fuel =>
      search fold fuel (t ++ [0]) (key ++ [0]) [0] := by
  refine .of_each fun fuel enough => ?_
  have given : ([0] : Text).headD 0 = 0 := rfl
  rw [search_eq noNull noNull_, if_pos given]
  exact searchLoop_plain noNull_ nonempty t enough []

/-- In every text, `find` finds the first word that is the key, and `ifind` the first that is the
key up to the case of its letters, where the key has no delimiter in either case; without
delimiters both find the first place of the key. -/
theorem keywords_found (t key delims : Text) (noNull : 0 ∉ t) (noNull_ : 0 ∉ key)
    (visible : 0 ∉ delims) (nonempty : key ≠ []) :
    (delims ≠ [] → (∀ k ∈ key, k ∉ delims) →
      FindsFirst (RunAt id delims t key) t fun fuel =>
        find fuel (t ++ [0]) (key ++ [0]) (delims ++ [0])) ∧
    (delims ≠ [] → (∀ k ∈ key, ∀ d ∈ delims, tolower k ≠ tolower d) →
      FindsFirst (RunAt tolower delims t key) t fun fuel =>
        ifind fuel (t ++ [0]) (key ++ [0]) (delims ++ [0])) ∧
    (delims = [] →
      (FindsFirst (OccursAt id t key) t fun fuel =>
        find fuel (t ++ [0]) (key ++ [0]) (delims ++ [0])) ∧
      FindsFirst (OccursAt tolower t key) t fun fuel =>
        ifind fuel (t ++ [0]) (key ++ [0]) (delims ++ [0])) := by
  refine ⟨fun some_ apart => ?_, fun some_ apart => ?_, ?_⟩
  · refine search_delims noNull noNull_ visible some_ nonempty fun k inKey d delim same => ?_
    have same : k = d := same
    exact apart k inKey (same ▸ delim)
  · exact search_delims noNull noNull_ visible some_ nonempty apart
  · rintro rfl
    exact ⟨search_plain noNull noNull_ nonempty, search_plain noNull noNull_ nonempty⟩

/-- The word `b` in `A,b`. -/
theorem keywords_found_b :
    FindsFirst (RunAt tolower [0x2c] [0x41, 0x2c, 0x62] [0x42]) [0x41, 0x2c, 0x62] fun fuel =>
      ifind fuel [0x41, 0x2c, 0x62, 0] [0x42, 0] [0x2c, 0] :=
  (keywords_found [0x41, 0x2c, 0x62] [0x42] [0x2c] (by decide) (by decide) (by decide)
    (List.cons_ne_nil _ _)).2.1 (List.cons_ne_nil _ _)
    (List.forall_mem_singleton.mpr (List.forall_mem_singleton.mpr (by decide)))

/-- The key `a` is found by `ifind` in a text that is one delimiter, and so has no word. -/
theorem ifind_delimiter :
    ifind 2 [0x41, 0] [0x61, 0] [0x41, 0] = some (some 0) ∧ (∀ k ∈ [0x61], k ∉ [(0x41 : UInt8)]) ∧
      ¬ FindsFirst (RunAt tolower [0x41] [0x41] [0x61]) [0x41] fun fuel =>
        ifind fuel [0x41, 0] [0x61, 0] [0x41, 0] := by
  have found : ifind 2 [0x41, 0] [0x61, 0] [0x41, 0] = some (some 0) := by decide +kernel
  refine ⟨found, List.forall_mem_singleton.mpr (by decide), ?_⟩
  rintro ⟨result, ends, first⟩
  cases found.symm.trans (ends 2 (by decide))
  have run := (@runAt_iff tolower [0x41] [] [0x41] [0x61]).mp first.2.1
  exact run.2.1 0x41 (by decide) (by decide)

end KeywordSearch

end CommonCpp
