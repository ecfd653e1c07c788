/-
This file settles whether the searches for a character of a list that `String` has as static
functions on a text find what its methods find.

The four methods are right, and so are `skip` and `rfind` as functions. The function `rskip` finds
the character it is asked for, but returns the start of the text instead of its place; and the
function `find` does not move on from a character that is not in the list, and so does not end.
-/

import CommonCpp.StringEdits

namespace CommonCpp

open Bytes

namespace Strings

/-! ### The loops -/

/-- Forward from an offset, as long as so many characters are left. -/
def forward (test : UInt8 → Bool) (text : Text) : ℕ → ℕ → Option ℕ
  | 0, _ => none
  | left + 1, offset =>
    if test (text.getD offset 0) then some offset else forward test text left (offset + 1)

/-- Backward from an offset. -/
def backward (test : UInt8 → Bool) (text : Text) : ℕ → Option ℕ
  | 0 => none
  | offset + 1 => if test (text.getD offset 0) then some offset else backward test text offset

/-! ### The methods -/

/-- `String::npos`. -/
def npos : ℕ := 2 ^ 64 - 1

/-- The method `skip`. The result is a distance from the text. -/
def skip (str : Cstring) (clist : Text) (offset : ℕ) : Option ℕ :=
  if string clist = [] ∨ str.len = 0 ∨ offset > str.len then none
  else forward (fun ch => !strchr clist ch) str.text (str.len - offset) offset

/-- The method `find`. -/
def find (str : Cstring) (clist : Text) (offset : ℕ) : Option ℕ :=
  if string clist = [] ∨ str.len = 0 ∨ offset > str.len then none
  else forward (strchr clist) str.text (str.len - offset) offset

/-- The method `rskip`. -/
def rskip (str : Cstring) (clist : Text) (offset : ℕ) : Option ℕ :=
  if string clist = [] then none
  else if str.len = 0 then none
  else
    let offset := if offset > str.len then str.len else offset
    backward (fun ch => !strchr clist ch) str.text offset

/-- The method `rfind`. -/
def rfind (str : Cstring) (clist : Text) (offset : ℕ) : Option ℕ :=
  if string clist = [] then none
  else if str.len = 0 then some 0
  else
    let offset := if offset > str.len then str.len else offset
    backward (strchr clist) str.text offset

/-! ### The static functions -/

/-- The function `skip`. -/
def skipText (clist : Text) : Text → Option ℕ
  | [] => none
  | ch :: str =>
    if ch = 0 then none
    else if strchr clist ch then (skipText clist str).map (· + 1)
    else some 0

/-- The loop of the function `rskip`, which returns the start of the text. -/
def rskipLoop (clist str : Text) : ℕ → Option ℕ
  | 0 => none
  | len + 1 => if !strchr clist (str.getD len 0) then some 0 else rskipLoop clist str len

/-- The function `rskip`. -/
def rskipText (clist str : Text) : Option ℕ :=
  let len := strlen str
  if len = 0 then none else rskipLoop clist str len

/-- So many rounds of the loop of the function `find`, which does not move on. -/
def findText (clist str : Text) : ℕ → Option (Option ℕ)
  | 0 => none
  | fuel + 1 =>
    if str.headD 0 = 0 then some none
    else if strchr clist (str.headD 0) then some (some 0)
    else findText clist str fuel

/-- The function `rfind`. -/
def rfindText (clist str : Text) : Option ℕ := backward (strchr clist) str (strlen str)

/-! ### The four searches -/

inductive Search
  | skip
  | rskip
  | find
  | rfind

namespace Search

/-- The method, with the offset it has when none is given. -/
def method (search : Search) (str : Cstring) (clist : Text) : Option ℕ :=
  match search with
  | .skip => Strings.skip str clist 0
  | .rskip => Strings.rskip str clist npos
  | .find => Strings.find str clist 0
  | .rfind => Strings.rfind str clist npos

/-- The function, whose loop may go round so many times. -/
def function (search : Search) (fuel : ℕ) (str clist : Text) : Option (Option ℕ) :=
  match search with
  | .skip => some (skipText clist str)
  | .rskip => some (rskipText clist str)
  | .find => findText clist str fuel
  | .rfind => some (rfindText clist str)

end Search

/-- The place of the last item that passes a test. -/
def lastIdx? (test : UInt8 → Bool) : Text → Option ℕ
  | [] => none
  | ch :: t =>
    match lastIdx? test t with
    | some i => some (i + 1)
    | none => if test ch then some 0 else none

/-- The place that is searched for. -/
def Search.position (search : Search) (t clist : Text) : Option ℕ :=
  match search with
  | .skip => t.findIdx? fun ch => !listed clist ch
  | .rskip => lastIdx? (fun ch => !listed clist ch) t
  | .find => t.findIdx? (listed clist)
  | .rfind => lastIdx? (listed clist) t

/-- The texts in which the function finds what the method finds. -/
def Search.Agrees (search : Search) (t clist : Text) : Prop :=
  match search with
  | .skip | .rfind => True
  | .rskip => ∀ ch ∈ t.tail, listed clist ch
  | .find => listed clist (t.headD 0)

variable {t clist memory : Text} {str : Cstring}

/-! ### What the loops find -/

theorem forward_eq (test : UInt8 → Bool) {shown rest after : Text} :
    forward test (shown ++ (rest ++ after)) rest.length shown.length =
      (rest.findIdx? test).map (· + shown.length) := by
  induction rest generalizing shown with
  | nil => rfl
  | cons ch rest inductionHypothesis =>
    have here : (shown ++ (ch :: rest ++ after)).getD shown.length 0 = ch := by simp
    have next := @inductionHypothesis (shown ++ [ch])
    rw [List.length_append, List.append_assoc] at next
    rw [List.length_cons, forward, here, List.findIdx?_cons]
    split
    · simp
    · refine Eq.trans next ?_
      rw [Option.map_map]
      congr 1
      funext i
      show i + (shown.length + 1) = i + 1 + shown.length
      omega

theorem lastIdx?_concat (test : UInt8 → Bool) (t : Text) (ch : UInt8) :
    lastIdx? test (t ++ [ch]) = if test ch then some t.length else lastIdx? test t := by
  induction t with
  | nil => rfl
  | cons a t inductionHypothesis =>
    rw [List.cons_append, lastIdx?, inductionHypothesis]
    split
    next last =>
      split at last
      next passes =>
        cases last
        rw [if_pos passes]
        rfl
      next fails =>
        rw [if_neg fails, lastIdx?, last]
    next none_ =>
      split at none_
      next => cases none_
      next fails =>
        rw [if_neg fails, lastIdx?, none_]

theorem backward_eq (test : UInt8 → Bool) (t after : Text) :
    backward test (t ++ after) t.length = lastIdx? test t := by
  induction t using List.reverseRecOn generalizing after with
  | nil => rfl
  | append_singleton t ch inductionHypothesis =>
    have here : (t ++ [ch] ++ after).getD t.length 0 = ch := by simp
    rw [List.length_append, List.length_singleton, backward, here, lastIdx?_concat,
      List.append_assoc, inductionHypothesis]

theorem lastIdx?_eq_none_iff (test : UInt8 → Bool) (t : Text) :
    lastIdx? test t = none ↔ ∀ ch ∈ t, test ch = false := by
  induction t with
  | nil => exact iff_of_true rfl nofun
  | cons ch t inductionHypothesis =>
    rw [List.forall_mem_cons, ← inductionHypothesis, lastIdx?]
    cases lastIdx? test t with
    | some i => exact iff_of_false nofun fun none_ => by cases none_.2
    | none =>
      dsimp only
      split
      next passes => exact iff_of_false nofun fun none_ => by rw [passes] at none_; cases none_.1
      next fails => exact iff_of_true rfl ⟨Bool.eq_false_iff.mpr fails, rfl⟩

/-- Two tests that tell the same of the characters of a text find the same in it. -/
theorem findIdx?_congr {test test' : UInt8 → Bool} (same : ∀ ch ∈ t, test ch = test' ch) :
    t.findIdx? test = t.findIdx? test' := by
  induction t with
  | nil => rfl
  | cons ch t inductionHypothesis =>
    rw [List.forall_mem_cons] at same
    rw [List.findIdx?_cons, List.findIdx?_cons, same.1, inductionHypothesis same.2]

theorem lastIdx?_congr {test test' : UInt8 → Bool} (same : ∀ ch ∈ t, test ch = test' ch) :
    lastIdx? test t = lastIdx? test' t := by
  induction t with
  | nil => rfl
  | cons ch t inductionHypothesis =>
    rw [List.forall_mem_cons] at same
    rw [lastIdx?, lastIdx?, same.1, inductionHypothesis same.2]

/-- The characters of a text are not its null. -/
theorem strchr_member (noNull : 0 ∉ t) (clist : Text) :
    ∀ ch ∈ t, strchr clist ch = listed clist ch :=
  fun _ member => strchr_listed (fun zero => noNull (zero ▸ member)) clist

theorem strchr_unlisted (noNull : 0 ∉ t) (clist : Text) :
    ∀ ch ∈ t, (!strchr clist ch) = !listed clist ch :=
  fun ch member => congrArg not (strchr_member noNull clist ch member)

/-! ### The methods -/

/-- Every method finds what it is asked for. -/
theorem method_eq (search : Search) (contains : str.Contains t) (filled : t ≠ [])
    (small : t.length < 2 ^ 64) (some_ : string clist ≠ []) :
    search.method str clist = search.position t clist := by
  obtain ⟨after, text⟩ : ∃ after, str.text = t ++ after := by
    refine ⟨str.text.drop str.len, ?_⟩
    conv_lhs => rw [← List.take_append_drop str.len str.text, contains.take_len]
  have positive : t.length ≠ 0 := fun none_ => filled (List.length_eq_zero_iff.mp none_)
  have same := strchr_member contains.noNull clist
  have same_ := strchr_unlisted contains.noNull clist
  have ahead : ∀ test, forward test str.text (str.len - 0) 0 = t.findIdx? test := by
    intro test
    have found := @forward_eq test [] t after
    rw [text, contains.len]
    exact found.trans Option.map_id'
  have outside : ¬ (string clist = [] ∨ str.len = 0 ∨ 0 > str.len) := by
    rw [contains.len]
    exact not_or.mpr ⟨some_, by omega⟩
  have back : ∀ test, backward test str.text (if npos > str.len then str.len else npos) =
      lastIdx? test t := by
    intro test
    have clipped : (if npos > str.len then str.len else npos) = t.length := by
      rw [contains.len, npos]
      split <;> omega
    rw [clipped, text, backward_eq]
  have len_ : str.len ≠ 0 := by
    rw [contains.len]
    exact positive
  cases search with
  | skip =>
    show Strings.skip str clist 0 = _
    rw [Strings.skip, if_neg outside, ahead]
    exact findIdx?_congr same_
  | find =>
    show Strings.find str clist 0 = _
    rw [Strings.find, if_neg outside, ahead]
    exact findIdx?_congr same
  | rskip =>
    show Strings.rskip str clist npos = _
    rw [Strings.rskip, if_neg some_, if_neg len_]
    exact (back _).trans (lastIdx?_congr same_)
  | rfind =>
    show Strings.rfind str clist npos = _
    rw [Strings.rfind, if_neg some_, if_neg len_]
    exact (back _).trans (lastIdx?_congr same)

/-! ### The functions -/

/-- The function `skip` finds what it is asked for. -/
theorem skipText_eq (clist memory : Text) :
    skipText clist memory = Search.skip.position (string memory) clist := by
  induction memory with
  | nil => rfl
  | cons ch memory inductionHypothesis =>
    rw [skipText]
    split
    next null =>
      rw [null]
      rfl
    next visible =>
      rw [string_cons visible, strchr_listed visible, inductionHypothesis]
      show _ = (ch :: string memory).findIdx? _
      rw [List.findIdx?_cons]
      cases listed clist ch <;> rfl

/-- The function `rskip` returns the start of the text where there is something to find. -/
theorem rskipLoop_eq (clist str : Text) (len : ℕ) : rskipLoop clist str len =
    (backward (fun ch => !strchr clist ch) str len).map fun _ => 0 := by
  induction len with
  | zero => rfl
  | succ len inductionHypothesis =>
    rw [rskipLoop, backward, inductionHypothesis]
    split <;> rfl

/-- What is found is the start of the text when nothing is to be found behind it. -/
theorem map_lastIdx?_iff (test : UInt8 → Bool) (t : Text) :
    ((lastIdx? test t).map fun _ => 0) = lastIdx? test t ↔ ∀ ch ∈ t.tail, test ch = false := by
  cases t with
  | nil => exact iff_of_true rfl nofun
  | cons ch t =>
    rw [List.tail_cons, ← lastIdx?_eq_none_iff, lastIdx?]
    cases lastIdx? test t with
    | some i => exact iff_of_false (fun same => by cases same) nofun
    | none =>
      refine iff_of_true ?_ rfl
      dsimp only
      split <;> rfl

/-- The function `find` ends only when the first character is in the list. -/
theorem findText_eq (visible : memory.headD 0 ≠ 0) (clist : Text) (fuel : ℕ) :
    findText clist memory (fuel + 1) =
      if strchr clist (memory.headD 0) then some (some 0) else findText clist memory fuel := by
  rw [findText, if_neg visible]

theorem findText_none (visible : memory.headD 0 ≠ 0) (missing : ¬ strchr clist (memory.headD 0))
    (fuel : ℕ) : findText clist memory fuel = none := by
  induction fuel with
  | zero => rfl
  | succ fuel inductionHypothesis =>
    rw [findText_eq visible, if_neg missing, inductionHypothesis]

theorem backward_string (test : UInt8 → Bool) (memory : Text) :
    backward test memory (strlen memory) = lastIdx? test (string memory) := by
  obtain ⟨after, split_, -⟩ := string_split memory
  have found := backward_eq test (string memory) after
  rw [← split_] at found
  exact found

/-- The function `rskip` finds the start of a text where there is something to find. -/
theorem rskipText_eq (filled : string memory ≠ []) (clist : Text) : rskipText clist memory =
    (lastIdx? (fun ch => !listed clist ch) (string memory)).map fun _ => 0 := by
  have size : strlen memory ≠ 0 := fun none_ => filled (List.length_eq_zero_iff.mp none_)
  unfold rskipText
  dsimp only
  rw [if_neg size, rskipLoop_eq, backward_string,
    lastIdx?_congr (strchr_unlisted (zero_notMem_string memory) clist)]

/-- The function `rskip` finds what it is asked for exactly when all characters but the first are in
the list. -/
theorem rskipText_iff (filled : string memory ≠ []) (clist : Text) :
    rskipText clist memory = Search.rskip.position (string memory) clist ↔
      Search.rskip.Agrees (string memory) clist := by
  have agrees : (∀ ch ∈ (string memory).tail, (!listed clist ch) = false) ↔
      Search.rskip.Agrees (string memory) clist := by
    simp only [Search.Agrees, Bool.not_eq_false']
  rw [← agrees, ← map_lastIdx?_iff, ← rskipText_eq filled]
  exact Iff.rfl

/-- The function `find` ends and finds what it is asked for exactly when the first character is in
the list. -/
theorem findText_iff (filled : string memory ≠ []) (clist : Text) :
    (∃ fuel, findText clist memory fuel = some (Search.find.position (string memory) clist)) ↔
      Search.find.Agrees (string memory) clist := by
  obtain ⟨after, split_, -⟩ := string_split memory
  have noNull := zero_notMem_string memory
  have same := strchr_member noNull clist
  obtain ⟨ch, rest, cons_⟩ := List.exists_cons_of_ne_nil filled
  have first : memory.headD 0 = ch := by
    rw [split_, cons_]
    rfl
  have member : ch ∈ string memory := by
    rw [cons_]
    exact List.mem_cons_self
  have visible : memory.headD 0 ≠ 0 := by
    rw [first]
    exact fun zero => noNull (zero ▸ member)
  have position : Search.find.position (string memory) clist =
      if listed clist ch then some 0 else (rest.findIdx? (listed clist)).map (· + 1) := by
    rw [cons_]
    exact List.findIdx?_cons
  have agrees : Search.find.Agrees (string memory) clist ↔ listed clist ch = true := by
    rw [cons_]
    exact Iff.rfl
  rw [agrees]
  constructor
  · rintro ⟨fuel, ended⟩
    by_contra missing
    have missing_ : ¬ strchr clist (memory.headD 0) = true := by
      rw [first, same ch member]
      exact missing
    rw [findText_none visible missing_ fuel] at ended
    cases ended
  · intro there
    refine ⟨1, ?_⟩
    rw [position, if_pos there, findText_eq visible, first, same ch member, if_pos there]

/-- The function finds the place it is asked for exactly in the texts where it agrees with the
method. -/
theorem function_iff (search : Search) (filled : string memory ≠ []) :
    (∃ fuel, search.function fuel memory clist =
      some (search.position (string memory) clist)) ↔ search.Agrees (string memory) clist := by
  cases search with
  | skip => exact iff_of_true ⟨0, congrArg some (skipText_eq clist memory)⟩ trivial
  | rfind =>
    have found := (backward_string (strchr clist) memory).trans
      (lastIdx?_congr (strchr_member (zero_notMem_string memory) clist))
    exact iff_of_true ⟨0, congrArg some found⟩ trivial
  | rskip =>
    rw [← rskipText_iff filled]
    constructor
    · rintro ⟨fuel, ended⟩
      exact Option.some.inj ended
    · exact fun right => ⟨0, congrArg some right⟩
  | find => exact findText_iff filled clist

/-! ### Functions and methods -/

/-- A function ends and finds what is searched for, as the method does, exactly when it is `skip`
or `rfind`, or `rskip` where all characters but the first are in the list, or `find` where the first
one is. -/
theorem searches_agree_iff (search : Search) (contains : str.Contains t)
    (memory_ : string memory = t) (filled : t ≠ []) (small : t.length < 2 ^ 64)
    (some_ : string clist ≠ []) :
    ((∃ fuel, search.function fuel memory clist = some (search.position t clist)) ∧
      search.method str clist = search.position t clist) ↔ search.Agrees t clist := by
  rw [and_iff_left (method_eq search contains filled small some_)]
  subst memory_
  exact function_iff search filled

theorem searches_agree_iff_hi : (∃ fuel, Search.rfind.function fuel [0x48, 0x69, 0] [0x48] =
      some (Search.rfind.position [0x48, 0x69] [0x48])) ∧
    Search.rfind.method ⟨2, 2, [0x48, 0x69, 0]⟩ [0x48] =
      Search.rfind.position [0x48, 0x69] [0x48] :=
  (searches_agree_iff .rfind ⟨by decide, by decide, by decide, by decide⟩ (by decide) (by decide)
    (by decide) (by decide)).mpr trivial

/-- In `Hi` the function `find` does not end when it looks for `i`, and the function `rskip` returns
the start when it is to pass over `!`. -/
theorem find_goes_on : (∀ fuel, Search.find.function fuel [0x48, 0x69, 0] [0x69] = none) ∧
    Search.find.position [0x48, 0x69] [0x69] = some 1 ∧
    Search.rskip.function 0 [0x48, 0x69, 0] [0x21] = some (some 0) ∧
    Search.rskip.position [0x48, 0x69] [0x21] = some 1 :=
  ⟨fun fuel => findText_none (by decide) (by decide) fuel, by decide, by decide, by decide⟩

end Strings

end CommonCpp
