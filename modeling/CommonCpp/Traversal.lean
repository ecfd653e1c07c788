/-
This file models the functions that walk along a UTF-8 string, byte by byte of its
memory, and finds on which strings they stay within it and come to an end.

All of them go on by the size that the first byte of a character tells. So a string is
a number of whole characters and something that is left: nothing, or a byte that starts
no character, or a character that the null cuts off. The last is stepped over with its
null, and what follows is read, unless a function stops before. A byte that starts no
character has the size zero. Most functions stop there; `udup` does not look at the
size, and stores the same byte again and again beyond what it has allocated.

A pointer is the bytes from it on, up to the null. There are none behind the null, and
nothing to read. A read there, and a write beyond what has been allocated, have no
outcome; neither has a walk that takes more rounds than the fuel. Allocations succeed.
-/

import CommonCpp.Unicode

namespace CommonCpp

namespace Utf8

namespace Traversal

/-! ### The code -/

/-- The bytes that follow in `codepoint`. -/
def followers : ℕ → Text → ℕ → Option ℕ
  | 0, _, code => some code
  | _ + 1, [], _ => none
  | codesize + 1, encoded :: string, code =>
    if encoded &&& 0xc0 ≠ 0x80 then some 0
    else followers codesize string (code <<< 6 ||| (encoded &&& 0x3f).toNat)

/-- `codepoint`, where no number stands for -1. -/
def codepoint : Text → Option (Option ℕ)
  | [] => none
  | encoded :: string =>
    let codesize := size (encoded :: string)
    if encoded = 0 then some (some 0)
    else if codesize = 0 then some none
    else (followers (codesize - 1) string (codepointLead codesize encoded)).map some

/-- What a round of a loop does: it returns, or goes on to the next character. -/
inductive Round (Result Locals : Type)
  | stop (result : Result)
  | next (locals : Locals)

/-- The loop of all of the functions, `while(*string)`, which ends a round with
`string += size(string)`. -/
def walk {Result Locals : Type} (round : Locals → Text → Option (Round Result Locals))
    (leave : Locals → Option Result) : ℕ → Text → Locals → Option Result
  | 0, _, _ => none
  | _ + 1, [], _ => none
  | fuel + 1, v :: string, locals =>
    if v = 0 then leave locals
    else
      (round locals (v :: string)).bind fun
        | .stop result => some result
        | .next locals => walk round leave fuel ((v :: string).drop (size (v :: string))) locals

def countRound (pos : ℕ) (string : Text) : Option (Round ℕ ℕ) :=
  if size string = 0 then some (.stop pos) else some (.next (pos + 1))

def count (fuel : ℕ) (string : Text) : Option ℕ :=
  walk countRound some fuel string 0

/-- `while(pos--)`. -/
def offsetLoop : ℕ → Text → Option (Option Text)
  | 0, string => some (some string)
  | _ + 1, [] => none
  | pos + 1, v :: string =>
    let codesize := size (v :: string)
    if codesize = 0 then some none else offsetLoop pos ((v :: string).drop codesize)

/-- The least `ssize_t` cannot be negated. -/
def offset (fuel : ℕ) (string : Text) (pos : ℤ) : Option (Option Text) :=
  (count fuel string).bind fun codepoints =>
    if pos > codepoints then some none
    else if pos = 0 then some (some string)
    else if pos < 0 then
      if pos ≤ -2 ^ 63 then none
      else if -pos > codepoints then some none
      else offsetLoop (codepoints - -pos).toNat string
    else offsetLoop pos.toNat string

def ccountRound (code : ℤ) (total : ℕ) (cp : Text) : Option (Round ℕ ℕ) :=
  (codepoint cp).map fun ch =>
    match ch with
    | none => .stop total
    | some ch =>
      if size cp = 0 then .stop total
      else .next (if ch = code then (total + 1) % 2 ^ 32 else total)

def ccount (fuel : ℕ) (cp : Text) (code : ℤ) : Option ℕ :=
  walk (ccountRound code) some fuel cp 0

def findRound (code : ℤ) (pos cpos : ℕ) (cp : Text) : Option (Round (Option Text) ℕ) :=
  (codepoint cp).map fun ch =>
    if pos ≠ 0 ∧ cpos + 1 > pos then .stop none
    else
      match ch with
      | none => .stop none
      | some ch =>
        if size cp = 0 then .stop none
        else if ch = code then .stop (some cp)
        else .next (if pos ≠ 0 then cpos + 1 else cpos)

def find (fuel : ℕ) (cp : Text) (code : ℤ) (pos : ℕ) : Option (Option Text) :=
  walk (findRound code pos) (fun _ => some none) fuel cp 0

/-- The last occurrence so far, and `cpos`. -/
def rfindRound (code : ℤ) (pos : ℕ) (locals : Option Text × ℕ) (cp : Text) :
    Option (Round (Option Text) (Option Text × ℕ)) :=
  (codepoint cp).map fun ch =>
    match ch with
    | none => .stop locals.1
    | some ch =>
      if size cp = 0 then .stop locals.1
      else
        let result := if ch = code then some cp else locals.1
        if locals.2 + 1 > pos then .stop result else .next (result, locals.2 + 1)

def rfind (fuel : ℕ) (cp : Text) (code : ℤ) (pos : ℕ) : Option (Option Text) :=
  walk (rfindRound code pos) (fun locals => some locals.1) fuel cp (none, 0)

/-- `out[pos++] = ch`, in so many elements. -/
def store {Element : Type} (len : ℕ) (out : List Element) (ch : Element) :
    Option (List Element) :=
  if out.length < len then some (out ++ [ch]) else none

def udupRound (len : ℕ) (out : List (Option ℕ)) (string : Text) :
    Option (Round (List (Option ℕ)) (List (Option ℕ))) :=
  (codepoint string).bind fun ch => (store len out ch).map .next

/-- The loop of `udup`, with so many elements and one for the null. -/
def udupLoop (string : Text) (len fuel : ℕ) : Option (List (Option ℕ)) :=
  walk (udupRound (len + 1)) (fun out => store (len + 1) out (some 0)) fuel string []

def udup (fuel : ℕ) (string : Text) : Option (List (Option ℕ)) :=
  (count fuel string).bind fun len => udupLoop string len fuel

def wdupRound (len : ℕ) (out : List ℕ) (string : Text) :
    Option (Round (Option (List ℕ)) (List ℕ)) :=
  (codepoint string).bind fun ch =>
    match ch with
    | none => some (.stop none)
    | some ch => if ch ≥ 0x10000 then some (.stop none) else (store len out ch).map .next

/-- The loop of `wdup`, with so many elements and one for the null. -/
def wdupLoop (string : Text) (len fuel : ℕ) : Option (Option (List ℕ)) :=
  walk (wdupRound (len + 1)) (fun out => (store (len + 1) out 0).map some) fuel string []

def wdup (fuel : ℕ) (string : Text) : Option (Option (List ℕ)) :=
  (count fuel string).bind fun len => wdupLoop string len fuel

/-- A function returns, when it has enough fuel. -/
def Returns {Result : Type} (function : ℕ → Option Result) : Prop :=
  ∃ fuel result, function fuel = some result

/-! ### The parts of a string -/

/-- What starts with no whole character. -/
def Stops (string : Text) : Prop :=
  string = [] ∨ size string = 0 ∨ string.length < size string

instance (string : Text) : Decidable (Stops string) :=
  inferInstanceAs (Decidable (_ ∨ _ ∨ _))

/-- The code points of the whole characters, of so many at most, and what is left behind them. -/
def parts : ℕ → Text → List ℕ × Text
  | 0, string => ([], string)
  | fuel + 1, string =>
    if Stops string then ([], string)
    else
      let (codes, left) := parts fuel (string.drop (size string))
      ((Utf8.codepoint string).getD 0 :: codes, left)

def codes (string : Text) : List ℕ := (parts string.length string).1

def left (string : Text) : Text := (parts string.length string).2

/-- The last character is cut off by the null. -/
def Cut (string : Text) : Prop := left string ≠ [] ∧ size (left string) ≠ 0

instance (string : Text) : Decidable (Cut string) := inferInstanceAs (Decidable (_ ∧ _))

theorem length_drop_lt {string : Text} (some_ : string ≠ []) (none_ : size string ≠ 0) :
    (string.drop (size string)).length < string.length := by
  rw [List.length_drop]
  exact Nat.sub_lt (List.length_pos_iff.mpr some_) (Nat.pos_of_ne_zero none_)

/-- A string is empty, starts with a byte that starts no character or with a character that is cut
off, or starts with a whole character. -/
theorem parts_induction {motive : Text → Prop} (empty : motive [])
    (stray : ∀ string, string ≠ [] → size string = 0 → motive string)
    (cut : ∀ string, string ≠ [] → string.length < size string → motive string)
    (whole : ∀ string, string ≠ [] → size string ≠ 0 → size string ≤ string.length →
      motive (string.drop (size string)) → motive string) (string : Text) : motive string := by
  induction length : string.length using Nat.strongRecOn generalizing string with
  | ind count inductionHypothesis =>
    subst length
    by_cases some_ : string = []
    · exact some_ ▸ empty
    · by_cases none_ : size string = 0
      · exact stray string some_ none_
      · rcases Nat.lt_or_ge string.length (size string) with long | fits
        · exact cut string some_ long
        · exact whole string some_ none_ fits
            (inductionHypothesis _ (length_drop_lt some_ none_) _ rfl)

section Parts

variable {string : Text}

theorem not_stops (some_ : string ≠ []) (none_ : size string ≠ 0)
    (fits : size string ≤ string.length) : ¬ Stops string := by
  rintro (nil | zero | long)
  · exact some_ nil
  · exact none_ zero
  · exact Nat.not_lt_of_le fits long

theorem parts_of_stops (stops : Stops string) (fuel : ℕ) : parts fuel string = ([], string) := by
  cases fuel with
  | zero => rfl
  | succ fuel => rw [parts, if_pos stops]

theorem parts_whole (some_ : string ≠ []) (none_ : size string ≠ 0)
    (fits : size string ≤ string.length) (fuel : ℕ) :
    parts (fuel + 1) string =
      ((Utf8.codepoint string).getD 0 :: (parts fuel (string.drop (size string))).1,
        (parts fuel (string.drop (size string))).2) := by
  rw [parts, if_neg (not_stops some_ none_ fits)]

/-- There is no more to a string than its bytes. -/
theorem parts_eq {fuel : ℕ} (enough : string.length ≤ fuel) :
    parts fuel string = (codes string, left string) := by
  suffices same : ∀ fuel', string.length ≤ fuel' → parts fuel string = parts fuel' string from
    same _ (Nat.le_refl _)
  induction string using parts_induction generalizing fuel with
  | empty =>
    intro fuel' _
    rw [parts_of_stops (Or.inl rfl), parts_of_stops (Or.inl rfl)]
  | stray string some_ none_ =>
    intro fuel' _
    have stops : Stops string := Or.inr (Or.inl none_)
    rw [parts_of_stops stops, parts_of_stops stops]
  | cut string some_ long =>
    intro fuel' _
    have stops : Stops string := Or.inr (Or.inr long)
    rw [parts_of_stops stops, parts_of_stops stops]
  | whole string some_ none_ fits inductionHypothesis =>
    intro fuel' enough'
    have shorter := length_drop_lt some_ none_
    obtain ⟨fuel, rfl⟩ : ∃ less, fuel = less + 1 := Nat.exists_eq_succ_of_ne_zero (by omega)
    obtain ⟨fuel', rfl⟩ : ∃ less, fuel' = less + 1 := Nat.exists_eq_succ_of_ne_zero (by omega)
    rw [parts_whole some_ none_ fits, parts_whole some_ none_ fits,
      inductionHypothesis (by omega) fuel' (by omega)]

theorem codes_of_stops (stops : Stops string) : codes string = [] :=
  congrArg Prod.fst (parts_of_stops stops _)

theorem left_of_stops (stops : Stops string) : left string = string :=
  congrArg Prod.snd (parts_of_stops stops _)

theorem codes_left_whole (some_ : string ≠ []) (none_ : size string ≠ 0)
    (fits : size string ≤ string.length) :
    codes string = (Utf8.codepoint string).getD 0 :: codes (string.drop (size string)) ∧
      left string = left (string.drop (size string)) := by
  have shorter := length_drop_lt some_ none_
  have whole := parts_eq (Nat.le_succ string.length)
  rw [parts_whole some_ none_ fits, parts_eq (Nat.le_of_lt shorter), Prod.mk.injEq] at whole
  exact ⟨whole.1.symm, whole.2.symm⟩

theorem cut_whole (some_ : string ≠ []) (none_ : size string ≠ 0)
    (fits : size string ≤ string.length) : Cut string ↔ Cut (string.drop (size string)) := by
  rw [Cut, Cut, (codes_left_whole some_ none_ fits).2]

theorem not_cut_nil : ¬ Cut [] := fun cut => cut.1 rfl

theorem not_cut_stray (none_ : size string = 0) : ¬ Cut string := by
  rintro ⟨_, size_⟩
  rw [left_of_stops (Or.inr (Or.inl none_))] at size_
  exact size_ none_

theorem cut_of_long (some_ : string ≠ []) (long : string.length < size string) : Cut string := by
  rw [Cut, left_of_stops (Or.inr (Or.inr long))]
  exact ⟨some_, Nat.ne_of_gt (Nat.lt_of_le_of_lt (Nat.zero_le _) long)⟩

end Parts

/-! ### The reading of a character -/

section Reading

variable {string : Text}

theorem size_append (some_ : string ≠ []) (after : Text) :
    size (string ++ after) = size string := by
  cases string with
  | nil => exact absurd rfl some_
  | cons v string => rfl

/-- Within a string the bytes that follow are read up to the null at most. -/
theorem followers_append (count : ℕ) (string : Text) (code : ℕ) :
    followers count (string ++ [0]) code = some (codepointLoop count string code) := by
  induction count generalizing string code with
  | zero => rfl
  | succ count inductionHypothesis =>
    cases string with
    | nil => rfl
    | cons encoded string =>
      rw [List.cons_append, followers, codepointLoop, List.headD_cons, List.tail_cons]
      split
      · rfl
      · exact inductionHypothesis string _

theorem codepoint_append (some_ : string ≠ []) :
    codepoint (string ++ [0]) = some (Utf8.codepoint string) := by
  cases string with
  | nil => exact absurd rfl some_
  | cons encoded string =>
    have same : size (encoded :: (string ++ [0])) = size (encoded :: string) := rfl
    rw [List.cons_append, codepoint, Utf8.codepoint, List.headD_cons, List.tail_cons, same]
    split
    · rfl
    · split
      · rfl
      · rw [followers_append]
        rfl

/-- Fewer bytes than are to follow make no code point. -/
theorem codepointLoop_of_short {count : ℕ} (short : string.length < count) (code : ℕ) :
    codepointLoop count string code = 0 := by
  induction count generalizing string code with
  | zero => cases short
  | succ count inductionHypothesis =>
    rw [codepointLoop]
    split
    · rfl
    · cases string with
      | nil => rename_i lead; exact absurd (by decide) lead
      | cons encoded string => exact inductionHypothesis (Nat.lt_of_succ_lt_succ short) _

theorem codepoint_stray (plain : 0 ∉ string) (some_ : string ≠ []) (none_ : size string = 0) :
    Utf8.codepoint string = none := by
  cases string with
  | nil => exact absurd rfl some_
  | cons encoded string =>
    have visible : encoded ≠ 0 := fun null => plain (null ▸ List.mem_cons_self)
    simp [Utf8.codepoint, visible, none_]

theorem codepoint_of_size (none_ : size string ≠ 0) :
    Utf8.codepoint string = some ((Utf8.codepoint string).getD 0) := by
  unfold Utf8.codepoint
  dsimp only
  split
  · rfl
  · rfl

/-- A character that is cut off is read as zero. -/
theorem codepoint_cut (plain : 0 ∉ string) (some_ : string ≠ [])
    (long : string.length < size string) : Utf8.codepoint string = some 0 := by
  cases string with
  | nil => exact absurd rfl some_
  | cons encoded string =>
    have visible : encoded ≠ 0 := fun null => plain (null ▸ List.mem_cons_self)
    have none_ : size (encoded :: string) ≠ 0 := by omega
    rw [List.length_cons] at long
    have short : string.length < size (encoded :: string) - 1 := by omega
    simp only [Utf8.codepoint, List.headD_cons, List.tail_cons, visible, none_, ↓reduceIte,
      codepointLoop_of_short short]

end Reading

/-! ### Walks -/

section Walks

variable {Result Locals : Type} {round : Locals → Text → Option (Round Result Locals)}
  {leave : Locals → Option Result} {string : Text} {locals locals' : Locals}

/-- A walk along a string with a null behind it returns. -/
def Ends (round : Locals → Text → Option (Round Result Locals)) (leave : Locals → Option Result)
    (string : Text) (locals : Locals) : Prop :=
  Returns fun fuel => walk round leave fuel (string ++ [0]) locals

theorem walk_mono {fuel fuel' : ℕ} {string : Text} {locals : Locals} {result : Result}
    (more : fuel ≤ fuel') (walked : walk round leave fuel string locals = some result) :
    walk round leave fuel' string locals = some result := by
  induction fuel generalizing fuel' string locals with
  | zero => cases walked
  | succ fuel inductionHypothesis =>
    obtain ⟨fuel', rfl⟩ : ∃ less, fuel' = less + 1 := Nat.exists_eq_succ_of_ne_zero (by omega)
    cases string with
    | nil => cases walked
    | cons v string =>
      rw [walk] at walked ⊢
      split
      next null => rwa [if_pos null] at walked
      next visible =>
        rw [if_neg visible] at walked
        obtain ⟨done, rounded, walked⟩ := Option.bind_eq_some_iff.mp walked
        rw [rounded, Option.bind_some]
        cases done with
        | stop result' => exact walked
        | next locals' => exact inductionHypothesis (Nat.le_of_succ_le_succ more) walked

/-- A round within a string, and what the loop does then. -/
theorem walk_succ (round : Locals → Text → Option (Round Result Locals))
    (leave : Locals → Option Result) (locals : Locals) (plain : 0 ∉ string) (some_ : string ≠ [])
    (fuel : ℕ) :
    walk round leave (fuel + 1) (string ++ [0]) locals =
      (round locals (string ++ [0])).bind fun
        | .stop result => some result
        | .next locals =>
          walk round leave fuel ((string ++ [0]).drop (size string)) locals := by
  cases string with
  | nil => exact absurd rfl some_
  | cons v string =>
    have visible : v ≠ 0 := fun null => plain (null ▸ List.mem_cons_self)
    rw [List.cons_append, walk, if_neg visible]
    rfl

theorem ends_nil : Ends round leave [] locals ↔ ∃ result, leave locals = some result := by
  constructor
  · rintro ⟨fuel, result, returned⟩
    cases fuel with
    | zero => cases returned
    | succ fuel => exact ⟨result, returned⟩
  · rintro ⟨result, returned⟩
    exact ⟨1, result, returned⟩

theorem ends_stop {result : Result} (plain : 0 ∉ string) (some_ : string ≠ [])
    (rounded : round locals (string ++ [0]) = some (.stop result)) :
    Ends round leave string locals := by
  have walked := walk_succ round leave locals plain some_ 0
  rw [rounded] at walked
  exact ⟨1, result, walked⟩

/-- From a whole character a walk goes on to the next. -/
theorem ends_whole (plain : 0 ∉ string) (some_ : string ≠ []) (fits : size string ≤ string.length)
    (rounded : round locals (string ++ [0]) = some (.next locals')) :
    Ends round leave string locals ↔ Ends round leave (string.drop (size string)) locals' := by
  have onward : ∀ fuel, walk round leave (fuel + 1) (string ++ [0]) locals =
      walk round leave fuel (string.drop (size string) ++ [0]) locals' := by
    intro fuel
    rw [walk_succ _ _ _ plain some_, rounded, Option.bind_some, List.drop_append_of_le_length fits]
  constructor
  · rintro ⟨fuel, result, returned⟩
    cases fuel with
    | zero => cases returned
    | succ fuel => exact ⟨fuel, result, (onward fuel).symm.trans returned⟩
  · rintro ⟨fuel, result, returned⟩
    exact ⟨fuel + 1, result, (onward fuel).trans returned⟩

/-- From a character that is cut off a walk goes beyond the null. -/
theorem not_ends_cut (plain : 0 ∉ string) (some_ : string ≠ []) (long : string.length < size string)
    (rounded : round locals (string ++ [0]) = some (.next locals')) :
    ¬ Ends round leave string locals := by
  rintro ⟨fuel, result, returned⟩
  have beyond : (string ++ [0]).drop (size string) = [] := by
    refine List.drop_eq_nil_of_le ?_
    rw [List.length_append, List.length_singleton]
    exact long
  cases fuel with
  | zero => cases returned
  | succ fuel =>
    have walked := walk_succ round leave locals plain some_ fuel
    rw [rounded, Option.bind_some, beyond] at walked
    have lost := walked.symm.trans returned
    cases fuel <;> cases lost

/-- What is called when something has returned returns when it does. -/
theorem returns_bind {First : Type} {first : ℕ → Option First}
    (second : First → ℕ → Option Result)
    (mono : ∀ {fuel fuel' value}, fuel ≤ fuel' → first fuel = some value →
      first fuel' = some value)
    (mono' : ∀ {fuel fuel' value result}, fuel ≤ fuel' → second value fuel = some result →
      second value fuel' = some result)
    {value : First} (given : ∃ fuel, first fuel = some value) :
    Returns (fun fuel => (first fuel).bind fun value => second value fuel) ↔
      Returns (second value) := by
  obtain ⟨enough, given⟩ := given
  constructor
  · rintro ⟨fuel, result, returned⟩
    obtain ⟨value', given', returned⟩ := Option.bind_eq_some_iff.mp returned
    have same := (mono (Nat.le_max_left enough fuel) given).symm.trans
      (mono (Nat.le_max_right enough fuel) given')
    cases same
    exact ⟨fuel, result, returned⟩
  · rintro ⟨fuel, result, returned⟩
    refine ⟨max enough fuel, result, ?_⟩
    show (first (max enough fuel)).bind _ = _
    rw [mono (Nat.le_max_left enough fuel) given, Option.bind_some]
    exact mono' (Nat.le_max_right enough fuel) returned

/-- What is called when something has returned does not return when that does not. -/
theorem not_returns_bind {First : Type} {first : ℕ → Option First}
    {second : First → ℕ → Option Result} (missing : ¬ Returns first) :
    ¬ Returns (fun fuel => (first fuel).bind fun value => second value fuel) := by
  rintro ⟨fuel, result, returned⟩
  obtain ⟨value, given, _⟩ := Option.bind_eq_some_iff.mp returned
  exact missing ⟨fuel, value, given⟩

end Walks

theorem plain_drop {string : Text} (plain : 0 ∉ string) (count : ℕ) : 0 ∉ string.drop count :=
  fun member => plain (List.mem_of_mem_drop member)

/-! ### The functions -/

section Functions

variable {string : Text}

theorem countRound_eq (some_ : string ≠ []) (pos : ℕ) :
    countRound pos (string ++ [0]) =
      if size string = 0 then some (.stop pos) else some (.next (pos + 1)) := by
  rw [countRound, size_append some_]

/-- `count` returns the number of the whole characters, unless the last one is cut off. -/
theorem walk_count (plain : 0 ∉ string) (uncut : ¬ Cut string) (pos : ℕ) :
    ∃ fuel, walk countRound some fuel (string ++ [0]) pos = some (pos + (codes string).length) := by
  induction string using parts_induction generalizing pos with
  | empty => exact ⟨1, by rw [codes_of_stops (Or.inl rfl)]; rfl⟩
  | stray string some_ none_ =>
    refine ⟨1, ?_⟩
    rw [walk_succ _ _ _ plain some_, countRound_eq some_, if_pos none_,
      codes_of_stops (Or.inr (Or.inl none_))]
    rfl
  | cut string some_ long => exact absurd (cut_of_long some_ long) uncut
  | whole string some_ none_ fits inductionHypothesis =>
    obtain ⟨fuel, walked⟩ := inductionHypothesis (plain_drop plain _)
      (mt (cut_whole some_ none_ fits).mpr uncut) (pos + 1)
    refine ⟨fuel + 1, ?_⟩
    rw [walk_succ _ _ _ plain some_, countRound_eq some_, if_neg none_, Option.bind_some,
      List.drop_append_of_le_length fits]
    refine walked.trans ?_
    rw [(codes_left_whole some_ none_ fits).1, List.length_cons, Nat.add_assoc, Nat.add_comm 1]

theorem ends_count_iff (plain : 0 ∉ string) (pos : ℕ) :
    Ends countRound some string pos ↔ ¬ Cut string := by
  constructor
  · intro ends cut
    induction string using parts_induction generalizing pos with
    | empty => exact not_cut_nil cut
    | stray string some_ none_ => exact not_cut_stray none_ cut
    | cut string some_ long =>
      have none_ : size string ≠ 0 := by omega
      have rounded := countRound_eq some_ pos
      rw [if_neg none_] at rounded
      exact not_ends_cut plain some_ long rounded ends
    | whole string some_ none_ fits inductionHypothesis =>
      have rounded := countRound_eq some_ pos
      rw [if_neg none_] at rounded
      exact inductionHypothesis (plain_drop plain _) (pos + 1)
        ((ends_whole plain some_ fits rounded).mp ends) ((cut_whole some_ none_ fits).mp cut)
  · intro uncut
    obtain ⟨fuel, walked⟩ := walk_count plain uncut pos
    exact ⟨fuel, _, walked⟩

/-- The test of `ccount` of what it has read. -/
theorem ccountRound_eq (some_ : string ≠ []) (code : ℤ) (total : ℕ) :
    ccountRound code total (string ++ [0]) =
      some (match Utf8.codepoint string with
        | none => .stop total
        | some ch =>
          if size string = 0 then .stop total
          else .next (if ch = code then (total + 1) % 2 ^ 32 else total)) := by
  rw [ccountRound, codepoint_append some_, size_append some_]
  rfl

theorem ends_ccount_iff (plain : 0 ∉ string) (code : ℤ) (total : ℕ) :
    Ends (ccountRound code) some string total ↔ ¬ Cut string := by
  induction string using parts_induction generalizing total with
  | empty => exact iff_of_true (ends_nil.mpr ⟨total, rfl⟩) not_cut_nil
  | stray string some_ none_ =>
    have rounded := ccountRound_eq some_ code total
    rw [codepoint_stray plain some_ none_] at rounded
    exact iff_of_true (ends_stop plain some_ rounded) (not_cut_stray none_)
  | cut string some_ long =>
    have none_ : size string ≠ 0 := by omega
    have rounded := ccountRound_eq some_ code total
    rw [codepoint_cut plain some_ long] at rounded
    dsimp only at rounded
    rw [if_neg none_] at rounded
    exact iff_of_false (not_ends_cut plain some_ long rounded)
      (not_not.mpr (cut_of_long some_ long))
  | whole string some_ none_ fits inductionHypothesis =>
    have rounded := ccountRound_eq some_ code total
    rw [codepoint_of_size none_] at rounded
    dsimp only at rounded
    rw [if_neg none_] at rounded
    rw [ends_whole plain some_ fits rounded, inductionHypothesis (plain_drop plain _),
      cut_whole some_ none_ fits]

theorem findRound_eq (some_ : string ≠ []) (code : ℤ) (pos cpos : ℕ) :
    findRound code pos cpos (string ++ [0]) =
      some (if pos ≠ 0 ∧ cpos + 1 > pos then .stop none
        else
          match Utf8.codepoint string with
          | none => .stop none
          | some ch =>
            if size string = 0 then .stop none
            else if ch = code then .stop (some (string ++ [0]))
            else .next (if pos ≠ 0 then cpos + 1 else cpos)) := by
  rw [findRound, codepoint_append some_, size_append some_]
  rfl

/-- `find` comes to an end before a character that is cut off when it finds what it is to find, or
has looked at as many characters as it is to; and there when it is to find a zero. -/
theorem ends_find_iff (plain : 0 ∉ string) (code : ℤ) (pos cpos : ℕ) :
    Ends (findRound code pos) (fun _ => some none) string cpos ↔
      ¬ Cut string ∨ code ∈ (codes string).map Nat.cast ∨
        (pos ≠ 0 ∧ pos ≤ cpos + (codes string).length) ∨ code = 0 := by
  induction string using parts_induction generalizing cpos with
  | empty => exact iff_of_true (ends_nil.mpr ⟨none, rfl⟩) (Or.inl not_cut_nil)
  | stray string some_ none_ =>
    have rounded := findRound_eq some_ code pos cpos
    rw [codepoint_stray plain some_ none_] at rounded
    dsimp only at rounded
    rw [ite_self] at rounded
    exact iff_of_true (ends_stop plain some_ rounded) (Or.inl (not_cut_stray none_))
  | cut string some_ long =>
    have none_ : size string ≠ 0 := by omega
    have rounded := findRound_eq some_ code pos cpos
    rw [codepoint_cut plain some_ long] at rounded
    dsimp only at rounded
    rw [if_neg none_] at rounded
    have stops : Stops string := Or.inr (Or.inr long)
    rw [codes_of_stops stops]
    by_cases seen : pos ≠ 0 ∧ cpos + 1 > pos
    · rw [if_pos seen] at rounded
      exact iff_of_true (ends_stop plain some_ rounded)
        (Or.inr (Or.inr (Or.inl ⟨seen.1, Nat.le_of_lt_succ seen.2⟩)))
    · rw [if_neg seen] at rounded
      by_cases zero : code = 0
      · rw [if_pos (by rw [zero]; rfl)] at rounded
        exact iff_of_true (ends_stop plain some_ rounded) (Or.inr (Or.inr (Or.inr zero)))
      · rw [if_neg fun same => zero (by rw [← same]; rfl)] at rounded
        refine iff_of_false (not_ends_cut plain some_ long rounded) ?_
        rintro (uncut | member | ⟨some', enough⟩ | zero')
        · exact uncut (cut_of_long some_ long)
        · cases member
        · exact seen ⟨some', Nat.lt_succ_of_le enough⟩
        · exact zero zero'
  | whole string some_ none_ fits inductionHypothesis =>
    have rounded := findRound_eq some_ code pos cpos
    rw [codepoint_of_size none_] at rounded
    dsimp only at rounded
    rw [if_neg none_] at rounded
    rw [cut_whole some_ none_ fits, (codes_left_whole some_ none_ fits).1, List.length_cons]
    by_cases seen : pos ≠ 0 ∧ cpos + 1 > pos
    · rw [if_pos seen] at rounded
      exact iff_of_true (ends_stop plain some_ rounded)
        (Or.inr (Or.inr (Or.inl ⟨seen.1, by omega⟩)))
    · rw [if_neg seen] at rounded
      by_cases here : ((Utf8.codepoint string).getD 0 : ℤ) = code
      · rw [if_pos here] at rounded
        exact iff_of_true (ends_stop plain some_ rounded)
          (Or.inr (Or.inl (here ▸ List.mem_cons_self)))
      · rw [if_neg here] at rounded
        have apart : code ≠ ((Utf8.codepoint string).getD 0 : ℤ) := fun same => here same.symm
        rw [ends_whole plain some_ fits rounded, inductionHypothesis (plain_drop plain _),
          List.map_cons, List.mem_cons, or_iff_right apart]
        refine or_congr_right (or_congr_right (or_congr_left ?_))
        refine and_congr_right fun some' => ?_
        rw [if_pos some', Nat.add_assoc, Nat.add_comm 1]

theorem rfindRound_eq (some_ : string ≠ []) (code : ℤ) (pos : ℕ) (locals : Option Text × ℕ) :
    rfindRound code pos locals (string ++ [0]) =
      some (match Utf8.codepoint string with
        | none => .stop locals.1
        | some ch =>
          if size string = 0 then .stop locals.1
          else
            let result := if ch = code then some (string ++ [0]) else locals.1
            if locals.2 + 1 > pos then .stop result else .next (result, locals.2 + 1)) := by
  rw [rfindRound, codepoint_append some_, size_append some_]
  rfl

/-- `rfind` comes to an end before a character that is cut off when it has looked at as many
characters as it is to. -/
theorem ends_rfind_iff (plain : 0 ∉ string) (code : ℤ) (pos : ℕ) (locals : Option Text × ℕ) :
    Ends (rfindRound code pos) (fun locals => some locals.1) string locals ↔
      ¬ Cut string ∨ pos ≤ locals.2 + (codes string).length := by
  induction string using parts_induction generalizing locals with
  | empty => exact iff_of_true (ends_nil.mpr ⟨locals.1, rfl⟩) (Or.inl not_cut_nil)
  | stray string some_ none_ =>
    have rounded := rfindRound_eq some_ code pos locals
    rw [codepoint_stray plain some_ none_] at rounded
    exact iff_of_true (ends_stop plain some_ rounded) (Or.inl (not_cut_stray none_))
  | cut string some_ long =>
    have none_ : size string ≠ 0 := by omega
    have stops : Stops string := Or.inr (Or.inr long)
    have rounded := rfindRound_eq some_ code pos locals
    rw [codepoint_cut plain some_ long] at rounded
    dsimp only at rounded
    rw [if_neg none_] at rounded
    rw [codes_of_stops stops, or_iff_right (not_not.mpr (cut_of_long some_ long))]
    by_cases seen : locals.2 + 1 > pos
    · rw [if_pos seen] at rounded
      exact iff_of_true (ends_stop plain some_ rounded) (Nat.le_of_lt_succ seen)
    · rw [if_neg seen] at rounded
      exact iff_of_false (not_ends_cut plain some_ long rounded)
        fun enough => seen (Nat.lt_succ_of_le enough)
  | whole string some_ none_ fits inductionHypothesis =>
    have rounded := rfindRound_eq some_ code pos locals
    rw [codepoint_of_size none_] at rounded
    dsimp only at rounded
    rw [if_neg none_] at rounded
    rw [cut_whole some_ none_ fits, (codes_left_whole some_ none_ fits).1, List.length_cons]
    by_cases seen : locals.2 + 1 > pos
    · rw [if_pos seen] at rounded
      exact iff_of_true (ends_stop plain some_ rounded) (Or.inr (by omega))
    · rw [if_neg seen] at rounded
      rw [ends_whole plain some_ fits rounded, inductionHypothesis (plain_drop plain _),
        Nat.add_assoc, Nat.add_comm 1]

theorem store_of_lt {Element : Type} {len : ℕ} {out : List Element} (room : out.length < len)
    (ch : Element) : store len out ch = some (out ++ [ch]) :=
  if_pos room

theorem udupRound_eq (some_ : string ≠ []) (len : ℕ) (out : List (Option ℕ)) :
    udupRound len out (string ++ [0]) =
      (store len out (Utf8.codepoint string)).map .next := by
  rw [udupRound, codepoint_append some_]
  rfl

/-- From a byte that starts no character `udup` does not go on. -/
theorem not_ends_udup_stray (plain : 0 ∉ string) (some_ : string ≠ []) (none_ : size string = 0)
    {len : ℕ} (out : List (Option ℕ)) :
    ¬ Ends (udupRound len) (fun out => store len out (some 0)) string out := by
  rintro ⟨fuel, result, walked⟩
  induction fuel generalizing out with
  | zero => cases walked
  | succ fuel inductionHypothesis =>
    have step := walk_succ (udupRound len) (fun out => store len out (some 0)) out plain some_ fuel
    rw [udupRound_eq some_, none_, List.drop_zero] at step
    have walked := step.symm.trans walked
    cases stored : store len out (Utf8.codepoint string) with
    | none =>
      rw [stored] at walked
      cases walked
    | some out' =>
      rw [stored] at walked
      exact inductionHypothesis out' walked

/-- With room for the whole characters and the null `udup` returns when there is nothing else. -/
theorem ends_udup_iff (plain : 0 ∉ string) (uncut : ¬ Cut string) {len : ℕ}
    (out : List (Option ℕ)) (room : out.length + (codes string).length < len) :
    Ends (udupRound len) (fun out => store len out (some 0)) string out ↔ left string = [] := by
  induction string using parts_induction generalizing out with
  | empty =>
    have stops : Stops [] := Or.inl rfl
    rw [codes_of_stops stops] at room
    exact iff_of_true (ends_nil.mpr ⟨_, store_of_lt room _⟩) (left_of_stops stops)
  | stray string some_ none_ =>
    rw [left_of_stops (Or.inr (Or.inl none_))]
    exact iff_of_false (not_ends_udup_stray plain some_ none_ out) some_
  | cut string some_ long => exact absurd (cut_of_long some_ long) uncut
  | whole string some_ none_ fits inductionHypothesis =>
    rw [(codes_left_whole some_ none_ fits).1, List.length_cons] at room
    have rounded := udupRound_eq some_ len out
    rw [store_of_lt (by omega), Option.map_some] at rounded
    rw [ends_whole plain some_ fits rounded, (codes_left_whole some_ none_ fits).2]
    refine inductionHypothesis (plain_drop plain _)
      (mt (cut_whole some_ none_ fits).mpr uncut) _ ?_
    rw [List.length_append, List.length_singleton]
    omega

theorem wdupRound_eq (some_ : string ≠ []) (len : ℕ) (out : List ℕ) :
    wdupRound len out (string ++ [0]) =
      match Utf8.codepoint string with
      | none => some (.stop none)
      | some ch => if ch ≥ 0x10000 then some (.stop none) else (store len out ch).map .next := by
  rw [wdupRound, codepoint_append some_]
  rfl

/-- With room for the whole characters and the null `wdup` returns. -/
theorem ends_wdup (plain : 0 ∉ string) (uncut : ¬ Cut string) {len : ℕ}
    (out : List ℕ) (room : out.length + (codes string).length < len) :
    Ends (wdupRound len) (fun out => (store len out 0).map some) string out := by
  induction string using parts_induction generalizing out with
  | empty =>
    rw [codes_of_stops (Or.inl rfl)] at room
    exact ends_nil.mpr ⟨some (out ++ [0]), by rw [store_of_lt room]; rfl⟩
  | stray string some_ none_ =>
    have rounded := wdupRound_eq some_ len out
    rw [codepoint_stray plain some_ none_] at rounded
    exact ends_stop plain some_ rounded
  | cut string some_ long => exact absurd (cut_of_long some_ long) uncut
  | whole string some_ none_ fits inductionHypothesis =>
    rw [(codes_left_whole some_ none_ fits).1, List.length_cons] at room
    have rounded := wdupRound_eq some_ len out
    rw [codepoint_of_size none_] at rounded
    dsimp only at rounded
    split at rounded
    · exact ends_stop plain some_ rounded
    · rw [store_of_lt (by omega), Option.map_some] at rounded
      rw [ends_whole plain some_ fits rounded]
      refine inductionHypothesis (plain_drop plain _)
        (mt (cut_whole some_ none_ fits).mpr uncut) _ ?_
      rw [List.length_append, List.length_singleton]
      omega

/-- Along the whole characters `offset` reads what is there. -/
theorem offsetLoop_eq_some (plain : 0 ∉ string) {pos : ℕ} (within : pos ≤ (codes string).length) :
    ∃ place, offsetLoop pos (string ++ [0]) = some place := by
  induction string using parts_induction generalizing pos with
  | empty =>
    rw [codes_of_stops (Or.inl rfl)] at within
    obtain rfl := Nat.le_zero.mp within
    exact ⟨_, rfl⟩
  | stray string some_ none_ =>
    rw [codes_of_stops (Or.inr (Or.inl none_))] at within
    obtain rfl := Nat.le_zero.mp within
    exact ⟨_, rfl⟩
  | cut string some_ long =>
    rw [codes_of_stops (Or.inr (Or.inr long))] at within
    obtain rfl := Nat.le_zero.mp within
    exact ⟨_, rfl⟩
  | whole string some_ none_ fits inductionHypothesis =>
    rw [(codes_left_whole some_ none_ fits).1, List.length_cons] at within
    cases pos with
    | zero => exact ⟨_, rfl⟩
    | succ pos =>
      obtain ⟨place, offset_⟩ := inductionHypothesis (plain_drop plain _)
        (Nat.le_of_succ_le_succ within)
      have same := @List.drop_append_of_le_length _ _ [0] _ fits
      rw [← same] at offset_
      refine ⟨place, ?_⟩
      cases string with
      | nil => exact absurd rfl some_
      | cons v string =>
        have size_ : size (v :: (string ++ [0])) = size (v :: string) := rfl
        rw [List.cons_append, offsetLoop, size_, if_neg none_]
        exact offset_

theorem count_gives (plain : 0 ∉ string) (uncut : ¬ Cut string) :
    ∃ fuel, count fuel (string ++ [0]) = some (codes string).length := by
  obtain ⟨fuel, walked⟩ := walk_count plain uncut 0
  rw [Nat.zero_add] at walked
  exact ⟨fuel, walked⟩

theorem count_mono {fuel fuel' value : ℕ} (more : fuel ≤ fuel')
    (counted : count fuel (string ++ [0]) = some value) :
    count fuel' (string ++ [0]) = some value :=
  walk_mono more counted

/-- The functions that ask for `count` first return when it does and the rest of them does. -/
theorem returns_counted_iff {Result : Type} (rest : ℕ → ℕ → Option Result) (plain : 0 ∉ string)
    (mono : ∀ {fuel fuel' len result}, fuel ≤ fuel' → rest len fuel = some result →
      rest len fuel' = some result) :
    Returns (fun fuel => (count fuel (string ++ [0])).bind fun len => rest len fuel) ↔
      ¬ Cut string ∧ Returns (rest (codes string).length) := by
  by_cases cut : Cut string
  · refine iff_of_false (not_returns_bind ?_) fun both => both.1 cut
    exact fun returns => (ends_count_iff plain 0).mp returns cut
  · rw [and_iff_right cut]
    exact returns_bind rest count_mono mono (count_gives plain cut)

/-- What `offset` does with the number of characters. -/
theorem returns_offset_iff (plain : 0 ∉ string) (place : ℤ) :
    Returns (fun fuel => offset fuel (string ++ [0]) place) ↔
      ¬ Cut string ∧ -2 ^ 63 < place := by
  have counted := returns_counted_iff
    (fun codepoints _ =>
      if place > codepoints then some none
      else if place = 0 then some (some (string ++ [0]))
      else if place < 0 then
        if place ≤ -2 ^ 63 then none
        else if -place > codepoints then some none
        else offsetLoop (codepoints - -place).toNat (string ++ [0])
      else offsetLoop place.toNat (string ++ [0])) plain (fun _ same => same)
  refine counted.trans (and_congr_right fun _ => ?_)
  by_cases beyond : place > (codes string).length
  · exact iff_of_true ⟨0, none, if_pos beyond⟩ (by omega)
  · by_cases zero : place = 0
    · exact iff_of_true ⟨0, _, by rw [if_neg beyond, if_pos zero]⟩ (by omega)
    · by_cases negative : place < 0
      · by_cases least : place ≤ -2 ^ 63
        · refine iff_of_false ?_ (Int.not_lt_of_ge least)
          rintro ⟨_, place', returned⟩
          rw [if_neg beyond, if_neg zero, if_pos negative, if_pos least] at returned
          cases returned
        · refine iff_of_true ?_ (Int.lt_of_not_ge least)
          by_cases before : -place > (codes string).length
          · refine ⟨0, none, ?_⟩
            rw [if_neg beyond, if_neg zero, if_pos negative, if_neg least, if_pos before]
          · obtain ⟨place', found⟩ := @offsetLoop_eq_some string plain
              ((codes string).length - -place).toNat (by omega)
            refine ⟨0, place', ?_⟩
            rw [if_neg beyond, if_neg zero, if_pos negative, if_neg least, if_neg before, found]
      · obtain ⟨place', found⟩ := @offsetLoop_eq_some string plain place.toNat (by omega)
        refine iff_of_true ⟨0, place', ?_⟩ (by omega)
        rw [if_neg beyond, if_neg zero, if_neg negative, found]

end Functions

/-! ### The strings that are walked within bounds -/

/-- What the functions need to return: that the last character is not cut off; or that they stop
before it. `offset` has to negate its position, and `udup` needs whole characters. -/
structure Bounded (string : Text) (place code : ℤ) (pos : ℕ) : Prop where
  count : Returns (fun fuel => count fuel (string ++ [0])) ↔ ¬ Cut string
  offset : Returns (fun fuel => offset fuel (string ++ [0]) place) ↔
    ¬ Cut string ∧ -2 ^ 63 < place
  ccount : Returns (fun fuel => ccount fuel (string ++ [0]) code) ↔ ¬ Cut string
  find : Returns (fun fuel => find fuel (string ++ [0]) code pos) ↔
    ¬ Cut string ∨ code ∈ (codes string).map Nat.cast ∨
      (pos ≠ 0 ∧ pos ≤ (codes string).length) ∨ code = 0
  rfind : Returns (fun fuel => rfind fuel (string ++ [0]) code pos) ↔
    ¬ Cut string ∨ pos ≤ (codes string).length
  udup : Returns (fun fuel => udup fuel (string ++ [0])) ↔ left string = []
  wdup : Returns (fun fuel => wdup fuel (string ++ [0])) ↔ ¬ Cut string

/-- Of every string of bytes, and for all the other arguments, the functions return, without a read
behind the null or a write beyond what they have allocated, exactly when the last character is not
cut off or they stop before it; `offset` when it can also negate its position; and `udup` when all
of the string are whole characters. -/
theorem utf8_bounded {string : Text} (plain : 0 ∉ string) (place code : ℤ) (pos : ℕ) :
    Bounded string place code pos where
  count := ends_count_iff plain 0
  offset := returns_offset_iff plain place
  ccount := ends_ccount_iff plain code 0
  find := by
    have ends := ends_find_iff plain code pos 0
    rw [Nat.zero_add] at ends
    exact ends
  rfind := by
    have ends := ends_rfind_iff plain code pos (none, 0)
    rw [Nat.zero_add] at ends
    exact ends
  udup := by
    refine (returns_counted_iff (udupLoop (string ++ [0])) plain walk_mono).trans ?_
    by_cases cut : Cut string
    · exact iff_of_false (fun both => both.1 cut) cut.1
    · rw [and_iff_right cut]
      exact ends_udup_iff plain cut [] (by simp)
  wdup := by
    refine (returns_counted_iff (wdupLoop (string ++ [0])) plain walk_mono).trans ?_
    exact ⟨And.left, fun uncut => ⟨uncut, ends_wdup plain uncut [] (by simp)⟩⟩

/-- A letter and a whole character of two bytes. -/
theorem utf8_bounded_whole : Bounded [0x41, 0xc3, 0xa9] (-1) 0xe9 2 :=
  utf8_bounded (by decide) (-1) 0xe9 2

/-- The first byte of two, and a byte that starts no character: `count` reads behind the null, and
`udup` writes beyond its memory. -/
theorem utf8_unbounded :
    (∀ fuel, count fuel [0xc3, 0] = none) ∧ ∀ fuel, udup fuel [0xff, 0] = none := by
  have none_of : ∀ {Result : Type} {function : ℕ → Option Result}, ¬ Returns function →
      ∀ fuel, function fuel = none := by
    intro Result function missing fuel
    cases returned : function fuel with
    | none => rfl
    | some result => exact absurd ⟨fuel, result, returned⟩ missing
  have cut : 0 ∉ ([0xc3] : Text) := by decide
  have stray : 0 ∉ ([0xff] : Text) := by decide
  refine ⟨none_of fun returns => ?_, none_of fun returns => ?_⟩
  · exact absurd ((ends_count_iff cut 0).mp returns) (by decide)
  · have left_ := (returns_counted_iff (udupLoop [0xff, 0]) stray walk_mono).mp returns
    exact absurd ((ends_udup_iff stray left_.1 [] (by decide)).mp left_.2) (by decide)

end Traversal

end Utf8

end CommonCpp
