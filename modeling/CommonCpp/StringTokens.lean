/-
This file settles which tokens `String::token` takes from a text, call after call, and what
`StringPager::token` adds of them to a pager.

The function takes a text apart in its own memory: a token is ended by a null in place of what
stands behind it, and the next call goes on from there. The tokens are those that a reading from
the left gives. The pager asks its pages for each of them, and a page has no room for a token that
is as long as it: such a token throws, and ends the work.

The heap has pages, and a `memalloc` has no limit of them. The end of a memory is taken for a null.
-/

import CommonCpp.Bytes
import CommonCpp.Memalloc
import CommonCpp.Pager

namespace CommonCpp

open Bytes

namespace Strings

/-! ### The code -/

/-- The loop over the quotes: what closes a quote, if the character opens one. -/
def closing (char : UInt8) : Text → Option UInt8
  | [] => none
  | [quote] => if quote = 0 ∨ char ≠ quote then none else some 0
  | quote :: close :: rest =>
    if quote = 0 then none else if char ≠ quote then closing char rest else some close

/-- Whether a character ends the text, which is so for each that is in the list: what is behind it
there is another character or the same. -/
def ends (eol : Text) (char : UInt8) : Bool :=
  char ≠ 0 ∧ eol.headD 0 ≠ 0 ∧ strchr eol char ∧
    let found := eol.dropWhile (· ≠ char)
    found.headD 0 ≠ found.getD 1 0 ∨ char = found.getD 1 0

/-- What a call leaves: the memory, the pointer to where the next call goes on, and what it
returns. -/
structure Called where
  text : Text
  token : ℕ
  result : Option ℕ

/-- `String::token(char *, char **, const char *, const char *, const char *)`. -/
def token (text : Text) (token_ : Option ℕ) (clist : Text) (quote eol : Option Text) : Called :=
  let start := token_.getD 0
  if text.getD start 0 = 0 then ⟨text, 0, none⟩
  else
    let result := start +
      ((text.drop start).takeWhile fun char => char ≠ 0 ∧ strchr clist char).length
    let char := text.getD result 0
    if ends (eol.getD []) char then ⟨text, 0, none⟩
    else if char = 0 then ⟨text, 0, none⟩
    else
      match quote.bind (closing char) with
      | some close =>
        let result := result + 1
        let body := (text.drop result).takeWhile fun char => char ≠ 0 ∧ char ≠ close
        let after := result + body.length
        if text.getD after 0 = close then ⟨text.set after 0, after + 1, some result⟩
        else ⟨text, after, some result⟩
      | none =>
        let word := (text.drop result).takeWhile fun char => char ≠ 0 ∧ ¬ strchr clist char
        let after := result + word.length
        if text.getD after 0 ≠ 0 then ⟨text.set after 0, after + 1, some result⟩
        else ⟨text, after, some result⟩

/-- What calls return one after the other, until one returns null, with so many calls at most. Each
result is read when it is returned. -/
def tokenCalls (clist : Text) (quote eol : Option Text) :
    ℕ → Text → Option ℕ → Option (List Text)
  | 0, _, _ => none
  | fuel + 1, text, token_ =>
    let called := token text token_ clist quote eol
    match called.result with
    | none => some []
    | some result =>
      (tokenCalls clist quote eol fuel called.text (some called.token)).map
        (string (called.text.drop result) :: ·)

end Strings

namespace StringPager

open Pager (State)

/-- `sizeof(member)`: the virtual table, `Next` and `text`. -/
def memberSize : ℕ := 24

/-- Whether a request is granted, by pages of this size. An irregular size is not sound. -/
def granted (pagesize size : ℕ) : Prop := size ≤ Memalloc.sub pagesize Memalloc.headerSize

instance (pagesize size : ℕ) : Decidable (granted pagesize size) :=
  inferInstanceAs (Decidable (_ ≤ _))

/-- Whether both requests for a text are. -/
def Fits (pagesize : ℕ) (text : Text) : Prop :=
  granted pagesize memberSize ∧ granted pagesize (strlen text + 1)

instance (pagesize : ℕ) (text : Text) : Decidable (Fits pagesize text) :=
  inferInstanceAs (Decidable (_ ∧ _))

/-- `StringPager::add(const char *)`: the pager, and what is thrown. -/
def add (pagesize : ℕ) (state : State Text) (text : Text) :
    Option (State Text × Except String Unit) :=
  if Fits pagesize text then (Pager.add state (string text)).map (·, .ok ())
  else some (state, .error "Larger than pagesize")

/-- `++count; add(text);`, and what is done after it if nothing is thrown. -/
def addCounted (pagesize : ℕ) (state : State Text) (text : Text) (count : ℕ)
    (next : State Text → ℕ → Option (State Text × Except String ℕ)) :
    Option (State Text × Except String ℕ) :=
  (add pagesize state text).bind fun added =>
    match added.2 with
    | .error thrown => some (added.1, .error thrown)
    | .ok () => next added.1 ((count + 1) % 2 ^ 32)

/-- The loop of `token`, with so many calls at most. -/
def tokenLoop (pagesize : ℕ) (list : Text) (quote end_ : Option Text) :
    ℕ → Text → Option ℕ → State Text → ℕ → Option (State Text × Except String ℕ)
  | 0, _, _, _, _ => none
  | fuel + 1, tmp, lastp, state, count =>
    let called := Strings.token tmp lastp list quote end_
    match called.result with
    | none => some (state, .ok count)
    | some result =>
      addCounted pagesize state (called.text.drop result) count fun state count =>
        tokenLoop pagesize list quote end_ fuel called.text (some called.token) state count

/-- `StringPager::token(const char *, const char *, const char *, const char *)`. -/
def token (pagesize fuel : ℕ) (state : State Text) (text list : Text) (quote end_ : Option Text) :
    Option (State Text × Except String ℕ) :=
  if text.headD 0 = 0 then some (state, .ok 0)
  else tokenLoop pagesize list quote end_ fuel (string text ++ [0]) none state 0

end StringPager

/-! ### The tokens of a text -/

/-- What separates tokens, and the pairs of quotes. -/
structure Lexicon where
  separators : Text
  quotes : List (UInt8 × UInt8)

namespace Lexicon

variable (lexicon : Lexicon)

/-- What closes the quote that the character opens, if it opens one. -/
def closes (char : UInt8) : Option UInt8 := (lexicon.quotes.find? (·.1 = char)).map (·.2)

/-- The first token of a text, and what is left behind it: behind a quote what is before the one
that closes it, and otherwise the longest piece without a separator. -/
def first (t : Text) : Option (Text × Text) :=
  match t.dropWhile (· ∈ lexicon.separators) with
  | [] => none
  | char :: rest =>
    match lexicon.closes char with
    | some close => some (rest.takeWhile (· ≠ close), (rest.dropWhile (· ≠ close)).tail)
    | none =>
      some ((char :: rest).takeWhile (· ∉ lexicon.separators),
        ((char :: rest).dropWhile (· ∉ lexicon.separators)).tail)

theorem length_first {t tok rest : Text} (first_ : lexicon.first t = some (tok, rest)) :
    rest.length < t.length := by
  have dropped := (List.dropWhile_sublist (· ∈ lexicon.separators) (l := t)).length_le
  unfold first at first_
  split at first_
  next => cases first_
  next char more starts =>
    rw [starts, List.length_cons] at dropped
    split at first_
    next close closes_ =>
      cases first_
      have fewer := (List.dropWhile_sublist (· ≠ close) (l := more)).length_le
      rw [List.length_tail]
      omega
    next none_ =>
      cases first_
      have fewer := (List.dropWhile_sublist (· ∉ lexicon.separators) (l := char :: more)).length_le
      rw [List.length_cons] at fewer
      rw [List.length_tail]
      omega

/-- The tokens of a text, from the left. -/
def tokens (t : Text) : List Text :=
  match first_ : lexicon.first t with
  | none => []
  | some (tok, rest) =>
    have := lexicon.length_first first_
    tok :: tokens rest
termination_by t.length

/-- The quotes as a text. -/
def quoteText : Text := lexicon.quotes.flatMap (fun quote => [quote.1, quote.2]) ++ [0]

/-- No character of the lexicon is null. -/
structure Proper : Prop where
  separators : 0 ∉ lexicon.separators
  quotes : ∀ quote ∈ lexicon.quotes, quote.1 ≠ 0 ∧ quote.2 ≠ 0

/-- How the quotes are given: as a text, or by a null pointer when there are none. -/
def Given (quote : Option Text) : Prop :=
  quote = some lexicon.quoteText ∨ quote = none ∧ lexicon.quotes = []

end Lexicon

variable {lexicon : Lexicon} {text s a b : Text} {place : ℕ}

/-- The loop over the quotes finds the pair that the character opens. -/
theorem Lexicon.Proper.closing_eq (proper : lexicon.Proper) {quote : Option Text}
    (given : lexicon.Given quote) (char : UInt8) :
    quote.bind (Strings.closing char) = lexicon.closes char := by
  rcases given with rfl | ⟨rfl, none_⟩
  · have quotes := proper.quotes
    show Strings.closing char lexicon.quoteText = _
    unfold Lexicon.quoteText Lexicon.closes
    generalize lexicon.quotes = pairs at quotes
    induction pairs with
    | nil =>
      show Strings.closing char [0] = none
      exact if_pos (Or.inl rfl)
    | cons pair pairs inductionHypothesis =>
      obtain ⟨opens, close⟩ := pair
      have open_ : opens ≠ 0 := (quotes _ List.mem_cons_self).1
      rw [List.flatMap_cons, List.append_assoc]
      show Strings.closing char (opens :: close :: (pairs.flatMap _ ++ [0])) = _
      rw [Strings.closing, if_neg open_, List.find?_cons]
      by_cases same : opens = char
      · rw [if_neg (not_not.mpr same.symm), decide_eq_true same]
        rfl
      · rw [if_pos (Ne.symm same), decide_eq_false same]
        exact inductionHypothesis fun quote member => quotes quote (List.mem_cons_of_mem _ member)
  · rw [Lexicon.closes, none_]
    rfl

theorem Lexicon.Proper.close_ne (proper : lexicon.Proper) {char close : UInt8}
    (closes_ : lexicon.closes char = some close) : close ≠ 0 := by
  obtain ⟨quote, found, rfl⟩ := Option.map_eq_some_iff.mp closes_
  exact (proper.quotes quote (List.mem_of_find?_eq_some found)).2

/-! ### Places in a memory -/

/-- From this place on the memory holds a text, and ends with its null. -/
def Stands (text : Text) (place : ℕ) (s : Text) : Prop := text.drop place = s ++ [0]

theorem Stands.char (stands : Stands text place s) : text.getD place 0 = s.headD 0 := by
  have first : text.getD place 0 = (text.drop place).headD 0 := by
    rw [List.getD_eq_getElem?_getD, List.headD_eq_head?_getD, List.head?_drop]
  rw [first, stands]
  cases s <;> rfl

theorem Stands.onward (stands : Stands text place (a ++ b)) :
    Stands text (place + a.length) b := by
  rw [Stands, ← List.drop_drop, stands, List.append_assoc, List.drop_left]

theorem Stands.reads (stands : Stands text place s) (noNull : 0 ∉ s) :
    string (text.drop place) = s := by
  rw [stands, string_append noNull, string_cons_zero, List.append_nil]

/-- A null that is put in place of a character ends what is before it. -/
theorem Stands.cut {c : UInt8} (stands : Stands text place (a ++ c :: b)) (noNull : 0 ∉ a) :
    string ((text.set (place + a.length) 0).drop place) = a ∧
      Stands (text.set (place + a.length) 0) (place + a.length + 1) b := by
  have behind := stands.onward
  constructor
  · rw [List.drop_set, if_neg (by omega), Nat.add_sub_cancel_left, stands, List.append_assoc,
      List.set_append_right _ _ le_rfl, Nat.sub_self, string_append noNull]
    exact List.append_nil a
  · rw [Stands, List.drop_set, if_pos (Nat.lt_succ_self _), ← List.drop_drop, behind]
    rfl

/-- A loop over the characters of a kind stops at the null. -/
theorem Stands.passes {test kind : UInt8 → Bool} (stands : Stands text place s)
    (null : test 0 = false) (same : ∀ c ∈ s, test c = kind c) :
    (text.drop place).takeWhile test = s.takeWhile kind := by
  rw [stands]
  clear stands
  induction s with
  | nil => exact List.takeWhile_cons_of_neg (by rw [null]; exact Bool.false_ne_true)
  | cons c s inductionHypothesis =>
    rw [List.cons_append, List.takeWhile_cons, List.takeWhile_cons, same c List.mem_cons_self,
      inductionHypothesis fun d member => same d (List.mem_cons_of_mem c member)]

/-! ### One call -/

theorem strchr_separators (proper : lexicon.Proper) {c : UInt8} (visible : c ≠ 0) :
    strchr (lexicon.separators ++ [0]) c ↔ c ∈ lexicon.separators := by
  rw [strchr, string_append proper.separators, string_cons_zero, List.append_nil,
    decide_eq_true_iff]
  exact or_iff_right visible

/-- The call returns the token, and its pointer points to what is left. -/
def Strings.Called.Takes (called : Called) (tok rest : Text) : Prop :=
  ∃ result, called.result = some result ∧ string (called.text.drop result) = tok ∧
    Stands called.text called.token rest

theorem Stands.char_behind (stands : Stands text place s) (kind : UInt8 → Bool) :
    text.getD (place + (s.takeWhile kind).length) 0 = (s.dropWhile kind).headD 0 := by
  rw [← List.takeWhile_append_dropWhile (p := kind) (l := s)] at stands
  exact stands.onward.char

/-- Where a piece ends at a character of a kind or at the end, the pointer is moved: over the
character, in whose place a null is put, or to the end. -/
theorem takes_piece (stands : Stands text place s) (noNull : 0 ∉ s) (kind : UInt8 → Bool)
    {stop : Prop} [Decidable stop] (stop_iff : stop ↔ s.dropWhile kind ≠ []) :
    let after := place + (s.takeWhile kind).length
    (if stop then Strings.Called.mk (text.set after 0) (after + 1) (some place)
      else Strings.Called.mk text after (some place)).Takes
        (s.takeWhile kind) (s.dropWhile kind).tail := by
  dsimp only
  rw [← List.takeWhile_append_dropWhile (p := kind) (l := s)] at stands
  have noNull_ : 0 ∉ s.takeWhile kind := fun member =>
    noNull ((List.takeWhile_sublist kind).mem member)
  by_cases more : s.dropWhile kind ≠ []
  · obtain ⟨c, rest, starts⟩ := List.exists_cons_of_ne_nil more
    rw [starts] at stands
    rw [if_pos (stop_iff.mpr more), starts]
    obtain ⟨read, behind⟩ := stands.cut noNull_
    exact ⟨place, rfl, read, behind⟩
  · have behind := stands.onward
    rw [not_not.mp more] at stands behind
    rw [List.append_nil] at stands
    rw [if_neg (mt stop_iff.mp more), not_not.mp more]
    exact ⟨place, rfl, stands.reads noNull_, behind⟩

/-- What is before the closing character is taken behind a quote. -/
theorem takes_quoted (stands : Stands text place s) (noNull : 0 ∉ s) {close : UInt8}
    (close_ : close ≠ 0) :
    let after := place + ((text.drop place).takeWhile fun char => char ≠ 0 ∧ char ≠ close).length
    (if text.getD after 0 = close then Strings.Called.mk (text.set after 0) (after + 1) (some place)
      else Strings.Called.mk text after (some place)).Takes
        (s.takeWhile (· ≠ close)) (s.dropWhile (· ≠ close)).tail := by
  have body : ((text.drop place).takeWhile fun char => char ≠ 0 ∧ char ≠ close) =
      s.takeWhile (· ≠ close) := by
    refine stands.passes rfl fun c member => ?_
    have visible : c ≠ 0 := fun null => noNull (null ▸ member)
    simp [visible]
  dsimp only
  rw [body]
  refine takes_piece stands noNull (· ≠ close) ?_
  rw [stands.char_behind]
  rcases ended : s.dropWhile (· ≠ close) with _ | ⟨c, left⟩
  · exact iff_of_false (Ne.symm close_) (not_not.mpr rfl)
  · have stops := List.head?_dropWhile_not (· ≠ close) s
    rw [ended] at stops
    exact iff_of_true (by simpa using stops) (List.cons_ne_nil c left)

/-- Another token is what is before a separator. -/
theorem takes_word (stands : Stands text place s) (noNull : 0 ∉ s)
    (separator : ∀ c ∈ s, strchr (lexicon.separators ++ [0]) c = decide (c ∈ lexicon.separators)) :
    let after := place + ((text.drop place).takeWhile fun char =>
      char ≠ 0 ∧ ¬ strchr (lexicon.separators ++ [0]) char).length
    (if text.getD after 0 ≠ 0 then Strings.Called.mk (text.set after 0) (after + 1) (some place)
      else Strings.Called.mk text after (some place)).Takes
        (s.takeWhile (· ∉ lexicon.separators)) (s.dropWhile (· ∉ lexicon.separators)).tail := by
  have visible : ∀ c ∈ s, c ≠ 0 := fun c member null => noNull (null ▸ member)
  have word : ((text.drop place).takeWhile fun char => char ≠ 0 ∧
      ¬ strchr (lexicon.separators ++ [0]) char) = s.takeWhile (· ∉ lexicon.separators) := by
    refine stands.passes rfl fun c member => ?_
    rw [separator c member]
    simp [visible c member]
  dsimp only
  rw [word]
  refine takes_piece stands noNull (· ∉ lexicon.separators) ?_
  rw [stands.char_behind]
  rcases ended : s.dropWhile (· ∉ lexicon.separators) with _ | ⟨c, left⟩
  · exact iff_of_false (not_not.mpr rfl) (not_not.mpr rfl)
  · have member : c ∈ s :=
      (List.dropWhile_sublist (· ∉ lexicon.separators)).mem (ended ▸ List.mem_cons_self)
    exact iff_of_true (visible c member) (List.cons_ne_nil c left)

/-- A call takes the first token of what its pointer points to, and moves the pointer behind it. -/
theorem token_spec (proper : lexicon.Proper) {quote : Option Text} (given : lexicon.Given quote)
    {token_ : Option ℕ} (stands : Stands text (token_.getD 0) s) (noNull : 0 ∉ s) :
    let called := Strings.token text token_ (lexicon.separators ++ [0]) quote none
    match lexicon.first s with
    | none => called.result = none
    | some (tok, rest) => called.Takes tok rest := by
  dsimp only
  unfold Strings.token
  dsimp only
  generalize token_.getD 0 = start at stands
  have visible : ∀ c ∈ s, c ≠ 0 := fun c member null => noNull (null ▸ member)
  have separator : ∀ c ∈ s,
      strchr (lexicon.separators ++ [0]) c = decide (c ∈ lexicon.separators) :=
    fun c member => Bool.eq_iff_iff.mpr
      ((strchr_separators proper (visible c member)).trans decide_eq_true_iff.symm)
  -- The loop over the separators is that of the first token.
  have skipped : ((text.drop start).takeWhile fun char => char ≠ 0 ∧
      strchr (lexicon.separators ++ [0]) char) = s.takeWhile (· ∈ lexicon.separators) := by
    refine stands.passes rfl fun c member => ?_
    rw [separator c member]
    simp [visible c member]
  have endless : ∀ char, ¬ Strings.ends ((none : Option Text).getD []) char = true := by
    simp [Strings.ends]
  have pieces := List.takeWhile_append_dropWhile (p := (· ∈ lexicon.separators)) (l := s)
  have there : Stands text (start + (s.takeWhile (· ∈ lexicon.separators)).length)
      (s.dropWhile (· ∈ lexicon.separators)) := Stands.onward (by rwa [pieces])
  have behind : ∀ c ∈ s.dropWhile (· ∈ lexicon.separators), c ∈ s :=
    fun c member => (List.dropWhile_sublist _).mem member
  rw [skipped, stands.char, if_neg (endless _), proper.closing_eq given, there.char]
  generalize start + (s.takeWhile (· ∈ lexicon.separators)).length = place at there
  unfold Lexicon.first
  generalize s.dropWhile (· ∈ lexicon.separators) = b at there behind
  cases b with
  | nil =>
    rw [List.headD_nil, if_pos rfl, ite_self]
  | cons char rest =>
    have visible_ := visible char (behind char List.mem_cons_self)
    have some_ : s.headD 0 ≠ 0 := by
      cases s with
      | nil => exact absurd (behind char List.mem_cons_self) List.not_mem_nil
      | cons c s => exact visible c List.mem_cons_self
    rw [if_neg some_, List.headD_cons, if_neg visible_]
    dsimp only
    have noNull_ : 0 ∉ char :: rest := fun null => visible 0 (behind 0 null) rfl
    cases closes_ : lexicon.closes char with
    | some close =>
      exact takes_quoted (there.onward (a := [char]))
        (fun null => noNull_ (List.mem_cons_of_mem _ null)) (proper.close_ne closes_)
    | none =>
      exact takes_word there noNull_ fun c member => separator c (behind c member)

/-! ### All calls -/

theorem Lexicon.tokens_of_none (none_ : lexicon.first s = none) : lexicon.tokens s = [] := by
  rw [tokens]
  split
  next => rfl
  next some_ => exact nomatch none_.symm.trans some_

theorem Lexicon.tokens_of_some {tok rest : Text} (some_ : lexicon.first s = some (tok, rest)) :
    lexicon.tokens s = tok :: lexicon.tokens rest := by
  rw [tokens]
  split
  next none_ => exact nomatch some_.symm.trans none_
  next tok' rest' found =>
    cases some_.symm.trans found
    rfl

theorem Lexicon.zero_notMem_rest (noNull : 0 ∉ s) {tok rest : Text}
    (some_ : lexicon.first s = some (tok, rest)) : 0 ∉ rest := by
  have suffix : rest <:+ s := by
    have dropped := List.dropWhile_suffix (· ∈ lexicon.separators) (l := s)
    unfold first at some_
    split at some_
    next => cases some_
    next char more starts =>
      rw [starts] at dropped
      split at some_
      next close _ =>
        cases some_
        exact ((List.tail_suffix _).trans (List.dropWhile_suffix _)).trans
          ((List.suffix_cons char more).trans dropped)
      next =>
        cases some_
        exact ((List.tail_suffix _).trans (List.dropWhile_suffix _)).trans dropped
  exact fun member => noNull (suffix.mem member)

/-- A call returns nothing when there is no token, and otherwise takes the first of them. -/
theorem token_cases (proper : lexicon.Proper) {quote : Option Text} (given : lexicon.Given quote)
    {token_ : Option ℕ} (stands : Stands text (token_.getD 0) s) (noNull : 0 ∉ s) :
    let called := Strings.token text token_ (lexicon.separators ++ [0]) quote none
    lexicon.tokens s = [] ∧ called.result = none ∨
      ∃ tok rest, lexicon.tokens s = tok :: lexicon.tokens rest ∧ rest.length < s.length ∧
        0 ∉ rest ∧ called.Takes tok rest := by
  have called := token_spec proper given stands noNull
  dsimp only at called ⊢
  cases first : lexicon.first s with
  | none =>
    rw [first] at called
    exact Or.inl ⟨lexicon.tokens_of_none first, called⟩
  | some pair =>
    obtain ⟨tok, rest⟩ := pair
    rw [first] at called
    exact Or.inr ⟨tok, rest, Lexicon.tokens_of_some first, lexicon.length_first first,
      Lexicon.zero_notMem_rest noNull first, called⟩

/-- The calls return the tokens of the text, one after the other. -/
theorem tokenCalls_spec (proper : lexicon.Proper) {quote : Option Text}
    (given : lexicon.Given quote) {fuel : ℕ} {token_ : Option ℕ} (enough : s.length < fuel)
    (stands : Stands text (token_.getD 0) s) (noNull : 0 ∉ s) :
    Strings.tokenCalls (lexicon.separators ++ [0]) quote none fuel text token_ =
      some (lexicon.tokens s) := by
  induction fuel generalizing s text token_ with
  | zero => exact absurd enough (Nat.not_lt_zero _)
  | succ fuel inductionHypothesis =>
    rw [Strings.tokenCalls]
    obtain ⟨none_, called⟩ | ⟨tok, rest, more, fewer, noNull_, result, returned, read, onward⟩ :=
      token_cases proper given stands noNull
    · rw [none_, called]
    · rw [more, returned]
      dsimp only
      rw [inductionHypothesis (by omega) onward noNull_, read]
      rfl

/-! ### The pager -/

namespace StringPager

open Pager (State Holds)

/-- The requests that are granted are those that a `memalloc` without a limit grants, when the heap
has a page for it. -/
theorem granted_iff (pagesize size base : ℕ) (state : Memalloc.State) :
    granted pagesize size ↔ ¬ Memalloc.Refused pagesize 0 size (some base) state := by
  simp [granted, Memalloc.Refused]

theorem holds_add {state : State Text} {items : List Text} (holds : Holds state items)
    (small : items.length + 1 < 2 ^ 32) (item : Text) :
    ∃ target, Pager.add state item = some target ∧ Holds target (items ++ [item]) := by
  obtain ⟨nodes, chained, rfl⟩ := holds
  rw [List.length_map, ← chained.members] at small
  obtain ⟨target, added, chained', text⟩ := chained.add small item
  refine ⟨target, added, _, chained', ?_⟩
  rw [text, List.map_append, chained.map_fresh, List.map_singleton, Function.update_self]

theorem strlen_string (text : Text) : strlen (string text) = strlen text := by
  rw [strlen, string_eq_self (zero_notMem_string text)]
  rfl

theorem fits_string (pagesize : ℕ) (text : Text) :
    Fits pagesize (string text) ↔ Fits pagesize text := by
  rw [Fits, strlen_string, Fits]

/-- The texts are added behind the items up to the first that does not fit. It throws, and otherwise
their number is returned. -/
def Appends (pagesize : ℕ) (items texts : List Text) (count : ℕ)
    (outcome : Option (State Text × Except String ℕ)) : Prop :=
  ∃ after,
    outcome = some (after, if ∀ text ∈ texts, Fits pagesize text
      then .ok (count + texts.length) else .error "Larger than pagesize") ∧
    Holds after (items ++ texts.takeWhile fun text => Fits pagesize text)

theorem appends_nil (pagesize : ℕ) {state : State Text} {items : List Text}
    (holds : Holds state items) (count : ℕ) :
    Appends pagesize items [] count (some (state, .ok count)) := by
  refine ⟨state, ?_, ?_⟩
  · rw [if_pos (fun _ member => absurd member List.not_mem_nil)]
    rfl
  · rwa [List.takeWhile_nil, List.append_nil]

/-- One text is added, and then the others are. -/
theorem appends_cons {pagesize count : ℕ} {state : State Text} {items texts : List Text}
    {text : Text} {next : State Text → ℕ → Option (State Text × Except String ℕ)}
    (holds : Holds state items) (small : items.length + (texts.length + 1) < 2 ^ 32)
    (small_ : count + (texts.length + 1) < 2 ^ 32)
    (others : ∀ target, Holds target (items ++ [string text]) →
      Appends pagesize (items ++ [string text]) texts (count + 1) (next target (count + 1))) :
    Appends pagesize items (string text :: texts) count
      (addCounted pagesize state text count next) := by
  by_cases fits : Fits pagesize (string text)
  · obtain ⟨target, added, holds'⟩ := holds_add holds (by omega) (string text)
    have counted : (count + 1) % 2 ^ 32 = count + 1 := Nat.mod_eq_of_lt (by omega)
    obtain ⟨after, outcome, holds_⟩ := others target holds'
    refine ⟨after, ?_, ?_⟩
    · rw [addCounted, add, if_pos ((fits_string pagesize text).mp fits), added, Option.map_some,
        Option.bind_some]
      dsimp only
      rw [counted, outcome]
      simp only [List.forall_mem_cons, fits, true_and, List.length_cons, Nat.add_assoc,
        Nat.add_comm 1]
    · have taken : ((string text :: texts).takeWhile fun text => Fits pagesize text) =
          string text :: texts.takeWhile fun text => Fits pagesize text :=
        List.takeWhile_cons_of_pos (decide_eq_true fits)
      rw [taken, List.append_cons]
      exact holds_
  · refine ⟨state, ?_, ?_⟩
    · rw [addCounted, add, if_neg (fun there => fits ((fits_string pagesize text).mpr there)),
        Option.bind_some]
      simp only [List.forall_mem_cons, fits, false_and, if_false]
    · have taken : ((string text :: texts).takeWhile fun text => Fits pagesize text) = [] :=
        List.takeWhile_cons_of_neg fun there => fits (of_decide_eq_true there)
      rwa [taken, List.append_nil]

/-- The loop adds the tokens. -/
theorem tokenLoop_spec (proper : lexicon.Proper) {quote : Option Text}
    (given : lexicon.Given quote) {pagesize fuel count : ℕ} {token_ : Option ℕ}
    {state : State Text} {items : List Text} (enough : s.length < fuel)
    (stands : Stands text (token_.getD 0) s) (noNull : 0 ∉ s) (holds : Holds state items)
    (small : items.length + (lexicon.tokens s).length < 2 ^ 32)
    (small_ : count + (lexicon.tokens s).length < 2 ^ 32) :
    Appends pagesize items (lexicon.tokens s) count
      (tokenLoop pagesize (lexicon.separators ++ [0]) quote none fuel text token_ state count) := by
  induction fuel generalizing s text token_ state items count with
  | zero => exact absurd enough (Nat.not_lt_zero _)
  | succ fuel inductionHypothesis =>
    rw [tokenLoop]
    obtain ⟨none_, called⟩ | ⟨tok, rest, more, fewer, noNull_, result, returned, read, onward⟩ :=
      token_cases proper given stands noNull
    · rw [none_, called]
      exact appends_nil pagesize holds count
    · rw [more] at small small_ ⊢
      rw [List.length_cons] at small small_
      rw [returned, ← read]
      refine appends_cons holds small small_ fun target holds' => ?_
      exact inductionHypothesis (by omega) onward noNull_ holds'
        (by rw [List.length_append, List.length_singleton]; omega) (by omega)

end StringPager

/-- From every text, the calls return its tokens before the first null; and a pager adds them up to
the first that does not fit in a page, and returns their number when there is none. Its pages are of
a size for which they are sound. -/
theorem tokens_taken (proper : lexicon.Proper) {quote : Option Text}
    (given : lexicon.Given quote) {t : Text} (noNull : 0 ∉ t) :
    (∀ fuel, t.length < fuel →
      Strings.tokenCalls (lexicon.separators ++ [0]) quote none fuel (t ++ [0]) none =
        some (lexicon.tokens t)) ∧
    ∀ pagesize fuel state items, Memalloc.Regular pagesize → t.length < fuel →
      Pager.Holds state items → items.length + (lexicon.tokens t).length < 2 ^ 32 →
      StringPager.Appends pagesize items (lexicon.tokens t) 0
        (StringPager.token pagesize fuel state (t ++ [0]) (lexicon.separators ++ [0]) quote
          none) := by
  have stands : Stands (t ++ [0]) ((none : Option ℕ).getD 0) t := rfl
  refine ⟨fun fuel enough => tokenCalls_spec proper given enough stands noNull,
    fun pagesize fuel state items _ enough holds small => ?_⟩
  cases t with
  | nil =>
    have none_ : lexicon.tokens [] = [] := Lexicon.tokens_of_none rfl
    rw [none_]
    exact StringPager.appends_nil pagesize holds 0
  | cons c t =>
    have some_ : c ≠ 0 := fun null => noNull (null ▸ List.mem_cons_self)
    have copied : string (c :: t ++ [0]) = c :: t := by
      rw [string_append noNull, string_cons_zero, List.append_nil]
    have looped := @StringPager.tokenLoop_spec lexicon _ _ proper quote given
      pagesize fuel 0 none state items enough stands noNull holds small (by omega)
    rw [StringPager.token, List.cons_append, List.headD_cons, if_neg some_, ← List.cons_append,
      copied]
    exact looped

/-- The tokens of `a "b "`. -/
theorem tokens_taken_quoted :
    Strings.tokenCalls [0x20, 0] (some [0x22, 0x22, 0]) none 8
        ([0x61, 0x20, 0x22, 0x62, 0x20, 0x22] ++ [0]) none =
      some ((Lexicon.mk [0x20] [(0x22, 0x22)]).tokens [0x61, 0x20, 0x22, 0x62, 0x20, 0x22]) :=
  (@tokens_taken ⟨[0x20], [(0x22, 0x22)]⟩ ⟨by decide,
    List.forall_mem_singleton.mpr ⟨by decide, by decide⟩⟩ _ (Or.inl rfl) _
    (by decide)).1 8 (by decide)

/-- A token that is as long as a page throws, from an empty pager with pages of the default size:
the number of the tokens is not returned. -/
theorem long_token_throws :
    ¬ ∃ after count, StringPager.token 256 300 (Pager.constructed fun _ => [])
      (List.replicate 240 0x78 ++ [0]) [0x20, 0] none none = some (after, .ok count) := by
  rintro ⟨after, count, returned⟩
  have thrown : ((StringPager.token 256 300 (Pager.constructed fun _ => [])
      (List.replicate 240 0x78 ++ [0]) [0x20, 0] none none).map fun after => after.2.toOption) =
      some none := by decide +kernel
  rw [returned] at thrown
  cases thrown

end CommonCpp
