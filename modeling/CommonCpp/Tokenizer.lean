/-
This file settles what `StringTokenizer` makes of a text.

An iterator is between two delimiters. It keeps where its token starts and ends, and in `endp` the
place before the next token, which is the null when there is none: behind it is the end. So the
tokens are those of the text cut at every delimiter; or at the first of every row of delimiters, if
all of them are skipped. The token itself is copied when it is asked for.

It is copied with `newString`, which allocates the size of the token and its null, and hands it to
`setString`. That does nothing when the size is one: an empty token is memory that nothing was
written to.
-/

import CommonCpp.BoundedText
import Mathlib.Data.List.DropRight

namespace CommonCpp

open Ctype Bytes

/-! ### The code -/

/-- A tokenizer of a text, which is read up to its null. -/
structure StringTokenizer where
  str : Text
  delim : Text
  skipAll : Bool
  trim : Bool

namespace StringTokenizer

def SPACE : Text := [0x20, 0x09, 0x0a, 0x0d, 0x0c, 0x0b]

/-- The places are counted from the start of the text, so that the first `endp` is before it. -/
structure Iterator where
  start : ℕ
  tokEnd : Option ℕ
  endp : ℤ
  token : Option Text

variable (tok : StringTokenizer)

/-- The place of `itEnd`, one behind the null. -/
def itEnd : ℤ := strlen tok.str + 1

/-- What `while(*p && strchr(delim, *p) == NULL)` goes over, from a place in the text. -/
def word (p : ℕ) : Text := ((string tok.str).drop p).takeWhile fun ch => ¬ strchr tok.delim ch

/-- What the loop that skips all delimiters goes over, behind the first of them. -/
def run (p : ℕ) : Text := ((string tok.str).drop p).takeWhile (strchr tok.delim)

/-- `operator++`. There is no outcome where it throws. -/
def increment (it : Iterator) : Option Iterator :=
  if it.endp = tok.itEnd then none
  else
    let start := (it.endp + 1).toNat
    if it.endp + 1 = tok.itEnd then some ⟨start, it.tokEnd, start, none⟩
    else
      let tokEnd := start + (tok.word start).length
      let skipped :=
        if tokEnd < strlen tok.str ∧ tok.skipAll then (tok.run (tokEnd + 1)).length else 0
      some ⟨start, some tokEnd, tokEnd + skipped, none⟩

/-- `begin()`; the constructor does not set `start`. -/
def begin (start : ℕ) : Option Iterator := tok.increment ⟨start, none, -1, none⟩

/-- `newString` of a size that is not zero, in the memory that is allocated. -/
def newString (mem : Text) (src : Text) (size : ℕ) : Option Text := BoundedText.set mem 0 size src

/-- The token between two places without the white space around it, and where it starts. -/
def trimmed (start tokEnd : ℕ) : ℕ × ℕ :=
  let token := ((string tok.str).drop start).take (tokEnd - start)
  if tok.trim then
    let start := start + (token.takeWhile (strchr SPACE)).length
    (start, start + ((token.dropWhile (strchr SPACE)).rdropWhile (strchr SPACE)).length)
  else (start, tokEnd)

/-- The copy of a token that starts and ends in these places, and the iterator that keeps it. -/
def fetch (mem : ℕ → Text) (it : Iterator) (places : ℕ × ℕ) : Option (Text × Iterator) :=
  let tokLen := if places.1 > places.2 then 0 else places.2 - places.1
  (newString (mem (tokLen + 1)) (tok.str.drop places.1) (tokLen + 1)).map fun token =>
    (token, { it with start := places.1, token := some token })

/-- `operator*`, with the memory that `new` returns for a size. There is no outcome where it throws,
or where it writes behind that memory. -/
def deref (mem : ℕ → Text) (it : Iterator) : Option (Text × Iterator) :=
  if it.endp = tok.itEnd then none
  else
    match it.token with
    | some token => some (token, it)
    | none => tok.fetch mem it (tok.trimmed it.start (it.tokEnd.getD 0))

def nextDelimiter (it : Iterator) : UInt8 :=
  match it.tokEnd with
  | some tokEnd => tok.str.getD tokEnd 0
  | none => 0

/-- A loop from `begin()` to `end()` that reads every token and the delimiter behind it, in so many
rounds. -/
def walk (mem : ℕ → Text) : ℕ → Iterator → Option (List (Text × UInt8))
  | 0, _ => none
  | rounds + 1, it =>
    if it.endp = tok.itEnd then some []
    else do
      let (token, it) ← tok.deref mem it
      let rest ← walk mem rounds (← tok.increment it)
      some ((token, tok.nextDelimiter it) :: rest)

/-! ### What is to be read -/

/-- Whether a character is a delimiter. -/
def isDelim (ch : UInt8) : Bool := strchr tok.delim ch

/-- A text whose rows of delimiters are cut down to their first, and to nothing behind a
delimiter. -/
def collapse (isDelim : UInt8 → Bool) : Bool → Text → Text
  | _, [] => []
  | behind, ch :: text =>
    if isDelim ch then
      if behind then collapse isDelim true text else ch :: collapse isDelim true text
    else ch :: collapse isDelim false text

/-- The text that is cut at each of its delimiters. -/
def source (text : Text) : Text := if tok.skipAll then collapse tok.isDelim false text else text

/-- A token as it is to be read. -/
def shown (token : Text) : Text :=
  if tok.trim then (token.dropWhile isspace).rdropWhile isspace else token

/-- The tokens that are to be read in a text. -/
noncomputable def tokens (text : Text) : List Text :=
  ((tok.source text).splitOnP tok.isDelim).map tok.shown

/-- The delimiters behind them, and the null. -/
def delimiters (text : Text) : List UInt8 := (tok.source text).filter tok.isDelim ++ [0]

/-- The text in a memory, if it is terminated. -/
def value (mem : Text) : Option Text := if 0 ∈ mem then some (string mem) else none

/-! ### Cutting a text -/

variable {isDelim : UInt8 → Bool} {word : Text}

theorem collapse_word (plain : ∀ ch ∈ word, isDelim ch = false) (text : Text) :
    collapse isDelim false (word ++ text) = word ++ collapse isDelim false text := by
  induction word with
  | nil => rfl
  | cons ch word inductionHypothesis =>
    obtain ⟨first, others⟩ := List.forall_mem_cons.mp plain
    rw [List.cons_append, collapse, if_neg (by rw [first]; exact Bool.false_ne_true),
      inductionHypothesis others, List.cons_append]

/-- Behind a delimiter a row of more is passed over. -/
theorem collapse_behind (text : Text) :
    collapse isDelim true text = collapse isDelim false (text.dropWhile isDelim) := by
  induction text with
  | nil => rfl
  | cons ch text inductionHypothesis =>
    by_cases delimiter : isDelim ch = true
    · rw [collapse, if_pos delimiter, if_pos rfl, inductionHypothesis,
        List.dropWhile_cons_of_pos delimiter]
    · rw [List.dropWhile_cons_of_neg delimiter, collapse, collapse, if_neg delimiter,
        if_neg delimiter]

variable (tok : StringTokenizer)

/-- What is left to be read behind a delimiter. -/
def left (text : Text) : Text := if tok.skipAll then text.dropWhile tok.isDelim else text

variable {tok}

/-- A word and the delimiter behind it are cut off. -/
theorem source_cut (plain : ∀ ch ∈ word, tok.isDelim ch = false) {ch : UInt8}
    (delimiter : tok.isDelim ch = true) (text : Text) :
    tok.source (word ++ ch :: text) = word ++ ch :: tok.source (tok.left text) := by
  unfold source left
  split
  · rw [collapse_word plain, collapse, if_pos delimiter, collapse_behind]
    rfl
  · rfl

theorem tokens_cut (plain : ∀ ch ∈ word, tok.isDelim ch = false) {ch : UInt8}
    (delimiter : tok.isDelim ch = true) (text : Text) :
    tok.tokens (word ++ ch :: text) = tok.shown word :: tok.tokens (tok.left text) := by
  rw [tokens, source_cut plain delimiter,
    List.splitOnP_append_cons_of_forall_mem plain ch delimiter, List.map_cons, tokens]

theorem delimiters_cut (plain : ∀ ch ∈ word, tok.isDelim ch = false) {ch : UInt8}
    (delimiter : tok.isDelim ch = true) (text : Text) :
    tok.delimiters (word ++ ch :: text) = ch :: tok.delimiters (tok.left text) := by
  have none_ : word.filter tok.isDelim = [] :=
    List.filter_eq_nil_iff.mpr fun ch member => by rw [plain ch member]; exact Bool.false_ne_true
  rw [delimiters, source_cut plain delimiter, List.filter_append, none_, List.nil_append,
    List.filter_cons_of_pos delimiter, delimiters, List.cons_append]

theorem source_word (plain : ∀ ch ∈ word, tok.isDelim ch = false) : tok.source word = word := by
  unfold source
  split
  · have whole := collapse_word plain []
    rwa [List.append_nil, collapse, List.append_nil] at whole
  · rfl

theorem tokens_word (plain : ∀ ch ∈ word, tok.isDelim ch = false) :
    tok.tokens word = [tok.shown word] := by
  rw [tokens, source_word plain, List.splitOnP_eq_singleton plain, List.map_singleton]

theorem delimiters_word (plain : ∀ ch ∈ word, tok.isDelim ch = false) :
    tok.delimiters word = [0] := by
  have none_ : word.filter tok.isDelim = [] :=
    List.filter_eq_nil_iff.mpr fun ch member => by rw [plain ch member]; exact Bool.false_ne_true
  rw [delimiters, source_word plain, none_, List.nil_append]

/-! ### The iterators -/

variable (tok)

/-- The iterator whose token starts in a place. -/
def place (p : ℕ) : Iterator :=
  let tokEnd := p + (tok.word p).length
  let skipped :=
    if tokEnd < strlen tok.str ∧ tok.skipAll then (tok.run (tokEnd + 1)).length else 0
  ⟨p, some tokEnd, tokEnd + skipped, none⟩

variable {tok} {p : ℕ} {mem : ℕ → Text}

/-- The iterator before a place in the text moves to it. -/
theorem increment_place {it : Iterator} (before : it.endp + 1 = p) (inside : p ≤ strlen tok.str) :
    tok.increment it = some (tok.place p) := by
  have notEnd : it.endp ≠ tok.itEnd := by
    unfold itEnd
    omega
  have notLast : it.endp + 1 ≠ tok.itEnd := by
    unfold itEnd
    omega
  rw [increment, if_neg notEnd, if_neg notLast, before]
  rfl

theorem word_plain (p : ℕ) : ∀ ch ∈ tok.word p, tok.isDelim ch = false := by
  intro ch member
  have plain := List.mem_takeWhile_imp member
  exact eq_false_of_ne_true (of_decide_eq_true plain)

/-- Behind the word in a place the text ends, or a delimiter is there. -/
theorem word_append (tok : StringTokenizer) (p : ℕ) :
    ∃ behind, (string tok.str).drop p = tok.word p ++ behind ∧
      ∀ ch ∈ behind.head?, tok.isDelim ch = true := by
  refine ⟨((string tok.str).drop p).dropWhile fun ch => ¬ strchr tok.delim ch,
    List.takeWhile_append_dropWhile.symm, fun ch first => ?_⟩
  have stops := List.head?_dropWhile_not (fun ch => ¬ strchr tok.delim ch)
    ((string tok.str).drop p)
  rw [first] at stops
  simpa [isDelim] using stops

/-- The byte in a place up to the null is the first of what the text has from there on, or the
null. -/
theorem getD_str {q : ℕ} (inside : q ≤ strlen tok.str) :
    tok.str.getD q 0 = ((string tok.str).drop q).headD 0 := by
  obtain ⟨after, split, ended⟩ := string_split tok.str
  have head : tok.str.getD q 0 = (tok.str.drop q).headD 0 := by
    rw [List.headD_eq_head?_getD, List.head?_drop, List.getD_eq_getElem?_getD]
  rw [head]
  conv_lhs => rw [split, List.drop_append_of_le_length inside]
  cases (string tok.str).drop q with
  | nil => exact ended
  | cons ch text => rfl

theorem drop_takeWhile {test : UInt8 → Bool} (text : Text) :
    text.drop (text.takeWhile test).length = text.dropWhile test := by
  have split := congrArg (List.drop (text.takeWhile test).length)
    (List.takeWhile_append_dropWhile (p := test) (l := text))
  rw [List.drop_left] at split
  exact split.symm

/-- Either the text ends behind the word in a place, or a delimiter is there. The iterator stands
before the null then, or before what is left to be read. -/
theorem place_cases (inside : p ≤ strlen tok.str) :
    (string tok.str).drop p = tok.word p ∧ (tok.place p).endp = strlen tok.str ∧
        tok.nextDelimiter (tok.place p) = 0 ∨
      ∃ ch text, (string tok.str).drop p = tok.word p ++ ch :: text ∧ tok.isDelim ch = true ∧
        tok.nextDelimiter (tok.place p) = ch ∧
        ∃ next : ℕ, (tok.place p).endp + 1 = next ∧ p < next ∧ next ≤ strlen tok.str ∧
          (string tok.str).drop next = tok.left text := by
  obtain ⟨behind, split_, stops⟩ := word_append tok p
  have total : ((string tok.str).drop p).length = strlen tok.str - p := List.length_drop
  cases behind with
  | nil =>
    rw [List.append_nil] at split_
    rw [split_] at total
    have atEnd : p + (tok.word p).length = strlen tok.str := by omega
    refine .inl ⟨split_, ?_, ?_⟩
    · rw [place, atEnd]
      simp only [Nat.lt_irrefl, false_and, if_false, Int.natCast_zero, add_zero]
    · show tok.str.getD (p + (tok.word p).length) 0 = 0
      rw [atEnd, getD_str le_rfl, strlen, List.drop_length, List.headD_nil]
  | cons ch text =>
    have delimiter : tok.isDelim ch = true := stops ch rfl
    rw [split_, List.length_append, List.length_cons] at total
    have tokEnd : p + (tok.word p).length < strlen tok.str := by omega
    have after : (string tok.str).drop (p + (tok.word p).length) = ch :: text := by
      rw [← List.drop_drop, split_, List.drop_left]
    have after' : (string tok.str).drop (p + (tok.word p).length + 1) = text := by
      rw [← List.drop_drop, after]
      rfl
    refine .inr ⟨ch, text, split_, delimiter, ?_, ?_⟩
    · show tok.str.getD (p + (tok.word p).length) 0 = ch
      rw [getD_str tokEnd.le, after, List.headD_cons]
    · by_cases skips : tok.skipAll = true
      · have row : tok.run (p + (tok.word p).length + 1) = text.takeWhile tok.isDelim := by
          rw [run, after']
          rfl
        have short : (text.takeWhile tok.isDelim).length ≤ text.length :=
          (List.takeWhile_sublist _).length_le
        refine ⟨p + (tok.word p).length + 1 + (text.takeWhile tok.isDelim).length, ?_, by omega,
          by omega, ?_⟩
        · have skipped : (tok.place p).endp = ((p + (tok.word p).length : ℕ) : ℤ) +
              (text.takeWhile tok.isDelim).length := by
            rw [place, if_pos ⟨tokEnd, skips⟩, row]
          rw [skipped]
          push_cast
          ring
        · rw [← List.drop_drop, after', left, if_pos skips]
          exact drop_takeWhile text
      · refine ⟨p + (tok.word p).length + 1, ?_, by omega, by omega, ?_⟩
        · have skipped : (tok.place p).endp = ((p + (tok.word p).length : ℕ) : ℤ) := by
            rw [place, if_neg fun both => skips both.2]
            exact add_zero _
          rw [skipped]
          push_cast
          ring
        · rw [after', left, if_neg skips]

/-- White space is what `SPACE` lists. -/
theorem strchr_SPACE {ch : UInt8} (visible : ch ≠ 0) : strchr SPACE ch = isspace ch := by
  have every : ∀ value : Fin 256, UInt8.ofNat value ≠ 0 →
      strchr SPACE (UInt8.ofNat value) = isspace (UInt8.ofNat value) := by decide +kernel
  have this := every ⟨ch.toNat, ch.toNat_lt⟩
  rw [UInt8.ofNat_toNat] at this
  exact this visible

theorem dropWhile_congr {first second : UInt8 → Bool} {text : Text}
    (same : ∀ ch ∈ text, first ch = second ch) :
    text.dropWhile first = text.dropWhile second := by
  induction text with
  | nil => rfl
  | cons ch text inductionHypothesis =>
    obtain ⟨head, others⟩ := List.forall_mem_cons.mp same
    rw [List.dropWhile_cons, List.dropWhile_cons, head, inductionHypothesis others]

/-- The text of a token is found in the place that `trimmed` tells, with the length it tells. -/
theorem trimmed_word (inside : p ≤ strlen tok.str) :
    ∃ start more, tok.trimmed p (p + (tok.word p).length) =
        (start, start + (tok.shown (tok.word p)).length) ∧ start ≤ strlen tok.str ∧
      (string tok.str).drop start = tok.shown (tok.word p) ++ more := by
  obtain ⟨behind, split_, -⟩ := word_append tok p
  have token : ((string tok.str).drop p).take (p + (tok.word p).length - p) = tok.word p := by
    rw [split_, Nat.add_sub_cancel_left, List.take_left]
  by_cases trims : tok.trim = true
  · have visible : ∀ ch ∈ tok.word p, strchr SPACE ch = isspace ch := by
      intro ch member
      refine strchr_SPACE fun null => zero_notMem_string tok.str ?_
      have member' : ch ∈ (string tok.str).drop p := (List.takeWhile_sublist _).subset member
      exact null ▸ List.mem_of_mem_drop member'
    have front : (tok.word p).dropWhile (strchr SPACE) = (tok.word p).dropWhile isspace :=
      dropWhile_congr visible
    have shown_ : ((tok.word p).dropWhile (strchr SPACE)).rdropWhile (strchr SPACE) =
        tok.shown (tok.word p) := by
      rw [shown, if_pos trims, front, List.rdropWhile, List.rdropWhile]
      refine congrArg List.reverse (dropWhile_congr fun ch member => visible ch ?_)
      exact (List.dropWhile_sublist _).subset (List.mem_reverse.mp member)
    obtain ⟨after, rest⟩ := List.rdropWhile_prefix (strchr SPACE)
      ((tok.word p).dropWhile (strchr SPACE))
    rw [shown_] at rest
    have spaces : ((tok.word p).takeWhile (strchr SPACE)).length ≤ (tok.word p).length :=
      (List.takeWhile_sublist _).length_le
    have total := congrArg List.length split_
    rw [List.length_append, List.length_drop] at total
    refine ⟨p + ((tok.word p).takeWhile (strchr SPACE)).length, after ++ behind, ?_, ?_, ?_⟩
    · rw [trimmed, token, if_pos trims, shown_]
    · unfold strlen at inside ⊢
      omega
    · rw [← List.drop_drop, split_, List.drop_append_of_le_length spaces, drop_takeWhile, ← rest,
        List.append_assoc]
  · have shown_ : tok.shown (tok.word p) = tok.word p := if_neg trims
    refine ⟨p, behind, ?_, inside, ?_⟩
    · rw [trimmed, if_neg trims, shown_]
    · rw [shown_, split_]

/-- A token is read as it is to be, unless it is empty and the byte allocated for it is no null. -/
theorem deref_place (sized : ∀ size, (mem size).length = size) (inside : p ≤ strlen tok.str) :
    ∃ token it, tok.deref mem (tok.place p) = some (token, it) ∧
      it.endp = (tok.place p).endp ∧ it.tokEnd = (tok.place p).tokEnd ∧
      (value token = some (tok.shown (tok.word p)) ↔
        tok.shown (tok.word p) ≠ [] ∨ (mem 1).headD 0 = 0) := by
  obtain ⟨start, more, trimmed_, within, text⟩ := trimmed_word inside
  have notEnd : (tok.place p).endp ≠ tok.itEnd := by
    unfold itEnd
    rcases place_cases inside with ⟨-, atEnd, -⟩ | ⟨_, _, -, -, -, next, after, -, before, -⟩
    · omega
    · omega
  have tokLen : (if start > start + (tok.shown (tok.word p)).length then 0
      else start + (tok.shown (tok.word p)).length - start) = (tok.shown (tok.word p)).length := by
    rw [if_neg (by omega), Nat.add_sub_cancel_left]
  have deref_ : tok.deref mem (tok.place p) =
      tok.fetch mem (tok.place p) (tok.trimmed p (p + (tok.word p).length)) := by
    rw [deref, if_neg notEnd]
    rfl
  have source : string (tok.str.drop start) = tok.shown (tok.word p) ++ more := by
    rw [string_drop within, text]
  rw [deref_, trimmed_, fetch]
  dsimp only
  rw [tokLen, newString]
  by_cases empty : tok.shown (tok.word p) = []
  · -- `String::set` leaves a memory of one byte as it is.
    refine ⟨mem 1, { tok.place p with start := start, token := some (mem 1) }, ?_, rfl, rfl, ?_⟩
    · rw [empty]
      rfl
    · rw [empty, ← BoundedText.single_iff (sized 1), or_iff_right (not_not_intro rfl), value]
      split
      next null => rw [Option.some.injEq, and_iff_right null]
      next noNull => simp only [reduceCtorEq, noNull, false_and]
  · have filled : 0 < (tok.shown (tok.word p)).length := List.length_pos_iff.mpr empty
    obtain ⟨token, done, null, read⟩ := @BoundedText.set_leaves
      (mem ((tok.shown (tok.word p)).length + 1)) 0 ((tok.shown (tok.word p)).length + 1) (by omega)
      (Nat.zero_le _) (by rw [sized]; omega) (tok.str.drop start)
    refine ⟨token, { tok.place p with start := start, token := some token }, ?_, rfl, rfl, ?_⟩
    · rw [done]
      rfl
    · refine iff_of_true ?_ (.inl empty)
      rw [value, if_pos null, read, source, Nat.add_sub_cancel, List.take_left]
      rfl

/-! ### The loop -/

/-- The loop from a place on reads what the rest of the text is cut into. -/
theorem walk_place (sized : ∀ size, (mem size).length = size) {p : ℕ} (inside : p ≤ strlen tok.str)
    {rounds : ℕ} (enough : strlen tok.str - p + 2 ≤ rounds) :
    ∃ visited, tok.walk mem rounds (tok.place p) = some visited ∧
      visited.map Prod.snd = tok.delimiters ((string tok.str).drop p) ∧
      List.Forall₂ (fun token shown => value token.1 = some shown ↔
          shown ≠ [] ∨ (mem 1).headD 0 = 0)
        visited (tok.tokens ((string tok.str).drop p)) := by
  induction rounds generalizing p with
  | zero => omega
  | succ rounds inductionHypothesis =>
    obtain ⟨token, it, read, endp_, tokEnd_, value_⟩ := deref_place sized inside
    have delimiter_ : tok.nextDelimiter it = tok.nextDelimiter (tok.place p) := by
      rw [nextDelimiter, tokEnd_]
      rfl
    rcases place_cases inside with ⟨rest, atEnd, nul⟩ | ⟨ch, text, rest, delimiter, next_, next,
      after, later, before, rest'⟩
    · have notEnd : (tok.place p).endp ≠ tok.itEnd := by
        unfold itEnd
        omega
      have last : tok.increment it =
          some ⟨(it.endp + 1).toNat, it.tokEnd, (it.endp + 1).toNat, none⟩ := by
        rw [increment, if_neg (endp_ ▸ notEnd), if_pos (by rw [endp_, atEnd]; rfl)]
      have done : tok.walk mem rounds
          ⟨(it.endp + 1).toNat, it.tokEnd, (it.endp + 1).toNat, none⟩ = some [] := by
        cases rounds with
        | zero => omega
        | succ rounds =>
          rw [walk, if_pos]
          show (((it.endp + 1).toNat : ℕ) : ℤ) = tok.itEnd
          rw [endp_, atEnd]
          rfl
      refine ⟨[(token, tok.nextDelimiter it)], ?_, ?_, ?_⟩
      · rw [walk, if_neg notEnd, read, Option.bind_eq_bind, Option.bind_some]
        simp only [last, done, Option.bind_some, Option.bind_eq_bind]
      · rw [rest, delimiters_word (word_plain p), delimiter_, nul]
        rfl
      · rw [rest, tokens_word (word_plain p)]
        exact .cons value_ .nil
    · obtain ⟨visited, walked, delimiters_, tokens_⟩ :=
        inductionHypothesis before (by omega)
      have notEnd : (tok.place p).endp ≠ tok.itEnd := by
        unfold itEnd
        omega
      refine ⟨(token, tok.nextDelimiter it) :: visited, ?_, ?_, ?_⟩
      · rw [walk, if_neg notEnd, read, Option.bind_eq_bind, Option.bind_some]
        simp only [increment_place (endp_ ▸ after) before, walked, Option.bind_some,
          Option.bind_eq_bind]
      · rw [rest, delimiters_cut (word_plain p) delimiter, delimiter_, next_, List.map_cons,
          delimiters_, rest']
      · rw [rest, tokens_cut (word_plain p) delimiter]
        rw [rest'] at tokens_
        exact .cons value_ tokens_

/-! ### What is read -/

theorem length_splitOnP (test : UInt8 → Bool) (text : Text) :
    (text.splitOnP test).length = text.countP test + 1 := by
  induction text with
  | nil => rfl
  | cons ch text inductionHypothesis =>
    rw [List.splitOnP_cons_eq_if_modifyHead, List.countP_cons]
    split
    next delimiter => rw [List.length_cons, inductionHypothesis]
    next => rw [List.length_modifyHead, inductionHypothesis, Nat.add_zero]

theorem plain_of_mem_splitOnP {test : UInt8 → Bool} {text token : Text}
    (member : token ∈ text.splitOnP test) : ∀ ch ∈ token, test ch = false := by
  induction text generalizing token with
  | nil =>
    rw [List.splitOnP_nil, List.mem_singleton] at member
    rw [member]
    exact fun ch none_ => by cases none_
  | cons ch text inductionHypothesis =>
    rw [List.splitOnP_cons_eq_if_modifyHead] at member
    split at member
    next =>
      rcases List.mem_cons.mp member with rfl | later
      · exact fun ch none_ => by cases none_
      · exact inductionHypothesis later
    next plain =>
      obtain ⟨first, others, parts⟩ := List.exists_cons_of_ne_nil (List.splitOnP_ne_nil test text)
      rw [parts, List.modifyHead_cons] at member
      rw [parts] at inductionHypothesis
      rcases List.mem_cons.mp member with rfl | later
      · exact List.forall_mem_cons.mpr
          ⟨eq_false_of_ne_true plain, inductionHypothesis List.mem_cons_self⟩
      · exact inductionHypothesis (List.mem_cons_of_mem _ later)

/-- Values that are each right under one condition are all right when it holds of all. -/
theorem map_value_iff {visited : List (Text × UInt8)} {tokens : List Text} {luck : Prop}
    (each : List.Forall₂ (fun token shown => value token.1 = some shown ↔ shown ≠ [] ∨ luck)
      visited tokens) :
    visited.map (fun token => value token.1) = tokens.map some ↔ [] ∉ tokens ∨ luck := by
  induction each with
  | nil => exact iff_of_true rfl (.inl List.not_mem_nil)
  | @cons token shown visited tokens first others inductionHypothesis =>
    rw [List.map_cons, List.map_cons, List.cons.injEq, first, inductionHypothesis, List.mem_cons,
      not_or, ← and_or_right, ne_comm]

/-- A loop that has ended in some rounds ends the same in more. -/
theorem walk_more {rounds more : ℕ} (le : rounds ≤ more) {it : Iterator}
    {visited : List (Text × UInt8)} (walked : tok.walk mem rounds it = some visited) :
    tok.walk mem more it = some visited := by
  induction rounds generalizing more it visited with
  | zero => cases walked
  | succ rounds inductionHypothesis =>
    obtain ⟨more, rfl⟩ := Nat.exists_eq_add_of_lt le
    rw [walk] at walked ⊢
    split at walked
    next last => rwa [if_pos last]
    next notLast =>
      rw [if_neg notLast]
      obtain ⟨⟨token, it'⟩, read, walked⟩ := Option.bind_eq_some_iff.mp walked
      obtain ⟨next, stepped, walked⟩ := Option.bind_eq_some_iff.mp walked
      obtain ⟨rest, walked, collected⟩ := Option.bind_eq_some_iff.mp walked
      have walked' := inductionHypothesis (Nat.le_add_right rounds more) walked
      simp only [read, stepped, walked', Option.bind_eq_bind, Option.bind_some]
      exact collected

/-- A loop from `begin()` to `end()` ends, reads every token as it is to be, and the delimiter
behind each. -/
def Lossless (tok : StringTokenizer) (mem : ℕ → Text) (start : ℕ) : Prop :=
  ∃ visited, (∀ rounds, strlen tok.str + 2 ≤ rounds →
      (tok.begin start).bind (tok.walk mem rounds) = some visited) ∧
    visited.map (fun token => value token.1) = (tok.tokens (string tok.str)).map some ∧
    visited.map Prod.snd = tok.delimiters (string tok.str)

/-- The loop reads the tokens when none of them is empty, or when the byte that is allocated for one
happens to be a null. It always ends and reads the delimiters; the text is cut into one more piece
than it has delimiters, none is in a piece, and together they are the text; and there is no step
from the end. -/
theorem lossless_iff (tok : StringTokenizer) {mem : ℕ → Text}
    (sized : ∀ size, (mem size).length = size) (start : ℕ) :
    (tok.Lossless mem start ↔ [] ∉ tok.tokens (string tok.str) ∨ (mem 1).headD 0 = 0) ∧
      (∃ visited, (∀ rounds, strlen tok.str + 2 ≤ rounds →
          (tok.begin start).bind (tok.walk mem rounds) = some visited) ∧
        visited.map Prod.snd = tok.delimiters (string tok.str)) ∧
      (∀ text, ((tok.source text).splitOnP tok.isDelim).length =
          (tok.source text).countP tok.isDelim + 1 ∧
        (∀ piece ∈ (tok.source text).splitOnP tok.isDelim, ∀ ch ∈ piece, tok.isDelim ch = false) ∧
        (((tok.source text).splitOnP tok.isDelim).zipWith (· ++ ·)
            (((tok.source text).filter tok.isDelim).map (fun ch => [ch]) ++ [[]])).flatten =
          tok.source text) ∧
      ∀ it : Iterator, it.endp = tok.itEnd → tok.increment it = none := by
  have begin_ : tok.begin start = some (tok.place 0) :=
    increment_place (by rfl) (Nat.zero_le _)
  have enough : strlen tok.str - 0 + 2 ≤ strlen tok.str + 2 := le_rfl
  obtain ⟨visited, walked, delimiters_, tokens_⟩ :=
    walk_place sized (Nat.zero_le (strlen tok.str)) enough
  rw [List.drop_zero] at delimiters_ tokens_
  have runs (rounds : ℕ) (more : strlen tok.str + 2 ≤ rounds) :
      (tok.begin start).bind (tok.walk mem rounds) = some visited := by
    rw [begin_, Option.bind_some]
    exact walk_more more walked
  refine ⟨?_, ⟨visited, runs, delimiters_⟩, fun text => ⟨length_splitOnP _ _, ?_, ?_⟩, ?_⟩
  · rw [← map_value_iff tokens_]
    constructor
    · rintro ⟨visited', runs', read, -⟩
      have same := (runs _ le_rfl).symm.trans (runs' _ le_rfl)
      rw [Option.some.inj same]
      exact read
    · exact fun read => ⟨visited, runs, read, delimiters_⟩
  · exact fun piece member => plain_of_mem_splitOnP member
  · exact List.splitOnP_spec _
  · intro it last
    rw [increment, if_pos last]

/-- A tokenizer of the text "a,b" that cuts it at its comma. -/
def comma (str : Text) : StringTokenizer := ⟨str, [0x2c], false, false⟩

/-- The memory that is allocated holds letters. -/
def letters (size : ℕ) : Text := List.replicate size 0x41

theorem tokens_comma :
    (comma [0x61, 0x2c, 0x62, 0]).tokens [0x61, 0x2c, 0x62] = [[0x61], [0x62]] := by
  have first := @tokens_cut [0x61] (comma [0x61, 0x2c, 0x62, 0]) (by decide +kernel) 0x2c
    (by decide) [0x62]
  have last := @tokens_word [0x62] (comma [0x61, 0x2c, 0x62, 0]) (by decide +kernel)
  exact first.trans (congrArg (List.cons [0x61]) last)

theorem lossless_iff_comma : (comma [0x61, 0x2c, 0x62, 0]).Lossless letters 0 := by
  have filled : [] ∉ (comma [0x61, 0x2c, 0x62, 0]).tokens [0x61, 0x2c, 0x62] := by
    rw [tokens_comma]
    decide
  exact (lossless_iff (comma [0x61, 0x2c, 0x62, 0])
    (fun _ => List.length_replicate) 0).1.mpr (.inl filled)

/-- The empty token between the commas of "a,,b" is not read. -/
theorem empty_token_lost : ¬ (comma [0x61, 0x2c, 0x2c, 0x62, 0]).Lossless letters 0 := by
  rintro ⟨visited, runs, read, -⟩
  have computed : (((comma [0x61, 0x2c, 0x2c, 0x62, 0]).begin 0).bind
      ((comma [0x61, 0x2c, 0x2c, 0x62, 0]).walk letters 6)).map
        (fun visited => visited.map fun token => value token.1) =
      some [some [0x61], none, some [0x62]] := by decide +kernel
  rw [runs 6 (by decide), Option.map_some, read] at computed
  have lost : none ∈ ((comma [0x61, 0x2c, 0x2c, 0x62, 0]).tokens
      (string (comma [0x61, 0x2c, 0x2c, 0x62, 0]).str)).map some := by
    rw [Option.some.inj computed]
    exact List.mem_cons_of_mem _ List.mem_cons_self
  obtain ⟨token, -, same⟩ := List.mem_map.mp lost
  cases same

end StringTokenizer

end CommonCpp
