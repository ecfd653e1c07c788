/-
This file models the loop of `keyfile::load` over the bytes of its line buffer, and
finds when it ends.

What `fgets` reads is put into the buffer at `lp`, with `size` bytes to go, and is
chopped there. When a backslash comes last, `lp` is moved onto it, so that the buffer
shrinks by what is kept, but never below two bytes. Every byte that is written lies in
the buffer, whatever is read.

The loop is left when the buffer is empty and the stream is at the end of its file. A
stream that ends with an error, as that of a directory does, never is: the error is
noted, the buffer is found empty, and `fgets` is called again.

A write beyond the buffer, and a string that does not end in it, have no outcome. When
`fgets` fails it may leave in the buffer what it has read by then.
-/

import CommonCpp.KeyfileJoined

namespace CommonCpp

open Ctype

namespace Keyfile

/-! ### The code -/

/-- How a stream ends: at the end of its file, or with an error that lasts. -/
inductive Ending
  | eof
  | error
  deriving DecidableEq

/-- The line buffer, the offset of `lp` in it, `size`, and what is left of the file. -/
structure Loop where
  linebuf : Text
  lp : Nat
  size : Nat
  file : Text

/-- A byte is written. -/
def poke (linebuf : Text) (place : Nat) (char : UInt8) : Option Text :=
  if place < linebuf.length then some (linebuf.set place char) else none

/-- Bytes are written. -/
def write (linebuf : Text) (place : Nat) (text : Text) : Option Text :=
  if place + text.length ≤ linebuf.length then
    some (linebuf.take place ++ text ++ linebuf.drop (place + text.length))
  else none

/-- The string that starts at a place, when it ends in the buffer. -/
def stringAt (linebuf : Text) (place : Nat) : Option Text :=
  if 0 ∈ linebuf.drop place then
    some ((linebuf.drop place).takeWhile fun char => char ≠ 0)
  else none

/-- The loop of `String::chop`, from an offset down. -/
def chopFrom (clist : Text) (place : Nat) : Nat → Text → Option Text
  | 0, linebuf => some linebuf
  | offset + 1, linebuf =>
    match linebuf[place + offset]? with
    | none => none
    | some char =>
      if char ∈ clist then (poke linebuf (place + offset) 0).bind (chopFrom clist place offset)
      else some linebuf

/-- `String::chop`. -/
def chopAt (clist : Text) (place : Nat) (linebuf : Text) : Option Text :=
  (stringAt linebuf place).bind fun str => chopFrom clist place str.length linebuf

/-- `String::strip`, with the place of its result. -/
def stripAt (clist : Text) (place : Nat) (linebuf : Text) : Option (Nat × Text) :=
  (stringAt linebuf place).bind fun str =>
    let place := place + (str.takeWhile fun char => char ∈ clist).length
    (chopAt clist place linebuf).map fun linebuf => (place, linebuf)

/-- The loop of `String::unquote` over the pairs. -/
def unquoteAt (place : Nat) (linebuf : Text) : Text → Option Text
  | first :: last :: clist =>
    (stringAt linebuf place).bind fun str =>
      if str.head? = some first ∧ str.getLast? = some last then
        poke linebuf (place + str.length - 1) 0
      else unquoteAt place linebuf clist
  | _ => some linebuf

/-- What the part of `load` that reads a line writes to the buffer. -/
def separate (linebuf : Text) : Option Text :=
  (stringAt linebuf 0).bind fun str =>
    let lp := (str.takeWhile isspace).length
    match str.dropWhile isspace with
    | [] => some linebuf
    | first :: rest =>
      if first = 0x5b then
        if 0x5d ∈ rest then
          (poke linebuf (lp + (first :: rest).idxOf 0x5d) 0).bind fun linebuf =>
            (stripAt nameBlanks (lp + 1) linebuf).map Prod.snd
        else some linebuf
      else if isalnum first ∧ 0x3d ∈ first :: rest then
        let ep := lp + (first :: rest).idxOf 0x3d
        (poke linebuf ep 0).bind fun linebuf =>
          (stripAt nameBlanks lp linebuf).bind fun (_, linebuf) =>
            (stripAt valueBlanks (ep + 1) linebuf).bind fun (value, linebuf) =>
              unquoteAt value linebuf quotes
      else some linebuf

/-- The part of a turn that reads: the buffer, what is left of the file, and whether its end has
been seen. -/
def fill (ending : Ending) (loop : Loop) : Option (Text × Text × Bool) :=
  (poke loop.linebuf loop.lp 0).bind fun linebuf =>
    let (read, left, stopped) := fgets (loop.size - 1) loop.file
    let linebuf :=
      if stopped ∧ (read = [] ∨ ending = .error) then
        (write linebuf loop.lp read).bind fun linebuf => poke linebuf loop.lp 0
      else (write linebuf loop.lp (read ++ [0])).bind (chopAt lineBlanks loop.lp)
    linebuf.map fun linebuf => (linebuf, left, stopped && ending = .eof)

/-- A turn of the loop: where the next one starts, if the loop is not left. -/
def turn (ending : Ending) (loop : Loop) : Option (Option Loop) :=
  (fill ending loop).bind fun (linebuf, left, feof) =>
    (stringAt linebuf loop.lp).bind fun str =>
      if str.getLast? = some 0x5c then
        let ep := loop.lp + str.length - 1
        some (some ⟨linebuf, ep, 1024 - ep, left⟩)
      else if linebuf.head? = some 0 ∧ feof then some none
      else (separate linebuf).map fun linebuf => some ⟨linebuf, 0, 1024, left⟩

/-- Some turns, or as many as there are until the loop is left. -/
def turns (ending : Ending) : Nat → Loop → Option (Option Loop)
  | 0, loop => some (some loop)
  | count + 1, loop =>
    (turn ending loop).bind fun next => next.elim (some none) (turns ending count)

/-- The loop before its first turn, with what happens to be in the buffer. -/
def opened (linebuf : Vector UInt8 1024) (file : Text) : Loop :=
  ⟨linebuf.toList, 0, 1024, file⟩

/-- The loop is left after finitely many turns, and no turn writes outside of the buffer. -/
def Loads (ending : Ending) (linebuf : Vector UInt8 1024) (file : Text) : Prop :=
  (∃ count, turns ending count (opened linebuf file) = some none) ∧
    ∀ count, turns ending count (opened linebuf file) ≠ none

/-! ### Bytes -/

section Bytes

variable {linebuf first str rest text clist : Text} {place offset : Nat}

theorem poke_append (first : Text) (old new : UInt8) (rest : Text) :
    poke (first ++ old :: rest) first.length new = some (first ++ new :: rest) := by
  have inside : first.length < (first ++ old :: rest).length := by simp
  rw [poke, if_pos inside]
  simp

theorem write_append (first middle rest : Text) (fits : text.length = middle.length) :
    write (first ++ (middle ++ rest)) first.length text = some (first ++ (text ++ rest)) := by
  have inside : first.length + text.length ≤ (first ++ (middle ++ rest)).length := by
    simp only [List.length_append]
    omega
  have drops : (first ++ (middle ++ rest)).drop (first.length + middle.length) = rest := by
    rw [← List.append_assoc]
    exact List.drop_left' List.length_append
  rw [write, if_pos inside, fits, List.take_left' rfl, drops, List.append_assoc]

theorem stringAt_append (first : Text) (plain : 0 ∉ str) (rest : Text) :
    stringAt (first ++ (str ++ 0 :: rest)) first.length = some str := by
  have drops : (first ++ (str ++ 0 :: rest)).drop first.length = str ++ 0 :: rest :=
    List.drop_left' rfl
  have ends : 0 ∈ str ++ 0 :: rest := List.mem_append_right _ List.mem_cons_self
  rw [stringAt, drops, if_pos ends, List.takeWhile_append_of_pos, List.takeWhile_cons_of_neg,
    List.append_nil]
  · simp
  · intro char member
    exact decide_eq_true (ne_of_mem_of_not_mem member plain)

/-- Chopping puts nulls in the place of what it drops. -/
theorem chopFrom_append (clist first str rest : Text) :
    ∃ rest', chopFrom clist first.length str.length (first ++ (str ++ 0 :: rest)) =
        some (first ++ (chop str clist ++ 0 :: rest')) ∧
      (chop str clist).length + rest'.length = str.length + rest.length := by
  induction str using List.reverseRecOn generalizing rest with
  | nil => exact ⟨rest, rfl, rfl⟩
  | append_singleton str last inductionHypothesis =>
    have there : (first ++ (str ++ [last] ++ 0 :: rest))[first.length + str.length]? =
        some last := by simp
    rw [List.length_append, List.length_singleton, chopFrom, there]
    dsimp only
    by_cases dropped : last ∈ clist
    · rw [if_pos dropped, chop_append_of_mem dropped]
      have poked : poke (first ++ (str ++ [last] ++ 0 :: rest)) (first.length + str.length) 0 =
          some (first ++ (str ++ 0 :: 0 :: rest)) := by
        have poked := poke_append (first ++ str) last 0 (0 :: rest)
        simpa using poked
      obtain ⟨rest', chopped, length⟩ := inductionHypothesis (0 :: rest)
      rw [List.length_cons] at length
      exact ⟨rest', by rw [poked]; exact chopped, by omega⟩
    · rw [if_neg dropped, chop_append_of_not_mem dropped]
      exact ⟨rest, rfl, by rw [List.length_append, List.length_singleton]⟩

theorem not_mem_chop (plain : 0 ∉ str) (clist : Text) : 0 ∉ chop str clist := by
  obtain ⟨last, whole, _⟩ := exists_chop_append str clist
  intro member
  exact plain (whole ▸ List.mem_append_left last member)

theorem chopAt_append (clist first : Text) (plain : 0 ∉ str) (rest : Text) :
    ∃ rest', chopAt clist first.length (first ++ (str ++ 0 :: rest)) =
        some (first ++ (chop str clist ++ 0 :: rest')) ∧
      (chop str clist).length + rest'.length = str.length + rest.length := by
  rw [chopAt, stringAt_append first plain]
  exact chopFrom_append clist first str rest

end Bytes

/-! ### Strings that end in the buffer -/

section Ended

variable {linebuf clist : Text} {place : Nat}

/-- A null is at a place or behind it. -/
def Ended (linebuf : Text) (place : Nat) : Prop :=
  ∃ null, place ≤ null ∧ linebuf[null]? = some 0

/-- A buffer that has been changed is as long as before, and strings that ended in it still do. -/
def Shrinks (linebuf after : Text) : Prop :=
  after.length = linebuf.length ∧ ∀ place, Ended linebuf place → Ended after place

theorem Shrinks.refl (linebuf : Text) : Shrinks linebuf linebuf :=
  ⟨rfl, fun _ ended => ended⟩

theorem Shrinks.trans {after last : Text} (first : Shrinks linebuf after)
    (second : Shrinks after last) : Shrinks linebuf last :=
  ⟨second.1.trans first.1, fun place ended => second.2 place (first.2 place ended)⟩

theorem Ended.of_le {before : Nat} (ended : Ended linebuf place) (ordered : before ≤ place) :
    Ended linebuf before := by
  obtain ⟨null, behind, zero⟩ := ended
  exact ⟨null, Nat.le_trans ordered behind, zero⟩

theorem Ended.lt (ended : Ended linebuf place) : place < linebuf.length := by
  obtain ⟨null, behind, zero⟩ := ended
  exact Nat.lt_of_le_of_lt behind (List.getElem?_eq_some_iff.mp zero).1

/-- A null more leaves every string in the buffer. -/
theorem poke_zero (inside : place < linebuf.length) :
    ∃ after, poke linebuf place 0 = some after ∧ Shrinks linebuf after := by
  refine ⟨linebuf.set place 0, if_pos inside, List.length_set, ?_⟩
  rintro other ⟨null, behind, zero⟩
  refine ⟨null, behind, ?_⟩
  rw [List.getElem?_set]
  split
  · rfl
  · exact zero

/-- A string that ends in the buffer is found, and there is a null behind it. -/
theorem Ended.stringAt (ended : Ended linebuf place) :
    ∃ str, stringAt linebuf place = some str ∧ Ended linebuf (place + str.length) := by
  have inside := ended.lt
  obtain ⟨null, behind, zero⟩ := ended
  obtain ⟨offset, rfl⟩ := Nat.exists_eq_add_of_le behind
  have dropped : (linebuf.drop place)[offset]? = some 0 := by rw [List.getElem?_drop, zero]
  obtain ⟨str, rest, parts, plain⟩ :=
    List.eq_append_cons_of_mem (List.mem_of_getElem? dropped)
  have start : (linebuf.take place).length = place := by
    rw [List.length_take]
    exact Nat.min_eq_left (Nat.le_of_lt inside)
  have whole : linebuf = linebuf.take place ++ (str ++ 0 :: rest) := by
    rw [← parts, List.take_append_drop]
  have found := stringAt_append (linebuf.take place) plain rest
  rw [← whole, start] at found
  refine ⟨str, found, place + str.length, Nat.le_refl _, ?_⟩
  rw [← List.getElem?_drop, parts]
  simp

/-- The loop of `chop` writes nulls. -/
theorem chopFrom_shrinks {offset : Nat} (inside : place + offset ≤ linebuf.length) :
    ∃ after, chopFrom clist place offset linebuf = some after ∧ Shrinks linebuf after := by
  induction offset generalizing linebuf with
  | zero => exact ⟨linebuf, rfl, .refl linebuf⟩
  | succ offset inductionHypothesis =>
    have there : place + offset < linebuf.length := inside
    rw [chopFrom, List.getElem?_eq_getElem there]
    dsimp only
    split
    · obtain ⟨after, poked, shrinks⟩ := poke_zero there
      obtain ⟨last, chopped, shrinks'⟩ := @inductionHypothesis after (by
        rw [shrinks.1]
        exact Nat.le_of_lt there)
      exact ⟨last, by rw [poked]; exact chopped, shrinks.trans shrinks'⟩
    · exact ⟨linebuf, rfl, .refl linebuf⟩

theorem Ended.chopAt (ended : Ended linebuf place) (clist : Text) :
    ∃ after, chopAt clist place linebuf = some after ∧ Shrinks linebuf after := by
  obtain ⟨str, found, behind⟩ := ended.stringAt
  rw [Keyfile.chopAt, found]
  exact chopFrom_shrinks (Nat.le_of_lt behind.lt)

theorem Ended.stripAt (ended : Ended linebuf place) (clist : Text) :
    ∃ start after, stripAt clist place linebuf = some (start, after) ∧ Ended after start ∧
      Shrinks linebuf after := by
  obtain ⟨str, found, behind⟩ := ended.stringAt
  have inside : Ended linebuf (place + (str.takeWhile fun char => char ∈ clist).length) :=
    behind.of_le (Nat.add_le_add_left (List.takeWhile_prefix _).length_le _)
  obtain ⟨after, chopped, shrinks⟩ := inside.chopAt clist
  refine ⟨_, after, ?_, shrinks.2 _ inside, shrinks⟩
  rw [Keyfile.stripAt, found, Option.bind_some]
  show Option.map _ _ = _
  rw [chopped]
  rfl

theorem Ended.unquoteAt (ended : Ended linebuf place) :
    ∀ clist, ∃ after, unquoteAt place linebuf clist = some after ∧ Shrinks linebuf after
  | [] => ⟨linebuf, rfl, .refl linebuf⟩
  | [_] => ⟨linebuf, rfl, .refl linebuf⟩
  | first :: last :: clist => by
    obtain ⟨str, found, behind⟩ := ended.stringAt
    rw [Keyfile.unquoteAt, found, Option.bind_some]
    split
    · exact poke_zero (Nat.lt_of_le_of_lt (Nat.sub_le _ _) behind.lt)
    · exact Ended.unquoteAt ended clist

/-- What reads a line writes to the string in the buffer. -/
theorem Ended.separate (ended : Ended linebuf 0) :
    ∃ after, separate linebuf = some after ∧ Shrinks linebuf after := by
  obtain ⟨str, found, behind⟩ := ended.stringAt
  rw [Nat.zero_add] at behind
  have parts : (str.takeWhile isspace).length + (str.dropWhile isspace).length = str.length := by
    rw [← List.length_append, List.takeWhile_append_dropWhile]
  rw [Keyfile.separate, found, Option.bind_some]
  dsimp only
  generalize (str.takeWhile isspace).length = lp at parts ⊢
  generalize str.dropWhile isspace = text at parts ⊢
  cases text with
  | nil => exact ⟨linebuf, rfl, .refl linebuf⟩
  | cons first rest =>
    -- a byte of the string has more of it, or its end, behind it
    have onward : ∀ {char : UInt8}, char ∈ first :: rest →
        Ended linebuf (lp + (first :: rest).idxOf char + 1) := by
      intro char member
      have index := List.idxOf_lt_length_of_mem member
      exact behind.of_le (by omega)
    dsimp only
    split
    · split
      next closed =>
        have name := onward (List.mem_cons_of_mem first closed)
        obtain ⟨after, poked, shrinks⟩ := poke_zero (name.of_le (Nat.le_succ _)).lt
        have start : Ended after (lp + 1) := shrinks.2 _ (name.of_le (by omega))
        obtain ⟨_, last, stripped, _, strips⟩ := start.stripAt nameBlanks
        exact ⟨last, by rw [poked, Option.bind_some, stripped]; rfl, shrinks.trans strips⟩
      next => exact ⟨linebuf, rfl, .refl linebuf⟩
    · split
      next key =>
        have value := onward key.2
        obtain ⟨after, poked, shrinks⟩ := poke_zero (value.of_le (Nat.le_succ _)).lt
        have start : Ended after lp := shrinks.2 _ (value.of_le (by omega))
        obtain ⟨_, named, stripped, _, names⟩ := start.stripAt nameBlanks
        have text := names.2 _ (shrinks.2 _ value)
        obtain ⟨place, valued, stripped', quoted, values⟩ := text.stripAt valueBlanks
        obtain ⟨last, taken, unquotes⟩ := quoted.unquoteAt quotes
        refine ⟨last, ?_, ((shrinks.trans names).trans values).trans unquotes⟩
        rw [poked, Option.bind_some, stripped, Option.bind_some, stripped', Option.bind_some]
        exact taken
      next => exact ⟨linebuf, rfl, .refl linebuf⟩

end Ended

/-! ### Turns -/

section Turns

variable {loop : Loop} {kept : Text} {ending : Ending}

theorem length_fgets_read_le (size : Nat) (file : Text) : (fgets size file).1.length ≤ size := by
  induction size generalizing file with
  | zero => exact Nat.le_refl _
  | succ size inductionHypothesis =>
    cases file with
    | nil => exact Nat.zero_le _
    | cons char file =>
      rw [fgets]
      split
      · exact Nat.succ_le_succ (Nat.zero_le _)
      · exact Nat.succ_le_succ (inductionHypothesis file)

/-- Bytes are written over as many as they are. -/
theorem write_over (first rest text : Text) (fits : text.length ≤ rest.length) :
    ∃ tail, write (first ++ rest) first.length text = some (first ++ (text ++ tail)) ∧
      text.length + tail.length = rest.length := by
  have covered : text.length = (rest.take text.length).length := by
    rw [List.length_take, Nat.min_eq_left fits]
  have written := write_append first (rest.take text.length) (rest.drop text.length) covered
  rw [List.take_append_drop] at written
  refine ⟨rest.drop text.length, written, ?_⟩
  rw [List.length_drop]
  omega

/-- The string that starts with what is read ends at its first null, or behind it. -/
theorem exists_null (read tail : Text) :
    ∃ rest, read ++ 0 :: tail = (read.takeWhile fun char => char ≠ 0) ++ 0 :: rest := by
  induction read with
  | nil => exact ⟨tail, rfl⟩
  | cons char read inductionHypothesis =>
    by_cases null : char = 0
    · subst null
      exact ⟨read ++ 0 :: tail, by rw [List.takeWhile_cons_of_neg (by simp)]; rfl⟩
    · obtain ⟨rest, same⟩ := inductionHypothesis
      refine ⟨rest, ?_⟩
      have taken : (char :: read).takeWhile (fun char => char ≠ 0) =
          char :: read.takeWhile fun char => char ≠ 0 :=
        List.takeWhile_cons_of_pos (decide_eq_true null)
      rw [taken, List.cons_append, List.cons_append, same]

/-- At the start of a turn the buffer starts with what has been kept, up to `lp`, and `size` goes
to its end. -/
structure Ready (loop : Loop) (kept : Text) : Prop where
  starts : ∃ rest, loop.linebuf = kept ++ rest
  plain : 0 ∉ kept
  lp : loop.lp = kept.length
  size : loop.lp + loop.size = 1024
  room : kept.length ≤ 1022
  total : loop.linebuf.length = 1024

theorem ready_opened (linebuf : Vector UInt8 1024) (file : Text) :
    Ready (opened linebuf file) [] :=
  ⟨⟨_, rfl⟩, List.not_mem_nil, rfl, rfl, Nat.zero_le _, linebuf.length_toList⟩

/-- What a turn reads ends in the buffer. Of a file that ends it is the chunk that follows. -/
theorem Ready.fill (ready : Ready loop kept) (ending : Ending) :
    ∃ str rest, fill ending loop = some (kept ++ (str ++ 0 :: rest), (readChunk kept loop.file).2.1,
        (readChunk kept loop.file).2.2 && ending = .eof) ∧
      0 ∉ str ∧ (kept ++ (str ++ 0 :: rest)).length = 1024 ∧
      (ending = .eof → str = (readChunk kept loop.file).1) := by
  obtain ⟨rest, starts⟩ := ready.starts
  have total := ready.total
  have size := ready.size
  have room := ready.room
  rw [starts, List.length_append] at total
  rw [ready.lp] at size
  have sized : loop.size - 1 = 1023 - kept.length := by omega
  obtain ⟨read, left, stopped, got⟩ :
      ∃ read left stopped, fgets (1023 - kept.length) loop.file = (read, left, stopped) :=
    ⟨_, _, _, rfl⟩
  have short := length_fgets_read_le (1023 - kept.length) loop.file
  rw [got] at short
  dsimp only at short
  obtain ⟨old, rest, rfl⟩ : ∃ old rest', rest = old :: rest' :=
    List.exists_cons_of_length_pos (by omega)
  rw [List.length_cons] at total
  rw [Keyfile.fill, starts, ready.lp, poke_append, Option.bind_some, sized, readChunk, got]
  dsimp only
  by_cases fails : stopped ∧ (read = [] ∨ ending = .error)
  · rw [if_pos fails]
    obtain ⟨tail, written, length⟩ :=
      write_over kept (0 :: rest) read (by rw [List.length_cons]; omega)
    rw [List.length_cons] at length
    obtain ⟨first, rest', parts⟩ : ∃ first rest', read ++ tail = first :: rest' :=
      List.exists_cons_of_length_pos (by rw [List.length_append]; omega)
    have length' := congrArg List.length parts
    rw [List.length_append, List.length_cons] at length'
    refine ⟨[], rest', ?_, List.not_mem_nil, ?_, ?_⟩
    · rw [written, Option.bind_some, parts, poke_append]
      rfl
    · rw [List.nil_append, List.length_append, List.length_cons]
      omega
    · rintro rfl
      have nothing : read = [] := fails.2.resolve_right fun same => by cases same
      rw [nothing]
      rfl
  · rw [if_neg fails]
    obtain ⟨tail, written, length⟩ :=
      write_over kept (0 :: rest) (read ++ [0]) (by
        rw [List.length_append, List.length_singleton, List.length_cons]
        omega)
    rw [List.length_append, List.length_singleton, List.length_cons] at length
    obtain ⟨rest', parts⟩ := exists_null read tail
    have plain : 0 ∉ read.takeWhile fun char => char ≠ 0 := fun member => by
      simpa using List.mem_takeWhile_imp member
    obtain ⟨rest'', chopped, length'⟩ := chopAt_append lineBlanks kept plain rest'
    have length'' := congrArg List.length parts
    rw [List.length_append, List.length_append, List.length_cons, List.length_cons] at length''
    refine ⟨_, rest'', ?_, not_mem_chop plain lineBlanks, ?_, fun _ => rfl⟩
    · rw [written, Option.bind_some, List.append_assoc, List.singleton_append, parts, chopped]
      rfl
    · rw [List.length_append, List.length_append, List.length_cons]
      omega

/-- Without a null in it, the buffer is empty when nothing has been kept or read. -/
theorem head_eq_null_iff {str : Text} (plain : 0 ∉ kept) (plain' : 0 ∉ str) (rest : Text) :
    (kept ++ (str ++ 0 :: rest)).head? = some 0 ↔ kept ++ str = [] := by
  cases kept with
  | nil =>
    cases str with
    | nil => simp
    | cons char str =>
      have other : char ≠ 0 := fun null => plain' (null ▸ List.mem_cons_self)
      simp [other]
  | cons char kept =>
    have other : char ≠ 0 := fun null => plain (null ▸ List.mem_cons_self)
    simp [other]

/-- A turn keeps what comes before a backslash, or leaves the loop, or reads a line. -/
theorem Ready.after_turn (ready : Ready loop kept) (ending : Ending) :
    ∃ str, (ending = .eof → str = (readChunk kept loop.file).1) ∧
      if str.getLast? = some 0x5c then
        ∃ next, turn ending loop = some (some next) ∧ Ready next (kept ++ str.dropLast) ∧
          next.file = (readChunk kept loop.file).2.1
      else if kept ++ str = [] ∧ (readChunk kept loop.file).2.2 ∧ ending = .eof then
        turn ending loop = some none
      else
        ∃ next, turn ending loop = some (some next) ∧ Ready next [] ∧
          next.file = (readChunk kept loop.file).2.1 := by
  obtain ⟨str, rest, filled, plain, total, chunk⟩ := ready.fill ending
  have found := stringAt_append kept plain rest
  have feof : ((readChunk kept loop.file).2.2 && decide (ending = .eof)) = true ↔
      (readChunk kept loop.file).2.2 ∧ ending = .eof := by simp
  refine ⟨str, chunk, ?_⟩
  rw [Keyfile.turn, filled, Option.bind_some]
  dsimp only
  rw [ready.lp, found, Option.bind_some]
  simp only [head_eq_null_iff ready.plain plain rest, feof]
  rw [List.length_append, List.length_append, List.length_cons] at total
  split
  next backslash =>
    obtain ⟨first, rfl⟩ : ∃ first, str = first ++ [0x5c] :=
      List.getLast?_eq_some_iff.mp backslash
    rw [List.length_append, List.length_singleton] at total
    rw [List.dropLast_concat]
    refine ⟨_, rfl, ⟨⟨0x5c :: 0 :: rest, by simp⟩, ?_, ?_, ?_, ?_, ?_⟩, rfl⟩
    · exact fun member => (List.mem_append.mp member).elim ready.plain
        fun there => plain (List.mem_append_left _ there)
    · show kept.length + (first ++ [0x5c]).length - 1 = (kept ++ first).length
      rw [List.length_append, List.length_append, List.length_singleton]
      rfl
    · show kept.length + (first ++ [0x5c]).length - 1 +
        (1024 - (kept.length + (first ++ [0x5c]).length - 1)) = 1024
      rw [List.length_append, List.length_singleton]
      omega
    · rw [List.length_append]
      omega
    · show (kept ++ (first ++ [0x5c] ++ 0 :: rest)).length = 1024
      simp only [List.length_append, List.length_cons]
      omega
  next =>
    split
    next => rfl
    next =>
      have ended : Ended (kept ++ (str ++ 0 :: rest)) 0 :=
        ⟨kept.length + str.length, Nat.zero_le _, by simp⟩
      obtain ⟨after, separated, shrinks⟩ := ended.separate
      rw [separated]
      refine ⟨_, rfl, ⟨⟨after, rfl⟩, List.not_mem_nil, rfl, rfl, Nat.zero_le _, ?_⟩, rfl⟩
      show after.length = 1024
      rw [shrinks.1]
      simp only [List.length_append, List.length_cons]
      omega

/-- A turn goes on from a buffer that is ready, or leaves the loop, which is at an end of the
file. -/
theorem Ready.goes_on (ready : Ready loop kept) (ending : Ending) :
    (turn ending loop = some none ∧ ending = .eof) ∨
      ∃ next kept', turn ending loop = some (some next) ∧ Ready next kept' := by
  obtain ⟨str, _, turned⟩ := ready.after_turn ending
  split at turned
  · obtain ⟨next, turned, ready', _⟩ := turned
    exact Or.inr ⟨next, _, turned, ready'⟩
  · split at turned
    next left => exact Or.inl ⟨turned, left.2.2⟩
    next =>
      obtain ⟨next, turned, ready', _⟩ := turned
      exact Or.inr ⟨next, _, turned, ready'⟩

/-- No turn writes outside of the buffer. -/
theorem Ready.turns_ne_none (ready : Ready loop kept) (ending : Ending) (count : Nat) :
    turns ending count loop ≠ none := by
  induction count generalizing loop kept with
  | zero => exact Option.some_ne_none _
  | succ count inductionHypothesis =>
    rw [turns]
    rcases ready.goes_on ending with ⟨turned, _⟩ | ⟨next, kept', turned, ready'⟩
    · rw [turned]
      exact Option.some_ne_none _
    · rw [turned]
      exact inductionHypothesis ready'

/-- While the stream reports an error, no turn leaves the loop. -/
theorem Ready.turns_error (ready : Ready loop kept) (count : Nat) :
    turns .error count loop ≠ some none := by
  induction count generalizing loop kept with
  | zero => exact fun same => by cases same
  | succ count inductionHypothesis =>
    rw [turns]
    rcases ready.goes_on .error with ⟨_, eof⟩ | ⟨next, kept', turned, ready'⟩
    · cases eof
    · rw [turned]
      exact inductionHypothesis ready'

/-- The turns over a file that ends are those in which its lines are read. -/
theorem Ready.turns_eof (ready : Ready loop kept) {fuel : Nat} {lines : List Text}
    (lines_ : readLines fuel kept loop.file = some lines) :
    turns .eof fuel loop = some none := by
  induction fuel generalizing loop kept lines with
  | zero => cases lines_
  | succ fuel inductionHypothesis =>
    obtain ⟨str, chunk, turned⟩ := ready.after_turn .eof
    obtain rfl := chunk rfl
    rw [readLines] at lines_
    rw [turns]
    dsimp only at lines_
    split at turned
    next backslash =>
      obtain ⟨next, turned, ready', file⟩ := turned
      rw [if_pos backslash, ← file] at lines_
      rw [turned]
      exact inductionHypothesis ready' lines_
    next line =>
      rw [if_neg line] at lines_
      split at turned
      next left => rw [turned]; rfl
      next stays =>
        obtain ⟨next, turned, ready', file⟩ := turned
        rw [if_neg fun left => stays ⟨left.1, left.2, rfl⟩, ← file] at lines_
        obtain ⟨lines', lines_, _⟩ := Option.map_eq_some_iff.mp lines_
        rw [turned]
        exact inductionHypothesis ready' lines_

end Turns

/-- Of every file, and whatever the buffer holds at first, the loop is left after finitely many
turns, and no turn writes outside of the buffer, exactly when the stream ends at the end of the
file and not with an error that lasts. -/
theorem load_loads_iff (ending : Ending) (linebuf : Vector UInt8 1024) (file : Text) :
    Loads ending linebuf file ↔ ending = .eof := by
  have ready := ready_opened linebuf file
  constructor
  · rintro ⟨⟨count, left⟩, _⟩
    cases ending with
    | eof => rfl
    | error => exact absurd left (ready.turns_error count)
  · rintro rfl
    have enough : 2 * file.length + weight [] < 2 * file.length + 1 := Nat.lt_succ_self _
    obtain ⟨lines, read⟩ := Option.isSome_iff_exists.mp (readLines_total enough)
    exact ⟨⟨_, ready.turns_eof read⟩, ready.turns_ne_none .eof⟩

/-- A stream that reports an error from the start, as that of a directory, is read forever. -/
theorem load_reads_forever : ¬ Loads .error (Vector.replicate 1024 0) [] := fun loads =>
  absurd ((load_loads_iff .error _ _).mp loads) (by decide)

end Keyfile

end CommonCpp
