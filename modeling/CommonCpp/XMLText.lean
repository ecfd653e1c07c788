/-
This file shows when a parser delivers the text of an element as it was before it was escaped.

A character is written as it is, by its name, or by its number. Each way is read back on its own: a
character goes into the buffer, and a reference empties the buffer, is read into it, and makes a
call for the one character that it stands for. Where the buffer is full, and where the document is
cut into pieces, makes no difference to the text. One name stands for a character that is not the
one it names.
-/

import CommonCpp.XMLContent

namespace CommonCpp

open Bytes Ctype Scanner

namespace XMLParser

/-! ### Spellings -/

/-- The names of the characters that are escaped. -/
inductive Name
  | amp
  | lt
  | gt
  | apos
  | quot
  deriving DecidableEq

/-- The character that is escaped. -/
def Name.char : Name → UInt8
  | .amp => 0x26
  | .lt => 0x3c
  | .gt => 0x3e
  | .apos => 0x27
  | .quot => 0x22

/-- Its name. -/
def Name.text : Name → Text
  | .amp => [0x61, 0x6d, 0x70]
  | .lt => [0x6c, 0x74]
  | .gt => [0x67, 0x74]
  | .apos => [0x61, 0x70, 0x6f, 0x73]
  | .quot => [0x71, 0x75, 0x6f, 0x74]

/-- How a character of a text is written: as it is, by its name, or by its number, which may have
zeros in front of it. -/
inductive Spelling
  | plain (c : UInt8) (ascii : c < 0x80) (unescaped : ∀ name : Name, c ≠ name.char)
  | named (name : Name)
  | number (c : UInt8) (code : 1 ≤ c ∧ c < 0x80) (width : ℕ) (fits : c.toNat < 10 ^ (width + 1))
      (short : width ≤ 2)

/-- The character. -/
def Spelling.char : Spelling → UInt8
  | .plain c _ _ => c
  | .named name => name.char
  | .number c _ _ _ _ => c

/-- What is written for it. -/
def Spelling.text : Spelling → Text
  | .plain c _ _ => [c]
  | .named name => 0x26 :: name.text ++ [0x3b]
  | .number c _ width _ _ => 0x26 :: (0x23 :: decimal (width + 1) c.toNat) ++ [0x3b]

/-- What is written for a text. -/
def spelled (spellings : List Spelling) : Text := spellings.flatMap Spelling.text

/-- What it is read as. -/
def Spelling.read : Spelling → UInt8
  | .named .apos => 0x60
  | spelling => spelling.char

/-! ### References -/

/-- A name, or a number, that may stand in a reference. -/
structure Refers (name : Text) (cp : UInt8) : Prop where
  first : ∃ first rest, name = first :: rest ∧ (first = 0x23 ∨ isElement first) ∧
    ∀ c ∈ rest, isElement c
  short : name.length ≤ 14
  known : ∀ rest, character (name ++ 0 :: rest) = some (some cp)

theorem refers_named (name : Name) : Refers name.text (Spelling.named name).read := by
  cases name
  case amp => exact ⟨⟨_, _, rfl, by decide, by decide +kernel⟩, by decide, fun _ => rfl⟩
  case lt => exact ⟨⟨_, _, rfl, by decide, by decide +kernel⟩, by decide, fun _ => rfl⟩
  case gt => exact ⟨⟨_, _, rfl, by decide, by decide +kernel⟩, by decide, fun _ => rfl⟩
  case apos => exact ⟨⟨_, _, rfl, by decide, by decide +kernel⟩, by decide, fun _ => rfl⟩
  case quot => exact ⟨⟨_, _, rfl, by decide, by decide +kernel⟩, by decide, fun _ => rfl⟩

theorem isElement_of_isdigit {c : UInt8} (digit : isdigit c) : isElement c := by
  simp [isElement, isalnum, digit]

theorem ofInt_toNat (c : UInt8) : UInt8.ofInt (c.toNat : ℤ) = c := by
  have small : (c.toNat : ℤ) < 2 ^ 8 := by exact_mod_cast c.toNat_lt
  show UInt8.ofNat ((c.toNat : ℤ) % 2 ^ 8).toNat = c
  rw [Int.emod_eq_of_lt (Int.natCast_nonneg _) small, Int.toNat_natCast, UInt8.ofNat_toNat]

theorem refers_number (c : UInt8) {width : ℕ} (fits : c.toNat < 10 ^ (width + 1))
    (short : width ≤ 2) : Refers (0x23 :: decimal (width + 1) c.toNat) c where
  first := ⟨_, _, rfl, Or.inl rfl, fun _ member =>
    isElement_of_isdigit (isdigit_of_mem_decimal member)⟩
  short := by
    rw [List.length_cons, length_decimal]
    omega
  known rest := by
    have stop : ∀ char, (0 :: rest).head? = some char → isdigit char = false := by
      rintro char ⟨⟩
      rfl
    have read : atol (decimal (width + 1) c.toNat ++ 0 :: rest) = c.toNat :=
      atol_decimal fits (by omega) stop
    show some (some (UInt8.ofInt (atol (decimal (width + 1) c.toNat ++ 0 :: rest)))) = _
    rw [read, ofInt_toNat]

theorem read_name {parser : XMLParser} {c : UInt8} (state : parser.state = .amp)
    (room : parser.bufpos < parser.buffer.length)
    (name : parser.bufpos = 0 ∧ c = 0x23 ∨ isElement c) :
    parser.partialChar c = next (parser.store c) := by
  have put_ : parser.put parser.bufpos c =
      some { parser with buffer := parser.buffer.set parser.bufpos c } := if_pos room
  rw [partialChar, state]
  dsimp only
  rw [if_pos name, put_]
  show next { parser with
    buffer := parser.buffer.set parser.bufpos c, bufpos := parser.bufpos + 1 } = _
  rw [store, state]

section References

variable {calls before : List Callback} {ecount : Int32} {text : Text} {parser : XMLParser}

/-- The rest of a name. -/
theorem Holding.name (reader : Reader) {more : Text}
    (holding : Holding .amp calls ecount text parser)
    (room : text.length + more.length < parser.buffer.length) (element : ∀ c ∈ more, isElement c) :
    ∃ target, Holding .amp calls ecount (text ++ more) target ∧
      target.buffer.length = parser.buffer.length ∧
      ∀ rest, scan reader.read parser (more ++ rest) = scan reader.read target rest := by
  refine holding.run reader State.noConfusion room fun {early late c middle} split held room' =>
    read_name held.state (Nat.lt_of_succ_lt room') (Or.inr (element c ?_))
  rw [split]
  exact List.mem_append_right _ List.mem_cons_self

/-- The start of a reference hands out the text before it. -/
theorem opens_reference (state : parser.state = .none) (inside : parser.ecount ≠ 0) :
    ∃ target, parser.partialChar 0x26 = next target ∧
      Holding .amp parser.clearBuffer.calls parser.ecount [] target ∧
      target.buffer.length = parser.buffer.length := by
  have kept : parser.clearBuffer.ecount = parser.ecount ∧
      parser.clearBuffer.buffer = parser.buffer := by
    rw [clearBuffer_eq]
    split <;> exact ⟨rfl, rfl⟩
  refine ⟨{ parser.clearBuffer with state := .amp }, ?_,
    ⟨rfl, rfl, kept.1, Nat.zero_le _, held_nil rfl⟩, congrArg List.length kept.2⟩
  rw [partialChar, state]
  dsimp only
  rw [if_neg (by decide), if_pos ⟨inside, rfl⟩]

/-- Its end makes a call for what it stands for. -/
theorem closes_reference {name : Text} {cp : UInt8}
    (holding : Holding .amp calls ecount name parser)
    (room : parser.bufpos < parser.buffer.length)
    (known : ∀ rest, character (name ++ 0 :: rest) = some (some cp)) :
    parser.partialChar 0x3b = next { call { parser with
      buffer := parser.buffer.set parser.bufpos 0 } (.characters [cp]) with
      bufpos := 0, state := .none } := by
  have ended : parser.buffer.set parser.bufpos 0 =
      name ++ 0 :: parser.buffer.drop (parser.bufpos + 1) := by
    rw [List.set_eq_take_append_cons_drop, if_pos room]
    show parser.held ++ _ = _
    rw [holding.held]
  have put_ : parser.put parser.bufpos 0 =
      some { parser with buffer := parser.buffer.set parser.bufpos 0 } := if_pos room
  have noName : ¬ (parser.bufpos = 0 ∧ (0x3b : UInt8) = 0x23 ∨ isElement 0x3b) := by
    rintro (both | element)
    · exact absurd both.2 (by decide)
    · exact absurd element (by decide)
  rw [partialChar, holding.state]
  dsimp only
  rw [if_neg noName, if_neg (by decide), put_]
  show (character (parser.buffer.set parser.bufpos 0)).bind _ = _
  rw [ended, known]
  rfl

/-- A reference makes a call for what it stands for. -/
theorem run_reference (reader : Reader) (state : parser.state = .none)
    (inside : parser.ecount ≠ 0) (gathers : Gathers .characters before text parser)
    (large : 16 ≤ parser.buffer.length) {name : Text} {cp : UInt8} (refers : Refers name cp) :
    ∃ target, scan reader.read parser (0x26 :: name ++ [0x3b]) = next target ∧
      Gathers .characters before (text ++ [cp]) target ∧ target.state = .none ∧
      target.ecount = parser.ecount ∧ target.buffer.length = parser.buffer.length := by
  obtain ⟨⟨first, rest, rfl, named_, element⟩, short, known⟩ := refers
  rw [List.length_cons] at short
  obtain ⟨_, pieces, calls, gathered⟩ := gathers.clearBuffer inside
  obtain ⟨opened, step, holding, length⟩ := opens_reference state inside
  have start : opened.bufpos = 0 := holding.bufpos
  have step' : opened.partialChar first = next (opened.store first) :=
    read_name holding.state (by omega) (named_.imp (fun hash => ⟨start, hash⟩) id)
  obtain ⟨last, holding', length', later⟩ := (holding.store (by omega) first).name reader
    (show 1 + rest.length < (opened.store first).buffer.length by rw [length_store]; omega) element
  rw [length_store, length] at length'
  have place : last.bufpos = rest.length + 1 := holding'.bufpos
  have step'' := closes_reference holding' (by omega) known
  have open_ : parser.state ≠ .ended ∧ opened.state ≠ .ended ∧ last.state ≠ .ended := by
    rw [state, holding.state, holding'.state]
    decide
  have size : (last.buffer.set last.bufpos 0).length = parser.buffer.length := by
    rw [List.length_set, length']
  refine ⟨{ call { last with buffer := last.buffer.set last.bufpos 0 } (.characters [cp]) with
    bufpos := 0, state := .none }, ?_, ⟨?_, pieces ++ [[cp]], ?_, ?_⟩, rfl, holding'.ecount, size⟩
  · show scan reader.read parser (0x26 :: first :: (rest ++ [0x3b])) = _
    have stays : (opened.store first).state ≠ .ended := open_.2.1
    rw [reader.scan_cons open_.1 open_.2.1 step, reader.scan_cons open_.2.1 stays step', later,
      scan_singleton]
    exact (reader.read_iff open_.2.2 State.noConfusion).mpr step''
  · show 0 < (last.buffer.set last.bufpos 0).length
    omega
  · show last.calls ++ [_] = _
    rw [holding'.calls, calls, List.map_append, List.append_assoc]
    rfl
  · have emptied : parser.clearBuffer.held = [] := held_nil rfl
    rw [emptied, List.append_nil] at gathered
    show (pieces ++ [[cp]]).flatten ++ List.take 0 (last.buffer.set last.bufpos 0) = _
    rw [List.take_zero, List.append_nil, List.flatten_append, List.flatten_singleton, gathered]

end References

/-! ### Texts -/

section Texts

variable {before : List Callback} {text : Text} {parser : XMLParser}

/-- A character of a text is read as it was, or as its name is read. -/
theorem run_spelling (reader : Reader) (state : parser.state = .none)
    (inside : parser.ecount ≠ 0) (gathers : Gathers .characters before text parser)
    (large : 16 ≤ parser.buffer.length) (spelling : Spelling) :
    ∃ target, scan reader.read parser spelling.text = next target ∧
      Gathers .characters before (text ++ [spelling.read]) target ∧ target.state = .none ∧
      target.ecount = parser.ecount ∧ target.buffer.length = parser.buffer.length := by
  cases spelling with
  | plain c _ unescaped =>
    refine run_text reader state inside gathers fun other member => ?_
    rw [List.mem_singleton.mp member]
    exact ⟨unescaped .lt, unescaped .amp⟩
  | named name => exact run_reference reader state inside gathers large (refers_named name)
  | number c _ width fits short =>
    exact run_reference reader state inside gathers large (refers_number c fits short)

theorem run_spelled (reader : Reader) (state : parser.state = .none)
    (inside : parser.ecount ≠ 0) (gathers : Gathers .characters before text parser)
    (large : 16 ≤ parser.buffer.length) (spellings : List Spelling) :
    ∃ target, scan reader.read parser (spelled spellings) = next target ∧
      Gathers .characters before (text ++ spellings.map Spelling.read) target ∧
      target.state = .none ∧ target.ecount = parser.ecount ∧
      target.buffer.length = parser.buffer.length := by
  induction spellings generalizing text parser with
  | nil => exact ⟨parser, rfl, (List.append_nil text).symm ▸ gathers, state, rfl, rfl⟩
  | cons spelling spellings inductionHypothesis =>
    obtain ⟨middle, first, gathers', state', ecount, length⟩ :=
      run_spelling reader state inside gathers large spelling
    obtain ⟨target, rest, gathers'', state'', ecount', length'⟩ :=
      inductionHypothesis state' (ecount ▸ inside) gathers' (length ▸ large)
    rw [List.append_assoc] at gathers''
    exact ⟨target, scan_append_iff.mpr ⟨middle, first, rest⟩, gathers'', state'',
      ecount'.trans ecount, length'.trans length⟩

/-- A text is read as it was, but for the apostrophes that are written by their name. -/
theorem read_eq_char_iff (spellings : List Spelling) :
    spellings.map Spelling.read = spellings.map Spelling.char ↔ .named .apos ∉ spellings := by
  have one : ∀ spelling : Spelling,
      spelling.read = spelling.char ↔ spelling ≠ .named .apos := by
    intro spelling
    cases spelling with
    | plain c ascii unescaped => exact iff_of_true rfl nofun
    | number c code width fits short => exact iff_of_true rfl nofun
    | named name =>
      cases name
      case apos => exact iff_of_false (by decide) (not_not.mpr rfl)
      all_goals exact iff_of_true rfl nofun
  rw [List.map_inj_left]
  constructor
  · intro same member
    exact (one _).mp (same _ member) rfl
  · intro absent spelling member
    refine (one spelling).mpr ?_
    rintro rfl
    exact absent member

end Texts

/-! ### Documents -/

/-- `<a>text</a>`. -/
def document (text : Text) : Text := [0x3c, 0x61, 0x3e] ++ text ++ [0x3c, 0x2f, 0x61, 0x3e]

/-- The calls for such an element, whose text is handed out in these pieces. -/
def elementCalls (pieces : List Text) : List Callback :=
  [.startDocument, .startElement [0x61] []] ++ pieces.map .characters ++
    [.endElement [0x61], .endDocument]

section Documents

variable {calls : List Callback} {parser : XMLParser}

/-- `<a>`. -/
theorem begins_document (large : 16 ≤ parser.buffer.length) :
    ∃ target, scan partialChar parser.reset [0x3c, 0x61, 0x3e] = next target ∧
      target.state = .none ∧ target.ecount = 1 ∧ target.bufpos = 0 ∧
      target.calls = parser.calls ++ [.startDocument, .startElement [0x61] []] ∧
      target.buffer.length = parser.buffer.length := by
  obtain ⟨ecount, dcount, state, buffer, bufpos, calls⟩ := parser
  match buffer, large with
  | first :: second :: third :: rest, _ =>
    have read : scan partialChar
        (reset ⟨ecount, dcount, state, first :: second :: third :: rest, bufpos, calls⟩)
        [0x3c, 0x61, 0x3e] = next ⟨1, 0, .none, 0x61 :: 0 :: third :: rest, 0,
          calls ++ [.startDocument] ++ [.startElement [0x61] []]⟩ := rfl
    exact ⟨_, read, rfl, rfl, rfl, List.append_assoc _ _ _, rfl⟩

theorem endName_a (third : UInt8) (rest : Text) :
    endName 2 (List.drop 1 (0x2f :: 0x61 :: third :: rest)) = some 0 := by
  have first : (2 + 2 ^ 64 - 1) % 2 ^ 64 = 1 := by norm_num
  have second : (1 + 2 ^ 64 - 1) % 2 ^ 64 = 0 := by norm_num
  have element : isElement 0x61 = true := by decide
  simp only [List.drop_one, List.tail_cons, endName, first, second, element]
  rfl

/-- `/a`. -/
theorem parseTag_a (dcount : Int32) (third : UInt8) (rest : Text) (calls : List Callback) :
    parseTag ⟨1, dcount, .none, 0x2f :: 0x61 :: third :: rest, 2, calls⟩ =
      some (true, ⟨0, dcount, .ended, 0x2f :: 0x61 :: 0 :: rest, 0,
        calls ++ [.endElement [0x61]] ++ [.endDocument]⟩) := by
  have slash : parseTag ⟨1, dcount, .none, 0x2f :: 0x61 :: third :: rest, 2, calls⟩ =
      endTag ⟨1, dcount, .none, 0x2f :: 0x61 :: third :: rest, 2, calls⟩ := by
    simp only [parseTag, List.head?_cons, Option.bind_eq_bind, Option.bind_some, if_true]
  have stored : put ⟨1, dcount, .none, 0x2f :: 0x61 :: third :: rest, 2, calls⟩ 2 0 =
      some ⟨1, dcount, .none, 0x2f :: 0x61 :: 0 :: rest, 2, calls⟩ := rfl
  have zero : (1 : Int32) - 1 = 0 := by decide
  have counted : ¬ (0 : Int32) < 0 := by decide
  rw [slash]
  simp only [endTag, endName_a, Option.bind_eq_bind, Option.bind_some, stored, call, zero,
    if_neg counted]
  rfl

/-- `>`, behind `</a`. -/
theorem ends_element (holding : Holding .tag calls 1 [0x2f, 0x61] parser)
    (room : 2 < parser.buffer.length) :
    ∃ target, parser.partialChar 0x3e = next target ∧
      target.calls = calls ++ [.endElement [0x61], .endDocument] := by
  have place : parser.bufpos = 2 := holding.bufpos
  have held_ := holding.held
  rw [held, place] at held_
  obtain ⟨third, rest, behind⟩ : ∃ third rest, parser.buffer.drop 2 = third :: rest :=
    List.exists_cons_of_length_pos (by rw [List.length_drop]; omega)
  have buffer : parser.buffer = 0x2f :: 0x61 :: third :: rest := by
    rw [← List.take_append_drop 2 parser.buffer, held_, behind]
    rfl
  have tag := parseTag_a parser.dcount third rest calls
  rw [← holding.ecount, ← buffer, ← place, ← holding.calls] at tag
  refine ⟨_, read_close holding.state tag, ?_⟩
  rw [holding.calls]
  exact List.append_assoc _ _ _

/-- The document is read to its end, and its text is handed out in pieces. -/
theorem reads_document (large : 16 ≤ parser.buffer.length) (spellings : List Spelling) :
    ∃ target pieces,
      parser.reset.partialData (document (spelled spellings)) = some (true, target) ∧
      target.calls = parser.calls ++ elementCalls pieces ∧
      pieces.flatten = spellings.map Spelling.read := by
  obtain ⟨first, read₁, state₁, ecount₁, start₁, calls₁, length₁⟩ := begins_document large
  have inside₁ : first.ecount ≠ 0 := by
    rw [ecount₁]
    decide
  have gathers₁ : Gathers .characters first.calls first.held first := .start (by omega)
  rw [held_nil start₁] at gathers₁
  obtain ⟨second, read₂, gathers₂, state₂, ecount₂, length₂⟩ :=
    run_spelled .partialData state₁ inside₁ gathers₁ (length₁ ▸ large) spellings
  obtain ⟨_, pieces, calls₂, gathered⟩ := gathers₂.clearBuffer (ecount₂ ▸ inside₁)
  have emptied : second.clearBuffer.held = [] := held_nil rfl
  rw [emptied, List.append_nil, List.nil_append] at gathered
  have holding := holding_entered second
  have length₃ : (entered second).buffer.length = parser.buffer.length := by
    rw [(entered_eq second).1, length₂, length₁]
  have room : ([] : Text).length + ([0x2f, 0x61] : Text).length <
      (entered second).buffer.length := by
    rw [length₃]
    exact Nat.lt_of_lt_of_le (by decide) large
  obtain ⟨third, holding', length₄, later⟩ := holding.plain .partialData room (by decide +kernel)
  rw [ecount₂, ecount₁] at holding'
  obtain ⟨target, read₅, calls₅⟩ := ends_element holding' (by omega)
  have open_ : second.state ≠ .ended := by
    rw [state₂]
    decide
  have closed : scan partialChar second [0x3c, 0x2f, 0x61, 0x3e] = next target := by
    show scan Reader.partialData.read second (0x3c :: ([0x2f, 0x61] ++ [0x3e])) = _
    rw [Reader.partialData.scan_cons open_ State.noConfusion (read_opens state₂), later,
      scan_singleton]
    exact read₅
  have whole : scan partialChar parser.reset (document (spelled spellings)) = next target :=
    scan_append_iff.mpr ⟨second, scan_append_iff.mpr ⟨first, read₁, read₂⟩, closed⟩
  refine ⟨target, pieces, ?_, ?_, gathered⟩
  · show answer true (scan partialChar parser.reset.restart _) = _
    have still : parser.reset.restart = parser.reset := if_neg State.noConfusion
    rw [still, whole]
    rfl
  · rw [calls₅, calls₂, calls₁, elementCalls, List.append_assoc, List.append_assoc]
    simp only [List.append_assoc]

/-- Both parsers hand it out so, however the document is cut into pieces. -/
theorem parsers_read_document (large : 16 ≤ parser.buffer.length) (spellings : List Spelling)
    {chunks : List Text} (cut : chunks.flatten = document (spelled spellings)) :
    ∃ pieces : List Text,
      (∃ target, parser.reset.partialPieces chunks = some (true, target) ∧
        target.calls = parser.calls ++ elementCalls pieces) ∧
      (0 ∉ spelled spellings → ∃ target,
        parser.parse (document (spelled spellings)) = some (true, target) ∧
        target.calls = parser.calls ++ elementCalls pieces) ∧
      pieces.flatten = spellings.map Spelling.read := by
  obtain ⟨target, pieces, read, calls, read_⟩ := reads_document large spellings
  refine ⟨pieces, ?_, fun visible => ?_, read_⟩
  · have same := answer_pieces parser.reset chunks
    rw [cut, read] at same
    obtain ⟨⟨verdict, other⟩, read', same⟩ := Option.map_eq_some_iff.mp same
    obtain ⟨rfl, restarted⟩ := Prod.mk.inj same
    refine ⟨other, read', ?_⟩
    have kept : ∀ parser : XMLParser, parser.restart.calls = parser.calls := by
      intro parser
      unfold restart
      split <;> rfl
    rw [← calls, ← kept other, ← kept target]
    exact congrArg XMLParser.calls restarted
  · have noNull : 0 ∉ document (spelled spellings) := by
      simp only [document, List.mem_append, not_or]
      exact ⟨⟨by decide, visible⟩, by decide⟩
    obtain ⟨emitted, split, answered, other, parsed, calls', ended⟩ :=
      (parsers_agree noNull cut parser).2 true target read
    obtain rfl : emitted = elementCalls pieces := List.append_cancel_left (split.symm.trans calls)
    have last : .endDocument ∉ [.startDocument, .startElement [0x61] []] ++
        pieces.map Callback.characters ++ [.endElement [0x61]] := by
      simp
    have split_ : elementCalls pieces = [.startDocument, .startElement [0x61] []] ++
        pieces.map Callback.characters ++ [.endElement [0x61]] ++ [.endDocument] := by
      simp [elementCalls]
    have whole : upToEnd (elementCalls pieces) = elementCalls pieces := by
      rw [split_, upToEnd_append last]
      rfl
    obtain rfl : answered = true := ended.mpr (by simp [elementCalls])
    exact ⟨other, parsed, by rw [calls', whole]⟩

end Documents

/-- The text of an element is delivered as it was before it was escaped exactly when none of its
apostrophes is written by its name, whatever the size of the buffer and however the document is cut
into pieces. -/
theorem text_decoded_iff (spellings : List Spelling) {parser : XMLParser}
    (large : 16 ≤ parser.buffer.length) {chunks : List Text}
    (cut : chunks.flatten = document (spelled spellings)) :
    ∃ pieces : List Text,
      (∃ target, parser.reset.partialPieces chunks = some (true, target) ∧
        target.calls = parser.calls ++ elementCalls pieces) ∧
      (0 ∉ spelled spellings → ∃ target,
        parser.parse (document (spelled spellings)) = some (true, target) ∧
        target.calls = parser.calls ++ elementCalls pieces) ∧
      (pieces.flatten = spellings.map Spelling.char ↔ .named .apos ∉ spellings) := by
  obtain ⟨pieces, chunked, whole, read⟩ := parsers_read_document large spellings cut
  exact ⟨pieces, chunked, whole, by rw [read, read_eq_char_iff]⟩

/-- `a&apos;&#98;`, cut within a reference. -/
theorem text_decoded_iff_apostrophe :
    ∃ pieces : List Text, (∃ target,
      partialPieces (reset ⟨0, 0, .none, List.replicate 16 0, 0, []⟩)
        [[0x3c, 0x61, 0x3e, 0x61, 0x26, 0x61, 0x70],
          [0x6f, 0x73, 0x3b, 0x26, 0x23, 0x39, 0x38, 0x3b, 0x3c, 0x2f, 0x61, 0x3e]] =
        some (true, target) ∧ target.calls = elementCalls pieces) ∧
      pieces.flatten ≠ [0x61, 0x27, 0x62] := by
  have unescaped : ∀ name : Name, 0x61 ≠ name.char := fun name => by cases name <;> decide
  obtain ⟨pieces, read, -, same⟩ := text_decoded_iff
    [.plain 0x61 (by decide) unescaped, .named .apos,
      .number 0x62 (by decide) 1 (by decide) (by decide)]
    (show 16 ≤ (XMLParser.mk 0 0 .none (List.replicate 16 0) 0 []).buffer.length by decide)
    (show [[0x3c, 0x61, 0x3e, 0x61, 0x26, 0x61, 0x70],
      [0x6f, 0x73, 0x3b, 0x26, 0x23, 0x39, 0x38, 0x3b, 0x3c, 0x2f, 0x61, 0x3e]].flatten = _
      from rfl)
  exact ⟨pieces, read, fun exactly => same.mp exactly (by simp)⟩

/-- `<a>&apos;</a>` is not delivered as an apostrophe. -/
theorem apostrophe_not_decoded :
    ∃ target pieces, parse ⟨0, 0, .none, List.replicate 16 0, 0, []⟩
        (document (spelled [.named .apos])) = some (true, target) ∧
      target.calls = elementCalls pieces ∧
      pieces.flatten ≠ [Spelling.named .apos].map Spelling.char := by
  obtain ⟨pieces, -, parsed, read⟩ := parsers_read_document
    (show 16 ≤ (XMLParser.mk 0 0 .none (List.replicate 16 0) 0 []).buffer.length by decide)
    [.named .apos] (List.flatten_singleton : [document (spelled [.named .apos])].flatten = _)
  obtain ⟨target, parsed, calls⟩ := parsed (by decide)
  refine ⟨target, pieces, parsed, calls, ?_⟩
  rw [read]
  decide

end XMLParser

end CommonCpp
