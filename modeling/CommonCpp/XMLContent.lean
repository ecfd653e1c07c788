/-
This file shows what a parser keeps of the content of an element while it reads it.

The text that stands between two tags is handed out in pieces, whenever the buffer is full, and the
rest of it when something else comes. What the calls were given and what the buffer holds make
up the text. Whatever a document holds, what a parser says and holds weighs no more than what it
has read: a tag and a reference cost more characters than they say. A `<` counts twice here.
-/

import CommonCpp.XMLAttributes
import CommonCpp.XMLChunks
import Mathlib.Data.List.Induction

namespace CommonCpp

open Bytes Ctype Scanner

namespace XMLParser

/-! ### Readers -/

/-- The two functions that read a document. -/
inductive Reader
  | parse
  | partialData

/-- What each does with a character. -/
def Reader.read : Reader → XMLParser → UInt8 → Outcome XMLParser Bool
  | .parse => parseRound
  | .partialData => partialChar

/-- `parse` stops where the document ends, and is `partial` before. -/
theorem Reader.read_parse {source : XMLParser} (open_ : source.state ≠ .ended) (data : UInt8) :
    Reader.parse.read source data = andThen (source.partialChar data) fun parser =>
      if parser.state = .ended then stop true parser else next parser := by
  rw [← parseChar_eq open_]
  rfl

/-- Where no document ends, both do the same. -/
theorem Reader.read_iff (reader : Reader) {source target : XMLParser} {data : UInt8}
    (open_ : source.state ≠ .ended) (stays : target.state ≠ .ended) :
    reader.read source data = next target ↔ source.partialChar data = next target := by
  cases reader with
  | partialData => exact Iff.rfl
  | parse =>
    rw [read_parse open_]
    match source.partialChar data with
    | none => exact Iff.rfl
    | some (some verdict, middle) => exact iff_of_false nofun nofun
    | some (none, middle) =>
      show (if middle.state = .ended then stop true middle else next middle) = _ ↔
        next middle = next target
      by_cases ended : middle.state = .ended
      · rw [if_pos ended]
        refine iff_of_false nofun fun same => stays ?_
        rw [← (Prod.mk.inj (Option.some.inj same)).2, ended]
      · rw [if_neg ended]

/-- Where `partial` goes on, a reader does not refuse the character. -/
theorem Reader.read_cases (reader : Reader) {source : XMLParser} {data : UInt8}
    (open_ : source.state ≠ .ended) :
    (∀ target, source.partialChar data = next target → ∃ returned ≠ some false,
      reader.read source data = some (returned, target)) ∧
    (source.partialChar data = none → reader.read source data = none) := by
  cases reader with
  | partialData => exact ⟨fun target read => ⟨none, nofun, read⟩, id⟩
  | parse =>
    rw [read_parse open_]
    refine ⟨fun target read => ?_, fun lost => by rw [lost]; rfl⟩
    rw [read]
    show ∃ returned ≠ some false, (if target.state = .ended then stop true target else
      next target) = some (returned, target)
    by_cases ended : target.state = .ended
    · rw [if_pos ended]
      exact ⟨some true, by simp, rfl⟩
    · rw [if_neg ended]
      exact ⟨none, nofun, rfl⟩

/-- What a reader goes on from, `partial` goes on from. -/
theorem Reader.scan_next (reader : Reader) {source target : XMLParser} {text : Text}
    (open_ : source.state ≠ .ended) (read : scan reader.read source text = next target) :
    scan partialChar source text = next target := by
  cases reader with
  | partialData => exact read
  | parse =>
    induction text generalizing source with
    | nil => exact read
    | cons data text inductionHypothesis =>
      rw [scan] at read ⊢
      rw [read_parse open_] at read
      cases stepped : source.partialChar data with
      | none =>
        rw [stepped] at read
        cases read
      | some result =>
        rw [stepped] at read
        obtain ⟨verdict, middle⟩ := result
        cases verdict with
        | some verdict => cases read
        | none =>
          by_cases ended : middle.state = .ended
          · simp only [andThen, if_pos ended, stop] at read
            cases read
          · simp only [andThen, if_neg ended, next] at read
            exact inductionHypothesis ended read

/-! ### The buffer -/

section Buffer

variable {parser : XMLParser} {c : UInt8}

/-- The parser with another byte in its buffer. -/
def store (parser : XMLParser) (c : UInt8) : XMLParser :=
  { parser with buffer := parser.buffer.set parser.bufpos c, bufpos := parser.bufpos + 1 }

/-- What fills the buffer is handed out. -/
def flush (parser : XMLParser) : XMLParser :=
  { if parser.ecount ≠ 0 then parser.call (.characters parser.held) else parser with bufpos := 0 }

theorem held_store (room : parser.bufpos < parser.buffer.length) (c : UInt8) :
    (store parser c).held = parser.held ++ [c] := by
  show (parser.buffer.set parser.bufpos c).take (parser.bufpos + 1) = _
  rw [List.take_succ_eq_append_getElem (by rwa [List.length_set]), List.getElem_set_self,
    List.take_set_of_le (le_refl _)]
  rfl

theorem length_held (within : parser.bufpos ≤ parser.buffer.length) :
    parser.held.length = parser.bufpos := List.length_take_of_le within

theorem held_nil (start : parser.bufpos = 0) : parser.held = [] := by
  rw [held, start, List.take_zero]

theorem held_zero (parser : XMLParser) : held { parser with bufpos := 0 } = [] := held_nil rfl

theorem putBuffer_eq (room : parser.bufpos < parser.buffer.length) (c : UInt8) :
    parser.putBuffer c = some (if parser.bufpos + 1 = parser.buffer.length then
      flush (store parser c) else store parser c) := by
  have put_ : parser.put parser.bufpos c =
      some { parser with buffer := parser.buffer.set parser.bufpos c } := if_pos room
  have full : parser.bufpos + 1 ≥ (parser.buffer.set parser.bufpos c).length ↔
      parser.bufpos + 1 = parser.buffer.length := by
    rw [List.length_set]
    exact ⟨fun full => le_antisymm room full, ge_of_eq⟩
  show (parser.put parser.bufpos c).bind _ = _
  rw [put_]
  show (if parser.bufpos + 1 ≥ (parser.buffer.set parser.bufpos c).length then _ else _) = _
  by_cases last : parser.bufpos + 1 = parser.buffer.length
  · rw [if_pos last, if_pos (full.mpr last)]
    rfl
  · rw [if_neg last, if_neg fun more => last (full.mp more)]
    rfl

theorem clearBuffer_eq (parser : XMLParser) :
    parser.clearBuffer = { if parser.bufpos ≠ 0 ∧ parser.ecount ≠ 0 then
      parser.call (.characters parser.held) else parser with bufpos := 0 } := rfl

end Buffer

/-! ### Texts -/

/-- What a call hands out of the content. -/
def Callback.said : Callback → Text
  | .characters text => text
  | _ => []

/-- What all of them hand out. -/
def said (calls : List Callback) : Text := calls.flatMap Callback.said

theorem said_append (first last : List Callback) : said (first ++ last) = said first ++ said last :=
  List.flatMap_append

theorem said_characters (pieces : List Text) :
    said (pieces.map Callback.characters) = pieces.flatten := by
  rw [said, List.flatMap_map]
  exact List.flatMap_id'

/-- Since some calls a parser has made calls of one kind only, which hand out a text together with
the buffer. -/
structure Gathers (callback : Text → Callback) (before : List Callback) (text : Text)
    (parser : XMLParser) : Prop where
  room : parser.bufpos < parser.buffer.length
  calls : ∃ pieces : List Text, parser.calls = before ++ pieces.map callback ∧
    pieces.flatten ++ parser.held = text

section Gathers

variable {before : List Callback} {text : Text} {parser : XMLParser}

theorem Gathers.start {callback : Text → Callback} (room : parser.bufpos < parser.buffer.length) :
    Gathers callback parser.calls parser.held parser :=
  ⟨room, [], (List.append_nil _).symm, List.nil_append _⟩

/-- Another character of the content. -/
theorem Gathers.putBuffer (gathers : Gathers .characters before text parser)
    (inside : parser.ecount ≠ 0) (c : UInt8) :
    ∃ target, parser.putBuffer c = some target ∧ Gathers .characters before (text ++ [c]) target ∧
      target.state = parser.state ∧ target.ecount = parser.ecount ∧
      target.buffer = parser.buffer.set parser.bufpos c := by
  obtain ⟨room, pieces, calls, rfl⟩ := gathers
  have stored := held_store room c
  refine ⟨_, putBuffer_eq room c, ?_⟩
  by_cases last : parser.bufpos + 1 = parser.buffer.length
  · rw [if_pos last, flush, if_pos (show (store parser c).ecount ≠ 0 from inside), stored]
    refine ⟨⟨?_, pieces ++ [parser.held ++ [c]], ?_, ?_⟩, rfl, rfl, rfl⟩
    · show 0 < (parser.buffer.set parser.bufpos c).length
      rw [List.length_set]
      exact Nat.zero_lt_of_lt room
    · show parser.calls ++ [_] = _
      rw [calls, List.map_append, List.append_assoc]
      rfl
    · rw [held_zero, List.append_nil, List.flatten_append, List.flatten_singleton,
        List.append_assoc]
  · rw [if_neg last]
    refine ⟨⟨?_, pieces, calls, ?_⟩, rfl, rfl, rfl⟩
    · show parser.bufpos + 1 < (parser.buffer.set parser.bufpos c).length
      rw [List.length_set]
      exact lt_of_le_of_ne room last
    · rw [stored, List.append_assoc]

/-- What the buffer holds of the content is handed out. -/
theorem Gathers.clearBuffer (gathers : Gathers .characters before text parser)
    (inside : parser.ecount ≠ 0) : Gathers .characters before text parser.clearBuffer := by
  obtain ⟨room, pieces, calls, rfl⟩ := gathers
  have start : 0 < parser.buffer.length := Nat.zero_lt_of_lt room
  by_cases empty : parser.bufpos = 0
  · rw [clearBuffer_eq, if_neg fun full => full.1 empty]
    refine ⟨start, pieces, calls, ?_⟩
    rw [held_zero, held_nil empty]
  · rw [clearBuffer_eq, if_pos ⟨empty, inside⟩]
    refine ⟨start, pieces ++ [parser.held], ?_, ?_⟩
    · show parser.calls ++ [_] = _
      rw [calls, List.map_append, List.append_assoc]
      rfl
    · rw [held_zero, List.append_nil, List.flatten_append, List.flatten_singleton]

end Gathers

/-! ### What a text weighs -/

/-- How many characters a text has, where a `<` counts twice. -/
def weight (text : Text) : ℕ := text.length + text.count 0x3c

theorem weight_append (first last : Text) :
    weight (first ++ last) = weight first + weight last := by
  rw [weight, List.length_append, List.count_append, weight, weight]
  omega

/-- What a parser says and holds. -/
def spent (parser : XMLParser) : ℕ := weight (said parser.calls) + weight parser.held

section Spent

variable {source target : XMLParser} {data : UInt8}

theorem spent_store (room : source.bufpos < source.buffer.length) (data : UInt8) :
    spent (store source data) = spent source + weight [data] := by
  rw [spent, held_store room, weight_append, ← Nat.add_assoc]
  rfl

/-- What is dropped from the buffer, and handed out or not. -/
theorem spent_dropped (parser : XMLParser) (told : Prop) [Decidable told] :
    spent { if told then parser.call (.characters parser.held) else parser with bufpos := 0 } ≤
      spent parser := by
  rw [spent, held_zero]
  by_cases handed : told
  · rw [if_pos handed]
    show weight (said (parser.calls ++ [.characters parser.held])) + 0 ≤ _
    rw [said_append, weight_append]
    exact le_of_eq (congrArg (fun text => weight (said parser.calls) + weight text)
      (List.append_nil _))
  · rw [if_neg handed]
    exact Nat.add_le_add_left (Nat.zero_le _) _

theorem spent_clearBuffer (parser : XMLParser) : spent parser.clearBuffer ≤ spent parser :=
  spent_dropped parser _

/-- What is taken out of the buffer again. -/
theorem spent_cut (parser : XMLParser) {bufpos : ℕ} (fewer : bufpos ≤ parser.bufpos)
    (state : State) : spent { parser with bufpos := bufpos, state := state } ≤ spent parser := by
  have taken : parser.held.take bufpos = parser.buffer.take bufpos := by
    rw [held, List.take_take, min_eq_left fewer]
  have whole : parser.held = parser.buffer.take bufpos ++ parser.held.drop bufpos := by
    rw [← taken]
    exact (List.take_append_drop _ _).symm
  rw [spent, spent, whole, weight_append]
  exact Nat.add_le_add_left (Nat.le_add_right _ _) _

theorem spent_putBuffer (room : source.bufpos < source.buffer.length)
    (stored : source.putBuffer data = some target) :
    target.bufpos < target.buffer.length ∧ target.buffer.length = source.buffer.length ∧
      target.dcount = source.dcount ∧ spent target ≤ spent source + weight [data] := by
  rw [putBuffer_eq room] at stored
  cases stored
  have length : (store source data).buffer.length = source.buffer.length := List.length_set
  by_cases last : source.bufpos + 1 = source.buffer.length
  · rw [if_pos last, ← spent_store room]
    have kept : (flush (store source data)).buffer.length = source.buffer.length ∧
        (flush (store source data)).dcount = source.dcount := by
      unfold flush
      split
      · exact ⟨length, rfl⟩
      · exact ⟨length, rfl⟩
    refine ⟨?_, kept.1, kept.2, spent_dropped _ _⟩
    rw [kept.1]
    exact Nat.zero_lt_of_lt room
  · rw [if_neg last]
    refine ⟨?_, length, rfl, (spent_store room data).le⟩
    rw [length]
    exact lt_of_le_of_ne room last

end Spent

/-! ### Tags -/

/-- What a tag leaves: it says nothing, and empties the buffer. -/
structure Emptied (source target : XMLParser) : Prop where
  bufpos : target.bufpos = 0
  size : target.buffer.length = source.buffer.length
  dcount : target.dcount = source.dcount
  said : said target.calls = said source.calls

section Tags

variable {source middle target : XMLParser}

theorem said_call (parser : XMLParser) {callback : Callback} (silent : callback.said = []) :
    said (parser.call callback).calls = said parser.calls := by
  have nothing : said [callback] = [] := (List.append_nil _).trans silent
  show said (parser.calls ++ [callback]) = _
  rw [said_append, nothing, List.append_nil]

theorem emptied_endTag (read : source.endTag = some (true, target)) : Emptied source target := by
  obtain ⟨len, _, read⟩ := Option.bind_eq_some_iff.mp read
  split at read
  · cases read
  obtain ⟨middle, put_, read⟩ := Option.bind_eq_some_iff.mp read
  unfold put at put_
  split at put_
  next =>
    cases put_
    have length : ∀ text : Text, (text.set source.bufpos 0).length = text.length :=
      fun text => List.length_set
    dsimp only at read
    split at read
    · cases read
    split at read
    · cases read
      refine ⟨rfl, length _, rfl, ?_⟩
      exact (said_call _ rfl).trans (said_call source rfl)
    · cases read
      exact ⟨rfl, length _, rfl, said_call source rfl⟩
  next => cases put_

theorem said_enter (parser : XMLParser) : said parser.enter.calls = said parser.calls := by
  unfold enter
  dsimp only
  split
  · exact said_call parser rfl
  · rfl

theorem emptied_started (parser : XMLParser) (ending : Bool) :
    Emptied parser (parser.started ending) := by
  unfold started
  dsimp only
  split
  · split
    · exact ⟨rfl, rfl, rfl, (said_call _ rfl).trans (said_call _ rfl)⟩
    · exact ⟨rfl, rfl, rfl, said_call _ rfl⟩
  · exact ⟨rfl, rfl, rfl, rfl⟩

theorem emptied_startTag (within : source.bufpos ≤ source.buffer.length)
    (read : source.startTag = some (true, target)) : Emptied source target := by
  obtain ⟨slash, _, read⟩ := Option.bind_eq_some_iff.mp read
  obtain ⟨cut, cut_eq⟩ : ∃ cut, cut = if slash = 0x2f then
      { source with bufpos := source.bufpos - 1 } else source := ⟨_, rfl⟩
  have kept : cut.bufpos ≤ source.buffer.length ∧ cut.buffer = source.buffer ∧
      cut.dcount = source.dcount ∧ cut.calls = source.calls := by
    rw [cut_eq]
    split
    · exact ⟨(Nat.sub_le _ _).trans within, rfl, rfl, rfl⟩
    · exact ⟨within, rfl, rfl, rfl⟩
  obtain ⟨short, buffer, dcount, calls⟩ := kept
  simp only [← cut_eq] at read
  have entered : cut.enter.bufpos = cut.bufpos ∧ cut.enter.buffer = cut.buffer ∧
      cut.enter.dcount = cut.dcount := by
    unfold enter
    dsimp only
    split <;> exact ⟨rfl, rfl, rfl⟩
  obtain ⟨place, buffer', dcount'⟩ := entered
  have silent : said cut.enter.calls = said source.calls := by rw [said_enter, calls]
  split at read
  · obtain ⟨middle, put_, read⟩ := Option.bind_eq_some_iff.mp read
    unfold put at put_
    split at put_
    next =>
      cases put_
      cases read
      obtain ⟨bufpos, size, dcount'', said_⟩ := emptied_started _ _
      refine ⟨bufpos, size.trans ?_, ?_, ?_⟩
      · show (cut.enter.buffer.set _ 0).length = _
        rw [List.length_set, buffer', buffer]
      · exact dcount''.trans (dcount'.trans dcount)
      · exact said_.trans ((said_call _ rfl).trans silent)
    next => cases put_
  · obtain ⟨⟨accepted, text, attrib⟩, loop, read⟩ := Option.bind_eq_some_iff.mp read
    have room : cut.enter.bufpos ≤ cut.enter.buffer.length := by
      rw [place, buffer', buffer]
      exact short
    have length := (@attributes_more _ 64 _ _ _ _ _ _ room loop).1
    dsimp only at read
    split at read
    · cases read
    · cases read
      obtain ⟨bufpos, size, dcount'', said_⟩ := emptied_started _ _
      refine ⟨bufpos, size.trans (length.trans ?_), ?_, ?_⟩
      · rw [buffer', buffer]
      · exact dcount''.trans (dcount'.trans dcount)
      · exact said_.trans ((said_call _ rfl).trans silent)

theorem emptied_parseTag (within : source.bufpos ≤ source.buffer.length)
    (read : source.parseTag = some (true, target)) : Emptied source target := by
  obtain ⟨data, _, read⟩ := Option.bind_eq_some_iff.mp read
  split at read
  · exact emptied_endTag read
  split at read
  · cases read
    exact ⟨rfl, rfl, rfl, rfl⟩
  split at read
  · obtain ⟨_, _, read⟩ := Option.bind_eq_some_iff.mp read
    cases read
    exact ⟨rfl, rfl, rfl, rfl⟩
  split at read
  · cases read
  · exact emptied_startTag within read

end Tags

/-! ### Steps -/

/-- A parser is within its buffer, but for the name of a reference, and counts the brackets of a
declaration only within one. -/
structure Placed (parser : XMLParser) : Prop where
  room : parser.state ≠ .amp → parser.bufpos < parser.buffer.length
  dcount : parser.state ≠ .dtd → parser.dcount = 0

/-- What a character leaves that is not refused. From the content it leads to a reference or to a
tag, where a `<` is lost; a reference comes to an end before a `]`; and a tag loses its last
character. -/
structure Kept (source : XMLParser) (data : UInt8) (target : XMLParser) : Prop where
  size : target.buffer.length = source.buffer.length
  placed : Placed target
  spent : spent target ≤ spent source + weight [data]
  content : source.state = .none → target.state = .none ∨ target.state = .amp ∨
    target.state = .tag ∧ XMLParser.spent target + 2 ≤ XMLParser.spent source + weight [data]
  entity : source.state = .amp → data ≠ 0x5d ∧ (target.state = .amp ∨ target.state = .none)
  tag : source.state = .tag → target.state = .tag ∨
    XMLParser.spent target + 1 ≤ XMLParser.spent source + weight [data]

section Steps

variable {source target : XMLParser} {data : UInt8}

theorem weight_pos (data : UInt8) : 1 ≤ weight [data] := Nat.le_add_right 1 _

theorem weight_le (data : UInt8) : weight [data] ≤ 2 :=
  Nat.add_le_add_left (List.count_le_length) 1

/-- A name that is empty stands for nothing. -/
theorem character_null (text : Text) : character (0 :: text) = some none := rfl

/-- A buffer that has been emptied silently. -/
theorem spent_silent (bufpos : target.bufpos = 0)
    (silent : said target.calls = said source.calls) :
    XMLParser.spent target ≤ XMLParser.spent source := by
  rw [XMLParser.spent, held_nil bufpos, silent]
  exact Nat.add_le_add_left (Nat.zero_le _) _

/-- The name of a reference is not empty where it stands for a character. -/
theorem named_character (room : source.bufpos < source.buffer.length) {cp : UInt8}
    (known : character (source.buffer.set source.bufpos 0) = some (some cp)) :
    source.bufpos ≠ 0 := by
  intro start
  obtain ⟨first, rest, split⟩ := List.exists_cons_of_length_pos (start ▸ room)
  rw [start, split] at known
  have impossible := (character_null rest).symm.trans known
  cases impossible

/-- A character counts no more than the name that it is handed out for. -/
theorem spent_character (room : source.bufpos < source.buffer.length)
    (named_ : source.bufpos ≠ 0) (cp : UInt8) :
    XMLParser.spent { (({ source with buffer := source.buffer.set source.bufpos 0 } :
        XMLParser).call (.characters [cp])) with bufpos := 0, state := .none } ≤
      XMLParser.spent source + weight [data] := by
  have nothing : held { (({ source with buffer := source.buffer.set source.bufpos 0 } :
      XMLParser).call (.characters [cp])) with bufpos := 0, state := .none } = [] :=
    List.take_zero
  rw [XMLParser.spent, nothing]
  show weight (said (source.calls ++ [.characters [cp]])) + 0 ≤ _
  rw [said_append, weight_append]
  have one : weight (said [.characters [cp]]) = weight [cp] := rfl
  have most := weight_le cp
  have least := weight_pos data
  have name : 1 ≤ weight source.held := by
    refine le_trans ?_ (Nat.le_add_right _ _)
    rw [length_held room.le]
    exact Nat.one_le_iff_ne_zero.mpr named_
  rw [one, XMLParser.spent]
  omega

/-- A reference goes on, or leads back to the content. -/
theorem kept_reference (state : source.state = .amp) (placed : Placed target)
    (notBracket : data ≠ 0x5d) (size : target.buffer.length = source.buffer.length)
    (spent_ : XMLParser.spent target ≤ XMLParser.spent source + weight [data])
    (leads : target.state = .amp ∨ target.state = .none) : Kept source data target where
  size := size
  placed := placed
  spent := spent_
  content other := absurd (state.symm.trans other) (by decide)
  entity _ := ⟨notBracket, leads⟩
  tag other := absurd (state.symm.trans other) (by decide)

/-- Within a comment, a section or a declaration it is only counted what is left. -/
theorem kept_section
    (within : source.state = .comment ∨ source.state = .cdata ∨ source.state = .dtd)
    (placed : Placed target) (size : target.buffer.length = source.buffer.length)
    (spent_ : XMLParser.spent target ≤ XMLParser.spent source + weight [data]) :
    Kept source data target := by
  have outside : source.state ≠ .none ∧ source.state ≠ .amp ∧ source.state ≠ .tag := by
    rcases within with state | state | state
    · rw [state]; decide
    · rw [state]; decide
    · rw [state]; decide
  exact {
    size := size
    placed := placed
    spent := spent_
    content := fun none => absurd none outside.1
    entity := fun amp => absurd amp outside.2.1
    tag := fun tag => absurd tag outside.2.2 }

/-- The character that ends a tag is lost. -/
theorem kept_lost (state : source.state = .tag) (placed : Placed target)
    (size : target.buffer.length = source.buffer.length)
    (less : XMLParser.spent target ≤ XMLParser.spent source) : Kept source data target where
  size := size
  placed := placed
  spent := less.trans (Nat.le_add_right _ _)
  content other := absurd (state.symm.trans other) (by decide)
  entity other := absurd (state.symm.trans other) (by decide)
  tag _ := Or.inr (Nat.add_le_add less (weight_pos data))

theorem kept_amp (state : source.state = .amp) (placed : Placed source)
    (read : source.partialChar data = next target) : Kept source data target := by
  have dcount : source.dcount = 0 := placed.dcount (by rw [state]; decide)
  rw [partialChar, state] at read
  dsimp only at read
  split at read
  next name =>
    obtain ⟨middle, put_, read⟩ := Option.bind_eq_some_iff.mp read
    unfold put at put_
    split at put_
    next room =>
      cases put_
      cases read
      have notBracket : data ≠ 0x5d := by
        rintro rfl
        rcases name with hash | element
        · exact absurd hash.2 (by decide)
        · exact absurd element (by decide)
      exact kept_reference state ⟨fun other => absurd state other, fun _ => dcount⟩ notBracket
        List.length_set (spent_store room data).le (Or.inl state)
    next => cases put_
  next =>
    split at read
    · cases read
    next semicolon =>
      have semicolon : data = 0x3b := not_not.mp semicolon
      have notBracket : data ≠ 0x5d := by
        rw [semicolon]
        decide
      obtain ⟨middle, put_, read⟩ := Option.bind_eq_some_iff.mp read
      unfold put at put_
      split at put_
      next room =>
        cases put_
        obtain ⟨found, known, read⟩ := Option.bind_eq_some_iff.mp read
        cases found with
        | none => cases read
        | some cp =>
          cases read
          have size : (source.buffer.set source.bufpos 0).length = source.buffer.length :=
            List.length_set
          have start : 0 < (source.buffer.set source.bufpos 0).length :=
            (Nat.zero_lt_of_lt room).trans_eq size.symm
          exact kept_reference state ⟨fun _ => start, fun _ => dcount⟩ notBracket size
            (spent_character room (named_character room known) cp) (Or.inr rfl)
      next => cases put_

/-- What clearing the buffer leaves as it was. -/
theorem cleared (parser : XMLParser) :
    parser.clearBuffer.buffer.length = parser.buffer.length ∧
      parser.clearBuffer.dcount = parser.dcount ∧ parser.clearBuffer.bufpos = 0 := by
  rw [clearBuffer_eq]
  split <;> exact ⟨rfl, rfl, rfl⟩

/-- What is neither a `<` nor a `&` in the content, and what is put into a tag or a section. -/
theorem kept_stored (outside : source.state ≠ .amp ∧ source.state ≠ .dtd) (placed : Placed source)
    (stored : source.putBuffer data = some target) (stays : target.state = source.state) :
    Kept source data target := by
  obtain ⟨room, size, dcount, spent_⟩ := spent_putBuffer (placed.room outside.1) stored
  exact {
    size := size
    placed := ⟨fun _ => room, fun _ => dcount.trans (placed.dcount outside.2)⟩
    spent := spent_
    content := fun none => Or.inl (stays.trans none)
    entity := fun amp => absurd amp outside.1
    tag := fun tag => Or.inl (stays.trans tag) }

theorem kept_tag (state : source.state = .tag) (placed : Placed source)
    (read : source.partialChar data = next target) : Kept source data target := by
  have outside : source.state ≠ .amp ∧ source.state ≠ .dtd := by rw [state]; decide
  have room := placed.room outside.1
  have dcount := placed.dcount outside.2
  have start : 0 < source.buffer.length := Nat.zero_lt_of_lt room
  -- a mark says nothing, and keeps the buffer or empties it
  have kept_ : Kept source data { source with state := .cdata } :=
    kept_lost state ⟨fun _ => room, fun _ => dcount⟩ rfl le_rfl
  have emptied : ∀ state' : State, Kept source data { source with state := state', bufpos := 0 } :=
    fun _ => kept_lost state ⟨fun _ => start, fun _ => dcount⟩ rfl (spent_silent rfl rfl)
  rw [partialChar, state] at read
  dsimp only at read
  split at read
  · obtain ⟨⟨accepted, middle⟩, tag_, read⟩ := Option.bind_eq_some_iff.mp read
    cases accepted with
    | false => cases read
    | true =>
      cases read
      obtain ⟨bufpos, size, dcount', said_⟩ :=
        @emptied_parseTag { source with state := .none } middle room.le tag_
      have within : middle.bufpos < middle.buffer.length := by
        rw [bufpos, size]
        exact start
      exact kept_lost state ⟨fun _ => within, fun _ => dcount'.trans dcount⟩ size
        (spent_silent bufpos said_)
  obtain ⟨cdata, _, read⟩ := Option.bind_eq_some_iff.mp read
  split at read
  · cases read
    exact kept_
  obtain ⟨comment, _, read⟩ := Option.bind_eq_some_iff.mp read
  split at read
  · cases read
    exact emptied .comment
  obtain ⟨dtd, _, read⟩ := Option.bind_eq_some_iff.mp read
  split at read
  · cases read
    exact emptied .dtd
  obtain ⟨middle, put_, read⟩ := Option.bind_eq_some_iff.mp read
  cases read
  exact kept_stored outside placed put_ (state_putBuffer put_)

theorem kept_comment (state : source.state = .comment) (placed : Placed source)
    (read : source.partialChar data = next target) : Kept source data target := by
  have outside : source.state ≠ .amp ∧ source.state ≠ .dtd := by rw [state]; decide
  have room := placed.room outside.1
  have dcount := placed.dcount outside.2
  -- what is left of a parser that has emptied its buffer into comments
  have emptied : ∀ middle : XMLParser, middle.buffer.length = source.buffer.length →
      middle.dcount = 0 → said middle.calls = said source.calls → middle.bufpos = 0 →
      Kept source data middle := by
    intro middle size dcount' said_ bufpos
    have within : middle.bufpos < middle.buffer.length := by
      rw [bufpos, size]
      exact Nat.zero_lt_of_lt room
    exact kept_section (Or.inl state) ⟨fun _ => within, fun _ => dcount'⟩ size
      ((spent_silent bufpos said_).trans (Nat.le_add_right _ _))
  rw [partialChar, state] at read
  dsimp only at read
  obtain ⟨closes, _, read⟩ := Option.bind_eq_some_iff.mp read
  split at read
  · split at read
    · cases read
      exact emptied _ rfl dcount (said_call source rfl) rfl
    · cases read
      exact emptied _ rfl dcount rfl rfl
  · obtain ⟨middle, put_, read⟩ := Option.bind_eq_some_iff.mp read
    unfold put at put_
    rw [if_pos room] at put_
    cases put_
    have size : (source.buffer.set source.bufpos data).length = source.buffer.length :=
      List.length_set
    split at read
    · cases read
      exact emptied _ size dcount (said_call source rfl) rfl
    next more =>
      cases read
      have inside : source.bufpos + 1 < source.buffer.length :=
        lt_of_le_of_ne room fun last => more (last.trans size.symm)
      exact kept_section (Or.inl state)
        ⟨fun _ => inside.trans_eq size.symm, fun _ => dcount⟩ size (spent_store room data).le

theorem kept_cdata (state : source.state = .cdata) (placed : Placed source)
    (read : source.partialChar data = next target) : Kept source data target := by
  have outside : source.state ≠ .amp ∧ source.state ≠ .dtd := by rw [state]; decide
  rw [partialChar, state] at read
  dsimp only at read
  obtain ⟨middle, put_, read⟩ := Option.bind_eq_some_iff.mp read
  have held_ := kept_stored outside placed put_ (state_putBuffer put_)
  split at read
  · obtain ⟨closes, _, read⟩ := Option.bind_eq_some_iff.mp read
    split at read
    · cases read
      have room := held_.placed.room (by rw [state_putBuffer put_]; exact outside.1)
      have dcount := held_.placed.dcount (by rw [state_putBuffer put_]; exact outside.2)
      let cut : XMLParser := { middle with bufpos := middle.bufpos - 3, state := .none }
      have less : spent cut.clearBuffer ≤ spent middle :=
        (spent_clearBuffer cut).trans (spent_cut middle (Nat.sub_le _ _) .none)
      obtain ⟨size, dcount', bufpos⟩ := cleared cut
      have start : cut.clearBuffer.bufpos < cut.clearBuffer.buffer.length := by
        rw [bufpos, size]
        exact Nat.zero_lt_of_lt room
      exact kept_section (Or.inr (Or.inl state))
        ⟨fun _ => start, fun _ => dcount'.trans dcount⟩ (size.trans held_.size)
        (less.trans held_.spent)
    · cases read
      exact held_
  · cases read
    exact held_

theorem kept_dtd (state : source.state = .dtd) (placed : Placed source)
    (read : source.partialChar data = next target) : Kept source data target := by
  have room := placed.room (by rw [state]; decide)
  have declared : ∀ (dcount : Int32) (state' : State), (state' ≠ .dtd → dcount = 0) →
      Kept source data { source with dcount := dcount, state := state' } :=
    fun _ _ none => kept_section (Or.inr (Or.inr state)) ⟨fun _ => room, none⟩ rfl
      (Nat.le_add_right _ _)
  rw [partialChar, state] at read
  dsimp only at read
  split at read
  · cases read
    exact declared _ .dtd fun other => absurd rfl other
  split at read
  · cases read
    exact declared _ .dtd fun other => absurd rfl other
  split at read
  next counted closes =>
    cases read
    have none : source.dcount = 0 := not_not.mp fun some => counted ⟨closes, some⟩
    exact declared source.dcount .none fun _ => none
  · cases read
    exact declared source.dcount source.state fun other => absurd state other

theorem kept_none (state : source.state = .none ∨ source.state = .ended) (placed : Placed source)
    (read : source.partialChar data = next target) : Kept source data target := by
  have outside := outside_text state
  have room := placed.room outside.1
  have dcount := placed.dcount outside.2.1
  have left : ∀ state' : State, state' = .amp ∨ state' = .tag ∧ data = 0x3c →
      Kept source data { source.clearBuffer with state := state' } := by
    intro state' kind
    have less : spent { source.clearBuffer with state := state' } ≤ spent source :=
      spent_clearBuffer source
    obtain ⟨size, dcount', bufpos⟩ := cleared source
    have start : source.clearBuffer.bufpos < source.clearBuffer.buffer.length := by
      rw [bufpos, size]
      exact Nat.zero_lt_of_lt room
    exact {
      size := size
      placed := ⟨fun _ => start, fun _ => dcount'.trans dcount⟩
      spent := less.trans (Nat.le_add_right _ _)
      content := fun _ => by
        rcases kind with amp | ⟨tag, lost⟩
        · exact Or.inr (Or.inl amp)
        · rw [lost]
          exact Or.inr (Or.inr ⟨tag, Nat.add_le_add_right less 2⟩)
      entity := fun amp => absurd amp outside.1
      tag := fun tag => absurd tag outside.2.2 }
  rw [partialChar_text state] at read
  split at read
  next lost =>
    cases read
    exact left .tag (Or.inr ⟨rfl, lost⟩)
  split at read
  · cases read
    exact left .amp (Or.inl rfl)
  split at read
  · obtain ⟨middle, put_, read⟩ := Option.bind_eq_some_iff.mp read
    cases read
    exact kept_stored ⟨outside.1, outside.2.1⟩ placed put_ (state_putBuffer put_)
  · cases read
    exact {
      size := rfl
      placed := placed
      spent := Nat.le_add_right _ _
      content := Or.inl
      entity := fun amp => absurd amp outside.1
      tag := fun tag => absurd tag outside.2.2 }

/-- Whatever the state, a character leaves this. -/
theorem kept (placed : Placed source) (read : source.partialChar data = next target) :
    Kept source data target := by
  cases state : source.state with
  | amp => exact kept_amp state placed read
  | tag => exact kept_tag state placed read
  | comment => exact kept_comment state placed read
  | cdata => exact kept_cdata state placed read
  | dtd => exact kept_dtd state placed read
  | none => exact kept_none (Or.inl state) placed read
  | ended => exact kept_none (Or.inr state) placed read

end Steps

/-! ### Documents -/

section Documents

variable {source target : XMLParser} {text : Text}

/-- What is lost of a text in a tag, where two characters are lost at once, and behind it. -/
def Behind (source : XMLParser) (text : Text) (target : XMLParser) : Prop :=
  target.state = .tag ∧ spent target + 2 ≤ spent source + weight text ∨
    spent target + 3 ≤ spent source + weight text

/-- What has been lost of a text that is read from the content. -/
structure Lost (source : XMLParser) (text : Text) (target : XMLParser) : Prop where
  size : target.buffer.length = source.buffer.length
  placed : Placed target
  spent : spent target ≤ spent source + weight text
  lost : target.state = .none ∨ target.state = .amp ∨ Behind source text target

theorem Behind.step {data : UInt8} {middle : XMLParser} (behind : Behind source text middle)
    (step : Kept middle data target) : Behind source (text ++ [data]) target := by
  have less := step.spent
  rw [Behind, weight_append]
  rcases behind with ⟨state, two⟩ | three
  · rcases step.tag state with tag | more
    · exact Or.inl ⟨tag, by omega⟩
    · exact Or.inr (by omega)
  · exact Or.inr (by omega)

theorem Lost.step {data : UInt8} {middle : XMLParser} (lost : Lost source text middle)
    (read : middle.partialChar data = next target) : Lost source (text ++ [data]) target := by
  obtain ⟨size, placed, spent_, lost⟩ := lost
  have step := kept placed read
  have less := step.spent
  refine ⟨step.size.trans size, step.placed, by rw [weight_append]; omega, ?_⟩
  rcases lost with state | state | behind
  · rcases step.content state with none | amp | ⟨tag, two⟩
    · exact Or.inl none
    · exact Or.inr (Or.inl amp)
    · exact Or.inr (Or.inr (Or.inl ⟨tag, by rw [weight_append]; omega⟩))
  · rcases (step.entity state).2 with amp | none
    · exact Or.inr (Or.inl amp)
    · exact Or.inl none
  · exact Or.inr (Or.inr (behind.step step))

/-- A text is read to its end when its first part is, and then its second. -/
theorem scan_append_iff {read : XMLParser → UInt8 → Outcome XMLParser Bool} {more : Text} :
    scan read source (text ++ more) = next target ↔
      ∃ middle, scan read source text = next middle ∧ scan read middle more = next target := by
  rw [scan_append]
  match scan read source text with
  | none => exact iff_of_false nofun nofun
  | some (some verdict, middle) => exact iff_of_false nofun nofun
  | some (none, middle) =>
    refine ⟨fun read => ⟨middle, rfl, read⟩, fun ⟨other, same, read⟩ => ?_⟩
    obtain rfl := (Prod.mk.inj (Option.some.inj same)).2
    exact read

theorem scan_singleton (read : XMLParser → UInt8 → Outcome XMLParser Bool) (parser : XMLParser)
    (data : UInt8) : scan read parser [data] = read parser data := by
  show andThen (read parser data) next = _
  match read parser data with
  | none => rfl
  | some (some _, _) => rfl
  | some (none, _) => rfl

theorem scan_snoc {read : XMLParser → UInt8 → Outcome XMLParser Bool} {data : UInt8} :
    scan read source (text ++ [data]) = next target ↔
      ∃ middle, scan read source text = next middle ∧ read middle data = next target := by
  rw [scan_append_iff]
  exact exists_congr fun middle => and_congr_right fun _ => by rw [scan_singleton]

/-- What is lost once stays lost. -/
theorem Behind.run {middle : XMLParser} (behind : Behind source text middle)
    (placed : Placed middle) {more : Text} (read : scan partialChar middle more = next target) :
    Behind source (text ++ more) target := by
  induction more generalizing text middle with
  | nil =>
    cases read
    rwa [List.append_nil]
  | cons data more inductionHypothesis =>
    obtain ⟨next_, step, rest⟩ :=
      scan_append_iff.mp (show scan partialChar middle ([data] ++ more) = _ from read)
    rw [scan_singleton] at step
    have stepped := kept placed step
    have whole := inductionHypothesis (behind.step stepped) stepped.placed rest
    rwa [List.append_assoc] at whole

/-- Every text that is read from the content loses so much. -/
theorem lost_of_scan (state : source.state = .none) (placed : Placed source)
    (read : scan partialChar source text = next target) : Lost source text target := by
  induction text using List.reverseRecOn generalizing target with
  | nil =>
    cases read
    exact ⟨rfl, placed, Nat.le_add_right _ _, Or.inl state⟩
  | append_singleton text data inductionHypothesis =>
    obtain ⟨middle, before, last⟩ := scan_snoc.mp read
    exact (inductionHypothesis before).step last

/-- A parser that has just been set up for a document. -/
theorem placed_reset (parser : XMLParser) (large : 0 < parser.buffer.length) :
    Placed parser.reset := ⟨fun _ => large, fun _ => rfl⟩

end Documents

/-! ### Marks -/

section Marks

variable {parser : XMLParser} {c : UInt8}

/-- A reader goes on with the rest of a text. -/
theorem Reader.scan_cons (reader : Reader) {source target : XMLParser} {data : UInt8}
    (open_ : source.state ≠ .ended) (stays : target.state ≠ .ended)
    (read : source.partialChar data = next target) (text : Text) :
    scan reader.read source (data :: text) = scan reader.read target text := by
  rw [scan, (reader.read_iff open_ stays).mpr read]
  rfl

theorem length_store (parser : XMLParser) (c : UInt8) :
    (store parser c).buffer.length = parser.buffer.length := List.length_set

/-- The start of a tag. -/
def entered (parser : XMLParser) : XMLParser := { parser.clearBuffer with state := .tag }

theorem entered_eq (parser : XMLParser) :
    (entered parser).buffer = parser.buffer ∧ (entered parser).ecount = parser.ecount ∧
      (entered parser).dcount = parser.dcount := by
  unfold entered
  rw [clearBuffer_eq]
  split <;> exact ⟨rfl, rfl, rfl⟩

theorem read_opens (state : parser.state = .none) :
    parser.partialChar 0x3c = next (entered parser) := by
  rw [partialChar, state]
  rfl

/-- A character of a tag that ends no mark. -/
theorem read_tag (state : parser.state = .tag) (room : parser.bufpos + 1 < parser.buffer.length)
    (close : c ≠ 0x3e)
    (cdata : c = 0x5b ∧ parser.bufpos = 7 → strncmp (· = ·) parser.buffer cdataTag = some false)
    (comment : c = 0x2d ∧ parser.bufpos = 2 →
      strncmp (· = ·) parser.buffer commentTag = some false)
    (doctype : c = 0x5b → strncmp (· = ·) parser.buffer doctypeTag = some false) :
    parser.partialChar c = next (store parser c) := by
  have unmarked : ∀ (place : Prop) [Decidable place] (tag : Text),
      (place → strncmp (· = ·) parser.buffer tag = some false) →
      (if place then strncmp (· = ·) parser.buffer tag else some false) = some false := by
    intro place _ tag differs
    by_cases here : place
    · rw [if_pos here, differs here]
    · rw [if_neg here]
  have stored := putBuffer_eq (Nat.lt_of_succ_lt room) c
  rw [if_neg (Nat.ne_of_lt room)] at stored
  rw [partialChar, state]
  dsimp only
  rw [if_neg close, unmarked _ _ cdata, unmarked _ _ comment, unmarked _ _ doctype, stored]
  rfl

/-- A character of a tag that is none of a mark. -/
theorem read_plain (state : parser.state = .tag) (room : parser.bufpos + 1 < parser.buffer.length)
    (plain : c ≠ 0x3e ∧ c ≠ 0x5b ∧ c ≠ 0x2d) : parser.partialChar c = next (store parser c) :=
  read_tag state room plain.1 (fun same => absurd same.1 plain.2.1)
    (fun same => absurd same.1 plain.2.2) fun same => absurd same plain.2.1

/-- So is any in a tag that does not begin with a `!`. -/
theorem read_unmarked (state : parser.state = .tag)
    (room : parser.bufpos + 1 < parser.buffer.length) (close : c ≠ 0x3e) {first : UInt8}
    {rest : Text} (begins : parser.buffer = first :: rest) (unmarked : first ≠ 0x21) :
    parser.partialChar c = next (store parser c) := by
  have differs : ∀ tag : Text,
      strncmp (· = ·) parser.buffer (0x21 :: tag) = some false := by
    intro tag
    rw [begins, strncmp, if_neg (by rwa [decide_eq_true_eq])]
  exact read_tag state room close (fun _ => differs _) (fun _ => differs _) fun _ => differs _

/-- A tag, or a name, stands in the buffer as far as it was read. -/
structure Holding (state : State) (calls : List Callback) (ecount : Int32) (text : Text)
    (parser : XMLParser) : Prop where
  state : parser.state = state
  calls : parser.calls = calls
  ecount : parser.ecount = ecount
  within : parser.bufpos ≤ parser.buffer.length
  held : parser.held = text

theorem Holding.bufpos {state : State} {calls : List Callback} {ecount : Int32} {text : Text}
    (holding : Holding state calls ecount text parser) : parser.bufpos = text.length := by
  rw [← holding.held, length_held holding.within]

theorem Holding.store {state : State} {calls : List Callback} {ecount : Int32} {text : Text}
    (holding : Holding state calls ecount text parser)
    (room : parser.bufpos < parser.buffer.length) (c : UInt8) :
    Holding state calls ecount (text ++ [c]) (parser.store c) where
  state := holding.state
  calls := holding.calls
  ecount := holding.ecount
  within := by
    rw [length_store]
    exact room
  held := by rw [held_store room, holding.held]

theorem holding_entered (parser : XMLParser) :
    Holding .tag parser.clearBuffer.calls parser.ecount [] (entered parser) where
  state := rfl
  calls := rfl
  ecount := (entered_eq parser).2.1
  within := Nat.zero_le _
  held := held_nil rfl

/-- Characters that are stored one after the other. -/
theorem Holding.run (reader : Reader) {state : State} (notEnded : state ≠ .ended)
    {calls : List Callback} {ecount : Int32} {text more : Text}
    (holding : Holding state calls ecount text parser)
    (room : text.length + more.length < parser.buffer.length)
    (stores : ∀ {early late : Text} {c : UInt8} {middle : XMLParser}, more = early ++ c :: late →
      Holding state calls ecount (text ++ early) middle →
      middle.bufpos + 1 < middle.buffer.length → middle.partialChar c = next (middle.store c)) :
    ∃ target, Holding state calls ecount (text ++ more) target ∧
      target.buffer.length = parser.buffer.length ∧
      ∀ rest, scan reader.read parser (more ++ rest) = scan reader.read target rest := by
  induction more generalizing text parser with
  | nil => exact ⟨parser, (List.append_nil text).symm ▸ holding, rfl, fun _ => rfl⟩
  | cons c more inductionHypothesis =>
    rw [← holding.bufpos, List.length_cons] at room
    have step : parser.partialChar c = next (parser.store c) :=
      @stores [] more c parser rfl ((List.append_nil text).symm ▸ holding) (by omega)
    obtain ⟨target, holding', length, later⟩ :=
      inductionHypothesis (holding.store (by omega) c)
        (by rw [length_store, List.length_append, ← holding.bufpos, List.length_singleton]; omega)
        (fun {early late other middle} split holding' =>
          @stores (c :: early) late other middle (by rw [split]; rfl)
            (by rwa [List.append_assoc] at holding'))
    rw [List.append_assoc] at holding'
    refine ⟨target, holding', length.trans (length_store _ _), fun rest => ?_⟩
    have open_ : parser.state ≠ .ended := holding.state ▸ notEnded
    have stays : (parser.store c).state ≠ .ended := open_
    rw [List.cons_append, reader.scan_cons open_ stays step, later]

/-- Characters that are none of a mark. -/
theorem Holding.plain (reader : Reader) {calls : List Callback} {ecount : Int32} {text more : Text}
    (tagged : Holding .tag calls ecount text parser)
    (room : text.length + more.length < parser.buffer.length)
    (plain : ∀ c ∈ more, c ≠ 0x3e ∧ c ≠ 0x5b ∧ c ≠ 0x2d) :
    ∃ target, Holding .tag calls ecount (text ++ more) target ∧
      target.buffer.length = parser.buffer.length ∧
      ∀ rest, scan reader.read parser (more ++ rest) = scan reader.read target rest := by
  refine tagged.run reader State.noConfusion room fun {early late c middle} split tagged' room' =>
    read_plain tagged'.state room' (plain c ?_)
  rw [split]
  exact List.mem_append_right _ List.mem_cons_self

/-- The characters of a tag that does not begin with a `!`. -/
theorem Holding.unmarked (reader : Reader) {calls : List Callback} {ecount : Int32} {first : UInt8}
    {text more : Text} (tagged : Holding .tag calls ecount (first :: text) parser)
    (room : (first :: text).length + more.length < parser.buffer.length) (close : 0x3e ∉ more)
    (other : first ≠ 0x21) :
    ∃ target, Holding .tag calls ecount (first :: text ++ more) target ∧
      target.buffer.length = parser.buffer.length ∧
      ∀ rest, scan reader.read parser (more ++ rest) = scan reader.read target rest := by
  refine tagged.run reader State.noConfusion room
    fun {early late c middle} split tagged' room' => ?_
  have here : c ≠ 0x3e := by
    rintro rfl
    rw [split] at close
    exact close (List.mem_append_right _ List.mem_cons_self)
  have begins : middle.buffer = first :: (text ++ early ++ middle.buffer.drop middle.bufpos) :=
    calc middle.buffer
        = middle.held ++ middle.buffer.drop middle.bufpos := (List.take_append_drop _ _).symm
      _ = _ := by rw [tagged'.held]; rfl
  exact read_unmarked tagged'.state room' here begins other

/-- The end of a tag. -/
theorem read_close (state : parser.state = .tag) {target : XMLParser}
    (tag : parseTag { parser with state := .none } = some (true, target)) :
    parser.partialChar 0x3e = next target := by
  rw [partialChar, state]
  dsimp only
  rw [if_pos rfl, tag]
  rfl

theorem read_commentMark (state : parser.state = .tag) (place : parser.bufpos = 2)
    (marked : strncmp (· = ·) parser.buffer commentTag = some true) :
    parser.partialChar 0x2d = next { parser with state := .comment, bufpos := 0 } := by
  rw [partialChar, state]
  dsimp only
  rw [if_neg (by decide), if_neg (fun both => absurd both.1 (by decide)), if_pos ⟨rfl, place⟩,
    marked]
  rfl

theorem read_cdataMark (state : parser.state = .tag) (place : parser.bufpos = 7)
    (marked : strncmp (· = ·) parser.buffer cdataTag = some true) :
    parser.partialChar 0x5b = next { parser with state := .cdata } := by
  rw [partialChar, state]
  dsimp only
  rw [if_neg (by decide), if_pos ⟨rfl, place⟩, marked]
  rfl

theorem read_doctypeMark (state : parser.state = .tag) (place : parser.bufpos ≠ 7)
    (marked : strncmp (· = ·) parser.buffer doctypeTag = some true) :
    parser.partialChar 0x5b = next { parser with state := .dtd, bufpos := 0 } := by
  rw [partialChar, state]
  dsimp only
  rw [if_neg (by decide), if_neg (fun both => place both.2),
    if_neg (fun both => absurd both.1 (by decide)), if_pos rfl, marked]
  rfl

end Marks

/-! ### Plain text -/

section Plain

variable {before : List Callback} {text : Text} {parser : XMLParser} {c : UInt8}

/-- Outside of the elements a parser waits for a tag. -/
theorem read_outside (state : parser.state = .none) (outside : parser.ecount = 0)
    (plain : c ≠ 0x3c) : parser.partialChar c = next parser := by
  rw [partialChar, state]
  dsimp only
  rw [if_neg plain, if_neg fun both => both.1 outside, if_neg (not_not.mpr outside)]

theorem read_text (state : parser.state = .none) (inside : parser.ecount ≠ 0)
    (gathers : Gathers .characters before text parser) (plain : c ≠ 0x3c ∧ c ≠ 0x26) :
    ∃ target, parser.partialChar c = next target ∧
      Gathers .characters before (text ++ [c]) target ∧ target.state = .none ∧
      target.ecount = parser.ecount ∧ target.buffer.length = parser.buffer.length := by
  obtain ⟨target, stored, gathers', state', ecount, buffer⟩ := gathers.putBuffer inside c
  refine ⟨target, ?_, gathers', state'.trans state, ecount, ?_⟩
  · rw [partialChar, state]
    dsimp only
    rw [if_neg plain.1, if_neg fun both => plain.2 both.2, if_pos inside, stored]
    rfl
  · rw [buffer, List.length_set]

theorem run_text (reader : Reader) (state : parser.state = .none) (inside : parser.ecount ≠ 0)
    (gathers : Gathers .characters before text parser) {more : Text}
    (plain : ∀ c ∈ more, c ≠ 0x3c ∧ c ≠ 0x26) :
    ∃ target, scan reader.read parser more = next target ∧
      Gathers .characters before (text ++ more) target ∧ target.state = .none ∧
      target.ecount = parser.ecount ∧ target.buffer.length = parser.buffer.length := by
  induction more generalizing text parser with
  | nil => exact ⟨parser, rfl, (List.append_nil text).symm ▸ gathers, state, rfl, rfl⟩
  | cons c more inductionHypothesis =>
    obtain ⟨middle, step, gathers', state', ecount, length⟩ :=
      read_text state inside gathers (plain c List.mem_cons_self)
    obtain ⟨target, read, gathers'', state'', ecount', length'⟩ :=
      inductionHypothesis state' (ecount ▸ inside) gathers' fun other member =>
        plain other (List.mem_cons_of_mem _ member)
    rw [List.append_assoc] at gathers''
    refine ⟨target, ?_, gathers'', state'', ecount'.trans ecount, length'.trans length⟩
    rw [reader.scan_cons (by rw [state]; decide) (by rw [state']; decide) step]
    exact read

end Plain

end XMLParser

end CommonCpp
