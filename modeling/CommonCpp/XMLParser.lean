/-
This file models `XMLParser` as it reads a document from memory: whole, with `parse`, or in pieces,
with `partial`.

A parser is what it keeps between two characters, and the calls of its virtual functions so
far, each with what it is given to read. An index that leaves the buffer, or the array of the
attributes, has no outcome. What the buffer held before stays in it, and some comparisons read it.

The characters are those of the "C" locale. An `int` that counts elements wraps at 32 bits.
-/

import CommonCpp.Bytes
import CommonCpp.Scanner

namespace CommonCpp

open Bytes Ctype Scanner

namespace XMLParser

/-! ### The parser -/

/-- The enumeration of the states, where `ended` is `END`. -/
inductive State
  | tag
  | cdata
  | comment
  | dtd
  | amp
  | none
  | ended
  deriving DecidableEq

/-- A call of a virtual function. A text is what is read up to its null, or up to its size. -/
inductive Callback
  | comment (text : Text)
  | characters (text : Text)
  | startDocument
  | endDocument
  | startElement (name : Text) (attr : List Text)
  | endElement (name : Text)
  deriving DecidableEq

end XMLParser

/-- `XMLParser`, and the calls it has made. The size of the buffer is `bufsize`. -/
structure XMLParser where
  ecount : Int32
  dcount : Int32
  state : XMLParser.State
  buffer : Text
  bufpos : ℕ
  calls : List XMLParser.Callback
  deriving DecidableEq

namespace XMLParser

def isElement (c : UInt8) : Bool := isalnum c ∨ c = 0x3a ∨ c = 0x2d ∨ c = 0x2e ∨ c = 0x5f

/-- `buffer[index] = c`. -/
def put (parser : XMLParser) (index : ℕ) (c : UInt8) : Option XMLParser :=
  if index < parser.buffer.length then
    some { parser with buffer := parser.buffer.set index c }
  else none

def call (parser : XMLParser) (callback : Callback) : XMLParser :=
  { parser with calls := parser.calls ++ [callback] }

/-- The bytes that stand in the buffer. -/
def held (parser : XMLParser) : Text := parser.buffer.take parser.bufpos

def putBuffer (parser : XMLParser) (c : UInt8) : Option XMLParser := do
  let parser ← parser.put parser.bufpos c
  let parser := { parser with bufpos := parser.bufpos + 1 }
  if parser.bufpos ≥ parser.buffer.length then
    let parser := if parser.ecount ≠ 0 then parser.call (.characters parser.held) else parser
    some { parser with bufpos := 0 }
  else some parser

def clearBuffer (parser : XMLParser) : XMLParser :=
  let parser :=
    if parser.bufpos ≠ 0 ∧ parser.ecount ≠ 0 then parser.call (.characters parser.held) else parser
  { parser with bufpos := 0 }

/-! ### Comparisons -/

/-- `String::equal`, where the first text stands in a memory that is read up to where the two
differ. -/
def equal : Text → Text → Option Bool
  | [], _ => none
  | char :: _, [] => some (char = 0)
  | char :: s1, other :: s2 => if char = other then equal s1 s2 else some false

/-- Whether `strncmp` or `strnicmp` takes the two for the same, as far as the second text goes. -/
def strncmp (same : UInt8 → UInt8 → Bool) : Text → Text → Option Bool
  | _, [] => some true
  | [], _ :: _ => none
  | char :: s1, other :: s2 => if same char other then strncmp same s1 s2 else some false

/-- Where `strchr` finds the character in a memory, if it does before the null. -/
def strchr (c : UInt8) : Text → Option (Option ℕ)
  | [] => none
  | char :: text =>
    if char = c then some (some 0)
    else if char = 0 then some none
    else (strchr c text).map fun found => found.map (· + 1)

/-- The names of characters, `amp`, `lt`, `gt`, `apos` and `quot`, and what each stands for. -/
def names : List (Text × UInt8) :=
  [([0x61, 0x6d, 0x70], 0x26), ([0x6c, 0x74], 0x3c), ([0x67, 0x74], 0x3e),
    ([0x61, 0x70, 0x6f, 0x73], 0x60), ([0x71, 0x75, 0x6f, 0x74], 0x22)]

/-- What the name in the buffer stands for: the comparisons with each name in turn. -/
def named (buffer : Text) : List (Text × UInt8) → Option (Option UInt8)
  | [] => some none
  | (name, cp) :: names => do
    if ← equal buffer name then some (some cp) else named buffer names

/-- The character that is written as a number or by a name. -/
def character (buffer : Text) : Option (Option UInt8) := do
  let first ← buffer.head?
  if first = 0x23 then some (some (UInt8.ofInt (atol (buffer.drop 1)))) else named buffer names

/-! ### Tags -/

/-- `while(--len)` with its `break`, over what the buffer holds behind its first character. -/
def endName (len : ℕ) : Text → Option ℕ
  | [] => if (len + 2 ^ 64 - 1) % 2 ^ 64 = 0 then some 0 else none
  | char :: data =>
    let len := (len + 2 ^ 64 - 1) % 2 ^ 64
    if len = 0 then some 0 else if isElement char then endName len data else some len

/-- The branch of `parseTag` for the end of an element. -/
def endTag (parser : XMLParser) : Option (Bool × XMLParser) := do
  let len ← endName parser.bufpos (parser.buffer.drop 1)
  if len ≠ 0 then some (false, parser)
  else
    let parser ← parser.put parser.bufpos 0
    let parser := parser.call (.endElement (string (parser.buffer.drop 1)))
    let parser := { parser with bufpos := 0, ecount := parser.ecount - 1 }
    if parser.ecount < 0 then some (false, parser)
    else if parser.ecount = 0 then
      some (true, { parser with state := .ended }.call .endDocument)
    else some (true, parser)

/-- How many characters of an element stand in the buffer from a place on. -/
def span (bufpos : ℕ) (buffer : Text) (len : ℕ) : ℕ :=
  (((buffer.take bufpos).drop len).takeWhile isElement).length

/-- The loop over white space before an attribute, which may refuse what it finds. -/
def blanks : (room len : ℕ) → Text → Option (Bool × ℕ × Text)
  | room, len, buffer => do
    let char ← buffer[len]?
    match room with
    | 0 => some (true, len, buffer)
    | room + 1 =>
      if isElement char then some (true, len, buffer)
      else if !isspace char then some (false, len, buffer)
      else blanks room (len + 1) (buffer.set len 0)

/-- What may come after the name of an attribute: nothing good, or a pointer to its value, after
which there may be more. No pointer into the buffer is one to an empty text. -/
inductive Value
  | refused
  | last (value : Option ℕ)
  | more (value : Option ℕ)

/-- The part of the loop over the attributes that comes after the `=`. A value without quotes is a
pointer to the start of the buffer. -/
def value (bufpos len : ℕ) (buffer : Text) : Option (Value × ℕ × Text) :=
  if len = bufpos then some (.last none, len, buffer)
  else do
    let quote ← buffer[len]?
    if isspace quote then some (.more none, len, buffer)
    else if quote = 0x27 ∨ quote = 0x22 then
      match ← strchr quote (buffer.drop (len + 1)) with
      | none => some (.refused, len, buffer)
      | some ep => some (.more (some (len + 1)), len + 1 + ep + 1, buffer.set (len + 1 + ep) 0)
    else if !isElement quote then some (.refused, len, buffer)
    else
      let len := len + span bufpos buffer len
      if len = bufpos then
        if len < buffer.length then some (.last (some 0), len, buffer.set len 0) else none
      else some (.more (some 0), len, buffer)

/-- The loop over the attributes, with so many places that are free in their array: whether it comes
to its end, what it makes of the buffer, and the pointers before the two that are null. -/
def attributes (bufpos : ℕ) : (free len : ℕ) → Text → List (Option ℕ) →
    Option (Bool × Text × List (Option ℕ))
  | free, len, buffer, attrib => do
    let (accepted, len, buffer) ← blanks (bufpos - len) len buffer
    if !accepted then some (false, buffer, attrib)
    else if len = bufpos then if 2 ≤ free then some (true, buffer, attrib) else none
    else
      match free with
      | 0 => none
      | free + 1 =>
        let name := some len
        let len := len + span bufpos buffer len
        if len = bufpos then some (false, buffer, attrib)
        else
          let char ← buffer[len]?
          if char ≠ 0x3d then some (false, buffer, attrib)
          else
            let (value, len, buffer) ← value bufpos (len + 1) (buffer.set len 0)
            match free, value with
            | _, .refused => some (false, buffer, attrib)
            | 0, _ => none
            | free + 1, .last value =>
              if 2 ≤ free then some (true, buffer, attrib ++ [name, value]) else none
            | free + 1, .more value => attributes bufpos free len buffer (attrib ++ [name, value])

/-- What a virtual function reads behind the pointers of an array. -/
def texts (buffer : Text) (attrib : List (Option ℕ)) : List Text :=
  attrib.map fun
    | none => []
    | some place => string (buffer.drop place)

/-- An element starts, and the document with the first. -/
def enter (parser : XMLParser) : XMLParser :=
  let parser := if parser.ecount = 0 then parser.call .startDocument else parser
  { parser with ecount := parser.ecount + 1 }

/-- What comes after `startElement`: the label `ending`, for an element that is empty. -/
def started (parser : XMLParser) (ending : Bool) : XMLParser :=
  if ending then
    let parser := { parser with ecount := parser.ecount - 1 }
    let parser := parser.call (.endElement (string parser.buffer))
    let parser :=
      if parser.ecount = 0 then { parser with state := .ended }.call .endDocument else parser
    { parser with bufpos := 0 }
  else { parser with bufpos := 0 }

/-- `buffer[bufpos - 1]`, where the difference is unsigned. -/
def last (parser : XMLParser) : Option UInt8 :=
  if parser.bufpos = 0 then none else parser.buffer[parser.bufpos - 1]?

/-- The branch of `parseTag` for the start of an element. -/
def startTag (parser : XMLParser) : Option (Bool × XMLParser) := do
  let slash ← parser.last
  let ending := slash = 0x2f
  let parser := if ending then { parser with bufpos := parser.bufpos - 1 } else parser
  let len := span parser.bufpos parser.buffer 0
  if len = parser.bufpos then
    let parser := parser.enter
    let parser ← parser.put parser.bufpos 0
    let parser := parser.call (.startElement (string parser.buffer) [])
    some (true, parser.started ending)
  else
    let parser := parser.enter
    let (accepted, buffer, attrib) ← attributes parser.bufpos 128 len parser.buffer []
    let parser := { parser with buffer := buffer }
    if !accepted then some (false, parser)
    else
      let parser := parser.call (.startElement (string buffer) (texts buffer attrib))
      some (true, parser.started ending)

def parseTag (parser : XMLParser) : Option (Bool × XMLParser) := do
  let data ← parser.buffer.head?
  if data = 0x2f then parser.endTag
  else if data = 0x21 then some (true, { parser with bufpos := 0 })
  else if data = 0x3f then
    -- the version is compared, and nothing is made of it
    let _ ← strncmp (fun char other => tolower char = tolower other) parser.buffer
      [0x3f, 0x78, 0x6d, 0x6c, 0x20, 0x76, 0x65, 0x72, 0x73, 0x69, 0x6f, 0x6e, 0x3d, 0x22]
    some (true, { parser with bufpos := 0 })
  else if !isElement data then some (false, parser)
  else parser.startTag

/-! ### Reading -/

/-- `![CDATA`. -/
def cdataTag : Text := [0x21, 0x5b, 0x43, 0x44, 0x41, 0x54, 0x41]

/-- `!-`. -/
def commentTag : Text := [0x21, 0x2d]

/-- `!DOCTYPE `. -/
def doctypeTag : Text := [0x21, 0x44, 0x4f, 0x43, 0x54, 0x59, 0x50, 0x45, 0x20]

/-- The `switch` of `partial`, which returns only to say that it refuses the character. -/
def partialChar (parser : XMLParser) (data : UInt8) : Option (Option Bool × XMLParser) :=
  match parser.state with
  | .amp => do
    if parser.bufpos = 0 ∧ data = 0x23 ∨ isElement data then
      let parser ← parser.put parser.bufpos data
      next { parser with bufpos := parser.bufpos + 1 }
    else if data ≠ 0x3b then stop false parser
    else
      let parser ← parser.put parser.bufpos 0
      match ← character parser.buffer with
      | none => stop false parser
      | some cp =>
        let parser := parser.call (.characters [cp])
        next { parser with bufpos := 0, state := .none }
  | .tag => do
    if data = 0x3e then
      let (accepted, parser) ← parseTag { parser with state := .none }
      if !accepted then stop false parser else next parser
    else if ← (if data = 0x5b ∧ parser.bufpos = 7 then strncmp (· = ·) parser.buffer cdataTag
        else some false) then
      next { parser with state := .cdata }
    else if ← (if data = 0x2d ∧ parser.bufpos = 2 then strncmp (· = ·) parser.buffer commentTag
        else some false) then
      next { parser with state := .comment, bufpos := 0 }
    else if ← (if data = 0x5b then strncmp (· = ·) parser.buffer doctypeTag else some false) then
      next { parser with state := .dtd, bufpos := 0 }
    else
      let parser ← parser.putBuffer data
      next parser
  | .comment => do
    if ← (if data = 0x3e ∧ parser.bufpos ≥ 2 then
        strncmp (· = ·) (parser.buffer.drop (parser.bufpos - 2)) [0x2d, 0x2d] else some false) then
      let parser := { parser with bufpos := parser.bufpos - 2 }
      let parser := if parser.bufpos ≠ 0 then parser.call (.comment parser.held) else parser
      next { parser with bufpos := 0, state := .none }
    else
      let parser ← parser.put parser.bufpos data
      let parser := { parser with bufpos := parser.bufpos + 1 }
      if parser.bufpos = parser.buffer.length then
        next { parser.call (.comment parser.held) with bufpos := 0 }
      else next parser
  | .cdata => do
    let parser ← parser.putBuffer data
    if parser.bufpos > 2 then
      if ← equal (parser.buffer.drop (parser.bufpos - 3)) [0x5d, 0x5d, 0x3e] then
        next { parser with bufpos := parser.bufpos - 3, state := .none }.clearBuffer
      else next parser
    else next parser
  | .dtd =>
    if data = 0x3c then next { parser with dcount := parser.dcount + 1 }
    else if data = 0x3e ∧ parser.dcount ≠ 0 then
      next { parser with dcount := parser.dcount - 1 }
    else if data = 0x3e then next { parser with state := .none }
    else next parser
  | .none | .ended => do
    if data = 0x3c then next { parser.clearBuffer with state := .tag }
    else if parser.ecount ≠ 0 ∧ data = 0x26 then next { parser.clearBuffer with state := .amp }
    else if parser.ecount ≠ 0 then
      let parser ← parser.putBuffer data
      next parser
    else next parser

/-- What a function says in the end: what it returned with, or else this. -/
def answer (verdict : Bool) (outcome : Outcome XMLParser Bool) : Option (Bool × XMLParser) :=
  outcome.map fun (returned, parser) => (returned.getD verdict, parser)

/-- What `partial` does before it reads. -/
def restart (parser : XMLParser) : XMLParser :=
  if parser.state = .ended then { parser with state := .none } else parser

/-- `partial`. -/
def partialData (parser : XMLParser) (data : Text) : Option (Bool × XMLParser) :=
  answer true (scan partialChar parser.restart data)

/-- The pieces of a document are given to `partial` one by one, until it refuses one. -/
def partialPieces : XMLParser → List Text → Option (Bool × XMLParser)
  | parser, [] => some (true, parser)
  | parser, piece :: pieces => do
    let (accepted, parser) ← parser.partialData piece
    if !accepted then some (false, parser) else partialPieces parser pieces

/-- The `switch` of `parse`. -/
def parseChar (parser : XMLParser) (ch : UInt8) : Option (Option Bool × XMLParser) :=
  match parser.state with
  | .amp => do
    if parser.bufpos = 0 ∧ ch = 0x23 ∨ isElement ch then
      let parser ← parser.put parser.bufpos ch
      next { parser with bufpos := parser.bufpos + 1 }
    else if ch ≠ 0x3b then stop false parser
    else
      let parser ← parser.put parser.bufpos 0
      match ← character parser.buffer with
      | none => stop false parser
      | some cp =>
        let parser := parser.call (.characters [cp])
        next { parser with bufpos := 0, state := .none }
  | .tag => do
    if ch = 0x3e then
      let (accepted, parser) ← parseTag { parser with state := .none }
      if !accepted then stop false parser else next parser
    else if ← (if ch = 0x5b ∧ parser.bufpos = 7 then strncmp (· = ·) parser.buffer cdataTag
        else some false) then
      next { parser with state := .cdata }
    else if ← (if ch = 0x2d ∧ parser.bufpos = 2 then strncmp (· = ·) parser.buffer commentTag
        else some false) then
      next { parser with state := .comment, bufpos := 0 }
    else if ← (if ch = 0x5b then strncmp (· = ·) parser.buffer doctypeTag else some false) then
      next { parser with state := .dtd, bufpos := 0 }
    else
      let parser ← parser.putBuffer ch
      next parser
  | .comment => do
    if ← (if ch = 0x3e ∧ parser.bufpos ≥ 2 then
        strncmp (· = ·) (parser.buffer.drop (parser.bufpos - 2)) [0x2d, 0x2d] else some false) then
      let parser := { parser with bufpos := parser.bufpos - 2 }
      let parser := if parser.bufpos ≠ 0 then parser.call (.comment parser.held) else parser
      next { parser with bufpos := 0, state := .none }
    else
      let parser ← parser.put parser.bufpos ch
      let parser := { parser with bufpos := parser.bufpos + 1 }
      if parser.bufpos = parser.buffer.length then
        next { parser.call (.comment parser.held) with bufpos := 0 }
      else next parser
  | .cdata => do
    let parser ← parser.putBuffer ch
    if parser.bufpos > 2 then
      if ← equal (parser.buffer.drop (parser.bufpos - 3)) [0x5d, 0x5d, 0x3e] then
        next { parser with bufpos := parser.bufpos - 3, state := .none }.clearBuffer
      else next parser
    else next parser
  | .dtd =>
    if ch = 0x3c then next { parser with dcount := parser.dcount + 1 }
    else if ch = 0x3e ∧ parser.dcount ≠ 0 then next { parser with dcount := parser.dcount - 1 }
    else if ch = 0x3e then next { parser with state := .none }
    else next parser
  | .none => do
    if ch = 0x3c then next { parser.clearBuffer with state := .tag }
    else if parser.ecount ≠ 0 ∧ ch = 0x26 then next { parser.clearBuffer with state := .amp }
    else if parser.ecount ≠ 0 then
      let parser ← parser.putBuffer ch
      next parser
    else next parser
  | .ended => stop true parser

/-- One round of the loop of `parse`. -/
def parseRound (parser : XMLParser) (ch : UInt8) : Outcome XMLParser Bool :=
  andThen (parser.parseChar ch) fun parser =>
    if parser.state = .ended then stop true parser else next parser

/-- What `parse` does before it reads. -/
def reset (parser : XMLParser) : XMLParser :=
  { parser with state := .none, bufpos := 0, ecount := 0, dcount := 0 }

/-- `parse(const char *)`. -/
def parse (parser : XMLParser) (buf : Text) : Option (Bool × XMLParser) :=
  answer false (scan parseRound parser.reset (string buf))

/-- `parse` does what `partial` does, but in the state `END`. -/
theorem parseChar_eq {parser : XMLParser} (open_ : parser.state ≠ .ended) (ch : UInt8) :
    parser.parseChar ch = parser.partialChar ch := by
  unfold parseChar partialChar
  cases state : parser.state with
  | ended => exact absurd state open_
  | _ => rfl

/-! ### What a character does -/

section Turn

variable {source target : XMLParser}

theorem put_keeps {index : ℕ} {c : UInt8} (stored : source.put index c = some target) :
    target.state = source.state ∧ target.ecount = source.ecount ∧ target.calls = source.calls := by
  unfold put at stored
  split at stored
  · cases stored
    exact ⟨rfl, rfl, rfl⟩
  · cases stored

/-- What `partial` does with a character: what it calls, whether it refuses the character, and the
state and the depth that it is left in. -/
inductive Turn (source : XMLParser) : Option Bool → XMLParser → Prop
  | refused {target : XMLParser} (state : target.state = source.state)
      (calls : target.calls = source.calls) : Turn source (some false) target
  | silent {target : XMLParser}
      (state : target.state = source.state ∨ target.state ≠ .ended ∧ target.state ≠ .amp)
      (ecount : target.ecount = source.ecount) (calls : target.calls = source.calls) :
      Turn source none target
  | character {target : XMLParser} {cp : UInt8} (inside : source.state = .amp)
      (state : target.state = .none) (ecount : target.ecount = source.ecount)
      (calls : target.calls = source.calls ++ [.characters [cp]]) : Turn source none target
  | comment {target : XMLParser} {text : Text} (outside : source.state ≠ .amp)
      (state : target.state = source.state ∨ target.state = .none)
      (ecount : target.ecount = source.ecount)
      (calls : target.calls = source.calls ++ [.comment text]) : Turn source none target
  | tag {target : XMLParser} {accepted : Bool}
      (read : parseTag { source with state := .none } = some (accepted, target)) :
      Turn source (if accepted then none else some false) target
  | text {target : XMLParser} {c : UInt8} (outside : source.state ≠ .amp)
      (stored : source.putBuffer c = some target) : Turn source none target
  | closes {middle : XMLParser} {c : UInt8} {bufpos : ℕ}
      (stored : source.putBuffer c = some middle) :
      Turn source none { middle with bufpos := bufpos, state := .none }.clearBuffer
  | opens : Turn source none { source.clearBuffer with state := .tag }
  | refers (inside : source.ecount ≠ 0) : Turn source none { source.clearBuffer with state := .amp }

theorem turn_amp {data : UInt8} {returned : Option Bool} (state : source.state = .amp)
    (read : source.partialChar data = some (returned, target)) : Turn source returned target := by
  rw [partialChar, state] at read
  dsimp only at read
  split at read
  · obtain ⟨middle, put_, read⟩ := Option.bind_eq_some_iff.mp read
    cases read
    obtain ⟨state_, ecount, calls⟩ := put_keeps put_
    exact .silent (Or.inl state_) ecount calls
  split at read
  · cases read
    exact .refused rfl rfl
  obtain ⟨middle, put_, read⟩ := Option.bind_eq_some_iff.mp read
  obtain ⟨state_, ecount, calls⟩ := put_keeps put_
  obtain ⟨cp, _, read⟩ := Option.bind_eq_some_iff.mp read
  cases cp with
  | none =>
    cases read
    exact .refused state_ calls
  | some cp =>
    cases read
    refine @Turn.character source _ cp state rfl ecount ?_
    rw [← calls]
    rfl

theorem turn_tag {data : UInt8} {returned : Option Bool} (state : source.state = .tag)
    (read : source.partialChar data = some (returned, target)) : Turn source returned target := by
  rw [partialChar, state] at read
  dsimp only at read
  split at read
  · obtain ⟨⟨accepted, middle⟩, tag_, read⟩ := Option.bind_eq_some_iff.mp read
    have turn := Turn.tag tag_
    cases accepted with
    | false =>
      cases read
      exact turn
    | true =>
      cases read
      exact turn
  obtain ⟨cdata, _, read⟩ := Option.bind_eq_some_iff.mp read
  split at read
  · cases read
    exact .silent (Or.inr (by simp)) rfl rfl
  obtain ⟨comment, _, read⟩ := Option.bind_eq_some_iff.mp read
  split at read
  · cases read
    exact .silent (Or.inr (by simp)) rfl rfl
  obtain ⟨dtd, _, read⟩ := Option.bind_eq_some_iff.mp read
  split at read
  · cases read
    exact .silent (Or.inr (by simp)) rfl rfl
  obtain ⟨middle, put_, read⟩ := Option.bind_eq_some_iff.mp read
  cases read
  exact .text (by rw [state]; decide) put_

theorem turn_comment {data : UInt8} {returned : Option Bool} (state : source.state = .comment)
    (read : source.partialChar data = some (returned, target)) : Turn source returned target := by
  have outside : source.state ≠ .amp := by
    rw [state]
    decide
  rw [partialChar, state] at read
  dsimp only at read
  obtain ⟨closes, _, read⟩ := Option.bind_eq_some_iff.mp read
  split at read
  · split at read
    · cases read
      exact .comment outside (Or.inr rfl) rfl rfl
    · cases read
      exact .silent (Or.inr (by simp)) rfl rfl
  · obtain ⟨middle, put_, read⟩ := Option.bind_eq_some_iff.mp read
    obtain ⟨state_, ecount, calls⟩ := put_keeps put_
    split at read
    · cases read
      refine @Turn.comment source _ { middle with bufpos := middle.bufpos + 1 }.held outside
        (Or.inl state_) ecount ?_
      rw [← calls]
      rfl
    · cases read
      exact .silent (Or.inl state_) ecount calls

theorem turn_cdata {data : UInt8} {returned : Option Bool} (state : source.state = .cdata)
    (read : source.partialChar data = some (returned, target)) : Turn source returned target := by
  have outside : source.state ≠ .amp := by
    rw [state]
    decide
  rw [partialChar, state] at read
  dsimp only at read
  obtain ⟨middle, put_, read⟩ := Option.bind_eq_some_iff.mp read
  split at read
  · obtain ⟨closes, _, read⟩ := Option.bind_eq_some_iff.mp read
    split at read
    · cases read
      exact .closes put_
    · cases read
      exact .text outside put_
  · cases read
    exact .text outside put_

theorem turn_dtd {data : UInt8} {returned : Option Bool} (state : source.state = .dtd)
    (read : source.partialChar data = some (returned, target)) : Turn source returned target := by
  rw [partialChar, state] at read
  dsimp only at read
  split at read
  · cases read
    exact .silent (Or.inl state.symm) rfl rfl
  split at read
  · cases read
    exact .silent (Or.inl state.symm) rfl rfl
  split at read
  · cases read
    exact .silent (Or.inr (by simp)) rfl rfl
  · cases read
    exact .silent (Or.inl rfl) rfl rfl

theorem outside_text (state : source.state = .none ∨ source.state = .ended) :
    source.state ≠ .amp ∧ source.state ≠ .dtd ∧ source.state ≠ .tag := by
  rcases state with state | state
  · rw [state]
    decide
  · rw [state]
    decide

/-- A character of a text, or behind the document. -/
theorem partialChar_text (state : source.state = .none ∨ source.state = .ended) (data : UInt8) :
    source.partialChar data =
      if data = 0x3c then next { source.clearBuffer with state := .tag }
      else if source.ecount ≠ 0 ∧ data = 0x26 then next { source.clearBuffer with state := .amp }
      else if source.ecount ≠ 0 then (source.putBuffer data).bind next
      else next source := by
  rcases state with state | state <;> rw [partialChar, state] <;> rfl

/-- Between the tags. -/
theorem turn_none {data : UInt8} {returned : Option Bool}
    (state : source.state = .none ∨ source.state = .ended)
    (read : source.partialChar data = some (returned, target)) : Turn source returned target := by
  have outside := (outside_text state).1
  rw [partialChar_text state] at read
  split at read
  · cases read
    exact .opens
  split at read
  next inside =>
    cases read
    exact .refers inside.1
  split at read
  · obtain ⟨middle, put_, read⟩ := Option.bind_eq_some_iff.mp read
    cases read
    exact .text outside put_
  · cases read
    exact .silent (Or.inl rfl) rfl rfl

/-- Whatever the state, a character does one of these. -/
theorem turn_partialChar {data : UInt8} {returned : Option Bool}
    (read : source.partialChar data = some (returned, target)) : Turn source returned target := by
  cases state : source.state with
  | amp => exact turn_amp state read
  | tag => exact turn_tag state read
  | comment => exact turn_comment state read
  | cdata => exact turn_cdata state read
  | dtd => exact turn_dtd state read
  | none => exact turn_none (Or.inl state) read
  | ended => exact turn_none (Or.inr state) read

end Turn

end XMLParser

end CommonCpp
