/-
This file shows where `XMLParser` stays within its buffer, and reads nothing of it that was not
written for what is being read.

The parser is given once more with a buffer that ends where it has been written. It is written from
its start on, anew for each piece of text, tag, entity or comment; a section of characters begins
with its tag. When the buffer is full the parser starts at its beginning again, and what stands
there was written for the same. What is read behind that has no outcome, nor what is
written behind `bufsize`, nor what is put behind the array of the attributes. The virtual functions
are left out: what they are given stands before `bufpos`, or before a null.

`Leaves` lists the characters that lead out of what was written, by what the parser has come to.
-/

import Mathlib.Data.List.Basic
import CommonCpp.XMLAttributes

namespace CommonCpp

open Bytes Ctype Scanner

namespace XMLParser

namespace Written

/-! ### The parser -/

/-- `?xml version="`. -/
def versionTag : Text :=
  [0x3f, 0x78, 0x6d, 0x6c, 0x20, 0x76, 0x65, 0x72, 0x73, 0x69, 0x6f, 0x6e, 0x3d, 0x22]

section Code

variable (bufsize : ℕ)

/-- `buffer[index] = c`. -/
def put (parser : XMLParser) (index : ℕ) (c : UInt8) : Option XMLParser :=
  if index < bufsize then
    some { parser with
      buffer := parser.buffer.take index ++ c :: parser.buffer.drop (index + 1) }
  else none

/-- `bufpos = 0` where something else begins. -/
def emptied (parser : XMLParser) : XMLParser := { parser with buffer := [], bufpos := 0 }

def putBuffer (parser : XMLParser) (c : UInt8) : Option XMLParser := do
  let parser ← put bufsize parser parser.bufpos c
  let parser := { parser with bufpos := parser.bufpos + 1 }
  if parser.bufpos ≥ bufsize then some { parser with bufpos := 0 } else some parser

/-- The branch of `parseTag` for the end of an element. -/
def endTag (parser : XMLParser) : Option (Bool × XMLParser) := do
  let len ← endName parser.bufpos (parser.buffer.drop 1)
  if len ≠ 0 then some (false, parser)
  else
    let parser ← put bufsize parser parser.bufpos 0
    let parser := { emptied parser with ecount := parser.ecount - 1 }
    if parser.ecount < 0 then some (false, parser)
    else if parser.ecount = 0 then some (true, { parser with state := .ended })
    else some (true, parser)

/-- What comes after `startElement`: the label `ending`, for an element that is empty. -/
def started (parser : XMLParser) (ending : Bool) : XMLParser :=
  if ending then
    let parser := { parser with ecount := parser.ecount - 1 }
    emptied (if parser.ecount = 0 then { parser with state := .ended } else parser)
  else emptied parser

/-- The branch of `parseTag` for the start of an element. -/
def startTag (parser : XMLParser) : Option (Bool × XMLParser) := do
  let slash ← parser.last
  let ending := slash = 0x2f
  let parser := if ending then { parser with bufpos := parser.bufpos - 1 } else parser
  let len := span parser.bufpos parser.buffer 0
  let parser := { parser with ecount := parser.ecount + 1 }
  if len = parser.bufpos then
    let parser ← put bufsize parser parser.bufpos 0
    some (true, started parser ending)
  else
    let (accepted, buffer, _) ← attributes parser.bufpos 128 len parser.buffer []
    let parser := { parser with buffer := buffer }
    if !accepted then some (false, parser) else some (true, started parser ending)

def parseTag (parser : XMLParser) : Option (Bool × XMLParser) := do
  let data ← parser.buffer.head?
  if data = 0x2f then endTag bufsize parser
  else if data = 0x21 then some (true, emptied parser)
  else if data = 0x3f then
    let _ ← strncmp (fun char other => tolower char = tolower other) parser.buffer versionTag
    some (true, emptied parser)
  else if !isElement data then some (false, parser)
  else startTag bufsize parser

/-- The `switch` of `parse` and of `partial`, which differ for the state `END` only. -/
def readChar (parser : XMLParser) (ch : UInt8) : Option (Option Bool × XMLParser) :=
  match parser.state with
  | .amp => do
    if parser.bufpos = 0 ∧ ch = 0x23 ∨ isElement ch then
      let parser ← put bufsize parser parser.bufpos ch
      next { parser with bufpos := parser.bufpos + 1 }
    else if ch ≠ 0x3b then stop false parser
    else
      let parser ← put bufsize parser parser.bufpos 0
      match ← character parser.buffer with
      | none => stop false parser
      | some _ => next { emptied parser with state := .none }
  | .tag => do
    if ch = 0x3e then
      let (accepted, parser) ← parseTag bufsize { parser with state := .none }
      if !accepted then stop false parser else next parser
    else if ← (if ch = 0x5b ∧ parser.bufpos = 7 then strncmp (· = ·) parser.buffer cdataTag
        else some false) then
      next { parser with state := .cdata }
    else if ← (if ch = 0x2d ∧ parser.bufpos = 2 then strncmp (· = ·) parser.buffer commentTag
        else some false) then
      next { emptied parser with state := .comment }
    else if ← (if ch = 0x5b then strncmp (· = ·) parser.buffer doctypeTag else some false) then
      next { emptied parser with state := .dtd }
    else
      let parser ← putBuffer bufsize parser ch
      next parser
  | .comment => do
    if ← (if ch = 0x3e ∧ parser.bufpos ≥ 2 then
        strncmp (· = ·) (parser.buffer.drop (parser.bufpos - 2)) [0x2d, 0x2d] else some false) then
      next { emptied parser with state := .none }
    else
      let parser ← put bufsize parser parser.bufpos ch
      let parser := { parser with bufpos := parser.bufpos + 1 }
      if parser.bufpos = bufsize then next { parser with bufpos := 0 } else next parser
  | .cdata => do
    let parser ← putBuffer bufsize parser ch
    if parser.bufpos > 2 then
      if ← equal (parser.buffer.drop (parser.bufpos - 3)) [0x5d, 0x5d, 0x3e] then
        next { emptied parser with state := .none }
      else next parser
    else next parser
  | .dtd =>
    if ch = 0x3c then next { parser with dcount := parser.dcount + 1 }
    else if ch = 0x3e ∧ parser.dcount ≠ 0 then next { parser with dcount := parser.dcount - 1 }
    else if ch = 0x3e then next { parser with state := .none }
    else next parser
  | .none | .ended => do
    if ch = 0x3c then next { emptied parser with state := .tag }
    else if parser.ecount ≠ 0 ∧ ch = 0x26 then next { emptied parser with state := .amp }
    else if parser.ecount ≠ 0 then
      let parser ← putBuffer bufsize parser ch
      next parser
    else next parser

/-- A call of the parser, with its text. -/
inductive Call
  | parse (buf : Text)
  | piece (data : Text)
  deriving DecidableEq

/-- What is read: a string ends at its null. -/
def Call.text : Call → Text
  | .parse buf => string buf
  | .piece data => data

/-- What is done before it is read. -/
def Call.enter : Call → XMLParser → XMLParser
  | .parse _, parser => { emptied parser with state := .none, ecount := 0, dcount := 0 }
  | .piece _, parser => parser.restart

/-- One round of the loop. -/
def Call.round : Call → XMLParser → UInt8 → Outcome XMLParser Bool
  | .parse _, parser, ch =>
    andThen (if parser.state = .ended then stop true parser else readChar bufsize parser ch)
      fun parser => if parser.state = .ended then stop true parser else next parser
  | .piece _, parser, ch => readChar bufsize parser ch

/-- What is made of the parser by a call. -/
def Call.perform (parser : XMLParser) (call : Call) : Outcome XMLParser Empty :=
  (scan (call.round bufsize) (call.enter parser) call.text).bind fun (_, parser) => next parser

end Code

/-- `XMLParser(unsigned size)`, of which nothing has been written. -/
def opened : XMLParser := ⟨0, 0, .none, [], 0, []⟩

/-! ### What leads out of the buffer -/

/-- Where the tag ends that starts an element: before the `/` of one that is empty. -/
def tagEnd (parser : XMLParser) : ℕ :=
  if parser.buffer[parser.bufpos - 1]? = some 0x2f then parser.bufpos - 1 else parser.bufpos

/-- The text of the tag behind the name of the element. -/
def tagText (parser : XMLParser) : Text :=
  (parser.buffer.take (tagEnd parser)).dropWhile isElement

/-- The tags that `parseTag` does not read within what was written: nothing, where what begins like
the version ends before it, or attributes that overrun it; and a tag that has just filled the
buffer, of which the last byte is looked for before the first. -/
inductive TagLeaves (parser : XMLParser) : Prop
  | empty (empty : parser.buffer = [])
  | endTag (slash : parser.buffer.head? = some 0x2f) (start : parser.bufpos = 0)
      (all : ∀ c ∈ parser.buffer.drop 1, isElement c)
  | declaration (question : parser.buffer.head? = some 0x3f)
      (begins : parser.buffer.map tolower <+: versionTag.map tolower)
      (short : parser.buffer.length < versionTag.length)
  | startTag {c : UInt8} (first : parser.buffer.head? = some c) (element : isElement c)
      (start : parser.bufpos = 0)
  | attributes {c : UInt8} (first : parser.buffer.head? = some c) (element : isElement c)
      (held : parser.bufpos ≠ 0) (more : tagText parser ≠ [])
      (overruns : Overruns (parser.buffer.drop (tagEnd parser)) 64 (tagText parser))

/-- The characters that lead out of what was written: of an entity when it fills the buffer, the
end of a tag that does, a `[` where the tag so far begins like the document type and ends before
it, and the `]]>` of a section where nothing was written behind it. -/
inductive Leaves (bufsize : ℕ) (parser : XMLParser) (ch : UInt8) : Prop
  | entity (state : parser.state = .amp)
      (char : (parser.bufpos = 0 ∧ ch = 0x23 ∨ isElement ch) ∨ ch = 0x3b)
      (full : bufsize ≤ parser.bufpos)
  | tag (state : parser.state = .tag) (close : ch = 0x3e) (leaves : TagLeaves parser)
  | doctype (state : parser.state = .tag) (bracket : ch = 0x5b)
      (begins : parser.buffer <+: doctypeTag) (short : parser.buffer.length < doctypeTag.length)
  | cdata (state : parser.state = .cdata) (close : ch = 0x3e) (held : 2 ≤ parser.bufpos)
      (room : parser.bufpos + 1 < bufsize)
      (brackets : (parser.buffer.take parser.bufpos).drop (parser.bufpos - 2) = [0x5d, 0x5d])
      (unwritten : parser.buffer.length ≤ parser.bufpos + 1)

/-! ### Comparisons -/

/-- A comparison leaves the memory when it ends before a difference is found. -/
theorem strncmp_eq_none_iff (turn : UInt8 → UInt8) (text other : Text) :
    strncmp (fun char char' => turn char = turn char') text other = none ↔
      text.map turn <+: other.map turn ∧ text.length < other.length := by
  induction text generalizing other with
  | nil => cases other <;> simp [strncmp]
  | cons char text inductionHypothesis =>
    cases other with
    | nil => simp [strncmp]
    | cons char' other =>
      by_cases same : turn char = turn char'
      · simp [strncmp, same, inductionHypothesis]
      · simp [strncmp, same]

theorem strncmp_eq_eq_none_iff (text other : Text) :
    strncmp (· = ·) text other = none ↔ text <+: other ∧ text.length < other.length := by
  have turned := strncmp_eq_none_iff id text other
  rw [List.map_id, List.map_id] at turned
  exact turned

theorem strncmp_eq_ne_none {text other : Text} (long : other.length ≤ text.length) :
    strncmp (· = ·) text other ≠ none := fun lost =>
  absurd ((strncmp_eq_eq_none_iff text other).mp lost).2 (Nat.not_lt.mpr long)

theorem prefix_of_strncmp {text other : Text} (same : strncmp (· = ·) text other = some true) :
    other <+: text := by
  induction text generalizing other with
  | nil =>
    cases other with
    | nil => exact List.prefix_refl []
    | cons char' other => cases same
  | cons char text inductionHypothesis =>
    cases other with
    | nil => exact List.nil_prefix
    | cons char' other =>
      rw [strncmp] at same
      by_cases here : char = char'
      · rw [if_pos (decide_eq_true here)] at same
        rw [here]
        exact (List.prefix_cons_inj char').mpr (inductionHypothesis same)
      · rw [if_neg (by rwa [decide_eq_true_eq])] at same
        cases same

theorem equal_eq_none_iff (text other : Text) : equal text other = none ↔ text <+: other := by
  induction text generalizing other with
  | nil => simp [equal]
  | cons char text inductionHypothesis =>
    cases other with
    | nil => simp [equal]
    | cons char' other =>
      by_cases same : char = char'
      · simp [equal, same, inductionHypothesis]
      · simp [equal, same]

/-- A name that ends in a null is compared within it. -/
theorem character_ne_none {buffer : Text} (null : 0 ∈ buffer) : character buffer ≠ none := by
  have visible : ∀ entry ∈ names, 0 ∉ entry.1 := by decide
  have compared : ∀ entries : List (Text × UInt8), (∀ entry ∈ entries, 0 ∉ entry.1) →
      named buffer entries ≠ none := by
    intro entries visible
    induction entries with
    | nil => exact Option.some_ne_none _
    | cons entry entries inductionHypothesis =>
      have later := inductionHypothesis fun other member =>
        visible other (List.mem_cons_of_mem entry member)
      cases read : equal buffer entry.1 with
      | none =>
        have inside := (equal_eq_none_iff buffer entry.1).mp read
        exact absurd (inside.subset null) (visible entry List.mem_cons_self)
      | some same =>
        show ((equal buffer entry.1).bind fun same =>
          if same then some (some entry.2) else named buffer entries) ≠ none
        rw [read]
        cases same with
        | true => exact Option.some_ne_none _
        | false => exact later
  cases buffer with
  | nil => exact absurd null List.not_mem_nil
  | cons first rest =>
    show (if first = 0x23 then _ else named (first :: rest) names) ≠ none
    by_cases number : first = 0x23
    · rw [if_pos number]
      exact Option.some_ne_none _
    · rw [if_neg number]
      exact compared names visible

theorem endName_nil {len next : ℕ} (step : (len + 2 ^ 64 - 1) % 2 ^ 64 = next) :
    endName len [] = if next = 0 then some 0 else none := by
  rw [endName, step]

theorem endName_cons {len next : ℕ} (step : (len + 2 ^ 64 - 1) % 2 ^ 64 = next) (char : UInt8)
    (data : Text) :
    endName len (char :: data) =
      if next = 0 then some 0 else if isElement char then endName next data else some next := by
  rw [endName, step]

theorem pred_mod {len : ℕ} (some_ : 1 ≤ len) (word : len < 2 ^ 64) :
    (len + 2 ^ 64 - 1) % 2 ^ 64 = len - 1 := by
  omega

/-- The loop over the name of an element that ends has one byte for each turn. -/
theorem endName_ne_none {len : ℕ} {data : Text} (some_ : 1 ≤ len) (within : len ≤ data.length + 1)
    (word : len < 2 ^ 64) : endName len data ≠ none := by
  induction data generalizing len with
  | nil =>
    have one : len - 1 = 0 := by
      rw [List.length_nil] at within
      omega
    rw [endName_nil (pred_mod some_ word), if_pos one]
    exact Option.some_ne_none _
  | cons char data inductionHypothesis =>
    rw [endName_cons (pred_mod some_ word)]
    by_cases last : len - 1 = 0
    · rw [if_pos last]
      exact Option.some_ne_none _
    · rw [if_neg last]
      cases isElement char with
      | false => exact Option.some_ne_none _
      | true =>
        rw [List.length_cons] at within
        exact inductionHypothesis (Nat.one_le_iff_ne_zero.mpr last) (by omega) (by omega)

/-- With more turns than there are bytes it goes on as long as there are characters of a name. -/
theorem endName_eq_none_iff {len next : ℕ} {data : Text}
    (step : (len + 2 ^ 64 - 1) % 2 ^ 64 = next) (long : data.length < next)
    (word : next < 2 ^ 64) : endName len data = none ↔ ∀ c ∈ data, isElement c := by
  induction data generalizing len next with
  | nil =>
    have more : next ≠ 0 := Nat.ne_of_gt long
    rw [endName_nil step, if_neg more]
    simp
  | cons char data inductionHypothesis =>
    rw [List.length_cons] at long
    have more : next ≠ 0 := by omega
    rw [endName_cons step, if_neg more]
    cases element : isElement char with
    | false => simp [element]
    | true =>
      have later := inductionHypothesis (pred_mod (Nat.one_le_iff_ne_zero.mpr more) word)
        (by omega) (by omega)
      simp [element, later]

/-! ### What every character keeps -/

section Steps

variable {bufsize : ℕ} {parser target : XMLParser} {c : UInt8}

/-- What was written is within the buffer, and so is the place for the next byte, but for an entity
that fills it. -/
structure Sound (bufsize : ℕ) (parser : XMLParser) : Prop where
  length_le : parser.buffer.length ≤ bufsize
  bufpos_le : parser.bufpos ≤ parser.buffer.length
  room : parser.state ≠ .amp → parser.bufpos < bufsize

/-- The parser with a byte written at `bufpos`. -/
def stored (parser : XMLParser) (c : UInt8) : XMLParser :=
  { parser with
    buffer := parser.buffer.take parser.bufpos ++ c :: parser.buffer.drop (parser.bufpos + 1) }

theorem put_room (room : parser.bufpos < bufsize) (c : UInt8) :
    put bufsize parser parser.bufpos c = some (stored parser c) := if_pos room

theorem put_full (full : bufsize ≤ parser.bufpos) (c : UInt8) :
    put bufsize parser parser.bufpos c = none := if_neg (Nat.not_lt.mpr full)

theorem length_stored (within : parser.bufpos ≤ parser.buffer.length) (c : UInt8) :
    (stored parser c).buffer.length = max parser.buffer.length (parser.bufpos + 1) := by
  show (parser.buffer.take parser.bufpos ++ c :: parser.buffer.drop (parser.bufpos + 1)).length = _
  rw [List.length_append, List.length_take, List.length_cons, List.length_drop]
  omega

theorem mem_stored (parser : XMLParser) (c : UInt8) : c ∈ (stored parser c).buffer :=
  List.mem_append_right _ List.mem_cons_self

theorem Sound.stored (sound : Sound bufsize parser) (room : parser.bufpos < bufsize) (c : UInt8) :
    (stored parser c).buffer.length ≤ bufsize ∧
      parser.bufpos + 1 ≤ (Written.stored parser c).buffer.length := by
  rw [length_stored sound.bufpos_le]
  exact ⟨max_le sound.length_le room, le_max_right _ _⟩

theorem sound_emptied (large : 0 < bufsize) {parser : XMLParser} (empty : parser.buffer = [])
    (start : parser.bufpos = 0) : Sound bufsize parser where
  length_le := by rw [empty]; exact Nat.zero_le _
  bufpos_le := by rw [start]; exact Nat.zero_le _
  room _ := by rw [start]; exact large

/-- `putBuffer` writes within the buffer, and then there is room again. -/
theorem putBuffer_sound (sound : Sound bufsize parser) (room : parser.bufpos < bufsize)
    (c : UInt8) :
    ∃ target, putBuffer bufsize parser c = some target ∧ Sound bufsize target ∧
      target.buffer = (stored parser c).buffer ∧ target.state = parser.state ∧
      target.bufpos = if parser.bufpos + 1 < bufsize then parser.bufpos + 1 else 0 := by
  obtain ⟨length, within⟩ := sound.stored room c
  have read : putBuffer bufsize parser c =
      if parser.bufpos + 1 ≥ bufsize then some { stored parser c with bufpos := 0 }
      else some { stored parser c with bufpos := parser.bufpos + 1 } := by
    rw [putBuffer, put_room room]
    rfl
  by_cases full : parser.bufpos + 1 ≥ bufsize
  · have start : 0 < bufsize := Nat.lt_of_le_of_lt (Nat.zero_le _) room
    rw [if_pos full] at read
    exact ⟨_, read, ⟨length, Nat.zero_le _, fun _ => start⟩, rfl, rfl,
      (if_neg (Nat.not_lt.mpr full)).symm⟩
  · have free : parser.bufpos + 1 < bufsize := Nat.not_le.mp full
    rw [if_neg full] at read
    exact ⟨_, read, ⟨length, within, fun _ => free⟩, rfl, rfl, (if_pos free).symm⟩

/-! ### Tags -/

/-- The end of an element leaves what was written when the tag has filled the buffer. -/
theorem endTag_eq_none_iff (sound : Sound bufsize parser) (room : parser.bufpos < bufsize)
    (word : bufsize < 2 ^ 64) (first : parser.buffer.head? = some c) :
    endTag bufsize parser = none ↔
      parser.bufpos = 0 ∧ ∀ char ∈ parser.buffer.drop 1, isElement char := by
  have some_ : 1 ≤ parser.buffer.length := by
    cases read : parser.buffer with
    | nil => rw [read] at first; cases first
    | cons char rest => exact Nat.succ_le_succ (Nat.zero_le _)
  have behind : (parser.buffer.drop 1).length = parser.buffer.length - 1 := List.length_drop
  have ended : endTag bufsize parser = none ↔
      endName parser.bufpos (parser.buffer.drop 1) = none := by
    rw [endTag]
    cases name : endName parser.bufpos (parser.buffer.drop 1) with
    | none => exact iff_of_true rfl rfl
    | some len =>
      refine iff_of_false ?_ (Option.some_ne_none _)
      show (if len ≠ 0 then _ else (put bufsize parser parser.bufpos 0).bind _) ≠ none
      rw [put_room room]
      simp only [Option.bind_some]
      split_ifs <;> exact Option.some_ne_none _
  rw [ended]
  by_cases start : parser.bufpos = 0
  · have step : (0 + 2 ^ 64 - 1) % 2 ^ 64 = 2 ^ 64 - 1 := by decide
    have long : (parser.buffer.drop 1).length < 2 ^ 64 - 1 := by
      have length := sound.length_le
      omega
    rw [start, endName_eq_none_iff step long (by decide)]
    exact (and_iff_right rfl).symm
  · refine iff_of_false (endName_ne_none (Nat.one_le_iff_ne_zero.mpr start) ?_ (by omega))
      fun both => start both.1
    have within := sound.bufpos_le
    omega

theorem Sound.endTag (sound : Sound bufsize parser) (large : 0 < bufsize) {accepted : Bool}
    (read : endTag bufsize parser = some (accepted, target)) : Sound bufsize target := by
  obtain ⟨len, _, read⟩ := Option.bind_eq_some_iff.mp read
  by_cases short : len ≠ 0
  · rw [if_pos short] at read
    cases read
    exact sound
  · rw [if_neg short] at read
    obtain ⟨ended, _, read⟩ := Option.bind_eq_some_iff.mp read
    dsimp only at read
    -- whatever the number of elements is, the buffer is empty
    split_ifs at read <;> cases read <;> exact sound_emptied large rfl rfl

theorem sound_started (large : 0 < bufsize) (parser : XMLParser) (ending : Bool) :
    Sound bufsize (started parser ending) := by
  cases ending with
  | false => exact sound_emptied large rfl rfl
  | true => exact sound_emptied large rfl rfl

theorem last_held (within : parser.bufpos ≤ parser.buffer.length) (held : parser.bufpos ≠ 0) :
    ∃ slash, parser.buffer[parser.bufpos - 1]? = some slash ∧ parser.last = some slash := by
  have inside : parser.bufpos - 1 < parser.buffer.length := by omega
  refine ⟨parser.buffer[parser.bufpos - 1], List.getElem?_eq_getElem inside, ?_⟩
  rw [last, if_neg held, List.getElem?_eq_getElem inside]

theorem tagEnd_le (parser : XMLParser) : tagEnd parser ≤ parser.bufpos := by
  rw [tagEnd]
  split_ifs
  · exact Nat.sub_le _ _
  · exact Nat.le_refl _

/-- The name of the element is the whole tag where nothing is left of it. -/
theorem span_tag (within : parser.bufpos ≤ parser.buffer.length) :
    span (tagEnd parser) parser.buffer 0 + (tagText parser).length = tagEnd parser := by
  have whole := congrArg List.length
    (@List.takeWhile_append_dropWhile _ isElement (parser.buffer.take (tagEnd parser)))
  have short : (parser.buffer.take (tagEnd parser)).length = tagEnd parser :=
    List.length_take_of_le ((tagEnd_le parser).trans within)
  rw [List.length_append, short] at whole
  exact whole

/-- What the loop over the attributes is given. -/
theorem attributes_tag (within : parser.bufpos ≤ parser.buffer.length) :
    attributes (tagEnd parser) 128 (span (tagEnd parser) parser.buffer 0) parser.buffer [] =
      left ((parser.buffer.take (tagEnd parser)).takeWhile isElement) (tagText parser)
        (parser.buffer.drop (tagEnd parser)) (2 * 64) [] := by
  have whole : (parser.buffer.take (tagEnd parser)).takeWhile isElement ++
      (tagText parser ++ parser.buffer.drop (tagEnd parser)) = parser.buffer := by
    rw [← List.append_assoc, tagText, List.takeWhile_append_dropWhile, List.take_append_drop]
  rw [left, whole]
  show _ = attributes (span (tagEnd parser) parser.buffer 0 + (tagText parser).length) _ _ _ _
  rw [span_tag within]
  rfl

/-- The start of an element: what is left when the name has been passed over. -/
theorem startTag_eq (within : parser.bufpos ≤ parser.buffer.length) (held : parser.bufpos ≠ 0) :
    ∃ (ending : Bool) (named : XMLParser),
      named.buffer = parser.buffer ∧ named.bufpos = tagEnd parser ∧
      startTag bufsize parser =
        if tagText parser = [] then
          (put bufsize named named.bufpos 0).bind fun parser => some (true, started parser ending)
        else (left ((parser.buffer.take (tagEnd parser)).takeWhile isElement) (tagText parser)
            (parser.buffer.drop (tagEnd parser)) (2 * 64) []).bind fun found =>
          if !found.1 then some (false, { named with buffer := found.2.1 })
          else some (true, started { named with buffer := found.2.1 } ending) := by
  obtain ⟨slash, here, last⟩ := last_held within held
  refine ⟨slash = 0x2f, { parser with bufpos := tagEnd parser, ecount := parser.ecount + 1 },
    rfl, rfl, ?_⟩
  have cut : (if slash = 0x2f then { parser with bufpos := parser.bufpos - 1 } else parser) =
      { parser with bufpos := tagEnd parser } := by
    rw [tagEnd, here]
    by_cases same : slash = 0x2f
    · rw [if_pos same, if_pos (congrArg some same)]
    · rw [if_neg same, if_neg fun both => same (Option.some.inj both)]
  have name : span (tagEnd parser) parser.buffer 0 = tagEnd parser ↔ tagText parser = [] := by
    rw [← List.length_eq_zero_iff]
    have sum := span_tag within
    omega
  rw [startTag, last, Option.bind_eq_bind, Option.bind_some]
  dsimp only
  rw [cut]
  by_cases blank : tagText parser = []
  · rw [if_pos blank, if_pos (name.mpr blank)]
    rfl
  · rw [if_neg blank, if_neg fun same => blank (name.mp same), ← attributes_tag within]
    refine congrArg (Option.bind _) (funext fun ⟨accepted, buffer, _⟩ => ?_)
    cases accepted <;> rfl

/-- It leaves what was written when the tag has filled the buffer, or by its attributes. -/
theorem startTag_eq_none_iff (sound : Sound bufsize parser) (room : parser.bufpos < bufsize) :
    startTag bufsize parser = none ↔ parser.bufpos = 0 ∨ tagText parser ≠ [] ∧
      Overruns (parser.buffer.drop (tagEnd parser)) 64 (tagText parser) := by
  by_cases held : parser.bufpos = 0
  · have last : parser.last = none := if_pos held
    refine iff_of_true ?_ (.inl held)
    rw [startTag, last]
    rfl
  · obtain ⟨ending, named, _, place, read⟩ := @startTag_eq bufsize parser sound.bufpos_le held
    rw [read, or_iff_right held]
    by_cases blank : tagText parser = []
    · have room' : named.bufpos < bufsize := place ▸ (tagEnd_le parser).trans_lt room
      rw [if_pos blank, put_room room']
      exact iff_of_false (Option.some_ne_none _) fun both => both.1 blank
    · rw [if_neg blank, ← left_eq_none_iff, and_iff_right blank, Option.bind_eq_none_iff]
      refine ⟨fun all => ?_, fun lost found read => ?_⟩
      · cases found : left ((parser.buffer.take (tagEnd parser)).takeWhile isElement)
            (tagText parser) (parser.buffer.drop (tagEnd parser)) (2 * 64) [] with
        | none => rfl
        | some outcome =>
          have made := all outcome found
          split_ifs at made
      · rw [lost] at read
        cases read

theorem Sound.startTag (sound : Sound bufsize parser) (room : parser.bufpos < bufsize)
    {accepted : Bool} (read : startTag bufsize parser = some (accepted, target)) :
    Sound bufsize target := by
  have large : 0 < bufsize := Nat.zero_lt_of_lt room
  by_cases held : parser.bufpos = 0
  · have last : parser.last = none := if_pos held
    rw [Written.startTag, last] at read
    cases read
  · obtain ⟨ending, named, same, place, eq⟩ := @startTag_eq bufsize parser sound.bufpos_le held
    rw [eq] at read
    by_cases blank : tagText parser = []
    · rw [if_pos blank] at read
      obtain ⟨ended, _, read⟩ := Option.bind_eq_some_iff.mp read
      cases read
      exact sound_started large ended ending
    · have short : tagEnd parser ≤ parser.buffer.length :=
        (tagEnd_le parser).trans sound.bufpos_le
      rw [if_neg blank, ← attributes_tag sound.bufpos_le] at read
      obtain ⟨⟨accepted, buffer, attrib⟩, found, read⟩ := Option.bind_eq_some_iff.mp read
      obtain ⟨length, _⟩ := @attributes_more _ 64 _ _ _ _ _ _ short found
      cases accepted with
      | true =>
        cases read
        exact sound_started large _ ending
      | false =>
        cases read
        refine ⟨?_, ?_, fun _ => ?_⟩
        · show buffer.length ≤ bufsize
          rw [length]
          exact sound.length_le
        · show named.bufpos ≤ buffer.length
          rw [place, length]
          exact short
        · show named.bufpos < bufsize
          rw [place]
          exact (tagEnd_le parser).trans_lt room

/-- The kind of a tag is that of its first character. -/
theorem tagLeaves_iff (first : parser.buffer.head? = some c) :
    TagLeaves parser ↔
      c = 0x2f ∧ (parser.bufpos = 0 ∧ ∀ char ∈ parser.buffer.drop 1, isElement char) ∨
      c = 0x3f ∧ (parser.buffer.map tolower <+: versionTag.map tolower ∧
        parser.buffer.length < versionTag.length) ∨
      isElement c ∧ (parser.bufpos = 0 ∨ tagText parser ≠ [] ∧
        Overruns (parser.buffer.drop (tagEnd parser)) 64 (tagText parser)) := by
  have only : ∀ {other}, parser.buffer.head? = some other → c = other := fun {other} same =>
    Option.some.inj (first.symm.trans same)
  constructor
  · intro leaves
    cases leaves with
    | empty empty =>
      rw [empty] at first
      cases first
    | endTag slash start all => exact .inl ⟨only slash, start, all⟩
    | declaration question begins short => exact .inr (.inl ⟨only question, begins, short⟩)
    | startTag first' element start =>
      rw [← only first'] at element
      exact .inr (.inr ⟨element, .inl start⟩)
    | attributes first' element _ more overruns =>
      rw [← only first'] at element
      exact .inr (.inr ⟨element, .inr ⟨more, overruns⟩⟩)
  · rintro (⟨rfl, start, all⟩ | ⟨rfl, begins, short⟩ | ⟨element, start | ⟨more, overruns⟩⟩)
    · exact .endTag first start all
    · exact .declaration first begins short
    · exact .startTag first element start
    · by_cases held : parser.bufpos = 0
      · exact .startTag first element held
      · exact .attributes first element held more overruns

theorem parseTag_eq_none_iff (sound : Sound bufsize parser) (room : parser.bufpos < bufsize)
    (word : bufsize < 2 ^ 64) : parseTag bufsize parser = none ↔ TagLeaves parser := by
  cases first : parser.buffer.head? with
  | none =>
    have empty : parser.buffer = [] := List.head?_eq_none_iff.mp first
    refine iff_of_true ?_ (.empty empty)
    rw [parseTag, first]
    rfl
  | some c =>
    have ended := endTag_eq_none_iff sound room word first
    have begun := startTag_eq_none_iff sound room
    rw [tagLeaves_iff first, parseTag, first, Option.bind_eq_bind, Option.bind_some]
    by_cases slash : c = 0x2f
    · have dark : ¬ isElement c := by rw [slash]; decide
      have other : c ≠ 0x3f := by rw [slash]; decide
      rw [if_pos slash, ended]
      refine ⟨fun lost => .inl ⟨slash, lost⟩, ?_⟩
      rintro (⟨_, lost⟩ | ⟨same, _⟩ | ⟨element, _⟩)
      · exact lost
      · exact absurd same other
      · exact absurd element dark
    · by_cases bang : c = 0x21
      · have dark : ¬ isElement c := by rw [bang]; decide
        have other : c ≠ 0x3f := by rw [bang]; decide
        rw [if_neg slash, if_pos bang]
        refine iff_of_false (Option.some_ne_none _) ?_
        rintro (⟨same, _⟩ | ⟨same, _⟩ | ⟨element, _⟩)
        · exact slash same
        · exact other same
        · exact dark element
      · by_cases question : c = 0x3f
        · have dark : ¬ isElement c := by rw [question]; decide
          have compared := strncmp_eq_none_iff tolower parser.buffer versionTag
          rw [if_neg slash, if_neg bang, if_pos question, ← compared, Option.bind_eq_bind,
            Option.bind_eq_none_iff]
          refine ⟨fun all => ?_, ?_⟩
          · cases read : strncmp (fun char other => tolower char = tolower other) parser.buffer
                versionTag with
            | none => exact .inr (.inl ⟨question, rfl⟩)
            | some same => exact absurd (all same read) (Option.some_ne_none _)
          · rintro (⟨same, _⟩ | ⟨_, lost⟩ | ⟨element, _⟩)
            · exact absurd same slash
            · intro same read
              rw [lost] at read
              cases read
            · exact absurd element dark
        · by_cases element : isElement c
          · have found : ¬ (!isElement c) = true := by simp [element]
            rw [if_neg slash, if_neg bang, if_neg question, if_neg found, begun]
            refine ⟨fun lost => .inr (.inr ⟨element, lost⟩), ?_⟩
            rintro (⟨same, _⟩ | ⟨same, _⟩ | ⟨_, lost⟩)
            · exact absurd same slash
            · exact absurd same question
            · exact lost
          · have refused : (!isElement c) = true := by simp [element]
            rw [if_neg slash, if_neg bang, if_neg question, if_pos refused]
            refine iff_of_false (Option.some_ne_none _) ?_
            rintro (⟨same, _⟩ | ⟨same, _⟩ | ⟨found, _⟩)
            · exact slash same
            · exact question same
            · exact element found

theorem Sound.parseTag (sound : Sound bufsize parser) (room : parser.bufpos < bufsize)
    {accepted : Bool} (read : parseTag bufsize parser = some (accepted, target)) :
    Sound bufsize target := by
  have large : 0 < bufsize := Nat.zero_lt_of_lt room
  obtain ⟨c, _, read⟩ := Option.bind_eq_some_iff.mp read
  by_cases slash : c = 0x2f
  · rw [if_pos slash] at read
    exact sound.endTag large read
  · by_cases bang : c = 0x21
    · rw [if_neg slash, if_pos bang] at read
      cases read
      exact sound_emptied large rfl rfl
    · by_cases question : c = 0x3f
      · rw [if_neg slash, if_neg bang, if_pos question] at read
        obtain ⟨_, _, read⟩ := Option.bind_eq_some_iff.mp read
        cases read
        exact sound_emptied large rfl rfl
      · by_cases refused : (!isElement c) = true
        · rw [if_neg slash, if_neg bang, if_neg question, if_pos refused] at read
          cases read
          exact sound
        · rw [if_neg slash, if_neg bang, if_neg question, if_neg refused] at read
          exact sound.startTag room read

/-! ### Characters -/

theorem leaves_amp_iff (state : parser.state = .amp) :
    Leaves bufsize parser c ↔
      ((parser.bufpos = 0 ∧ c = 0x23 ∨ isElement c) ∨ c = 0x3b) ∧ bufsize ≤ parser.bufpos := by
  refine ⟨fun leaves => ?_, fun ⟨char, full⟩ => .entity state char full⟩
  cases leaves with
  | entity _ char full => exact ⟨char, full⟩
  | tag other => exact nomatch state.symm.trans other
  | doctype other => exact nomatch state.symm.trans other
  | cdata other => exact nomatch state.symm.trans other

theorem leaves_tag_iff (state : parser.state = .tag) :
    Leaves bufsize parser c ↔ c = 0x3e ∧ TagLeaves parser ∨
      c = 0x5b ∧ parser.buffer <+: doctypeTag ∧ parser.buffer.length < doctypeTag.length := by
  constructor
  · intro leaves
    cases leaves with
    | entity other => exact nomatch state.symm.trans other
    | tag _ close leaves => exact .inl ⟨close, leaves⟩
    | doctype _ bracket begins short => exact .inr ⟨bracket, begins, short⟩
    | cdata other => exact nomatch state.symm.trans other
  · rintro (⟨close, leaves⟩ | ⟨bracket, begins, short⟩)
    · exact .tag state close leaves
    · exact .doctype state bracket begins short

theorem leaves_cdata_iff (state : parser.state = .cdata) :
    Leaves bufsize parser c ↔ c = 0x3e ∧ 2 ≤ parser.bufpos ∧ parser.bufpos + 1 < bufsize ∧
      (parser.buffer.take parser.bufpos).drop (parser.bufpos - 2) = [0x5d, 0x5d] ∧
      parser.buffer.length ≤ parser.bufpos + 1 := by
  refine ⟨fun leaves => ?_, fun ⟨close, held, room, brackets, unwritten⟩ =>
    .cdata state close held room brackets unwritten⟩
  cases leaves with
  | entity other => exact nomatch state.symm.trans other
  | tag other => exact nomatch state.symm.trans other
  | doctype other => exact nomatch state.symm.trans other
  | cdata _ close held room brackets unwritten => exact ⟨close, held, room, brackets, unwritten⟩

/-- The rest of the characters does not. -/
theorem not_leaves (amp : parser.state ≠ .amp) (tag : parser.state ≠ .tag)
    (cdata : parser.state ≠ .cdata) : ¬ Leaves bufsize parser c := by
  intro leaves
  cases leaves with
  | entity state => exact amp state
  | tag state => exact tag state
  | doctype state => exact tag state
  | cdata state => exact cdata state

/-- A character leads out of what was written as `Leaves` says, and otherwise the parser stays
within it. -/
structure Keeps (bufsize : ℕ) (parser : XMLParser) (c : UInt8) : Prop where
  leaves_iff : readChar bufsize parser c = none ↔ Leaves bufsize parser c
  sound {returned : Option Bool} {target : XMLParser} :
    readChar bufsize parser c = some (returned, target) → Sound bufsize target

/-- It is enough to look at what the character comes to. -/
theorem Keeps.of_some {returned : Option Bool} (stays : ¬ Leaves bufsize parser c)
    (read : readChar bufsize parser c = some (returned, target)) (kept : Sound bufsize target) :
    Keeps bufsize parser c where
  leaves_iff := iff_of_false (read ▸ Option.some_ne_none _) stays
  sound read' := by
    obtain ⟨_, rfl⟩ := Prod.mk.inj (Option.some.inj (read.symm.trans read'))
    exact kept

theorem Keeps.of_none (leaves : Leaves bufsize parser c) (read : readChar bufsize parser c = none) :
    Keeps bufsize parser c where
  leaves_iff := iff_of_true read leaves
  sound read' := nomatch read.symm.trans read'

/-- A character of an entity. -/
theorem keeps_amp (state : parser.state = .amp) (sound : Sound bufsize parser) :
    Keeps bufsize parser c := by
  by_cases char : parser.bufpos = 0 ∧ c = 0x23 ∨ isElement c
  · have step : readChar bufsize parser c = (put bufsize parser parser.bufpos c).bind fun parser =>
        next { parser with bufpos := parser.bufpos + 1 } := by
      rw [readChar, state]
      exact if_pos char
    by_cases room : parser.bufpos < bufsize
    · obtain ⟨length, within⟩ := sound.stored room c
      rw [put_room room] at step
      exact .of_some (fun leaves => Nat.not_le.mpr room ((leaves_amp_iff state).mp leaves).2) step
        ⟨length, within, fun other => absurd state other⟩
    · have full : bufsize ≤ parser.bufpos := Nat.not_lt.mp room
      rw [put_full full] at step
      exact .of_none ((leaves_amp_iff state).mpr ⟨.inl char, full⟩) step
  · by_cases other : c ≠ 0x3b
    · have step : readChar bufsize parser c = stop false parser := by
        rw [readChar, state]
        dsimp only
        rw [if_neg char, if_pos other]
      exact .of_some (fun leaves => ((leaves_amp_iff state).mp leaves).1.elim char other) step sound
    · have ends : c = 0x3b := not_not.mp other
      have step : readChar bufsize parser c =
          (put bufsize parser parser.bufpos 0).bind fun parser =>
          (character parser.buffer).bind fun
            | none => stop false parser
            | some _ => next { emptied parser with state := .none } := by
        rw [readChar, state]
        dsimp only
        rw [if_neg char, if_neg other]
        rfl
      by_cases room : parser.bufpos < bufsize
      · have stays : ¬ Leaves bufsize parser c := fun leaves =>
          Nat.not_le.mpr room ((leaves_amp_iff state).mp leaves).2
        obtain ⟨length, within⟩ := sound.stored room 0
        rw [put_room room, Option.bind_some] at step
        cases found : character (stored parser 0).buffer with
        | none => exact absurd found (character_ne_none (mem_stored parser 0))
        | some known =>
          rw [found] at step
          cases known with
          | none =>
            exact .of_some stays step
              ⟨length, Nat.le_of_succ_le within, fun other => absurd state other⟩
          | some cp =>
            exact .of_some stays step (sound_emptied (Nat.zero_lt_of_lt room) rfl rfl)
      · have full : bufsize ≤ parser.bufpos := Nat.not_lt.mp room
        rw [put_full full] at step
        exact .of_none ((leaves_amp_iff state).mpr ⟨.inr ends, full⟩) step

/-- What a tag is, does not depend on the state. -/
theorem tagLeaves_state (parser : XMLParser) (state : State) :
    TagLeaves { parser with state := state } ↔ TagLeaves parser := by
  constructor
  · intro leaves
    cases leaves with
    | empty empty => exact .empty empty
    | endTag slash start all => exact .endTag slash start all
    | declaration question begins short => exact .declaration question begins short
    | startTag first element start => exact .startTag first element start
    | attributes first element held more overruns =>
      exact .attributes first element held more overruns
  · intro leaves
    cases leaves with
    | empty empty => exact .empty empty
    | endTag slash start all => exact .endTag slash start all
    | declaration question begins short => exact .declaration question begins short
    | startTag first element start => exact .startTag first element start
    | attributes first element held more overruns =>
      exact .attributes first element held more overruns

/-- What is read of a tag before its end is compared with what begins otherwise, in turn. -/
theorem readChar_open (state : parser.state = .tag) (opened : c ≠ 0x3e) :
    readChar bufsize parser c =
      (if c = 0x5b ∧ parser.bufpos = 7 then strncmp (· = ·) parser.buffer cdataTag
        else some false).bind fun cdata =>
      if cdata then next { parser with state := .cdata }
      else (if c = 0x2d ∧ parser.bufpos = 2 then strncmp (· = ·) parser.buffer commentTag
        else some false).bind fun comment =>
      if comment then next { emptied parser with state := .comment }
      else (if c = 0x5b then strncmp (· = ·) parser.buffer doctypeTag else some false).bind
        fun doctype =>
      if doctype then next { emptied parser with state := .dtd }
      else (putBuffer bufsize parser c).bind next := by
  rw [readChar, state]
  dsimp only
  rw [if_neg opened]
  rfl

/-- A comparison with as many bytes as were written does not leave them. -/
theorem test_ne_none {place : Prop} [Decidable place] {tag : Text}
    (within : place → tag.length ≤ parser.buffer.length) :
    (if place then strncmp (· = ·) parser.buffer tag else some false) ≠ none := by
  by_cases there : place
  · rw [if_pos there]
    exact strncmp_eq_ne_none (within there)
  · rw [if_neg there]
    exact Option.some_ne_none _

/-- The end of a tag. -/
theorem keeps_close (state : parser.state = .tag) (sound : Sound bufsize parser)
    (word : bufsize < 2 ^ 64) : Keeps bufsize parser 0x3e := by
  have room : parser.bufpos < bufsize := sound.room fun other => nomatch state.symm.trans other
  have sound' : Sound bufsize { parser with state := .none } :=
    ⟨sound.length_le, sound.bufpos_le, fun _ => room⟩
  have tag := parseTag_eq_none_iff sound' room word
  rw [tagLeaves_state] at tag
  have step : readChar bufsize parser 0x3e =
      (parseTag bufsize { parser with state := .none }).bind fun (accepted, parser) =>
        if !accepted then stop false parser else next parser := by
    rw [readChar, state]
    exact if_pos rfl
  cases read : parseTag bufsize { parser with state := .none } with
  | none =>
    rw [read] at step
    exact .of_none ((leaves_tag_iff state).mpr (.inl ⟨rfl, tag.mp read⟩)) step
  | some outcome =>
    obtain ⟨accepted, middle⟩ := outcome
    have kept : Sound bufsize middle := sound'.parseTag room read
    have stays : ¬ Leaves bufsize parser 0x3e := by
      rw [leaves_tag_iff state, ← tag, read]
      rintro (⟨_, lost⟩ | ⟨bracket, _⟩)
      · cases lost
      · exact absurd bracket (by decide)
    rw [read] at step
    cases accepted with
    | true => exact .of_some stays step kept
    | false => exact .of_some stays step kept

/-- A `[` in a tag: a section of characters begins, or the comparison with the document type may
not end. -/
theorem keeps_bracket (state : parser.state = .tag) (sound : Sound bufsize parser) :
    Keeps bufsize parser 0x5b := by
  have room : parser.bufpos < bufsize := sound.room fun other => nomatch state.symm.trans other
  obtain ⟨target, put, kept, _⟩ := putBuffer_sound sound room 0x5b
  have doctype := strncmp_eq_eq_none_iff parser.buffer doctypeTag
  have leaves_iff : Leaves bufsize parser 0x5b ↔
      strncmp (· = ·) parser.buffer doctypeTag = none := by
    rw [leaves_tag_iff state, doctype]
    refine ⟨fun leaves => ?_, fun lost => .inr ⟨rfl, lost⟩⟩
    rcases leaves with ⟨close, _⟩ | ⟨_, lost⟩
    · exact absurd close (by decide)
    · exact lost
  have step := @readChar_open bufsize parser 0x5b state (by decide)
  rw [put] at step
  have tested : (if (0x5b : UInt8) = 0x5b ∧ parser.bufpos = 7 then
      strncmp (· = ·) parser.buffer cdataTag else some false) ≠ none :=
    test_ne_none fun both => both.2.symm.trans_le sound.bufpos_le
  cases cdata : (if (0x5b : UInt8) = 0x5b ∧ parser.bufpos = 7 then
      strncmp (· = ·) parser.buffer cdataTag else some false) with
  | none => exact absurd cdata tested
  | some same =>
    rw [cdata] at step
    cases same with
    | true =>
      have both : (0x5b : UInt8) = 0x5b ∧ parser.bufpos = 7 := by
        by_contra other
        rw [if_neg other] at cdata
        cases cdata
      rw [if_pos both] at cdata
      have begins : cdataTag <+: parser.buffer := prefix_of_strncmp cdata
      refine .of_some (fun leaves => ?_) step ⟨sound.length_le, sound.bufpos_le, fun _ => room⟩
      have begun : cdataTag <+: doctypeTag := begins.trans (doctype.mp (leaves_iff.mp leaves)).1
      exact absurd begun (by decide)
    | false =>
      cases found : strncmp (· = ·) parser.buffer doctypeTag with
      | none =>
        refine .of_none (leaves_iff.mpr found) (step.trans ?_)
        rw [found]
        rfl
      | some same =>
        have stays : ¬ Leaves bufsize parser 0x5b := fun leaves => by
          rw [leaves_iff.mp leaves] at found
          cases found
        rw [found] at step
        cases same with
        | true => exact .of_some stays step (sound_emptied (Nat.zero_lt_of_lt room) rfl rfl)
        | false => exact .of_some stays step kept

/-- Another character of a tag. -/
theorem keeps_tag (state : parser.state = .tag) (sound : Sound bufsize parser) (close : c ≠ 0x3e)
    (bracket : c ≠ 0x5b) : Keeps bufsize parser c := by
  have room : parser.bufpos < bufsize := sound.room fun other => nomatch state.symm.trans other
  obtain ⟨target, put, kept, _⟩ := putBuffer_sound sound room c
  have stays : ¬ Leaves bufsize parser c := by
    rw [leaves_tag_iff state]
    rintro (⟨same, _⟩ | ⟨same, _⟩)
    · exact close same
    · exact bracket same
  have step := @readChar_open bufsize parser c state close
  rw [put, if_neg fun both => bracket both.1, if_neg bracket] at step
  have tested : (if c = 0x2d ∧ parser.bufpos = 2 then strncmp (· = ·) parser.buffer commentTag
      else some false) ≠ none :=
    test_ne_none fun both => both.2.symm.trans_le sound.bufpos_le
  cases comment : (if c = 0x2d ∧ parser.bufpos = 2 then strncmp (· = ·) parser.buffer commentTag
      else some false) with
  | none => exact absurd comment tested
  | some same =>
    rw [comment] at step
    cases same with
    | true => exact .of_some stays step (sound_emptied (Nat.zero_lt_of_lt room) rfl rfl)
    | false => exact .of_some stays step kept

/-- A character of a comment. -/
theorem keeps_comment (state : parser.state = .comment) (sound : Sound bufsize parser) :
    Keeps bufsize parser c := by
  have room : parser.bufpos < bufsize := sound.room fun other => nomatch state.symm.trans other
  have large : 0 < bufsize := Nat.zero_lt_of_lt room
  obtain ⟨length, within⟩ := sound.stored room c
  have stays : ¬ Leaves bufsize parser c := by
    refine not_leaves ?_ ?_ ?_ <;> rw [state] <;> decide
  have step : readChar bufsize parser c =
      (if c = 0x3e ∧ parser.bufpos ≥ 2 then
        strncmp (· = ·) (parser.buffer.drop (parser.bufpos - 2)) [0x2d, 0x2d]
      else some false).bind fun ends =>
      if ends then next { emptied parser with state := .none }
      else (put bufsize parser parser.bufpos c).bind fun parser =>
        if parser.bufpos + 1 = bufsize then next { parser with bufpos := 0 }
        else next { parser with bufpos := parser.bufpos + 1 } := by
    rw [readChar, state]
    rfl
  rw [put_room room] at step
  cases dashes : (if c = 0x3e ∧ parser.bufpos ≥ 2 then
      strncmp (· = ·) (parser.buffer.drop (parser.bufpos - 2)) [0x2d, 0x2d] else some false) with
  | none =>
    refine absurd dashes ?_
    by_cases both : c = 0x3e ∧ parser.bufpos ≥ 2
    · rw [if_pos both]
      refine strncmp_eq_ne_none ?_
      show 2 ≤ (parser.buffer.drop (parser.bufpos - 2)).length
      rw [List.length_drop]
      have two := both.2
      have inside := sound.bufpos_le
      omega
    · rw [if_neg both]
      exact Option.some_ne_none _
  | some same =>
    rw [dashes] at step
    cases same with
    | true => exact .of_some stays step (sound_emptied large rfl rfl)
    | false =>
      by_cases full : parser.bufpos + 1 = bufsize
      · have read : readChar bufsize parser c = next { stored parser c with bufpos := 0 } :=
          step.trans (if_pos full)
        exact .of_some stays read ⟨length, Nat.zero_le _, fun _ => large⟩
      · have read : readChar bufsize parser c =
            next { stored parser c with bufpos := parser.bufpos + 1 } := step.trans (if_neg full)
        exact .of_some stays read ⟨length, within, fun _ => Nat.lt_of_le_of_ne room full⟩

/-- The last three bytes of a section, once another has been written, are the last two of what was
there, that one, and what was written behind it. -/
theorem drop_stored (within : parser.bufpos ≤ parser.buffer.length) :
    (stored parser c).buffer.drop (parser.bufpos - 2) =
      (parser.buffer.take parser.bufpos).drop (parser.bufpos - 2) ++
        c :: parser.buffer.drop (parser.bufpos + 1) := by
  have short : (parser.buffer.take parser.bufpos).length = parser.bufpos :=
    List.length_take_of_le within
  refine List.drop_append_of_le_length ?_
  rw [short]
  exact Nat.sub_le _ _

/-- The comparison with `]]>` leaves what was written when it agrees and nothing is behind. -/
theorem equal_stored_eq_none_iff (within : parser.bufpos ≤ parser.buffer.length)
    (held : 2 ≤ parser.bufpos) :
    equal ((stored parser c).buffer.drop (parser.bufpos - 2)) [0x5d, 0x5d, 0x3e] = none ↔
      (parser.buffer.take parser.bufpos).drop (parser.bufpos - 2) = [0x5d, 0x5d] ∧ c = 0x3e ∧
        parser.buffer.length ≤ parser.bufpos + 1 := by
  have two : ((parser.buffer.take parser.bufpos).drop (parser.bufpos - 2)).length = 2 := by
    rw [List.length_drop, List.length_take_of_le within]
    omega
  have end_ : parser.buffer.drop (parser.bufpos + 1) = [] ↔
      parser.buffer.length ≤ parser.bufpos + 1 := List.drop_eq_nil_iff
  obtain ⟨first, second, brackets⟩ := List.length_eq_two.mp two
  rw [equal_eq_none_iff, drop_stored within, brackets, ← end_]
  show [first, second, c] ++ parser.buffer.drop (parser.bufpos + 1) <+: [0x5d, 0x5d, 0x3e] ↔ _
  constructor
  · intro begins
    have short := begins.length_le
    have nothing : parser.buffer.drop (parser.bufpos + 1) = [] := by
      rw [← List.length_eq_zero_iff]
      rw [List.length_append] at short
      exact Nat.le_zero.mp (Nat.le_of_add_le_add_left short)
    rw [nothing, List.append_nil] at begins
    have same : [first, second, c] = [0x5d, 0x5d, 0x3e] := begins.eq_of_length rfl
    simp only [List.cons.injEq, and_true] at same
    obtain ⟨rfl, rfl, rfl⟩ := same
    exact ⟨rfl, rfl, nothing⟩
  · rintro ⟨same, rfl, nothing⟩
    simp only [List.cons.injEq, and_true] at same
    obtain ⟨rfl, rfl⟩ := same
    have whole : [0x5d, 0x5d, 0x3e] ++ parser.buffer.drop (parser.bufpos + 1) =
        [0x5d, 0x5d, 0x3e] := by rw [nothing, List.append_nil]
    exact ⟨[], (List.append_nil _).trans whole⟩

/-- A character of a section. -/
theorem keeps_cdata (state : parser.state = .cdata) (sound : Sound bufsize parser) :
    Keeps bufsize parser c := by
  have room : parser.bufpos < bufsize := sound.room fun other => nomatch state.symm.trans other
  have large : 0 < bufsize := Nat.zero_lt_of_lt room
  obtain ⟨middle, put, kept, buffer, _, place⟩ := putBuffer_sound sound room c
  have step : readChar bufsize parser c =
      if middle.bufpos > 2 then
        (equal (middle.buffer.drop (middle.bufpos - 3)) [0x5d, 0x5d, 0x3e]).bind fun ends =>
          if ends then next { emptied middle with state := .none } else next middle
      else next middle := by
    rw [readChar, state]
    show (putBuffer bufsize parser c).bind _ = _
    rw [put]
    rfl
  by_cases compared : middle.bufpos > 2
  · have free : parser.bufpos + 1 < bufsize := by
      by_contra full
      rw [place, if_neg full] at compared
      exact absurd compared (by decide)
    rw [if_pos free] at place
    have held : 2 ≤ parser.bufpos := by
      rw [place] at compared
      exact Nat.le_of_lt_succ compared
    have three : middle.bufpos - 3 = parser.bufpos - 2 := by
      rw [place]
      omega
    have lost := @equal_stored_eq_none_iff parser c sound.bufpos_le held
    rw [← buffer] at lost
    rw [if_pos compared, three] at step
    cases found : equal (middle.buffer.drop (parser.bufpos - 2)) [0x5d, 0x5d, 0x3e] with
    | none =>
      obtain ⟨brackets, close, unwritten⟩ := lost.mp found
      refine .of_none (.cdata state close held free brackets unwritten) (step.trans ?_)
      rw [found]
      rfl
    | some ends =>
      have stays : ¬ Leaves bufsize parser c := by
        rw [leaves_cdata_iff state]
        rintro ⟨close, _, _, brackets, unwritten⟩
        rw [lost.mpr ⟨brackets, close, unwritten⟩] at found
        cases found
      rw [found] at step
      cases ends with
      | true => exact .of_some stays step (sound_emptied large rfl rfl)
      | false => exact .of_some stays step kept
  · have stays : ¬ Leaves bufsize parser c := by
      rw [leaves_cdata_iff state]
      rintro ⟨_, held, free, _⟩
      rw [place, if_pos free] at compared
      exact compared (Nat.lt_succ_of_le held)
    rw [if_neg compared] at step
    exact .of_some stays step kept

theorem keeps_dtd (state : parser.state = .dtd) (sound : Sound bufsize parser) :
    Keeps bufsize parser c := by
  have room : parser.bufpos < bufsize := sound.room fun other => nomatch state.symm.trans other
  have stays : ¬ Leaves bufsize parser c := by
    refine not_leaves ?_ ?_ ?_ <;> rw [state] <;> decide
  have step : readChar bufsize parser c =
      if c = 0x3c then next { parser with dcount := parser.dcount + 1 }
      else if c = 0x3e ∧ parser.dcount ≠ 0 then next { parser with dcount := parser.dcount - 1 }
      else if c = 0x3e then next { parser with state := .none }
      else next parser := by
    rw [readChar, state]
  split_ifs at step
  · exact .of_some stays step ⟨sound.length_le, sound.bufpos_le, fun _ => room⟩
  · exact .of_some stays step ⟨sound.length_le, sound.bufpos_le, fun _ => room⟩
  · exact .of_some stays step ⟨sound.length_le, sound.bufpos_le, fun _ => room⟩
  · exact .of_some stays step sound

/-- A character of a text, or behind the document. -/
theorem keeps_text (state : parser.state = .none ∨ parser.state = .ended)
    (sound : Sound bufsize parser) : Keeps bufsize parser c := by
  have room : parser.bufpos < bufsize := sound.room fun other => by
    rw [other] at state
    rcases state with other | other <;> cases other
  have large : 0 < bufsize := Nat.zero_lt_of_lt room
  have stays : ¬ Leaves bufsize parser c := by
    refine not_leaves ?_ ?_ ?_ <;> rcases state with state | state <;> rw [state] <;> decide
  obtain ⟨middle, put, kept, _⟩ := putBuffer_sound sound room c
  have step : readChar bufsize parser c =
      if c = 0x3c then next { emptied parser with state := .tag }
      else if parser.ecount ≠ 0 ∧ c = 0x26 then next { emptied parser with state := .amp }
      else if parser.ecount ≠ 0 then (putBuffer bufsize parser c).bind next
      else next parser := by
    rcases state with state | state <;> rw [readChar, state] <;> rfl
  rw [put] at step
  split_ifs at step
  · exact .of_some stays step (sound_emptied large rfl rfl)
  · exact .of_some stays step (sound_emptied large rfl rfl)
  · exact .of_some stays step kept
  · exact .of_some stays step sound

/-- What every character does. -/
theorem keeps (sound : Sound bufsize parser) (word : bufsize < 2 ^ 64) (c : UInt8) :
    Keeps bufsize parser c := by
  cases state : parser.state with
  | tag =>
    by_cases close : c = 0x3e
    · rw [close]
      exact keeps_close state sound word
    · by_cases bracket : c = 0x5b
      · rw [bracket]
        exact keeps_bracket state sound
      · exact keeps_tag state sound close bracket
  | cdata => exact keeps_cdata state sound
  | comment => exact keeps_comment state sound
  | dtd => exact keeps_dtd state sound
  | amp => exact keeps_amp state sound
  | none => exact keeps_text (.inl state) sound
  | ended => exact keeps_text (.inr state) sound

/-! ### Calls -/

theorem Sound.enter (sound : Sound bufsize parser) (large : 0 < bufsize) (call : Call) :
    Sound bufsize (call.enter parser) := by
  cases call with
  | parse buf => exact sound_emptied large rfl rfl
  | piece data =>
    show Sound bufsize parser.restart
    by_cases ended : parser.state = .ended
    · have room : parser.bufpos < bufsize := sound.room fun other => nomatch ended.symm.trans other
      rw [restart, if_pos ended]
      exact ⟨sound.length_le, sound.bufpos_le, fun _ => room⟩
    · rw [restart, if_neg ended]
      exact sound

/-- A round of a loop does what its character does. -/
theorem round_eq_none_iff (sound : Sound bufsize parser) (word : bufsize < 2 ^ 64) (call : Call)
    (c : UInt8) : call.round bufsize parser c = none ↔ Leaves bufsize parser c := by
  have char := (keeps sound word c).leaves_iff
  cases call with
  | piece data => exact char
  | parse buf =>
    show andThen (if parser.state = .ended then stop true parser else readChar bufsize parser c)
      _ = none ↔ _
    by_cases ended : parser.state = .ended
    · rw [if_pos ended]
      refine iff_of_false (Option.some_ne_none _) (not_leaves ?_ ?_ ?_) <;> rw [ended] <;> decide
    · rw [if_neg ended, ← char]
      match readChar bufsize parser c with
      | none => exact iff_of_true rfl rfl
      | some (some verdict, target) =>
        exact iff_of_false (Option.some_ne_none _) (Option.some_ne_none _)
      | some (none, target) =>
        refine iff_of_false ?_ (Option.some_ne_none _)
        show (if target.state = .ended then stop true target else next target) ≠ none
        split_ifs <;> exact Option.some_ne_none _

theorem Sound.round (sound : Sound bufsize parser) (word : bufsize < 2 ^ 64) (call : Call)
    {returned : Option Bool} (read : call.round bufsize parser c = some (returned, target)) :
    Sound bufsize target := by
  cases call with
  | piece data => exact (keeps sound word c).sound read
  | parse buf =>
    change andThen (if parser.state = .ended then stop true parser else readChar bufsize parser c)
      _ = some (returned, target) at read
    by_cases ended : parser.state = .ended
    · rw [if_pos ended] at read
      cases read
      exact sound
    · rw [if_neg ended] at read
      cases found : readChar bufsize parser c with
      | none =>
        rw [found] at read
        cases read
      | some outcome =>
        obtain ⟨returned', middle⟩ := outcome
        have kept : Sound bufsize middle := (keeps sound word c).sound found
        rw [found] at read
        cases returned' with
        | some verdict =>
          cases read
          exact kept
        | none =>
          change (if middle.state = .ended then stop true middle else next middle) = _ at read
          split_ifs at read <;> cases read <;> exact kept

/-- The call reads its text within what was written when no character of it leads out. -/
def Stays (bufsize : ℕ) (parser : XMLParser) (call : Call) : Prop :=
  ∀ (before : Text) (ch : UInt8) (after : Text) (reached : XMLParser),
    call.text = before ++ ch :: after →
      scan (call.round bufsize) (call.enter parser) before = some (none, reached) →
      ¬ Leaves bufsize reached ch

theorem perform_eq_none_iff (sound : Sound bufsize parser) (large : 0 < bufsize)
    (word : bufsize < 2 ^ 64) (call : Call) :
    Call.perform bufsize parser call = none ↔ ¬ Stays bufsize parser call := by
  have read := @scan_isSome_iff _ _ _ (call.round bufsize) (Sound bufsize) (Leaves bufsize)
    (fun c sound => round_eq_none_iff sound word call c)
    (fun sound read => sound.round word call read) (call.enter parser) (sound.enter large call)
    call.text
  rw [Stays, ← read, Call.perform]
  cases scan (call.round bufsize) (call.enter parser) call.text with
  | none => exact iff_of_true rfl Bool.false_ne_true
  | some outcome => exact iff_of_false (Option.some_ne_none _) fun lost => lost rfl

theorem Sound.perform (sound : Sound bufsize parser) (large : 0 < bufsize) (word : bufsize < 2 ^ 64)
    {call : Call} {returned : Option Empty}
    (read : Call.perform bufsize parser call = some (returned, target)) : Sound bufsize target := by
  obtain ⟨⟨verdict, reached⟩, scanned, made⟩ := Option.bind_eq_some_iff.mp read
  cases made
  exact scan_relates (fun parser target => Sound bufsize parser → Sound bufsize target)
    (fun _ sound => sound) (fun first second sound => second (first sound))
    (fun read sound => sound.round word call read) scanned (sound.enter large call)

end Steps

/-- Calls of `parse` and `partial` one after the other, on a parser that has read nothing, stay
within the arrays and within what was written for what is being read, exactly when none of their
characters is one of those that lead out, where the parser comes to it. -/
theorem calls_stay_iff {bufsize : ℕ} (large : 16 ≤ bufsize) (unsigned : bufsize < 2 ^ 32)
    (calls : List Call) :
    (scan (Call.perform bufsize) opened calls).isSome ↔
      ∀ {earlier : List Call} {call : Call} {later : List Call} {parser : XMLParser},
        calls = earlier ++ call :: later →
        scan (Call.perform bufsize) opened earlier = some (none, parser) →
        ∀ {before : Text} {ch : UInt8} {after : Text} {reached : XMLParser},
          call.text = before ++ ch :: after →
          scan (call.round bufsize) (call.enter parser) before = some (none, reached) →
          ¬ Leaves bufsize reached ch := by
  have room : 0 < bufsize := Nat.lt_of_lt_of_le (by decide) large
  have word : bufsize < 2 ^ 64 := unsigned.trans (by decide)
  rw [@scan_isSome_iff _ _ _ (Call.perform bufsize) (Sound bufsize)
    (fun parser call => ¬ Stays bufsize parser call)
    (fun call sound => perform_eq_none_iff sound room word call)
    (fun sound read => sound.perform room word read) opened (sound_emptied room rfl rfl) calls]
  refine ⟨fun all earlier call later parser split reached => ?_,
    fun all earlier call later parser split reached => ?_⟩
  · intro before ch after reached' text scanned
    have stays := not_not.mp (all split reached)
    exact stays before ch after reached' text scanned
  · refine not_not.mpr ?_
    intro before ch after reached' text scanned
    exact all split reached text scanned

/-- `<a>b</a>`. -/
theorem calls_stay_iff_element :
    (scan (Call.perform 16) opened
        [.piece [0x3c, 0x61, 0x3e, 0x62, 0x3c, 0x2f, 0x61, 0x3e]]).isSome ∧
      ∀ {earlier : List Call} {call : Call} {later : List Call} {parser : XMLParser},
        [Call.piece [0x3c, 0x61, 0x3e, 0x62, 0x3c, 0x2f, 0x61, 0x3e]] = earlier ++ call :: later →
        scan (Call.perform 16) opened earlier = some (none, parser) →
        ∀ {before : Text} {ch : UInt8} {after : Text} {reached : XMLParser},
          call.text = before ++ ch :: after →
          scan (call.round 16) (call.enter parser) before = some (none, reached) →
          ¬ Leaves 16 reached ch := by
  have read : (scan (Call.perform 16) opened
      [.piece [0x3c, 0x61, 0x3e, 0x62, 0x3c, 0x2f, 0x61, 0x3e]]).isSome := by decide
  exact ⟨read, (calls_stay_iff (by decide) (by decide) _).mp read⟩

/-- `<>`: the first byte of the tag was never written. -/
theorem empty_tag_leaves :
    ¬ ∀ (bufsize : ℕ), 16 ≤ bufsize → bufsize < 2 ^ 32 → ∀ calls : List Call,
      (scan (Call.perform bufsize) opened calls).isSome := by
  intro all
  exact absurd (all 16 (by decide) (by decide) [.piece [0x3c, 0x3e]]) (by decide)

end Written

end XMLParser

end CommonCpp
