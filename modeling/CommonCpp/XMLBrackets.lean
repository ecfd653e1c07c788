/-
This file shows that the calls `XMLParser` makes for a document are bracketed.

What has been called while a document is read is described by a derivation: comments may
come at any time, characters only inside an element, and an element is closed only
inside another one. Each branch of the parser extends the derivation by what it calls,
with `ecount` as its depth. The last element of all is closed together with the
document, and the parser then stops.

`ecount` is an `int`, and all of this is said of calls whose depth stays one. Elements that are
deeper in one another wrap it, and 2 ^ 32 of them make it zero, so that a document starts inside of
another.
-/

import Mathlib.Algebra.BigOperators.Group.List.Basic
import Mathlib.Algebra.Group.Int.Defs
import Mathlib.Data.List.Infix
import CommonCpp.XMLChunks

namespace CommonCpp

open Bytes Scanner

namespace XMLParser

/-! ### Brackets -/

/-- What a call does to the depth. -/
def Callback.depth : Callback → ℤ
  | .startElement _ _ => 1
  | .endElement _ => -1
  | _ => 0

/-- The elements that have been started and not ended. -/
def depth (calls : List Callback) : ℤ := (calls.map Callback.depth).sum

/-- Nothing but comments has been called. -/
def Comments (calls : List Callback) : Prop := ∀ callback ∈ calls, ∃ text, callback = .comment text

/-- The calls inside a document, up to the end of its last element. -/
structure Inside (calls : List Callback) : Prop where
  element : ∃ name attr rest, calls = .startElement name attr :: rest
  single : .startDocument ∉ calls ∧ .endDocument ∉ calls
  deep : ∀ first last, calls = first ++ last → first ≠ [] → 1 ≤ depth first
  characters : ∀ first text last, calls = first ++ .characters text :: last → 1 ≤ depth first

/-- The calls for a document: comments, the start, elements inside one another with characters
inside of them, and the end together with that of the first element. -/
def Document (calls : List Callback) : Prop :=
  ∃ comments inside name,
    calls = comments ++ .startDocument :: inside ++ [.endElement name, .endDocument] ∧
      Comments comments ∧ Inside inside ∧ depth inside = 1

/-- The calls for the part of a document that has been read, with its depth. -/
inductive Opened : ℤ → List Callback → Prop
  | fresh : Opened 0 []
  | comment {count : ℤ} {calls : List Callback} (text : Text) (opened : Opened count calls) :
    Opened count (calls ++ [.comment text])
  | first {calls : List Callback} (name : Text) (attr : List Text) (opened : Opened 0 calls) :
    Opened 1 (calls ++ [.startDocument, .startElement name attr])
  | element {count : ℤ} {calls : List Callback} (name : Text) (attr : List Text) (deep : 1 ≤ count)
    (opened : Opened count calls) : Opened (count + 1) (calls ++ [.startElement name attr])
  | close {count : ℤ} {calls : List Callback} (name : Text) (deep : 1 ≤ count)
    (opened : Opened (count + 1) calls) : Opened count (calls ++ [.endElement name])
  | characters {count : ℤ} {calls : List Callback} (text : Text) (deep : 1 ≤ count)
    (opened : Opened count calls) : Opened count (calls ++ [.characters text])

section Brackets

variable {calls : List Callback} {count : ℤ}

theorem depth_append (first last : List Callback) :
    depth (first ++ last) = depth first + depth last := by
  unfold depth
  rw [List.map_append, List.sum_append]

/-- The depth of a derivation is that of its calls. -/
theorem Opened.depth_eq (opened : Opened count calls) : depth calls = count := by
  induction opened with
  | fresh => rfl
  | comment text opened inductionHypothesis =>
    rw [depth_append, inductionHypothesis]
    exact add_zero _
  | first name attr opened inductionHypothesis =>
    rw [depth_append, inductionHypothesis]
    rfl
  | element name attr deep opened inductionHypothesis =>
    rw [depth_append, inductionHypothesis]
    rfl
  | close name deep opened inductionHypothesis =>
    rw [depth_append, inductionHypothesis]
    exact add_neg_cancel_right _ 1
  | characters text deep opened inductionHypothesis =>
    rw [depth_append, inductionHypothesis]
    exact add_zero _

/-- Where an element comes first and every part from it on is deep, characters are called inside. -/
theorem inside_of_deep (element : ∃ name attr rest, calls = .startElement name attr :: rest)
    (single : .startDocument ∉ calls ∧ .endDocument ∉ calls)
    (deep : ∀ first last, calls = first ++ last → first ≠ [] → 1 ≤ depth first) : Inside calls := by
  refine ⟨element, single, deep, fun first text last split => deep first _ split ?_⟩
  rintro rfl
  obtain ⟨name, attr, rest, starts⟩ := element
  rw [starts] at split
  cases split

/-- The first element of a document. -/
theorem inside_first (name : Text) (attr : List Text) : Inside [.startElement name attr] := by
  refine inside_of_deep ⟨name, attr, [], rfl⟩ (by simp) fun first last split some_ => ?_
  cases first with
  | nil => exact absurd rfl some_
  | cons callback first =>
    obtain ⟨rfl, rest⟩ := List.cons.inj split
    obtain ⟨rfl, -⟩ := List.append_eq_nil_iff.mp rest.symm
    exact le_rfl

/-- One more call inside a document, after which the depth is still positive. -/
theorem Inside.append (inside : Inside calls) {callback : Callback}
    (other : callback ≠ .startDocument ∧ callback ≠ .endDocument)
    (deep : 1 ≤ depth (calls ++ [callback])) : Inside (calls ++ [callback]) := by
  obtain ⟨name, attr, rest, starts⟩ := inside.element
  refine inside_of_deep ⟨name, attr, rest ++ [callback], by rw [starts, List.cons_append]⟩ ?_ ?_
  · rw [List.mem_append, List.mem_append, List.mem_singleton, List.mem_singleton, not_or, not_or]
    exact ⟨⟨inside.single.1, Ne.symm other.1⟩, inside.single.2, Ne.symm other.2⟩
  · intro first last split some_
    rcases List.eq_nil_or_concat' last with rfl | ⟨last, final, rfl⟩
    · rw [List.append_nil] at split
      rwa [← split]
    · rw [← List.append_assoc] at split
      exact inside.deep first last (List.append_inj_left' split rfl) some_

/-- A document has been started, and this is the depth inside of it. -/
def Begun (count : ℤ) (calls : List Callback) : Prop :=
  ∃ comments inside, calls = comments ++ .startDocument :: inside ∧ Comments comments ∧
    Inside inside ∧ depth inside = count

theorem Begun.append (begun : Begun count calls) {callback : Callback}
    (other : callback ≠ .startDocument ∧ callback ≠ .endDocument) {count' : ℤ}
    (counted : count' = count + callback.depth) (deep : 1 ≤ count') :
    Begun count' (calls ++ [callback]) := by
  obtain ⟨comments, inside, split, only, inside_, deep_⟩ := begun
  have depth_ : depth (inside ++ [callback]) = count' := by
    rw [depth_append, deep_, counted]
    exact congrArg (count + ·) (add_zero callback.depth)
  refine ⟨comments, inside ++ [callback], ?_, only, inside_.append other (depth_ ▸ deep), depth_⟩
  rw [split, List.append_assoc, List.cons_append]

/-- What has been called is comments, or the start of a document with what is inside of it. -/
theorem Opened.begun (opened : Opened count calls) :
    (count = 0 ∧ Comments calls) ∨ 1 ≤ count ∧ Begun count calls := by
  induction opened with
  | fresh => exact Or.inl ⟨rfl, nofun⟩
  | comment text opened inductionHypothesis =>
    refine inductionHypothesis.imp ?_ ?_
    · rintro ⟨none_, only⟩
      refine ⟨none_, fun callback member => ?_⟩
      rcases List.mem_append.mp member with earlier | last
      · exact only callback earlier
      · exact ⟨text, List.mem_singleton.mp last⟩
    · rintro ⟨deep, begun⟩
      exact ⟨deep, begun.append (by simp) (add_zero _).symm deep⟩
  | @first calls name attr opened inductionHypothesis =>
    rcases inductionHypothesis with ⟨-, only⟩ | ⟨deep, -⟩
    · exact Or.inr
        ⟨le_rfl, calls, [.startElement name attr], rfl, only, inside_first name attr, rfl⟩
    · exact absurd deep (by decide)
  | element name attr deep opened inductionHypothesis =>
    have deeper := Int.le_add_one deep
    rcases inductionHypothesis with ⟨rfl, -⟩ | ⟨-, begun⟩
    · exact absurd deep (by decide)
    · exact Or.inr ⟨deeper, begun.append (by simp) rfl deeper⟩
  | @close count calls name deep opened inductionHypothesis =>
    rcases inductionHypothesis with ⟨none_, -⟩ | ⟨-, begun⟩
    · rw [eq_neg_of_add_eq_zero_left none_] at deep
      exact absurd deep (by decide)
    · exact Or.inr ⟨deep, begun.append (by simp) (add_neg_cancel_right count 1).symm deep⟩
  | characters text deep opened inductionHypothesis =>
    rcases inductionHypothesis with ⟨rfl, -⟩ | ⟨-, begun⟩
    · exact absurd deep (by decide)
    · exact Or.inr ⟨deep, begun.append (by simp) (add_zero _).symm deep⟩

/-- The end of the last element and of the document make a whole document. -/
theorem Opened.document (opened : Opened 1 calls) (name : Text) :
    Document (calls ++ [.endElement name, .endDocument]) := by
  rcases opened.begun with ⟨none_, -⟩ | ⟨-, comments, inside, rfl, only, inside_, deep⟩
  · exact absurd none_ (by decide)
  · exact ⟨comments, inside, name, rfl, only, inside_, deep⟩

theorem Opened.nonneg (opened : Opened count calls) : 0 ≤ count := by
  rcases opened.begun with ⟨rfl, -⟩ | ⟨deep, -⟩
  · exact le_rfl
  · exact le_trans (by decide) deep

/-- A depth that is not zero is positive. -/
theorem Opened.deep (opened : Opened count calls) (some_ : count ≠ 0) : 1 ≤ count :=
  Int.add_one_le_iff.mpr (lt_of_le_of_ne opened.nonneg (Ne.symm some_))

/-- Right after the start of an element the depth is positive. -/
theorem Opened.started {name : Text} {attr : List Text}
    (opened : Opened count (calls ++ [.startElement name attr])) : 1 ≤ count := by
  rcases opened.begun with ⟨-, only⟩ | ⟨deep, -⟩
  · obtain ⟨text, comment⟩ := only (.startElement name attr) (by simp)
    cases comment
  · exact deep

/-- A document leaves no element open. -/
theorem Document.depth_eq (document : Document calls) : depth calls = 0 := by
  obtain ⟨comments, inside, name, rfl, only, -, deep⟩ := document
  have outside : depth comments = 0 := by
    refine List.sum_eq_zero fun change member => ?_
    obtain ⟨callback, called, rfl⟩ := List.mem_map.mp member
    obtain ⟨text, rfl⟩ := only callback called
    rfl
  rw [depth_append, depth_append, outside]
  show 0 + (0 + depth inside) + -1 = 0
  rw [deep]
  rfl

/-- The depth of the calls stays an `int` all along. -/
def Shallow (calls : List Callback) : Prop := ∀ first, first <+: calls → depth first < 2 ^ 31

instance : DecidablePred Shallow := fun calls =>
  decidable_of_iff (∀ first ∈ calls.inits, depth first < 2 ^ 31) <|
    forall_congr' fun first => imp_congr_left (List.mem_inits first calls)

theorem Shallow.upto {first : List Callback} (shallow : Shallow calls)
    (begins : first <+: calls) : Shallow first :=
  fun _ part => shallow _ (part.trans begins)

theorem Shallow.left {first last : List Callback} (shallow : Shallow (first ++ last)) :
    Shallow first :=
  shallow.upto (List.prefix_append first last)

/-- An `int` that stays one after the start of an element. -/
theorem toInt_succ {ecount : Int32} (nonneg : 0 ≤ ecount.toInt)
    (small : ecount.toInt + 1 < 2 ^ 31) : (ecount + 1).toInt = ecount.toInt + 1 := by
  rw [Int32.toInt_add, Int32.toInt_one]
  exact Int.bmod_eq_of_le (by omega) (by omega)

theorem toInt_pred {ecount : Int32} (deep : 1 ≤ ecount.toInt) :
    (ecount - 1).toInt = ecount.toInt - 1 := by
  have small := ecount.toInt_lt
  rw [Int32.toInt_sub, Int32.toInt_one]
  exact Int.bmod_eq_of_le (by omega) (by omega)

theorem sub_one_eq_zero {ecount : Int32} : ecount - 1 = 0 ↔ ecount = 1 := by
  rw [Int32.sub_eq_iff_eq_add, Int32.zero_add]

theorem toInt_ne_zero {ecount : Int32} (some_ : ecount ≠ 0) : ecount.toInt ≠ 0 :=
  fun none_ => some_ (Int32.toInt_inj.mp none_)

theorem toInt_ne_one {ecount : Int32} (other : ecount ≠ 1) : ecount.toInt ≠ 1 :=
  fun one => other (Int32.toInt_inj.mp one)

end Brackets

/-! ### The parser -/

/-- The calls since some earlier ones are those for a part of a document, with `ecount` as its
depth, where the depth has stayed an `int`. -/
def Reads (before : List Callback) (parser : XMLParser) : Prop :=
  ∃ calls, parser.calls = before ++ calls ∧ (Shallow calls → Opened parser.ecount.toInt calls)

/-- The calls since some earlier ones are those for a document. -/
structure Finished (before : List Callback) (parser : XMLParser) : Prop where
  state : parser.state = .ended
  ecount : parser.ecount = 0
  calls : ∃ calls, parser.calls = before ++ calls ∧ (Shallow calls → Document calls)

/-- A parser that has not come to the end of the document reads a name of a character only inside
of it. -/
structure Reading (before : List Callback) (parser : XMLParser) : Prop where
  state : parser.state ≠ .ended
  amp : parser.state = .amp → parser.ecount ≠ 0
  reads : Reads before parser

section Parser

variable {before : List Callback} {source target : XMLParser}

/-- A parser reads on from one that reads, where the depth and the calls are the same. -/
theorem Reads.silent (reads : Reads before source) (ecount : target.ecount = source.ecount)
    (calls : target.calls = source.calls) : Reads before target := by
  unfold Reads
  rw [ecount, calls]
  exact reads

/-- One more call is made. -/
theorem Reads.call {callback : Callback} (reads : Reads before source)
    (extends_ : ∀ {calls}, Opened source.ecount.toInt calls →
      Opened target.ecount.toInt (calls ++ [callback]))
    (called : target.calls = source.calls ++ [callback]) : Reads before target := by
  obtain ⟨calls, split, opened⟩ := reads
  exact ⟨calls ++ [callback], by rw [called, split, List.append_assoc],
    fun shallow => extends_ (opened shallow.left)⟩

theorem Reads.characters (reads : Reads before source) (inside : source.ecount ≠ 0) (text : Text) :
    Reads before (source.call (.characters text)) :=
  reads.call (fun opened => opened.characters text (opened.deep (toInt_ne_zero inside))) rfl

theorem Reads.comment (reads : Reads before source) (text : Text) :
    Reads before (source.call (.comment text)) :=
  reads.call (fun opened => opened.comment text) rfl

theorem Reads.put (reads : Reads before source) {index : ℕ} {c : UInt8}
    (stored : source.put index c = some target) : Reads before target :=
  reads.silent (put_keeps stored).2.1 (put_keeps stored).2.2

/-- A buffer that is full is emptied. -/
theorem Reads.putBuffer (reads : Reads before source) {c : UInt8}
    (stored : source.putBuffer c = some target) :
    Reads before target ∧ target.state = source.state ∧ target.ecount = source.ecount := by
  obtain ⟨middle, put_, stored⟩ := Option.bind_eq_some_iff.mp stored
  obtain ⟨state, ecount, _⟩ := put_keeps put_
  have held := reads.put put_
  dsimp only at stored
  split at stored
  · split at stored
    next inside =>
      cases stored
      have counted : Reads before { middle with bufpos := middle.bufpos + 1 } := held.silent rfl rfl
      exact ⟨(counted.characters inside _).silent rfl rfl, state, ecount⟩
    next outside =>
      cases stored
      exact ⟨held.silent rfl rfl, state, ecount⟩
  · cases stored
    exact ⟨held.silent rfl rfl, state, ecount⟩

theorem state_clearBuffer (parser : XMLParser) : parser.clearBuffer.state = parser.state := by
  unfold clearBuffer
  dsimp only
  split <;> rfl

theorem Reads.clearBuffer (reads : Reads before source) :
    Reads before source.clearBuffer ∧ source.clearBuffer.ecount = source.ecount := by
  unfold XMLParser.clearBuffer
  dsimp only
  split
  next full => exact ⟨(reads.characters full.2 _).silent rfl rfl, rfl⟩
  next empty => exact ⟨reads.silent rfl rfl, rfl⟩

/-- What a parser does that does not refuse: it goes on, or has come to the end. -/
def Goes (before : List Callback) (parser : XMLParser) : Prop :=
  Reading before parser ∨ Finished before parser

/-- In any other state a parser goes on. -/
theorem Reads.goes (reads : Reads before source) {state : State} (state_ : target.state = state)
    (other : state ≠ .ended ∧ state ≠ .amp) (ecount : target.ecount = source.ecount)
    (calls : target.calls = source.calls) : Goes before target :=
  Or.inl ⟨fun ended => other.1 (state_.symm.trans ended),
    fun amp => absurd (state_.symm.trans amp) other.2, reads.silent ecount calls⟩

/-- An element is closed: the parser goes on outside of it, or the document ends. -/
theorem goes_close (reads : Reads before source) (name : Text)
    (inside : ∀ {calls}, source.calls = before ++ calls → Opened source.ecount.toInt calls →
      1 ≤ source.ecount.toInt)
    (state : target.state = if source.ecount = 1 then .ended else .none)
    (ecount : target.ecount = source.ecount - 1)
    (calls : target.calls = source.calls ++ .endElement name ::
      if source.ecount = 1 then [.endDocument] else []) : Goes before target := by
  obtain ⟨earlier, split, opened⟩ := reads
  by_cases last : source.ecount = 1
  · rw [if_pos last] at state calls
    rw [last] at opened ecount
    refine Or.inr ⟨state, ecount, _, ?_, fun shallow => (opened shallow.left).document name⟩
    rw [calls, split, List.append_assoc]
  · rw [if_neg last] at state calls
    have closes (shallow : Shallow (earlier ++ [.endElement name])) :
        Opened target.ecount.toInt (earlier ++ [.endElement name]) := by
      have opened := opened shallow.left
      have positive := inside split opened
      have other := toInt_ne_one last
      rw [ecount, toInt_pred positive]
      rw [← sub_add_cancel source.ecount.toInt 1] at opened
      exact opened.close name (by omega)
    have reads : Reads before target :=
      ⟨earlier ++ [.endElement name], by rw [calls, split, List.append_assoc], closes⟩
    exact reads.goes state (by decide) rfl rfl

/-- An element is started, and the document with the first. -/
theorem Reads.start (reads : Reads before source) {name : Text} {attr : List Text}
    (ecount : target.ecount = source.ecount + 1)
    (calls : target.calls = source.enter.calls ++ [.startElement name attr]) :
    Reads before target ∧
      ∃ calls, target.calls = before ++ (calls ++ [.startElement name attr]) := by
  obtain ⟨earlier, split, opened⟩ := reads
  unfold Reads
  rw [ecount, calls]
  by_cases first : source.ecount = 0
  · have entered : source.enter.calls ++ [.startElement name attr] =
        before ++ (earlier ++ [.startDocument] ++ [.startElement name attr]) := by
      unfold enter
      rw [if_pos first]
      show source.calls ++ [_] ++ [_] = _
      rw [split, List.append_assoc, List.append_assoc, List.append_assoc]
    rw [first] at opened ⊢
    refine ⟨⟨_, entered, fun shallow => ?_⟩, _, entered⟩
    have began := (opened (shallow.left.left)).first name attr
    rwa [List.append_assoc]
  · have entered : source.enter.calls ++ [.startElement name attr] =
        before ++ (earlier ++ [.startElement name attr]) := by
      unfold enter
      rw [if_neg first]
      show source.calls ++ [_] = _
      rw [split, List.append_assoc]
    refine ⟨⟨_, entered, fun shallow => ?_⟩, _, entered⟩
    have opened := opened shallow.left
    have small := shallow _ List.prefix_rfl
    rw [depth_append, opened.depth_eq] at small
    rw [toInt_succ opened.nonneg small]
    exact opened.element name attr (opened.deep (toInt_ne_zero first))

theorem enter_eq (parser : XMLParser) :
    parser.enter = { parser with
      ecount := parser.ecount + 1
      calls := parser.calls ++ if parser.ecount = 0 then [.startDocument] else [] } := by
  unfold enter
  by_cases first : parser.ecount = 0
  · rw [if_pos first, if_pos first]
    rfl
  · rw [if_neg first, if_neg first, List.append_nil]

/-- The end of an empty element. -/
theorem started_spec (parser : XMLParser) :
    (parser.started true).state = (if parser.ecount = 1 then .ended else parser.state) ∧
      (parser.started true).ecount = parser.ecount - 1 ∧
      (parser.started true).calls = parser.calls ++ .endElement (string parser.buffer) ::
        if parser.ecount = 1 then [.endDocument] else [] := by
  unfold started
  rw [if_pos rfl]
  dsimp only
  split
  next last =>
    have one : parser.ecount = 1 := sub_one_eq_zero.mp last
    rw [if_pos one, if_pos one]
    exact ⟨rfl, rfl, List.append_assoc _ _ _⟩
  next some_ =>
    have other : parser.ecount ≠ 1 := fun one => some_ (sub_one_eq_zero.mpr one)
    rw [if_neg other, if_neg other]
    exact ⟨rfl, rfl, rfl⟩

/-- What comes after `startElement`. -/
theorem goes_started {name : Text} {attr : List Text} (reads : Reads before source)
    (state : source.state = .none) {calls : List Callback}
    (called : source.calls = before ++ (calls ++ [.startElement name attr])) (ending : Bool) :
    Goes before (source.started ending) := by
  cases ending with
  | false =>
    have left : Reads before (source.started false) := reads.silent rfl rfl
    exact left.goes state (by decide) rfl rfl
  | true =>
    obtain ⟨state_, ecount, closed⟩ := started_spec source
    rw [state] at state_
    refine goes_close reads _ (fun split opened => ?_) state_ ecount closed
    obtain rfl := List.append_cancel_left (called.symm.trans split)
    exact opened.started

theorem goes_endTag (reads : Reads before source) (state : source.state = .none)
    (read : source.endTag = some (true, target)) : Goes before target := by
  obtain ⟨len, _, read⟩ := Option.bind_eq_some_iff.mp read
  split at read
  · cases read
  obtain ⟨middle, put_, read⟩ := Option.bind_eq_some_iff.mp read
  obtain ⟨state_, ecount_, calls_⟩ := put_keeps put_
  have held := reads.put put_
  dsimp only at read
  split at read
  · cases read
  next more =>
  have inside : middle.ecount ≠ 0 := by
    intro none_
    have counted : ¬ middle.ecount - 1 < 0 := more
    rw [none_] at counted
    exact counted (by decide)
  have deep {calls : List Callback} (_ : middle.calls = before ++ calls)
      (opened : Opened middle.ecount.toInt calls) : 1 ≤ middle.ecount.toInt :=
    opened.deep (toInt_ne_zero inside)
  split at read
  next last =>
    cases read
    have one : middle.ecount = 1 := sub_one_eq_zero.mp last
    refine goes_close held (string (middle.buffer.drop 1)) deep ?_ rfl ?_
    · rw [if_pos one]
      rfl
    · rw [if_pos one]
      exact List.append_assoc _ _ _
  next some_ =>
    cases read
    have other : middle.ecount ≠ 1 := fun one => some_ (sub_one_eq_zero.mpr one)
    refine goes_close held (string (middle.buffer.drop 1)) deep ?_ rfl ?_
    · rw [if_neg other]
      exact state_.trans state
    · rw [if_neg other]
      rfl

theorem goes_startTag (reads : Reads before source) (state : source.state = .none)
    (read : source.startTag = some (true, target)) : Goes before target := by
  obtain ⟨slash, _, read⟩ := Option.bind_eq_some_iff.mp read
  obtain ⟨named_, named_eq⟩ : ∃ named_, named_ = if slash = 0x2f then
      { source with bufpos := source.bufpos - 1 } else source := ⟨_, rfl⟩
  have cut_ : Reads before named_ ∧ named_.state = .none := by
    rw [named_eq]
    split
    · exact ⟨reads.silent rfl rfl, state⟩
    · exact ⟨reads, state⟩
  obtain ⟨held, still⟩ := cut_
  have entered : named_.enter.ecount = named_.ecount + 1 := by rw [enter_eq]
  have outside : named_.enter.state = .none := by rw [enter_eq, still]
  simp only [← named_eq] at read
  split at read
  · obtain ⟨middle, put_, read⟩ := Option.bind_eq_some_iff.mp read
    obtain ⟨state_, ecount_, calls_⟩ := put_keeps put_
    cases read
    have counted := ecount_.trans entered
    obtain ⟨started_, calls, split⟩ := @Reads.start before named_
      (middle.call (.startElement (string middle.buffer) [])) held _ _ counted
      (congrArg (· ++ [_]) calls_)
    exact goes_started started_ (state_.trans outside) split _
  · obtain ⟨⟨read_, buffer, attrib⟩, _, read⟩ := Option.bind_eq_some_iff.mp read
    dsimp only at read
    split at read
    · cases read
    · cases read
      obtain ⟨started_, calls, split⟩ := @Reads.start before named_
        ({ named_.enter with buffer := buffer }.call
          (.startElement (string buffer) (texts buffer attrib))) held _ _ entered rfl
      exact goes_started started_ outside split _

theorem goes_parseTag (reads : Reads before source) (state : source.state = .none)
    (read : source.parseTag = some (true, target)) : Goes before target := by
  obtain ⟨data, _, read⟩ := Option.bind_eq_some_iff.mp read
  split at read
  · exact goes_endTag reads state read
  split at read
  · cases read
    exact reads.goes state (by decide) rfl rfl
  split at read
  · obtain ⟨_, _, read⟩ := Option.bind_eq_some_iff.mp read
    cases read
    exact reads.goes state (by decide) rfl rfl
  split at read
  · cases read
  · exact goes_startTag reads state read

/-- Whatever a character does that is not refused, the parser goes on, or has come to the end. -/
theorem Reading.goes (reading : Reading before source) {returned : Option Bool}
    (turn : Turn source returned target) :
    returned ≠ some true ∧ (returned = none → Goes before target) := by
  have reads := reading.reads
  cases turn with
  | refused => exact ⟨by simp, nofun⟩
  | silent state ecount calls =>
    refine ⟨by simp, fun _ => Or.inl ⟨?_, fun amp => ?_, reads.silent ecount calls⟩⟩
    · exact state.elim (fun same => same ▸ reading.state) And.left
    · rcases state with same | other
      · exact ecount ▸ reading.amp (same.symm.trans amp)
      · exact absurd amp other.2
  | character inside state ecount calls =>
    have called := (reads.characters (reading.amp inside) _).silent ecount calls
    exact ⟨by simp, fun _ => called.goes state (by decide) rfl rfl⟩
  | comment outside state ecount calls =>
    have called := (reads.comment _).silent ecount calls
    refine ⟨by simp, fun _ => ?_⟩
    rcases state with same | none_
    · exact called.goes same ⟨reading.state, outside⟩ rfl rfl
    · exact called.goes none_ (by decide) rfl rfl
  | @tag _ accepted read =>
    have closed : Reads before { source with state := .none } := reads.silent rfl rfl
    cases accepted with
    | false => exact ⟨by simp, nofun⟩
    | true => exact ⟨by simp, fun _ => goes_parseTag closed rfl read⟩
  | text outside stored =>
    obtain ⟨held, state, _⟩ := reads.putBuffer stored
    exact ⟨by simp, fun _ => held.goes state ⟨reading.state, outside⟩ rfl rfl⟩
  | @closes middle _ bufpos stored =>
    have cut_ : Reads before { middle with bufpos := bufpos, state := .none } :=
      (reads.putBuffer stored).1.silent rfl rfl
    have outside := state_clearBuffer { middle with bufpos := bufpos, state := .none }
    exact ⟨by simp, fun _ => cut_.clearBuffer.1.goes outside (by simp) rfl rfl⟩
  | opens => exact ⟨by simp, fun _ => reads.clearBuffer.1.goes rfl (by simp) rfl rfl⟩
  | refers inside =>
    obtain ⟨cleared, same⟩ := reads.clearBuffer
    refine ⟨by simp, fun _ => Or.inl ⟨State.noConfusion, fun _ => ?_, cleared.silent rfl rfl⟩⟩
    show source.clearBuffer.ecount ≠ 0
    rw [same]
    exact inside

/-- What a character leads to: `parse` returns only to refuse it. -/
theorem goes_parseChar (reading : Reading before source) {ch : UInt8} {returned : Option Bool}
    (read : source.parseChar ch = some (returned, target)) :
    returned ≠ some true ∧ (returned = none → Goes before target) := by
  rw [parseChar_eq reading.state] at read
  exact reading.goes (turn_partialChar read)

/-! ### Documents -/

/-- What a text leads to: the parser goes on inside the document, or it has come to its end and
returns true, or it refuses the text. -/
theorem reads_scan (reading : Reading before source) {text : Text} {returned : Option Bool}
    (read : scan parseRound source text = some (returned, target)) :
    (returned = none → Reading before target) ∧
      (returned = some true → Finished before target) := by
  induction text generalizing source with
  | nil =>
    cases read
    exact ⟨fun _ => reading, fun accepts => by cases accepts⟩
  | cons ch text inductionHypothesis =>
    rw [scan, parseRound] at read
    cases stepped : source.parseChar ch with
    | none =>
      rw [stepped] at read
      cases read
    | some outcome =>
      obtain ⟨returned', middle⟩ := outcome
      obtain ⟨refuses, goes⟩ := goes_parseChar reading stepped
      rw [stepped] at read
      cases returned' with
      | some verdict =>
        cases read
        exact ⟨fun goes_ => (by cases goes_), fun accepts => absurd accepts refuses⟩
      | none =>
        rw [andThen] at read
        rcases goes rfl with reading' | finished
        · rw [if_neg reading'.state] at read
          exact inductionHypothesis reading' read
        · rw [if_pos finished.state] at read
          cases read
          exact ⟨fun goes_ => (by cases goes_), fun _ => finished⟩

end Parser

/-- Calls are only added to. -/
theorem calls_scan {parser target : XMLParser} {text : Text} {returned : Option Bool}
    (read : scan parseRound parser text = some (returned, target)) :
    parser.calls <+: target.calls := by
  refine scan_relates (fun source target => source.calls <+: target.calls)
    (fun _ => List.prefix_rfl) List.IsPrefix.trans (fun {source ch returned target} read => ?_) read
  have added : ∀ {returned' middle}, source.parseChar ch = some (returned', middle) →
      source.calls <+: middle.calls := by
    intro returned' middle stepped
    by_cases ended : source.state = .ended
    · rw [parseChar, ended] at stepped
      cases stepped
      exact List.prefix_rfl
    · rw [parseChar_eq ended] at stepped
      obtain ⟨calls, split⟩ := (steps_partialChar stepped).calls
      exact ⟨calls, split.symm⟩
  rw [parseRound] at read
  cases stepped : source.parseChar ch with
  | none =>
    rw [stepped] at read
    cases read
  | some outcome =>
    obtain ⟨returned', middle⟩ := outcome
    rw [stepped] at read
    cases returned' with
    | some verdict =>
      cases read
      exact added stepped
    | none =>
      rw [andThen] at read
      split at read
      · cases read
        exact added stepped
      · cases read
        exact added stepped

/-- A text for which `parse` returns true is one document, where the depth of its calls stays an
`int`: its calls are bracketed, and all along the number of elements is the depth of the calls so
far. -/
theorem parse_bracketed {parser target : XMLParser} {buf : Text}
    (parsed : parser.parse buf = some (true, target))
    (shallow : ∀ calls, target.calls = parser.calls ++ calls → Shallow calls) :
    (∃ calls, target.calls = parser.calls ++ calls ∧ Document calls) ∧ target.ecount = 0 ∧
      ∀ first last middle, string buf = first ++ last →
        scan parseRound parser.reset first = some (none, middle) →
          ∃ calls, middle.calls = parser.calls ++ calls ∧ middle.ecount.toInt = depth calls := by
  have started_ : Reading parser.calls parser.reset :=
    ⟨State.noConfusion, State.noConfusion, [], (List.append_nil _).symm, fun _ => Opened.fresh⟩
  obtain ⟨⟨returned, target'⟩, scanned, answered⟩ := Option.map_eq_some_iff.mp parsed
  obtain ⟨accepted, rfl⟩ := Prod.mk.inj answered
  have finished : Finished parser.calls target' := by
    refine (reads_scan started_ scanned).2 ?_
    cases returned with
    | none => cases accepted
    | some verdict => exact congrArg some accepted
  obtain ⟨calls, split, document⟩ := finished.calls
  refine ⟨⟨calls, split, document (shallow calls split)⟩, finished.ecount,
    fun first last middle cut read => ?_⟩
  obtain ⟨earlier, split', opened⟩ := ((reads_scan started_ read).1 rfl).reads
  rw [cut, scan_append, read] at scanned
  have extends_ : middle.calls <+: target'.calls := calls_scan scanned
  rw [split, split', List.prefix_append_right_inj] at extends_
  exact ⟨earlier, split', (opened ((shallow calls split).upto extends_)).depth_eq.symm⟩

/-- `<a>b<c/></a>`, with a comment in front. -/
theorem parse_bracketed_nested :
    ∃ target, parse ⟨0, 0, .none, List.replicate 16 0, 0, []⟩
        [0x3c, 0x21, 0x2d, 0x2d, 0x78, 0x2d, 0x2d, 0x3e, 0x3c, 0x61, 0x3e, 0x62, 0x3c, 0x63, 0x2f,
          0x3e, 0x3c, 0x2f, 0x61, 0x3e] = some (true, target) ∧
      target.calls = [.comment [0x78], .startDocument, .startElement [0x61] [], .characters [0x62],
        .startElement [0x63] [], .endElement [0x63], .endElement [0x61], .endDocument] ∧
      Document target.calls := by
  have read : parse ⟨0, 0, .none, List.replicate 16 0, 0, []⟩
      [0x3c, 0x21, 0x2d, 0x2d, 0x78, 0x2d, 0x2d, 0x3e, 0x3c, 0x61, 0x3e, 0x62, 0x3c, 0x63, 0x2f,
        0x3e, 0x3c, 0x2f, 0x61, 0x3e] =
      some (true, ⟨0, 0, .ended, [0x2f, 0x61] ++ 0 :: List.replicate 13 0, 0,
        [.comment [0x78], .startDocument, .startElement [0x61] [], .characters [0x62],
          .startElement [0x63] [], .endElement [0x63], .endElement [0x61], .endDocument]⟩) := rfl
  obtain ⟨⟨calls, called, document⟩, _⟩ := parse_bracketed read <| by
    rintro calls called
    obtain rfl : _ = calls := called
    decide
  rw [List.nil_append] at called
  exact ⟨_, read, rfl, called ▸ document⟩

/-! ### Too deep a document -/

/-- `a`, in a tag. -/
theorem parseTag_opens (ecount : Int32) (second third : UInt8) (rest : Text)
    (calls : List Callback) :
    parseTag ⟨ecount, 0, .none, 0x61 :: second :: third :: rest, 1, calls⟩ =
      some (true, ⟨ecount + 1, 0, .none, 0x61 :: 0 :: third :: rest, 0,
        calls ++ (if ecount = 0 then [.startDocument] else []) ++ [.startElement [0x61] []]⟩) := by
  have named_ : parseTag ⟨ecount, 0, .none, 0x61 :: second :: third :: rest, 1, calls⟩ =
      ((enter ⟨ecount, 0, .none, 0x61 :: second :: third :: rest, 1, calls⟩).put
        (enter ⟨ecount, 0, .none, 0x61 :: second :: third :: rest, 1, calls⟩).bufpos 0).bind
          fun parser => some (true,
            (parser.call (.startElement (string parser.buffer) [])).started false) := rfl
  rw [named_, enter_eq]
  rfl

/-- `<a>`, at any depth. -/
theorem scan_opens (ecount : Int32) (first second third : UInt8) (rest : Text)
    (calls : List Callback) :
    scan parseRound ⟨ecount, 0, .none, first :: second :: third :: rest, 0, calls⟩
        [0x3c, 0x61, 0x3e] =
      next ⟨ecount + 1, 0, .none, 0x61 :: 0 :: third :: rest, 0,
        calls ++ (if ecount = 0 then [.startDocument] else []) ++ [.startElement [0x61] []]⟩ := by
  have read : scan parseRound ⟨ecount, 0, .none, first :: second :: third :: rest, 0, calls⟩
      [0x3c, 0x61, 0x3e] =
        andThen (andThen
          ((parseTag ⟨ecount, 0, .none, 0x61 :: second :: third :: rest, 1, calls⟩).bind
            fun read => if !read.1 then stop false read.2 else next read.2)
          fun parser => if parser.state = .ended then stop true parser else next parser) next :=
    rfl
  rw [read, parseTag_opens]
  rfl

/-- So many elements in one another. -/
def nested (count : ℕ) : Text := (List.replicate count [0x3c, 0x61, 0x3e]).flatten

/-- They are open once they are read, and `ecount` is their number, as far as an `int` goes. -/
theorem scan_nested (count : ℕ) :
    ∃ first second calls, depth calls = count ∧
      scan parseRound ⟨0, 0, .none, List.replicate 16 0, 0, []⟩ (nested count) =
        next ⟨Int32.ofNat count, 0, .none, first :: second :: List.replicate 14 0, 0, calls⟩ := by
  induction count with
  | zero => exact ⟨0, 0, [], rfl, rfl⟩
  | succ count inductionHypothesis =>
    obtain ⟨first, second, calls, deep, read⟩ := inductionHypothesis
    have split : nested (count + 1) = nested count ++ [0x3c, 0x61, 0x3e] := by
      rw [nested, List.replicate_succ', List.flatten_append]
      rfl
    have further := scan_opens (Int32.ofNat count) first second 0 (List.replicate 13 0) calls
    refine ⟨0x61, 0, calls ++ (if Int32.ofNat count = 0 then [.startDocument] else []) ++
      [.startElement [0x61] []], ?_, ?_⟩
    · rw [depth_append, depth_append, deep]
      push_cast
      split_ifs <;> rfl
    · rw [split, scan_append, read, Int32.ofNat_add]
      exact further

/-- An empty element that takes itself for the first. -/
theorem scan_empty (first second third : UInt8) (rest : Text) (calls : List Callback) :
    scan parseRound ⟨0, 0, .none, first :: second :: third :: rest, 0, calls⟩
        [0x3c, 0x62, 0x2f, 0x3e] =
      stop true ⟨0, 0, .ended, 0x62 :: 0 :: third :: rest, 0,
        calls ++ [.startDocument] ++ [.startElement [0x62] []] ++ [.endElement [0x62]] ++
          [.endDocument]⟩ := by
  have ended : started ⟨1, 0, .none, 0x62 :: 0 :: third :: rest, 1,
      calls ++ [.startDocument] ++ [.startElement [0x62] []]⟩ true =
        ⟨0, 0, .ended, 0x62 :: 0 :: third :: rest, 0, calls ++ [.startDocument] ++
          [.startElement [0x62] []] ++ [.endElement [0x62]] ++ [.endDocument]⟩ := by
    have zero : (1 : Int32) - 1 = 0 := by decide
    unfold started
    simp only [call, zero, if_true]
    rfl
  have read : scan parseRound ⟨0, 0, .none, first :: second :: third :: rest, 0, calls⟩
      [0x3c, 0x62, 0x2f, 0x3e] =
        andThen (andThen (next (started ⟨1, 0, .none, 0x62 :: 0 :: third :: rest, 1,
          calls ++ [.startDocument] ++ [.startElement [0x62] []]⟩ true)) fun parser =>
            if parser.state = .ended then stop true parser else next parser) next := rfl
  rw [read, ended]
  rfl

/-- In a text of 2 ^ 31 elements in one another, the `int` that counts them is not their number.
With as many again it is zero, and after one more element that is empty `parse` returns true, with
all of them still open. -/
theorem not_bracketed_of_deep :
    ∃ target, parse ⟨0, 0, .none, List.replicate 16 0, 0, []⟩
        (nested (2 ^ 31) ++ nested (2 ^ 31) ++ [0x3c, 0x62, 0x2f, 0x3e]) = some (true, target) ∧
      (¬ ∃ calls, target.calls = [] ++ calls ∧ Document calls) ∧
      ∃ middle, scan parseRound ⟨0, 0, .none, List.replicate 16 0, 0, []⟩ (nested (2 ^ 31)) =
        some (none, middle) ∧ middle.ecount.toInt ≠ depth middle.calls := by
  have half : nested (2 ^ 31) ++ nested (2 ^ 31) = nested (2 ^ 32) := by
    rw [nested, nested, ← List.flatten_append, ← List.replicate_add]
    norm_num
  have noNull : 0 ∉ nested (2 ^ 32) ++ [0x3c, 0x62, 0x2f, 0x3e] := by
    unfold nested
    rw [List.mem_append, List.mem_flatten, not_or]
    refine ⟨?_, by decide⟩
    rintro ⟨element, member, null⟩
    rw [List.eq_of_mem_replicate member] at null
    revert null
    decide
  obtain ⟨first, second, calls, deep, read⟩ := scan_nested (2 ^ 32)
  obtain ⟨_, _, calls', deep', read'⟩ := scan_nested (2 ^ 31)
  have zero : Int32.ofNat (2 ^ 32) = 0 := by decide
  have closes := scan_empty first second 0 (List.replicate 13 0) calls
  rw [← zero] at closes
  obtain ⟨target, whole, called⟩ :
      ∃ target, scan parseRound ⟨0, 0, .none, List.replicate 16 0, 0, []⟩
        (nested (2 ^ 32) ++ [0x3c, 0x62, 0x2f, 0x3e]) = stop true target ∧
          depth target.calls = 2 ^ 32 := by
    rw [scan_append, read]
    refine ⟨_, closes, ?_⟩
    dsimp only
    rw [depth_append, depth_append, depth_append, depth_append, deep]
    decide
  refine ⟨target, ?_, ?_, _, read', ?_⟩
  · rw [half, parse, string_eq_self noNull]
    exact congrArg (answer false) whole
  · rintro ⟨calls, split, document⟩
    obtain rfl : target.calls = calls := split
    rw [document.depth_eq] at called
    cases called
  · rw [deep']
    show (Int32.ofNat (2 ^ 31)).toInt ≠ _
    decide

end XMLParser

end CommonCpp
