/-
This file shows when a parser delivers the attributes of an element as they are written.

The tag stands in the buffer, and the loop over the attributes turns white space, each `=` and the
quote at the end of each value into a null, so that the pointers that it collects read up to there.
What it makes of the tag is given exactly. A value without quotes is not pointed to: its pointer is
that to the name of the element. There is room for sixty-three pairs and the two nulls.
-/

import CommonCpp.XMLBrackets
import CommonCpp.XMLContent

namespace CommonCpp

open Bytes Ctype Scanner

namespace XMLParser

/-! ### Elements as they are written -/

/-- What comes behind the `=` of an attribute: a text in quotes, one without, or nothing. -/
inductive Given
  | quoted (quote : UInt8) (text : Text) (isQuote : IsQuote quote)
      (misses : quote ∉ text ∧ 0x3e ∉ text ∧ 0 ∉ text)
  | bare (text : Text) (filled : text ≠ []) (elements : ∀ c ∈ text, isElement c)
  | empty

/-- The value. -/
def Given.text : Given → Text
  | .quoted _ text _ _ => text
  | .bare text _ _ => text
  | .empty => []

/-- What is written for it. -/
def Given.written : Given → Text
  | .quoted quote text _ _ => quote :: text ++ [quote]
  | .bare text _ _ => text
  | .empty => []

/-- The value has no quotes, and is not empty. -/
def Given.isBare : Given → Bool
  | .bare _ _ _ => true
  | _ => false

/-- An attribute, with the white space before it. -/
structure Assignment where
  space : Text
  name : Text
  given : Given
  blank : space ≠ [] ∧ ∀ c ∈ space, isspace c
  named : name ≠ [] ∧ ∀ c ∈ name, isElement c

def Assignment.written (assignment : Assignment) : Text :=
  assignment.space ++ (assignment.name ++ 0x3d :: assignment.given.written)

/-- A tag that starts an element, and may end it. There may be white space at its end. -/
structure Element where
  name : Text
  assignments : List Assignment
  trail : Text
  ending : Bool
  named : name ≠ [] ∧ ∀ c ∈ name, isElement c
  blank : ∀ c ∈ trail, isspace c

/-- What comes behind its name, up to the slash at its end. -/
def Element.rest (element : Element) : Text :=
  element.assignments.flatMap Assignment.written ++ element.trail

/-- What is written between the brackets. -/
def Element.written (element : Element) : Text :=
  element.name ++ element.rest ++ if element.ending then [0x2f] else []

/-- The names of its attributes and their values, in order. -/
def Element.attributes (element : Element) : List Text :=
  element.assignments.flatMap fun assignment => [assignment.name, assignment.given.text]

/-! ### What the loop makes of an attribute -/

/-- What a value is turned into. -/
def Given.cut : Given → Text
  | .quoted quote text _ _ => quote :: text ++ [0]
  | .bare text _ _ => text
  | .empty => []

/-- The pointer to it, where it begins at a place. -/
def Given.place (start : ℕ) : Given → Option ℕ
  | .quoted _ _ _ _ => some (start + 1)
  | .bare _ _ _ => some 0
  | .empty => none

/-- What an attribute is turned into. -/
def Assignment.cut (assignment : Assignment) : Text :=
  List.replicate assignment.space.length 0 ++
    (assignment.name ++ 0 :: assignment.given.cut)

/-- The pointers to it, where it begins at a place. -/
def Assignment.places (start : ℕ) (assignment : Assignment) : List (Option ℕ) :=
  [some (start + assignment.space.length),
    assignment.given.place (start + assignment.space.length + assignment.name.length + 1)]

theorem Given.length_cut (given : Given) : given.cut.length = given.written.length := by
  cases given with
  | quoted quote text => simp [cut, written]
  | bare text => rfl
  | empty => rfl

section Loop

variable {before behind : Text} {attrib : List (Option ℕ)}

/-- White space is turned into nulls. -/
theorem blanks_run {space : Text} (blank : ∀ c ∈ space, isspace c) (before text behind : Text) :
    blanks (space ++ text).length before.length (before ++ (space ++ text ++ behind)) =
      blanks text.length (before ++ List.replicate space.length 0).length
        (before ++ List.replicate space.length 0 ++ (text ++ behind)) := by
  induction space generalizing before with
  | nil => simp
  | cons c space inductionHypothesis =>
    have later := inductionHypothesis (fun other member =>
      blank other (List.mem_cons_of_mem _ member)) (before ++ [0])
    rw [List.cons_append, blanks_space before (blank c List.mem_cons_self), later,
      List.length_cons, List.replicate_succ, List.append_assoc before]
    rfl

/-- The end of the tag. -/
theorem left_blank {trail : Text} (blank : ∀ c ∈ trail, isspace c) (some_ : behind ≠ [])
    (pairs : ℕ) :
    left before trail behind (2 * pairs) attrib =
      if pairs = 0 then none
      else some (true, before ++ List.replicate trail.length 0 ++ behind, attrib) := by
  have place : before.length + trail.length =
      (before ++ List.replicate trail.length 0).length := by simp
  obtain ⟨last, rest, rfl⟩ := List.exists_cons_of_ne_nil some_
  have read : blanks trail.length before.length (before ++ (trail ++ last :: rest)) =
      some (true, (before ++ List.replicate trail.length 0).length,
        before ++ List.replicate trail.length 0 ++ last :: rest) := by
    have run := blanks_run blank before [] (last :: rest)
    rw [List.append_nil] at run
    rw [run]
    show blanks 0 _ _ = _
    rw [blanks_zero, List.nil_append, getElem?_here]
    rfl
  cases pairs with
  | zero =>
    rw [left, attributes_zero, Nat.add_sub_cancel_left, read]
    rfl
  | succ pairs =>
    rw [left, Nat.mul_succ, attributes_succ, Nat.add_sub_cancel_left, read, place]
    simp [round]

/-- A name, and the `=` behind it. -/
theorem round_given {name : Text} (named : name ≠ [] ∧ ∀ c ∈ name, isElement c) (tail : Text)
    (free : ℕ) :
    round (before.length + (name ++ 0x3d :: tail).length) free attrib
        (true, before.length, before ++ (name ++ 0x3d :: tail ++ behind)) =
      (value (before.length + (name ++ 0x3d :: tail).length) (before ++ name ++ [0]).length
        (before ++ name ++ [0] ++ (tail ++ behind))).bind
          (follow (before.length + (name ++ 0x3d :: tail).length) free attrib before.length) := by
  have word : (name ++ 0x3d :: tail).takeWhile isElement = name := by
    rw [List.takeWhile_append_of_pos named.2, List.takeWhile_cons_of_neg (by decide),
      List.append_nil]
  have total : (name ++ 0x3d :: tail).length = name.length + (tail.length + 1) := by
    rw [List.length_append, List.length_cons]
  have some_ := List.length_pos_iff.mpr named.1
  have inside : ¬ before.length = before.length + (name ++ 0x3d :: tail).length := by omega
  have stops : ¬ (before ++ name).length = before.length + (name ++ 0x3d :: tail).length := by
    rw [List.length_append]
    omega
  have whole : before ++ (name ++ 0x3d :: tail ++ behind) =
      before ++ name ++ 0x3d :: (tail ++ behind) := by simp
  have place : before.length + name.length = (before ++ name).length := List.length_append.symm
  rw [round, span_here, word, place]
  simp only [Bool.not_true, Bool.false_eq_true, ↓reduceIte, inside, stops]
  rw [whole, getElem?_here, set_here, @List.length_append _ _ [0], List.length_singleton]
  rfl

/-- What is left behind the `=` of an attribute. -/
theorem left_name (assignment : Assignment) (tail : Text) (free : ℕ) :
    left before (assignment.space ++ (assignment.name ++ 0x3d :: tail)) behind (free + 2) attrib =
      (value (before.length + (assignment.space ++ (assignment.name ++ 0x3d :: tail)).length)
        (before ++ List.replicate assignment.space.length 0 ++ assignment.name ++ [0]).length
        (before ++ List.replicate assignment.space.length 0 ++ assignment.name ++ [0] ++
          (tail ++ behind))).bind
        (follow (before.length + (assignment.space ++ (assignment.name ++ 0x3d :: tail)).length)
          free attrib (before.length + assignment.space.length)) := by
  obtain ⟨first, rest, split⟩ := List.exists_cons_of_ne_nil assignment.named.1
  have element : isElement first := assignment.named.2 first (split ▸ List.mem_cons_self)
  have place : before.length + (assignment.space ++ (assignment.name ++ 0x3d :: tail)).length =
      (before ++ List.replicate assignment.space.length 0).length +
        (assignment.name ++ 0x3d :: tail).length := by
    simp only [List.length_append, List.length_replicate]
    omega
  have start : before.length + assignment.space.length =
      (before ++ List.replicate assignment.space.length 0).length := by simp
  have here : (before ++ List.replicate assignment.space.length 0 ++
      (assignment.name ++ 0x3d :: tail ++ behind))[(before ++
        List.replicate assignment.space.length 0).length]? = some first := by
    rw [getElem?_here, split]
    rfl
  have long : (assignment.name ++ 0x3d :: tail).length = (rest ++ 0x3d :: tail).length + 1 := by
    rw [split]
    rfl
  rw [left, attributes_succ, Nat.add_sub_cancel_left, blanks_run assignment.blank.2, long,
    blanks_succ _ here, if_pos element, Option.bind_some, place, start,
    round_given assignment.named]

/-- What a value is read as: there may be more behind it, or it is the last of the tag. -/
inductive ReadsAs (before rest behind : Text) (given : Given) :
    Option (Value × ℕ × Text) → Prop
  | more : ReadsAs before rest behind given
      (some (.more (given.place before.length), (before ++ given.cut).length,
        before ++ given.cut ++ (rest ++ behind)))
  | last (ends : rest = []) (len : ℕ) {behind' : Text} (some_ : behind' ≠ []) :
      ReadsAs before rest behind given
        (some (.last (given.place before.length), len, before ++ given.cut ++ behind'))

theorem reads_quoted {quote : UInt8} {text : Text} (isQuote : IsQuote quote)
    (misses : quote ∉ text ∧ 0x3e ∉ text ∧ 0 ∉ text) (before rest behind : Text) :
    ReadsAs before rest behind (.quoted quote text isQuote misses)
      (value (before.length + (quote :: text ++ [quote] ++ rest).length) before.length
        (before ++ (quote :: text ++ [quote] ++ rest ++ behind))) := by
  have inside : before.length ≠ before.length + (quote :: text ++ [quote] ++ rest).length := by
    simp
  have whole : quote :: text ++ [quote] ++ rest ++ behind =
      quote :: (text ++ quote :: (rest ++ behind)) := by simp
  rw [whole, value_cut before inside isQuote ⟨misses.1, misses.2.2⟩]
  exact .more

theorem reads_empty {rest : Text} (follows : ∀ c, rest.head? = some c → isspace c)
    (before : Text) (some_ : behind ≠ []) :
    ReadsAs before rest behind .empty
      (value (before.length + rest.length) before.length (before ++ (rest ++ behind))) := by
  cases rest with
  | nil =>
    rw [List.length_nil, Nat.add_zero, List.nil_append, value_end]
    have read := @ReadsAs.last before [] behind .empty rfl before.length behind some_
    rwa [Given.cut, List.append_nil] at read
  | cons c rest =>
    have inside : before.length ≠ before.length + (c :: rest).length := by simp
    rw [List.cons_append, value_space inside _ (follows c rfl)]
    have read := @ReadsAs.more before (c :: rest) behind .empty
    rwa [Given.cut, List.append_nil] at read

theorem reads_bare {text rest : Text} (filled : text ≠ []) (elements : ∀ c ∈ text, isElement c)
    (follows : ∀ c, rest.head? = some c → isspace c) (before : Text) (some_ : behind ≠ []) :
    ReadsAs before rest behind (.bare text filled elements)
      (value (before.length + (text ++ rest).length) before.length
        (before ++ (text ++ rest ++ behind))) := by
  obtain ⟨first, others, rfl⟩ := List.exists_cons_of_ne_nil filled
  have element : isElement first := elements first List.mem_cons_self
  have word : (first :: others ++ rest).takeWhile isElement = first :: others := by
    have stops : rest.takeWhile isElement = [] := by
      cases rest with
      | nil => rfl
      | cons c rest =>
        rw [List.takeWhile_cons_of_neg]
        rw [isElement_of_isspace (follows c rfl)]
        exact Bool.false_ne_true
    rw [List.takeWhile_append_of_pos elements, stops, List.append_nil]
  have read := value_word before element (others ++ rest) behind
  rw [← List.cons_append, word] at read
  rw [read]
  have place : before.length + (first :: others).length = (before ++ first :: others).length :=
    List.length_append.symm
  cases rest with
  | nil =>
    obtain ⟨after, behind, rfl⟩ := List.exists_cons_of_ne_nil some_
    have total : before.length + (first :: others).length =
      before.length + (first :: others ++ []).length := by rw [List.append_nil]
    have room : before.length + (first :: others).length <
        (before ++ (first :: others ++ [] ++ after :: behind)).length := by
      simp
    have whole : before ++ (first :: others ++ [] ++ after :: behind) =
        before ++ first :: others ++ after :: behind := by simp
    simp only [← total, ↓reduceIte, room]
    rw [whole, place, set_here]
    have last := @ReadsAs.last before [] (after :: behind) (.bare (first :: others) filled elements)
      rfl (before ++ first :: others).length (0 :: behind) (List.cons_ne_nil _ _)
    rwa [← List.singleton_append (x := 0), ← List.append_assoc] at last
  | cons c rest =>
    have stops : ¬ before.length + (first :: others).length =
        before.length + (first :: others ++ c :: rest).length := by simp
    have whole : before ++ (first :: others ++ c :: rest ++ behind) =
        before ++ first :: others ++ (c :: rest ++ behind) := by simp
    simp only [stops, ↓reduceIte]
    rw [whole, place]
    exact .more

/-- A value, which white space or the end of the tag comes behind. -/
theorem reads_given (given : Given) {rest : Text} (follows : ∀ c, rest.head? = some c → isspace c)
    (before : Text) (some_ : behind ≠ []) :
    ReadsAs before rest behind given
      (value (before.length + (given.written ++ rest).length) before.length
        (before ++ (given.written ++ rest ++ behind))) := by
  cases given with
  | quoted quote text isQuote misses => exact reads_quoted isQuote misses before rest behind
  | bare text filled elements => exact reads_bare filled elements follows before some_
  | empty => exact reads_empty follows before some_

/-- One attribute, which white space or the end of the tag comes behind. -/
theorem left_assignment (assignment : Assignment) {rest : Text}
    (follows : ∀ c, rest.head? = some c → isspace c) (some_ : behind ≠ []) (pairs : ℕ) :
    ∃ behind' ≠ [], left before (assignment.written ++ rest) behind (2 * (pairs + 1)) attrib =
      left (before ++ assignment.cut) rest behind' (2 * pairs)
        (attrib ++ assignment.places before.length) := by
  obtain ⟨start, start_eq⟩ : ∃ start : Text, start =
    before ++ List.replicate assignment.space.length 0 ++ assignment.name ++ [0] := ⟨_, rfl⟩
  have whole : assignment.written ++ rest = assignment.space ++ (assignment.name ++
      0x3d :: (assignment.given.written ++ rest)) := by simp [Assignment.written]
  have cut : before ++ assignment.cut = start ++ assignment.given.cut := by
    simp [start_eq, Assignment.cut]
  have place : start.length =
      before.length + assignment.space.length + assignment.name.length + 1 := by
    simp [start_eq, Nat.add_assoc]
  have total : before.length + (assignment.space ++ (assignment.name ++
      0x3d :: (assignment.given.written ++ rest))).length =
      start.length + (assignment.given.written ++ rest).length := by
    rw [place]
    simp only [List.length_append, List.length_cons]
    omega
  have pointers : assignment.places before.length =
      [some (before.length + assignment.space.length), assignment.given.place start.length] := by
    rw [Assignment.places, place]
  rw [whole, Nat.mul_succ, left_name, total, cut, pointers, ← start_eq]
  have reads := reads_given assignment.given follows start some_
  generalize value _ _ _ = found at reads
  cases reads with
  | more =>
    refine ⟨behind, some_, ?_⟩
    have total' : start.length + (assignment.given.written ++ rest).length =
        (start ++ assignment.given.cut).length + rest.length := by
      rw [List.length_append, List.length_append, assignment.given.length_cut, Nat.add_assoc]
    rw [total']
    rfl
  | @last ends len behind' more =>
    refine ⟨behind', more, ?_⟩
    subst ends
    rw [left_blank (List.forall_mem_nil _) more, Option.bind_some, follow]
    cases pairs <;> simp

/-- What the attributes are turned into. -/
def cuts (assignments : List Assignment) : Text := assignments.flatMap Assignment.cut

/-- The pointers to them, where the first begins at a place. -/
def places : ℕ → List Assignment → List (Option ℕ)
  | _, [] => []
  | start, assignment :: assignments =>
    assignment.places start ++ places (start + assignment.cut.length) assignments

/-- What comes behind an attribute. -/
theorem head_rest (assignments : List Assignment) {trail : Text} (blank : ∀ c ∈ trail, isspace c)
    (c : UInt8) (first : (assignments.flatMap Assignment.written ++ trail).head? = some c) :
    isspace c := by
  cases assignments with
  | nil => exact blank c (List.mem_of_mem_head? first)
  | cons assignment assignments =>
    obtain ⟨space, rest, split⟩ := List.exists_cons_of_ne_nil assignment.blank.1
    rw [List.flatMap_cons, Assignment.written, split] at first
    obtain rfl : space = c := Option.some.inj first
    exact assignment.blank.2 space (split ▸ List.mem_cons_self)

theorem begins_written (assignment : Assignment) (rest : Text) :
    Begins (assignment.written ++ rest) := by
  obtain ⟨first, name, split⟩ := List.exists_cons_of_ne_nil assignment.named.1
  have element : isElement first := assignment.named.2 first (split ▸ List.mem_cons_self)
  have dark : ¬ isspace first := by
    rw [isspace_element element]
    exact Bool.false_ne_true
  refine ⟨first, name ++ 0x3d :: (assignment.given.written ++ rest), ?_, element⟩
  have whole : assignment.written ++ rest = assignment.space ++
      (first :: (name ++ 0x3d :: (assignment.given.written ++ rest))) := by
    simp [Assignment.written, split]
  rw [whole, List.dropWhile_append_of_pos assignment.blank.2, List.dropWhile_cons_of_neg dark]

/-- All attributes of a tag are turned so, when there is room for their pointers. -/
theorem left_assignments (assignments : List Assignment) {trail : Text}
    (blank : ∀ c ∈ trail, isspace c) (some_ : behind ≠ []) (pairs : ℕ) :
    ∃ behind', left before (assignments.flatMap Assignment.written ++ trail) behind (2 * pairs)
        attrib =
      if assignments.length < pairs then
        some (true, before ++ cuts assignments ++ List.replicate trail.length 0 ++ behind',
          attrib ++ places before.length assignments)
      else none := by
  induction assignments generalizing before behind attrib pairs with
  | nil =>
    refine ⟨behind, ?_⟩
    rw [List.flatMap_nil, List.nil_append, left_blank blank some_]
    cases pairs <;> simp [cuts, places]
  | cons assignment assignments inductionHypothesis =>
    cases pairs with
    | zero =>
      refine ⟨[], ?_⟩
      rw [Nat.mul_zero, List.flatMap_cons, List.append_assoc, left_full (begins_written _ _)]
      rfl
    | succ pairs =>
      obtain ⟨behind', more, step⟩ := @left_assignment before behind attrib assignment
        (assignments.flatMap Assignment.written ++ trail) (head_rest assignments blank) some_ pairs
      obtain ⟨last, rest⟩ := @inductionHypothesis (before ++ assignment.cut) behind'
        (attrib ++ assignment.places before.length) more pairs
      refine ⟨last, ?_⟩
      rw [List.flatMap_cons, List.append_assoc, step, rest]
      simp [cuts, places]

/-! ### What the pointers read -/

/-- What the name of an attribute and its value are read as, in an element of a name. -/
def Given.read (element : Text) : Given → Text
  | .bare _ _ _ => element
  | given => given.text

/-- The names of all attributes and what their values are read as. -/
def Element.read (element : Element) : List Text :=
  element.assignments.flatMap fun assignment =>
    [assignment.name, assignment.given.read element.name]

theorem visible {text : Text} (elements : ∀ c ∈ text, isElement c) : 0 ∉ text := fun member =>
  absurd (elements 0 member) (by decide)

theorem texts_append (buffer : Text) (first last : List (Option ℕ)) :
    texts buffer (first ++ last) = texts buffer first ++ texts buffer last := List.map_append

/-- A text is read up to the null behind it. -/
theorem string_at {buffer text : Text} {place : ℕ} (noNull : 0 ∉ text) (before after : Text)
    (start : place = before.length) (whole : buffer = before ++ (text ++ 0 :: after)) :
    string (buffer.drop place) = text := by
  rw [whole, start, List.drop_left, string_append noNull, string_cons_zero, List.append_nil]

/-- The pointers to an attribute read its name and its value, if it is in quotes or empty. -/
theorem texts_places {element buffer : Text} (named : string buffer = element)
    (assignment : Assignment) {after : Text} (whole : buffer = before ++ assignment.cut ++ after) :
    texts buffer (assignment.places before.length) =
      [assignment.name, assignment.given.read element] := by
  have name : string (buffer.drop (before.length + assignment.space.length)) = assignment.name := by
    refine string_at (visible assignment.named.2)
      (before ++ List.replicate assignment.space.length 0) (assignment.given.cut ++ after)
      (by simp) ?_
    rw [whole, Assignment.cut]
    simp
  have pair : ∀ value : Option ℕ,
      texts buffer [some (before.length + assignment.space.length), value] =
        assignment.name :: texts buffer [value] := by
    intro value
    rw [← name]
    rfl
  rw [Assignment.places, pair]
  refine congrArg (List.cons _) ?_
  cases given : assignment.given with
  | empty => rfl
  | bare text filled elements => exact congrArg (fun text => [text]) named
  | quoted quote text isQuote misses =>
    have value : string (buffer.drop (before.length + assignment.space.length +
        assignment.name.length + 1 + 1)) = text := by
      refine string_at misses.2.2
        (before ++ List.replicate assignment.space.length 0 ++ assignment.name ++ [0, quote]) after
        ?_ ?_
      · simp [Nat.add_assoc]
      · rw [whole, Assignment.cut, given, Given.cut]
        simp
    exact congrArg (fun text => [text]) value

theorem texts_all {element buffer : Text} (named : string buffer = element)
    (assignments : List Assignment) {after : Text}
    (whole : buffer = before ++ cuts assignments ++ after) :
    texts buffer (places before.length assignments) =
      assignments.flatMap fun assignment =>
        [assignment.name, assignment.given.read element] := by
  induction assignments generalizing before with
  | nil => rfl
  | cons assignment assignments inductionHypothesis =>
    have first : buffer = before ++ assignment.cut ++ (cuts assignments ++ after) := by
      rw [whole, cuts, List.flatMap_cons]
      simp [cuts]
    have later := @inductionHypothesis (before ++ assignment.cut)
      (by rw [first, List.append_assoc _ (cuts assignments)])
    rw [places, texts_append, texts_places named assignment first, ← List.length_append, later]
    rfl

end Loop

/-! ### Tags -/

section Tags

variable {parser : XMLParser}

/-- The calls of `startElement`. -/
def Callback.starts : Callback → Bool
  | .startElement _ _ => true
  | _ => false

/-- What a tag calls, at a depth. -/
def tagCalls (ecount : Int32) (name : Text) (attr : List Text) (ending : Bool) : List Callback :=
  (if ecount = 0 then [.startDocument] else []) ++ .startElement name attr ::
    if ending then .endElement name :: if ecount = 0 then [.endDocument] else [] else []

theorem filter_tagCalls (ecount : Int32) (name : Text) (attr : List Text) (ending : Bool) :
    (tagCalls ecount name attr ending).filter Callback.starts = [.startElement name attr] := by
  unfold tagCalls
  by_cases first : ecount = 0
  · rw [if_pos first, if_pos first]
    cases ending <;> rfl
  · rw [if_neg first, if_neg first]
    cases ending <;> rfl

/-- What comes after `startElement`, when the buffer begins with the name. -/
theorem started_calls (parser : XMLParser) {name : Text} (named : string parser.buffer = name)
    (ending : Bool) :
    (parser.started ending).calls = parser.calls ++
      if ending then .endElement name :: if parser.ecount = 1 then [.endDocument] else []
      else [] := by
  cases ending with
  | false => exact (List.append_nil _).symm
  | true =>
    rw [← named]
    exact (started_spec parser).2.2

/-- The text does not end in a slash. -/
def Unslashed (text : Text) : Prop := ∃ front last, text = front ++ [last] ∧ last ≠ 0x2f

theorem Unslashed.append {text : Text} (unslashed : Unslashed text) (front : Text) :
    Unslashed (front ++ text) := by
  obtain ⟨rest, last, rfl, other⟩ := unslashed
  exact ⟨front ++ rest, last, (List.append_assoc _ _ _).symm, other⟩

theorem unslashed_of_forall {text : Text} (some_ : text ≠ []) {kind : UInt8 → Bool}
    (kinds : ∀ c ∈ text, kind c) (other : ¬ kind 0x2f) : Unslashed text := by
  obtain ⟨front, last, rfl⟩ := (List.eq_nil_or_concat text).resolve_left some_
  rw [List.concat_eq_append] at kinds ⊢
  refine ⟨front, last, rfl, ?_⟩
  rintro rfl
  exact other (kinds _ (List.mem_append_right _ List.mem_cons_self))

theorem unslashed_written (assignment : Assignment) : Unslashed assignment.written := by
  refine Unslashed.append (Unslashed.append ?_ _) _
  cases assignment.given with
  | empty => exact ⟨[], 0x3d, rfl, by decide⟩
  | bare text filled elements =>
    exact (unslashed_of_forall filled elements (by decide)).append [0x3d]
  | quoted quote text isQuote misses =>
    refine ⟨0x3d :: quote :: text, quote, by simp [Given.written], ?_⟩
    rcases isQuote with rfl | rfl
    · decide
    · decide

/-- A tag ends in a slash only where the element is said to end. -/
theorem unslashed_body (element : Element) : Unslashed (element.name ++ element.rest) := by
  by_cases trailing : element.trail = []
  · rw [Element.rest, trailing, List.append_nil]
    rcases List.eq_nil_or_concat element.assignments with none | ⟨front, last, split⟩
    · rw [none, List.flatMap_nil, List.append_nil]
      exact unslashed_of_forall element.named.1 element.named.2 (by decide)
    · rw [split, List.concat_eq_append, List.flatMap_append, List.flatMap_singleton]
      exact ((unslashed_written last).append _).append _
  · exact ((unslashed_of_forall trailing element.blank (by decide)).append _).append _

/-- Without the slash at its end, the tag ends where its text does. -/
theorem last_element (element : Element) {behind : Text} (some_ : behind ≠ [])
    (buffer : parser.buffer = element.written ++ behind)
    (bufpos : parser.bufpos = element.written.length) :
    ∃ slash behind', behind' ≠ [] ∧ parser.last = some slash ∧
      (slash = 0x2f ↔ element.ending) ∧
      parser.buffer = element.name ++ element.rest ++ behind' ∧
      (if slash = 0x2f then parser.bufpos - 1 else parser.bufpos) =
        (element.name ++ element.rest).length := by
  cases ending : element.ending with
  | true =>
    have whole : element.written = element.name ++ element.rest ++ [0x2f] := by
      rw [Element.written, ending]
      rfl
    rw [whole] at buffer bufpos
    rw [List.length_append, List.length_singleton] at bufpos
    refine ⟨0x2f, 0x2f :: behind, List.cons_ne_nil _ _, ?_, iff_of_true rfl rfl, ?_, ?_⟩
    · rw [last, bufpos, if_neg (Nat.succ_ne_zero _), Nat.add_sub_cancel, buffer,
        List.append_assoc _ [0x2f], getElem?_here]
      rfl
    · rw [buffer, List.append_assoc _ [0x2f]]
      rfl
    · rw [if_pos rfl, bufpos, Nat.add_sub_cancel]
  | false =>
    have whole : element.written = element.name ++ element.rest := by
      rw [Element.written, ending]
      exact List.append_nil _
    obtain ⟨front, final, split, other⟩ := unslashed_body element
    rw [whole] at buffer bufpos
    refine ⟨final, behind, some_, ?_, iff_of_false other Bool.false_ne_true, buffer, ?_⟩
    · rw [split] at buffer bufpos
      rw [List.length_append, List.length_singleton] at bufpos
      rw [last, bufpos, if_neg (Nat.succ_ne_zero _), Nat.add_sub_cancel, buffer,
        List.append_assoc front, getElem?_here]
      rfl
    · rw [if_neg other, bufpos]

/-- The name of an element is what stands before anything else. -/
theorem span_name (element : Element) (behind : Text) :
    span (element.name ++ element.rest).length (element.name ++ element.rest ++ behind) 0 =
      element.name.length := by
  have stops : element.rest.takeWhile isElement = [] := by
    cases rest : element.rest with
    | nil => rfl
    | cons c rest' =>
      have space := head_rest element.assignments element.blank c (by
        show element.rest.head? = _
        rw [rest]
        rfl)
      rw [List.takeWhile_cons_of_neg]
      rw [isElement_of_isspace space]
      exact Bool.false_ne_true
  rw [span, List.take_left, List.drop_zero, List.takeWhile_append_of_pos element.named.2, stops,
    List.append_nil]

/-- The loop over the attributes of an element. -/
theorem attributes_element (element : Element) (some_ : element.rest ≠ []) {behind : Text}
    (more : behind ≠ []) :
    if element.assignments.length < 64 then
      ∃ buffer attrib, attributes (element.name ++ element.rest).length 128 element.name.length
          (element.name ++ element.rest ++ behind) [] = some (true, buffer, attrib) ∧
        string buffer = element.name ∧ texts buffer attrib = element.read
    else attributes (element.name ++ element.rest).length 128 element.name.length
      (element.name ++ element.rest ++ behind) [] = none := by
  obtain ⟨behind', loop⟩ :=
    @left_assignments element.name behind [] element.assignments _ element.blank more 64
  have whole : left element.name element.rest behind (2 * 64) [] =
      attributes (element.name ++ element.rest).length 128 element.name.length
        (element.name ++ element.rest ++ behind) [] := by
    rw [left, ← List.length_append, ← List.append_assoc]
  rw [← whole]
  by_cases room : element.assignments.length < 64
  · rw [if_pos room] at loop ⊢
    -- a null comes behind the name, for the white space that is there
    obtain ⟨nulls, null⟩ : ∃ nulls, cuts element.assignments ++
        List.replicate element.trail.length 0 = 0 :: nulls := by
      cases assignments : element.assignments with
      | nil =>
        obtain ⟨c, trail, split⟩ : ∃ c trail, element.trail = c :: trail := by
          refine List.exists_cons_of_ne_nil fun empty => some_ ?_
          rw [Element.rest, assignments, empty]
          rfl
        exact ⟨_, by rw [split]; rfl⟩
      | cons assignment assignments =>
        obtain ⟨c, space, split⟩ := List.exists_cons_of_ne_nil assignment.blank.1
        exact ⟨_, by rw [cuts, List.flatMap_cons, Assignment.cut, split]; rfl⟩
    have named : string (element.name ++ cuts element.assignments ++
        List.replicate element.trail.length 0 ++ behind') = element.name := by
      rw [List.append_assoc element.name, null, List.append_assoc]
      exact (string_append (visible element.named.2) _).trans (List.append_nil _)
    refine ⟨_, _, loop, named, ?_⟩
    rw [List.nil_append]
    exact texts_all named element.assignments (List.append_assoc _ _ _)
  · rw [if_neg room] at loop ⊢
    exact loop

theorem assignments_nil {element : Element} (empty : element.rest = []) :
    element.assignments = [] := by
  have none := (List.append_eq_nil_iff.mp empty).1
  cases assignments : element.assignments with
  | nil => rfl
  | cons assignment others =>
    rw [assignments, List.flatMap_cons] at none
    have first := (List.append_eq_nil_iff.mp none).1
    exact absurd (List.append_eq_nil_iff.mp first).1 assignment.blank.1

/-- What `startTag` does once it is known where the tag ends. -/
def opened (parser : XMLParser) (ending : Bool) : Option (Bool × XMLParser) :=
  if span parser.bufpos parser.buffer 0 = parser.bufpos then
    (parser.enter.put parser.enter.bufpos 0).bind fun middle =>
      some (true, (middle.call (.startElement (string middle.buffer) [])).started ending)
  else
    (attributes parser.enter.bufpos 128 (span parser.bufpos parser.buffer 0)
        parser.enter.buffer []).bind fun result =>
      if !result.1 then some (false, { parser.enter with buffer := result.2.1 })
      else some (true, (({ parser.enter with buffer := result.2.1 } : XMLParser).call
        (.startElement (string result.2.1) (texts result.2.1 result.2.2))).started ending)

theorem startTag_opened {slash : UInt8} (last_ : parser.last = some slash) :
    parser.startTag = (if slash = 0x2f then { parser with bufpos := parser.bufpos - 1 }
      else parser).opened (slash = 0x2f) := by
  unfold startTag
  rw [last_]
  rfl

/-- What is called once the attributes are read. -/
theorem opened_calls {middle : XMLParser} {name : Text} (attr : List Text) (ending : Bool)
    (deeper : middle.ecount = parser.enter.ecount) (before : middle.calls = parser.enter.calls)
    (named : string middle.buffer = name) :
    ((middle.call (.startElement (string middle.buffer) attr)).started ending).calls =
      parser.calls ++ tagCalls parser.ecount name attr ending := by
  have depth : parser.ecount + 1 = 1 ↔ parser.ecount = 0 := Int32.add_eq_right
  rw [started_calls _ (show string (middle.call _).buffer = name from named)]
  show middle.calls ++ [.startElement (string middle.buffer) attr] ++
    (if ending then .endElement name ::
      if middle.ecount = 1 then [.endDocument] else [] else []) = _
  rw [before, named, deeper, enter_eq, tagCalls]
  simp only [depth, List.append_assoc, List.singleton_append]

/-- A tag with nothing but the name. -/
theorem opened_name (element : Element) (empty : element.rest = []) {behind : Text}
    (some_ : behind ≠ []) (buffer : parser.buffer = element.name ++ element.rest ++ behind)
    (bufpos : parser.bufpos = (element.name ++ element.rest).length) :
    ∃ target, parser.opened element.ending = some (true, target) ∧ target.calls = parser.calls ++
      tagCalls parser.ecount element.name element.read element.ending := by
  have whole : span parser.bufpos parser.buffer 0 = parser.bufpos := by
    rw [bufpos, buffer, span_name, empty, List.append_nil]
  obtain ⟨first, nulls, split⟩ := List.exists_cons_of_ne_nil some_
  rw [empty, List.append_nil] at bufpos buffer
  have put_ : parser.enter.put parser.enter.bufpos 0 =
      some { parser.enter with buffer := element.name ++ [0] ++ nulls } := by
    have inside : parser.enter.bufpos < parser.enter.buffer.length := by
      rw [enter_eq]
      show parser.bufpos < parser.buffer.length
      rw [bufpos, buffer, split, List.length_append, List.length_cons]
      omega
    have set_ : parser.enter.buffer.set parser.enter.bufpos 0 = element.name ++ [0] ++ nulls := by
      rw [enter_eq]
      show parser.buffer.set parser.bufpos 0 = _
      rw [bufpos, buffer, split, set_here]
    rw [put, if_pos inside, set_]
  have named : string (element.name ++ [0] ++ nulls) = element.name := by
    rw [List.append_assoc]
    exact (string_append (visible element.named.2) _).trans (List.append_nil _)
  have read : element.read = [] := by
    rw [Element.read, assignments_nil empty]
    rfl
  rw [opened, if_pos whole, put_, Option.bind_some, read]
  exact ⟨_, rfl, opened_calls [] element.ending rfl rfl named⟩

/-- A tag with more than the name. -/
theorem opened_element (element : Element) (more : element.rest ≠ []) {behind : Text}
    (some_ : behind ≠ []) (buffer : parser.buffer = element.name ++ element.rest ++ behind)
    (bufpos : parser.bufpos = (element.name ++ element.rest).length) :
    if element.assignments.length < 64 then
      ∃ target, parser.opened element.ending = some (true, target) ∧
        target.calls = parser.calls ++
          tagCalls parser.ecount element.name element.read element.ending
    else parser.opened element.ending = none := by
  have name : span parser.bufpos parser.buffer 0 = element.name.length := by
    rw [bufpos, buffer, span_name]
  have behind_ : element.name.length ≠ parser.bufpos := by
    rw [bufpos, List.length_append]
    have positive := List.length_pos_iff.mpr more
    omega
  have entered : parser.enter.bufpos = (element.name ++ element.rest).length ∧
      parser.enter.buffer = element.name ++ element.rest ++ behind := by
    rw [enter_eq]
    exact ⟨bufpos, buffer⟩
  have loop := attributes_element element more some_
  rw [opened, name, if_neg behind_, entered.1, entered.2]
  by_cases room : element.assignments.length < 64
  · rw [if_pos room] at loop ⊢
    obtain ⟨buffer', attrib, read, named, texts_⟩ := loop
    rw [read, ← texts_]
    exact ⟨_, rfl, @opened_calls parser { parser.enter with buffer := buffer' } _ _
      element.ending rfl rfl named⟩
  · rw [if_neg room] at loop ⊢
    rw [loop]
    rfl

/-- A tag with the attributes of an element calls `startElement` with what they are read as, when
there is room for them. -/
theorem startTag_element (element : Element) {behind : Text} (some_ : behind ≠ [])
    (buffer : parser.buffer = element.written ++ behind)
    (bufpos : parser.bufpos = element.written.length) :
    if element.assignments.length < 64 then
      ∃ target, parser.startTag = some (true, target) ∧ target.calls = parser.calls ++
        tagCalls parser.ecount element.name element.read element.ending
    else parser.startTag = none := by
  obtain ⟨slash, behind', more, last_, ends, buffer', place⟩ :=
    last_element element some_ buffer bufpos
  obtain ⟨cut, cut_eq⟩ : ∃ cut, cut = if slash = 0x2f then
      { parser with bufpos := parser.bufpos - 1 } else parser := ⟨_, rfl⟩
  have kept : cut.bufpos = (element.name ++ element.rest).length ∧
      cut.buffer = element.name ++ element.rest ++ behind' ∧ cut.ecount = parser.ecount ∧
      cut.calls = parser.calls := by
    rw [cut_eq]
    by_cases slashed : slash = 0x2f
    · rw [if_pos slashed] at place ⊢
      exact ⟨place, buffer', rfl, rfl⟩
    · rw [if_neg slashed] at place ⊢
      exact ⟨place, buffer', rfl, rfl⟩
  obtain ⟨bufpos', text, ecount, calls⟩ := kept
  have ending : decide (slash = 0x2f) = element.ending := by
    rw [Bool.eq_iff_iff, decide_eq_true_iff]
    exact ends
  rw [startTag_opened last_, ← cut_eq, ending, ← ecount, ← calls]
  by_cases empty : element.rest = []
  · have none := assignments_nil empty
    have room : element.assignments.length < 64 := by
      rw [none]
      exact (by decide : 0 < 64)
    rw [if_pos room]
    exact opened_name element empty more text bufpos'
  · exact opened_element element empty more text bufpos'

/-- No character of a tag closes it. -/
theorem open_written (element : Element) : 0x3e ∉ element.written := by
  have named : ∀ {text : Text}, (∀ c ∈ text, isElement c) → 0x3e ∉ text := fun elements member =>
    absurd (elements _ member) (by decide)
  have blank : ∀ {text : Text}, (∀ c ∈ text, isspace c) → 0x3e ∉ text := fun spaces member =>
    absurd (spaces _ member) (by decide)
  have given : ∀ given : Given, 0x3e ∉ given.written := by
    intro given
    cases given with
    | empty => exact List.not_mem_nil
    | bare text filled elements => exact named elements
    | quoted quote text isQuote misses =>
      have other : 0x3e ≠ quote := by rcases isQuote with rfl | rfl <;> decide
      simp [Given.written, other, misses.2.1]
  have assigned : 0x3e ∉ element.assignments.flatMap Assignment.written := by
    rw [List.mem_flatMap]
    rintro ⟨assignment, -, member⟩
    simp only [Assignment.written, List.mem_append, List.mem_cons] at member
    rcases member with space | name | equals | value
    · exact blank assignment.blank.2 space
    · exact named assignment.named.2 name
    · exact absurd equals (by decide)
    · exact given assignment.given value
  simp only [Element.written, Element.rest, List.mem_append, not_or]
  refine ⟨⟨named element.named.2, assigned, blank element.blank⟩, ?_⟩
  cases element.ending <;> decide

/-- The tag of an element stands in the buffer when its end is read. -/
theorem holds_element (reader : Reader) (element : Element) (state : parser.state = .none)
    (fits : element.written.length < parser.buffer.length) :
    ∃ target, Holding .tag parser.clearBuffer.calls parser.ecount element.written target ∧
      target.buffer.length = parser.buffer.length ∧
      ∀ text, scan reader.read parser (0x3c :: element.written ++ text) =
        scan reader.read target text := by
  obtain ⟨first, name, split⟩ := List.exists_cons_of_ne_nil element.named.1
  have isElement_ : isElement first := element.named.2 first (split ▸ List.mem_cons_self)
  obtain ⟨rest, whole⟩ : ∃ rest, element.written = first :: rest :=
    ⟨_, by rw [Element.written, split]; rfl⟩
  have closed := open_written element
  rw [whole] at closed fits ⊢
  obtain ⟨here, later_⟩ := not_or.mp (List.mem_cons.not.mp closed)
  have open_ : parser.state ≠ .ended := by
    rw [state]
    decide
  have length : (entered parser).buffer.length = parser.buffer.length :=
    congrArg List.length (entered_eq parser).1
  rw [List.length_cons] at fits
  have bracket : first ≠ 0x5b := by
    rintro rfl
    exact absurd isElement_ (by decide)
  have step : (entered parser).partialChar first = next ((entered parser).store first) :=
    read_tag rfl (show 0 + 1 < (entered parser).buffer.length by omega) (Ne.symm here)
      (fun both => absurd both.1 bracket) (fun both => absurd both.2 (by decide : (0 : ℕ) ≠ 2))
      fun same => absurd same bracket
  have exclaims : first ≠ 0x21 := by
    rintro rfl
    exact absurd isElement_ (by decide)
  obtain ⟨target, holding, length', later⟩ :=
    ((holding_entered parser).store (show 0 < (entered parser).buffer.length by omega)
      first).unmarked reader
        (show 1 + rest.length < ((entered parser).store first).buffer.length by
          rw [length_store]
          omega) later_ exclaims
  refine ⟨target, holding, length'.trans ((length_store _ _).trans length), fun text => ?_⟩
  show scan reader.read parser (0x3c :: first :: (rest ++ text)) = _
  rw [reader.scan_cons open_ State.noConfusion (read_opens state),
    reader.scan_cons State.noConfusion State.noConfusion step, later]

end Tags

/-! ### Documents -/

/-- What is written starts one element, with a name and attributes. -/
def Starts (reader : Reader) (source : XMLParser) (written name : Text) (attr : List Text) :
    Prop :=
  ∃ returned target emitted, scan reader.read source written = some (returned, target) ∧
    returned ≠ some false ∧ target.calls = source.calls ++ emitted ∧
    emitted.filter Callback.starts = [.startElement name attr]

/-- Attributes are read as they are given when those without quotes have the name of the element
as their value. -/
theorem read_eq_iff (element : Element) :
    element.read = element.attributes ↔
      ∀ assignment ∈ element.assignments, assignment.given.isBare →
        assignment.given.text = element.name := by
  have one : ∀ given : Given, given.read element.name = given.text ↔
      (given.isBare → given.text = element.name) := by
    intro given
    cases given with
    | bare text filled elements => exact ⟨fun same _ => same.symm, fun same => (same rfl).symm⟩
    | quoted quote text isQuote misses => exact iff_of_true rfl nofun
    | empty => exact iff_of_true rfl nofun
  unfold Element.read Element.attributes
  induction element.assignments with
  | nil => exact iff_of_true rfl fun _ member => nomatch member
  | cons assignment assignments inductionHypothesis =>
    rw [List.flatMap_cons, List.flatMap_cons, List.forall_mem_cons]
    have pair : ∀ {name first second : Text} {read given : List Text},
        name :: first :: read = name :: second :: given ↔ first = second ∧ read = given := by
      intro name first second read given
      rw [List.cons.injEq, List.cons.injEq, eq_self_iff_true, true_and]
    exact pair.trans (and_congr (one assignment.given) inductionHypothesis)

/-- What the tag of an element calls, behind whatever content. -/
theorem reads_element (reader : Reader) {source : XMLParser} (state : source.state = .none)
    (element : Element) (fits : element.written.length < source.buffer.length) :
    if element.assignments.length < 64 then
      ∃ returned target, scan reader.read source (0x3c :: element.written ++ [0x3e]) =
          some (returned, target) ∧ returned ≠ some false ∧
        target.calls = source.clearBuffer.calls ++
          tagCalls source.ecount element.name element.read element.ending
    else scan reader.read source (0x3c :: element.written ++ [0x3e]) = none := by
  obtain ⟨last, holding, length, begins⟩ := holds_element reader element state fits
  have open_ : last.state ≠ .ended := by
    rw [holding.state]
    decide
  have behind_ : last.buffer.drop last.bufpos ≠ [] := by
    rw [← List.length_pos_iff, List.length_drop, holding.bufpos]
    omega
  have buffer : last.buffer = element.written ++ last.buffer.drop last.bufpos := by
    rw [← holding.held]
    exact (List.take_append_drop _ _).symm
  have started := @startTag_element { last with state := .none } element _ behind_ buffer
    holding.bufpos
  obtain ⟨first, name, split⟩ := List.exists_cons_of_ne_nil element.named.1
  have isElement_ : isElement first := element.named.2 first (split ▸ List.mem_cons_self)
  have head : last.buffer.head? = some first := by
    rw [buffer, Element.written, split]
    rfl
  have others : first ≠ 0x2f ∧ first ≠ 0x21 ∧ first ≠ 0x3f := by
    refine ⟨?_, ?_, ?_⟩ <;> rintro rfl <;> exact absurd isElement_ (by decide)
  have tag : parseTag { last with state := .none } = startTag { last with state := .none } := by
    unfold parseTag
    simp only [head, Option.bind_eq_bind, Option.bind_some, if_neg others.1, if_neg others.2.1,
      if_neg others.2.2, isElement_, Bool.not_true, Bool.false_eq_true, ↓reduceIte]
  rw [begins, scan_singleton]
  obtain ⟨goesOn, lost⟩ := @Reader.read_cases reader last 0x3e open_
  by_cases room : element.assignments.length < 64
  · rw [if_pos room] at started ⊢
    obtain ⟨target, read, calls⟩ := started
    obtain ⟨returned, accepted, read'⟩ :=
      goesOn target (read_close holding.state (tag.trans read))
    refine ⟨returned, target, read', accepted, ?_⟩
    rw [calls, holding.ecount, holding.calls]
  · rw [if_neg room] at started ⊢
    refine lost ?_
    rw [partialChar, holding.state]
    dsimp only
    rw [if_pos rfl, tag, started]
    rfl

/-- Behind whatever content, the attributes of an element are delivered as they are written exactly
when there are no more than sixty-three, and each that has a value without quotes has the name of
the element as its value. -/
theorem attributes_delivered_iff (reader : Reader) {origin source : XMLParser} {content : Text}
    (read : scan reader.read origin.reset content = next source) (state : source.state = .none)
    (element : Element) (fits : element.written.length < origin.buffer.length) :
    Starts reader source (0x3c :: element.written ++ [0x3e]) element.name element.attributes ↔
      element.assignments.length ≤ 63 ∧ ∀ assignment ∈ element.assignments,
        assignment.given.isBare → assignment.given.text = element.name := by
  have start : 0 < origin.buffer.length := Nat.zero_lt_of_lt fits
  have size : source.buffer.length = origin.buffer.length :=
    (lost_of_scan rfl (placed_reset origin start) (reader.scan_next State.noConfusion read)).size
  rw [← size] at fits
  have reads := reads_element reader state element fits
  rw [← read_eq_iff, ← Nat.lt_succ_iff]
  by_cases room : element.assignments.length < 64
  · rw [if_pos room] at reads
    obtain ⟨returned, target, read', accepted, calls⟩ := reads
    obtain ⟨cleared, cleared_, silent⟩ : ∃ cleared, source.clearBuffer.calls =
        source.calls ++ cleared ∧ cleared.filter Callback.starts = [] := by
      rw [clearBuffer_eq]
      split
      · exact ⟨[.characters source.held], rfl, rfl⟩
      · exact ⟨[], (List.append_nil _).symm, rfl⟩
    rw [cleared_, List.append_assoc] at calls
    have one : (cleared ++ tagCalls source.ecount element.name element.read element.ending).filter
        Callback.starts = [.startElement element.name element.read] := by
      rw [List.filter_append, silent, filter_tagCalls]
      rfl
    rw [and_iff_right room]
    constructor
    · rintro ⟨returned', target', emitted, again, -, calls', starts⟩
      obtain ⟨-, rfl⟩ := Prod.mk.inj (Option.some.inj (read'.symm.trans again))
      rw [← List.append_cancel_left (calls.symm.trans calls'), one] at starts
      exact (Callback.startElement.inj (List.cons.inj starts).1).2
    · intro same
      exact ⟨returned, target, _, read', accepted, calls, by rw [one, same]⟩
  · rw [if_neg room] at reads
    refine iff_of_false ?_ fun both => room both.1
    rintro ⟨_, _, _, read', -⟩
    exact nomatch reads.symm.trans read'

/-- `<e x='1' y=e/>`. -/
theorem attributes_delivered_iff_pair :
    Starts .parse (reset ⟨0, 0, .none, List.replicate 16 0, 0, []⟩)
      [0x3c, 0x65, 0x20, 0x78, 0x3d, 0x27, 0x31, 0x27, 0x20, 0x79, 0x3d, 0x65, 0x2f, 0x3e]
      [0x65] [[0x78], [0x31], [0x79], [0x65]] := by
  obtain ⟨element, element_eq⟩ : ∃ element : Element, element = {
    name := [0x65]
    assignments := [
      ⟨[0x20], [0x78], .quoted 0x27 [0x31] (Or.inl rfl) (by decide), by decide +kernel,
        by decide +kernel⟩,
      ⟨[0x20], [0x79], .bare [0x65] (by decide) (by decide +kernel), by decide +kernel,
        by decide +kernel⟩]
    trail := []
    ending := true
    named := by decide +kernel
    blank := by decide +kernel } := ⟨_, rfl⟩
  have start : scan Reader.parse.read (reset ⟨0, 0, .none, List.replicate 16 0, 0, []⟩) [] =
      next (reset ⟨0, 0, .none, List.replicate 16 0, 0, []⟩) := rfl
  have written : element.written =
      [0x65, 0x20, 0x78, 0x3d, 0x27, 0x31, 0x27, 0x20, 0x79, 0x3d, 0x65, 0x2f] := by
    rw [element_eq]
    rfl
  have delivered := attributes_delivered_iff .parse start rfl element (by rw [written]; decide)
  rw [written, element_eq] at delivered
  refine delivered.mpr ⟨by decide, ?_⟩
  intro assignment member bare
  rcases List.mem_cons.mp member with rfl | member
  · cases bare
  · rw [List.mem_singleton.mp member]
    rfl

/-- `<e x=1>` starts an element whose attribute has the value `e`. -/
theorem bare_value_lost :
    scan Reader.parse.read (reset ⟨0, 0, .none, List.replicate 16 0, 0, []⟩)
        [0x3c, 0x65, 0x20, 0x78, 0x3d, 0x31, 0x3e] =
      next ⟨1, 0, .none, [0x65, 0, 0x78, 0, 0x31] ++ List.replicate 11 0, 0,
        [.startDocument, .startElement [0x65] [[0x78], [0x65]]]⟩ ∧
    ¬ Starts .parse (reset ⟨0, 0, .none, List.replicate 16 0, 0, []⟩)
      [0x3c, 0x65, 0x20, 0x78, 0x3d, 0x31, 0x3e] [0x65] [[0x78], [0x31]] := by
  have read : scan Reader.parse.read (reset ⟨0, 0, .none, List.replicate 16 0, 0, []⟩)
      [0x3c, 0x65, 0x20, 0x78, 0x3d, 0x31, 0x3e] =
      next ⟨1, 0, .none, [0x65, 0, 0x78, 0, 0x31] ++ List.replicate 11 0, 0,
        [.startDocument, .startElement [0x65] [[0x78], [0x65]]]⟩ := by
    decide +kernel
  refine ⟨read, ?_⟩
  rintro ⟨returned, target, emitted, again, -, calls, starts⟩
  obtain ⟨-, rfl⟩ := Prod.mk.inj (Option.some.inj (read.symm.trans again))
  obtain rfl : [.startDocument, .startElement [0x65] [[0x78], [0x65]]] = emitted := calls
  exact absurd starts (by decide)

end XMLParser

end CommonCpp
