/-
This file shows that it makes no difference to `XMLParser` how a document is cut into pieces, and
that `parse` reads what `partial` reads, up to the end of the first document.

`partial` does the same in the states `END` and `NONE`, and takes the one for the other when it is
called. `parse` is written a second time; it returns where `partial` goes on, in the state `END`.
This state is entered together with the call of `endDocument`, and after it the character is never
refused.
-/

import CommonCpp.XMLParser

namespace CommonCpp

open Bytes Ctype Scanner

namespace XMLParser

/-! ### The end of a document -/

/-- No document ends between the two. -/
structure Continues (source target : XMLParser) : Prop where
  state : target.state = .ended → source.state = .ended
  calls : ∃ calls, target.calls = source.calls ++ calls ∧ .endDocument ∉ calls

/-- The last call between the two is that at the end of the document. -/
structure Ends (source target : XMLParser) : Prop where
  state : target.state = .ended
  calls : ∃ calls, target.calls = source.calls ++ calls ++ [.endDocument] ∧ .endDocument ∉ calls

section Ends

variable {source middle target : XMLParser}

/-- Nothing is called. -/
theorem Continues.silent (state : target.state = .ended → source.state = .ended)
    (calls : target.calls = source.calls) : Continues source target :=
  ⟨state, [], by rw [calls, List.append_nil], List.not_mem_nil⟩

theorem Continues.refl (parser : XMLParser) : Continues parser parser := .silent id rfl

theorem Continues.trans (first : Continues source middle) (second : Continues middle target) :
    Continues source target := by
  obtain ⟨calls, first_, none_⟩ := first.calls
  obtain ⟨more, second_, none'⟩ := second.calls
  refine ⟨fun ended => first.state (second.state ended), calls ++ more, ?_, ?_⟩
  · rw [second_, first_, List.append_assoc]
  · exact fun member => (List.mem_append.mp member).elim none_ none'

theorem Continues.ends (first : Continues source middle) (second : Ends middle target) :
    Ends source target := by
  obtain ⟨calls, first_, none_⟩ := first.calls
  obtain ⟨more, second_, none'⟩ := second.calls
  refine ⟨second.state, calls ++ more, ?_, ?_⟩
  · rw [second_, first_, List.append_assoc source.calls]
  · exact fun member => (List.mem_append.mp member).elim none_ none'

/-- A call of another virtual function. -/
theorem continues_call (parser : XMLParser) (callback : Callback)
    (other : callback ≠ .endDocument) : Continues parser (parser.call callback) :=
  ⟨id, [callback], rfl, fun member => other (List.mem_singleton.mp member).symm⟩

theorem ends_call (parser : XMLParser) :
    Ends parser ({ parser with state := .ended }.call .endDocument) :=
  ⟨rfl, [], by rw [List.append_nil]; rfl, List.not_mem_nil⟩

theorem continues_put {index : ℕ} {c : UInt8} (stored : source.put index c = some target) :
    Continues source target := by
  unfold put at stored
  split at stored
  · cases stored
    exact .silent id rfl
  · cases stored

theorem continues_putBuffer {c : UInt8} (stored : source.putBuffer c = some target) :
    Continues source target := by
  obtain ⟨middle, put_, stored⟩ := Option.bind_eq_some_iff.mp stored
  refine (continues_put put_).trans ?_
  dsimp only at stored
  split at stored
  · cases stored
    split
    · exact (continues_call _ _ (by simp)).trans (.silent id rfl)
    · exact .silent id rfl
  · cases stored
    exact .silent id rfl

theorem continues_clearBuffer (parser : XMLParser) : Continues parser parser.clearBuffer := by
  unfold clearBuffer
  dsimp only
  split
  · exact (continues_call parser _ (by simp)).trans (.silent id rfl)
  · exact .silent id rfl

/-- What a tag or a character leads to: no document ends, or it does and nothing is refused. -/
def Leads (source : XMLParser) (accepted : Bool) (target : XMLParser) : Prop :=
  Continues source target ∨ accepted ∧ Ends source target

theorem leads_endTag {accepted : Bool} (read : source.endTag = some (accepted, target)) :
    Leads source accepted target := by
  obtain ⟨len, _, read⟩ := Option.bind_eq_some_iff.mp read
  split at read
  · cases read
    exact Or.inl (.refl source)
  obtain ⟨middle, put_, read⟩ := Option.bind_eq_some_iff.mp read
  have called : Continues source { middle.call (.endElement (string (middle.buffer.drop 1))) with
      bufpos := 0, ecount := middle.ecount - 1 } :=
    (continues_put put_).trans ((continues_call middle _ (by simp)).trans (.silent id rfl))
  dsimp only at read
  split at read
  · cases read
    exact Or.inl called
  split at read
  · cases read
    exact Or.inr ⟨rfl, called.ends (ends_call _)⟩
  · cases read
    exact Or.inl called

theorem continues_enter (parser : XMLParser) : Continues parser parser.enter := by
  unfold enter
  dsimp only
  split
  · exact (continues_call parser _ (by simp)).trans (.silent id rfl)
  · exact .silent id rfl

theorem leads_started (parser : XMLParser) (ending : Bool) :
    Leads parser true (parser.started ending) := by
  unfold started
  split
  next =>
    have left : Continues parser { parser with ecount := parser.ecount - 1 } := .silent id rfl
    have closed := left.trans (continues_call _ (.endElement (string parser.buffer)) (by simp))
    dsimp only
    split
    · have ended := closed.ends (ends_call _)
      exact Or.inr ⟨rfl, ended.state, ended.calls⟩
    · exact Or.inl ⟨closed.state, closed.calls⟩
  next => exact Or.inl (.silent id rfl)

theorem Continues.leads {accepted : Bool} (first : Continues source middle)
    (second : Leads middle accepted target) : Leads source accepted target := by
  rcases second with continues | ⟨yes, ends⟩
  · exact Or.inl (first.trans continues)
  · exact Or.inr ⟨yes, first.ends ends⟩

theorem leads_startTag {accepted : Bool} (read : source.startTag = some (accepted, target)) :
    Leads source accepted target := by
  obtain ⟨slash, _, read⟩ := Option.bind_eq_some_iff.mp read
  obtain ⟨named_, named_eq⟩ : ∃ named_, named_ = if slash = 0x2f then
      { source with bufpos := source.bufpos - 1 } else source := ⟨_, rfl⟩
  have entered : Continues source named_.enter := by
    refine Continues.trans ?_ (continues_enter named_)
    rw [named_eq]
    split
    · exact .silent id rfl
    · exact .refl source
  simp only [← named_eq] at read
  split at read
  · obtain ⟨middle, put_, read⟩ := Option.bind_eq_some_iff.mp read
    cases read
    have started_ := continues_call middle (.startElement (string middle.buffer) []) (by simp)
    exact ((entered.trans (continues_put put_)).trans started_).leads (leads_started _ _)
  · obtain ⟨⟨read_, buffer, attrib⟩, _, read⟩ := Option.bind_eq_some_iff.mp read
    have edited : Continues source { named_.enter with buffer := buffer } :=
      entered.trans (.silent id rfl)
    dsimp only at read
    split at read
    · cases read
      exact Or.inl edited
    · cases read
      have started_ := continues_call { named_.enter with buffer := buffer }
        (.startElement (string buffer) (texts buffer attrib)) (by simp)
      exact (edited.trans started_).leads (leads_started _ _)

theorem leads_parseTag {accepted : Bool} (read : source.parseTag = some (accepted, target)) :
    Leads source accepted target := by
  obtain ⟨data, _, read⟩ := Option.bind_eq_some_iff.mp read
  split at read
  · exact leads_endTag read
  split at read
  · cases read
    exact Or.inl (.silent id rfl)
  split at read
  · obtain ⟨_, _, read⟩ := Option.bind_eq_some_iff.mp read
    cases read
    exact Or.inl (.silent id rfl)
  split at read
  · cases read
    exact Or.inl (.refl source)
  · exact leads_startTag read

/-- What a character leads to: `partial` returns only to refuse it, and then no document ends. -/
def Steps (source : XMLParser) (returned : Option Bool) (target : XMLParser) : Prop :=
  returned ≠ some true ∧ Leads source returned.isNone target

theorem Continues.steps_next (continues : Continues source target) : Steps source none target :=
  ⟨by simp, Or.inl continues⟩

theorem Continues.steps_stop (continues : Continues source target) :
    Steps source (some false) target :=
  ⟨by simp, Or.inl continues⟩

/-- Whatever a character does, it is refused, or the parser goes on, or the document ends. -/
theorem steps_of_turn {returned : Option Bool} (turn : Turn source returned target) :
    Steps source returned target := by
  cases turn with
  | refused state calls =>
    exact Continues.steps_stop (.silent (fun ended => state.symm.trans ended) calls)
  | silent state _ calls =>
    refine Continues.steps_next (.silent (fun ended => ?_) calls)
    exact state.elim (fun same => same.symm.trans ended) fun other => absurd ended other.1
  | character _ state _ calls =>
    refine Continues.steps_next ⟨fun ended => ?_, _, calls, by simp⟩
    cases state.symm.trans ended
  | comment _ state _ calls =>
    refine Continues.steps_next ⟨fun ended => ?_, _, calls, by simp⟩
    refine state.elim (fun same => same.symm.trans ended) fun none_ => ?_
    cases none_.symm.trans ended
  | @tag _ accepted read =>
    have closed : Continues source { source with state := .none } :=
      .silent (fun ended => by cases ended) rfl
    have led := closed.leads (leads_parseTag read)
    cases accepted with
    | false => exact ⟨by simp, led⟩
    | true => exact ⟨by simp, led⟩
  | text _ stored => exact (continues_putBuffer stored).steps_next
  | @closes middle _ bufpos stored =>
    have cut_ : Continues middle { middle with bufpos := bufpos, state := .none } :=
      .silent (fun ended => by cases ended) rfl
    exact (((continues_putBuffer stored).trans cut_).trans (continues_clearBuffer _)).steps_next
  | opens =>
    exact Continues.steps_next ((continues_clearBuffer source).trans
      (.silent (fun ended => by cases ended) rfl))
  | refers =>
    exact Continues.steps_next ((continues_clearBuffer source).trans
      (.silent (fun ended => by cases ended) rfl))

theorem steps_partialChar {data : UInt8} {returned : Option Bool}
    (read : source.partialChar data = some (returned, target)) :
    Steps source returned target :=
  steps_of_turn (turn_partialChar read)

end Ends

/-! ### Pieces -/

theorem clearBuffer_state (parser : XMLParser) (state : State) :
    clearBuffer { parser with state := state } = { parser.clearBuffer with state := state } := by
  unfold clearBuffer
  dsimp only
  split <;> rfl

theorem putBuffer_state (parser : XMLParser) (state : State) (c : UInt8) :
    putBuffer { parser with state := state } c =
      (parser.putBuffer c).map fun parser => { parser with state := state } := by
  unfold putBuffer put
  dsimp only
  split
  · show (if _ then _ else _) = Option.map _ (if _ then _ else _)
    dsimp only
    split
    · split <;> rfl
    · rfl
  · rfl

theorem restart_restart (parser : XMLParser) : parser.restart.restart = parser.restart := by
  unfold restart
  split
  · rfl
  · rfl

/-- The states that are taken for one another. -/
theorem restart_none {parser : XMLParser} (ended : parser.state = .ended) :
    restart { parser with state := .none } = restart parser :=
  (if_neg (by simp)).trans (if_pos ended).symm

theorem state_putBuffer {parser target : XMLParser} {c : UInt8}
    (stored : parser.putBuffer c = some target) : target.state = parser.state := by
  have kept : parser.putBuffer c =
      (parser.putBuffer c).map fun target => { target with state := parser.state } :=
    putBuffer_state parser parser.state c
  rw [stored] at kept
  have same : target = { target with state := parser.state } := Option.some.inj kept
  rw [same]

/-- A character is read after the end of a document as it is between two elements. -/
theorem shown_restart (parser : XMLParser) (data : UInt8) :
    shown restart (parser.restart.partialChar data) = shown restart (parser.partialChar data) := by
  by_cases ended : parser.state = .ended
  · have restarted : parser.restart = { parser with state := .none } := if_pos ended
    rw [restarted]
    unfold partialChar
    rw [ended]
    dsimp only
    rw [clearBuffer_state, putBuffer_state]
    split
    · rfl
    split
    · rfl
    split
    · cases stored : parser.putBuffer data with
      | none => rfl
      | some target =>
        have same := restart_none ((state_putBuffer stored).trans ended)
        exact congrArg (fun seen => some (none, seen)) same
    · exact congrArg (fun seen => some (none, seen)) (restart_none ended)
  · have same : parser.restart = parser := if_neg ended
    rw [same]

theorem shown_partialChar {parser parser' : XMLParser} (data : UInt8)
    (same : parser.restart = parser'.restart) :
    shown restart (parser.partialChar data) = shown restart (parser'.partialChar data) := by
  rw [← shown_restart parser, ← shown_restart parser', same]

/-- `partial` returns only to refuse a character. -/
theorem ne_true_of_scan {parser target : XMLParser} {data : Text} {returned : Option Bool}
    (read : scan partialChar parser data = some (returned, target)) : returned ≠ some true :=
  scan_returned (by simp) (fun stepped => (steps_partialChar stepped).1) read

/-- What is given to `partial` piece by piece is read as pieces. -/
theorem partialPieces_eq (parser : XMLParser) (pieces : List Text) :
    parser.partialPieces pieces = answer true (feed restart partialChar parser pieces) := by
  induction pieces generalizing parser with
  | nil => rfl
  | cons piece pieces inductionHypothesis =>
    show (answer true (scan partialChar parser.restart piece)).bind _ =
      answer true (andThen (scan partialChar parser.restart piece) _)
    cases scanned : scan partialChar parser.restart piece with
    | none => rfl
    | some outcome =>
      obtain ⟨returned, middle⟩ := outcome
      match returned with
      | none => exact inductionHypothesis middle
      | some false => rfl
      | some true => exact absurd rfl (ne_true_of_scan scanned)

/-- The pieces of a document are read as the document is, if `END` is taken for `NONE`. -/
theorem answer_pieces (parser : XMLParser) (pieces : List Text) :
    (parser.partialPieces pieces).map (Prod.map id restart) =
      (parser.partialData pieces.flatten).map (Prod.map id restart) := by
  have answered : ∀ outcome : Outcome XMLParser Bool,
      (answer true outcome).map (Prod.map id restart) = answer true (shown restart outcome) := by
    intro outcome
    cases outcome <;> rfl
  have whole : shown restart (feed restart partialChar parser pieces) =
      shown restart (scan partialChar parser.restart pieces.flatten) :=
    (shown_feed shown_partialChar restart_restart parser pieces).trans
      (shown_scan shown_partialChar (restart_restart parser).symm _)
  rw [partialPieces_eq, answered, whole, ← answered]
  rfl

/-! ### The two parsers -/

/-- The calls up to the first end of a document. -/
def upToEnd : List Callback → List Callback
  | [] => []
  | .endDocument :: _ => [.endDocument]
  | callback :: calls => callback :: upToEnd calls

theorem upToEnd_append {calls : List Callback} (none_ : .endDocument ∉ calls)
    (more : List Callback) : upToEnd (calls ++ more) = calls ++ upToEnd more := by
  induction calls with
  | nil => rfl
  | cons callback calls inductionHypothesis =>
    rw [List.mem_cons, not_or] at none_
    have rest := inductionHypothesis none_.2
    cases callback with
    | endDocument => exact absurd rfl none_.1
    | _ => exact congrArg (List.cons _) rest

/-- Every call stays made. -/
theorem Steps.calls {source target : XMLParser} {returned : Option Bool}
    (steps : Steps source returned target) : ∃ calls, target.calls = source.calls ++ calls := by
  rcases steps.2 with continues | ⟨-, ends⟩
  · obtain ⟨calls, called, -⟩ := continues.calls
    exact ⟨calls, called⟩
  · obtain ⟨calls, called, -⟩ := ends.calls
    exact ⟨calls ++ [.endDocument], by rw [called, List.append_assoc]⟩

theorem calls_of_scan {parser target : XMLParser} {data : Text} {returned : Option Bool}
    (read : scan partialChar parser data = some (returned, target)) :
    ∃ calls, target.calls = parser.calls ++ calls := by
  refine scan_relates (fun source target => ∃ calls, target.calls = source.calls ++ calls)
    (fun parser => ⟨[], (List.append_nil _).symm⟩) ?_ ?_ read
  · rintro first second third ⟨calls, first_⟩ ⟨more, second_⟩
    exact ⟨calls ++ more, by rw [second_, first_, List.append_assoc]⟩
  · intro source data returned target stepped
    exact (steps_partialChar stepped).calls

/-- What `parse` makes of what `partial` reads: the same when no document ends in it, and else it
returns at the end of the first. -/
theorem scan_parseRound {parser target : XMLParser} {data : Text} {returned : Option Bool}
    (open_ : parser.state ≠ .ended)
    (read : scan partialChar parser data = some (returned, target)) :
    ∃ emitted, target.calls = parser.calls ++ emitted ∧
      ∃ returned' other, scan parseRound parser data = some (returned', other) ∧
        other.calls = parser.calls ++ upToEnd emitted ∧
        (returned' = some true ↔ .endDocument ∈ emitted) := by
  induction data generalizing parser with
  | nil =>
    cases read
    exact ⟨[], (List.append_nil _).symm, none, target, rfl, (List.append_nil _).symm, by simp⟩
  | cons ch data inductionHypothesis =>
    have round : parser.parseRound ch = andThen (parser.partialChar ch) fun parser =>
        if parser.state = .ended then stop true parser else next parser := by
      rw [parseRound, parseChar_eq open_]
    rw [scan] at read
    rw [scan, round]
    cases stepped : parser.partialChar ch with
    | none =>
      rw [stepped] at read
      cases read
    | some outcome =>
      obtain ⟨returned', middle⟩ := outcome
      rw [stepped] at read
      obtain ⟨refuses, led⟩ := steps_partialChar stepped
      rcases led with continues | ⟨goesOn, ends⟩
      · obtain ⟨calls, called, none_⟩ := continues.calls
        have middleOpen : middle.state ≠ .ended := fun ended => open_ (continues.state ended)
        have upTo := upToEnd_append none_ []
        rw [List.append_nil, upToEnd, List.append_nil] at upTo
        cases returned' with
        | some verdict =>
          cases read
          exact ⟨calls, called, some verdict, target, rfl, by rw [upTo, called],
            iff_of_false refuses none_⟩
        | none =>
          obtain ⟨emitted, emitted_, returned', other, read', other_, verdict⟩ :=
            inductionHypothesis middleOpen read
          refine ⟨calls ++ emitted, ?_, returned', other, ?_, ?_, ?_⟩
          · rw [emitted_, called, List.append_assoc]
          · show andThen (if middle.state = .ended then stop true middle else next middle) _ = _
            rw [if_neg middleOpen]
            exact read'
          · rw [other_, called, upToEnd_append none_, List.append_assoc]
          · rw [verdict, List.mem_append, or_iff_right none_]
      · obtain ⟨calls, called, none_⟩ := ends.calls
        obtain rfl : returned' = none := Option.isNone_iff_eq_none.mp goesOn
        obtain ⟨more, more_⟩ := calls_of_scan read
        refine ⟨calls ++ .endDocument :: more, ?_, some true, middle, ?_, ?_, ?_⟩
        · rw [more_, called]
          simp
        · show andThen (if middle.state = .ended then stop true middle else next middle) _ = _
          rw [if_pos ends.state]
          rfl
        · rw [called, upToEnd_append none_, List.append_assoc]
          rfl
        · simp

/-- However a text is cut into pieces, `partial` makes the same calls for them, gives the same
answer and ends in the same state as for the whole text; and `parse` makes these calls up to
the first `endDocument`, and returns true when there is one. -/
theorem parsers_agree {input : Text} (noNull : 0 ∉ input) {pieces : List Text}
    (cut : pieces.flatten = input) (parser : XMLParser) :
    (∀ verdict target, parser.partialData input = some (verdict, target) →
      ∃ other, parser.partialPieces pieces = some (verdict, other) ∧ other.calls = target.calls ∧
        other.restart = target.restart) ∧
    ∀ verdict target, parser.reset.partialData input = some (verdict, target) →
      ∃ emitted, target.calls = parser.calls ++ emitted ∧
        ∃ answered other, parser.parse input = some (answered, other) ∧
          other.calls = parser.calls ++ upToEnd emitted ∧
          (answered = true ↔ .endDocument ∈ emitted) := by
  refine ⟨fun verdict target read => ?_, fun verdict target read => ?_⟩
  · have pieces_ := answer_pieces parser pieces
    rw [cut, read] at pieces_
    obtain ⟨⟨verdict', other⟩, read', same⟩ := Option.map_eq_some_iff.mp pieces_
    obtain ⟨rfl, restarted⟩ := Prod.mk.inj same
    refine ⟨other, read', ?_, restarted⟩
    have calls : ∀ parser : XMLParser, parser.restart.calls = parser.calls := by
      intro parser
      unfold restart
      split <;> rfl
    rw [← calls other, ← calls target]
    exact congrArg XMLParser.calls restarted
  · obtain ⟨⟨returned, target'⟩, scanned, same⟩ := Option.map_eq_some_iff.mp read
    obtain ⟨-, rfl⟩ := Prod.mk.inj same
    have open_ : parser.reset.state ≠ .ended := State.noConfusion
    have started : parser.reset.restart = parser.reset := if_neg open_
    rw [started] at scanned
    obtain ⟨emitted, emitted_, returned', other, read', other_, answered⟩ :=
      scan_parseRound open_ scanned
    refine ⟨emitted, emitted_, returned'.getD false, other, ?_, other_, ?_⟩
    · rw [parse, string_eq_self noNull, read']
      rfl
    · rw [← answered]
      cases returned' <;> simp

/-- The calls for `<a/>`. -/
def element : List Callback :=
  [.startDocument, .startElement [0x61] [], .endElement [0x61], .endDocument]

/-- `<a/>`, whole and in two pieces. -/
theorem parsers_agree_element :
    (∃ other, partialPieces ⟨0, 0, .none, [0, 0, 0, 0], 0, []⟩ [[0x3c, 0x61], [0x2f, 0x3e]] =
      some (true, other) ∧ other.calls = element) ∧
    ∃ other, parse ⟨0, 0, .none, [0, 0, 0, 0], 0, []⟩ [0x3c, 0x61, 0x2f, 0x3e] =
      some (true, other) ∧ other.calls = element := by
  have read : partialData ⟨0, 0, .none, [0, 0, 0, 0], 0, []⟩ [0x3c, 0x61, 0x2f, 0x3e] =
      some (true, ⟨0, 0, .ended, [0x61, 0, 0, 0], 0, element⟩) := rfl
  have noNull : (0 : UInt8) ∉ [0x3c, 0x61, 0x2f, 0x3e] := by decide
  have cut : ([[0x3c, 0x61], [0x2f, 0x3e]] : List Text).flatten = [0x3c, 0x61, 0x2f, 0x3e] := rfl
  obtain ⟨whole, twice⟩ := parsers_agree noNull cut ⟨0, 0, .none, [0, 0, 0, 0], 0, []⟩
  obtain ⟨other, pieces, calls, -⟩ := whole true _ read
  refine ⟨⟨other, pieces, calls⟩, ?_⟩
  obtain ⟨emitted, emitted_, answered, other, parsed, calls, verdict⟩ := twice true _ read
  obtain rfl : element = emitted := emitted_
  obtain rfl : answered = true := verdict.mpr (by decide)
  exact ⟨other, parsed, calls⟩

end XMLParser

end CommonCpp
