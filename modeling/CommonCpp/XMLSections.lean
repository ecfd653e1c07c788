/-
This file shows when a parser delivers the sections of a document: the text of a comment, and the
text of a `CDATA` section.

The place in the buffer says how much of a comment was read, up to multiples of the size of the
buffer, and its end is seen when both of its hyphens are in the buffer. The mark of a `CDATA`
section is kept in the buffer and handed out before its text. Only where the buffer happens to
hold `DOCTYPE ` is the mark taken for a declaration, which hands out nothing.
-/

import CommonCpp.XMLContent
import CommonCpp.XMLWritten

namespace CommonCpp

open Bytes Ctype Scanner

namespace XMLParser

/-! ### Sections -/

/-- `--`. -/
def hyphens : Text := [0x2d, 0x2d]

/-- `]]>`. -/
def sectionEnd : Text := [0x5d, 0x5d, 0x3e]

/-- `<![CDATA[text]]>`. -/
def cdataSection (text : Text) : Text := 0x3c :: cdataTag ++ 0x5b :: text ++ sectionEnd

/-- `<!--text-->`. -/
def commentSection (text : Text) : Text := [0x3c, 0x21, 0x2d, 0x2d] ++ (text ++ hyphens) ++ [0x3e]

/-- What is written for a text is delivered: all that is called behind the content before are calls
of one kind, which are given the text, and the parser goes on with the content. -/
def Delivers (reader : Reader) (callback : Text → Callback) (source : XMLParser)
    (written text : Text) : Prop :=
  ∃ (target : XMLParser) (pieces : List Text), scan reader.read source written = next target ∧
    target.state = .none ∧ target.bufpos = 0 ∧ target.ecount = source.ecount ∧
    target.calls = source.clearBuffer.calls ++ pieces.map callback ∧ pieces.flatten = text

/-- The buffer holds `DOCTYPE ` behind its first byte. -/
def Stale (parser : XMLParser) : Prop := doctypeTag.drop 1 <+: parser.buffer.drop 1

instance (parser : XMLParser) : Decidable (Stale parser) :=
  inferInstanceAs (Decidable (doctypeTag.drop 1 <+: parser.buffer.drop 1))

/-! ### Comparisons -/

theorem strncmp_eq_true_iff (text other : Text) :
    strncmp (· = ·) text other = some true ↔ other <+: text := by
  refine ⟨Written.prefix_of_strncmp, ?_⟩
  rintro ⟨rest, rfl⟩
  induction other with
  | nil => cases rest <;> rfl
  | cons char other inductionHypothesis =>
    rw [List.cons_append, strncmp, if_pos (decide_eq_true rfl)]
    exact inductionHypothesis

/-- Where there is enough to compare, the comparison says whether the text begins so. -/
theorem strncmp_eq {text other : Text} (long : other.length ≤ text.length) :
    strncmp (· = ·) text other = some (decide (other <+: text)) := by
  cases found : strncmp (· = ·) text other with
  | none => exact absurd found (Written.strncmp_eq_ne_none long)
  | some same =>
    have agrees := strncmp_eq_true_iff text other
    rw [found, Option.some.injEq] at agrees
    cases same with
    | true => rw [decide_eq_true (agrees.mp rfl)]
    | false => rw [decide_eq_false fun begins => nomatch agrees.mpr begins]

theorem prefix_of_equal {text other : Text} (same : equal text other = some true) :
    other <+: text := by
  induction text generalizing other with
  | nil => cases same
  | cons char text inductionHypothesis =>
    cases other with
    | nil => exact List.nil_prefix
    | cons char' other =>
      rw [equal] at same
      split at same
      next here =>
        rw [here]
        exact (List.prefix_cons_inj char').mpr (inductionHypothesis same)
      next => cases same

/-! ### Comments -/

section Comments

variable {before : List Callback} {text : Text} {parser : XMLParser}

/-- A comment is being read, from the place in the buffer that so many characters lead to. -/
structure Commenting (before : List Callback) (text : Text) (parser : XMLParser) : Prop where
  state : parser.state = .comment
  gathers : Gathers .comment before text parser
  bufpos : parser.bufpos = text.length % parser.buffer.length

/-- The end of what was gathered stands in the buffer, as far as it holds so much. -/
theorem Gathers.suffix {callback : Text → Callback} (gathers : Gathers callback before text parser)
    (tail : Text) (held : tail.length ≤ parser.bufpos) :
    tail <:+ text ↔ tail <:+ parser.held := by
  obtain ⟨room, pieces, _, rfl⟩ := gathers
  have long : tail.length ≤ parser.held.length := by rwa [length_held room.le]
  refine ⟨fun ends => ?_, fun ends => ends.trans (List.suffix_append _ _)⟩
  exact List.suffix_of_suffix_length_le ends (List.suffix_append _ _) long

/-- What stands before a place in the buffer ends in a text when that stands behind the place where
it would start. -/
theorem suffix_held (parser : XMLParser) (within : parser.bufpos ≤ parser.buffer.length)
    {tail : Text} (held : tail.length ≤ parser.bufpos) :
    tail <:+ parser.held ↔ tail <+: parser.buffer.drop (parser.bufpos - tail.length) := by
  have length := length_held within
  rw [List.suffix_iff_eq_drop, List.prefix_iff_eq_take, length]
  show tail = (parser.buffer.take parser.bufpos).drop _ ↔ _
  rw [List.drop_take, Nat.sub_sub_self held]

/-- What is left when the end is taken out of the buffer. -/
theorem held_cut (within : parser.bufpos ≤ parser.buffer.length) {rest tail : Text}
    (split : rest ++ tail = parser.held) :
    parser.bufpos - tail.length = rest.length ∧
      parser.buffer.take (parser.bufpos - tail.length) = rest := by
  have length := length_held within
  rw [← split, List.length_append] at length
  have left : parser.bufpos - tail.length = rest.length := by
    rw [← length, Nat.add_sub_cancel]
  have shorter := congrArg (List.take rest.length) split
  have fewer : rest.length ≤ parser.bufpos := Nat.le.intro length
  rw [List.take_left, held, List.take_take, min_eq_left fewer] at shorter
  exact ⟨left, left ▸ shorter.symm⟩

/-- Whether the end of a comment is seen. -/
theorem ends_comment (gathers : Gathers .comment before text parser) (c : UInt8) :
    (if c = 0x3e ∧ parser.bufpos ≥ 2 then
        strncmp (· = ·) (parser.buffer.drop (parser.bufpos - 2)) hyphens else some false) =
      some (decide (c = 0x3e ∧ 2 ≤ parser.bufpos ∧ hyphens <:+ text)) := by
  by_cases place : c = 0x3e ∧ parser.bufpos ≥ 2
  · have long : hyphens.length ≤ (parser.buffer.drop (parser.bufpos - 2)).length := by
      rw [List.length_drop]
      have room := gathers.room
      show 2 ≤ _
      omega
    have same : c = 0x3e ∧ 2 ≤ parser.bufpos ∧ hyphens <:+ text ↔
        hyphens <+: parser.buffer.drop (parser.bufpos - 2) := by
      rw [gathers.suffix hyphens place.2, @suffix_held parser gathers.room.le hyphens place.2]
      exact ⟨fun all => all.2.2, fun ends => ⟨place.1, place.2, ends⟩⟩
    rw [if_pos place, strncmp_eq long]
    exact congrArg some (decide_eq_decide.mpr same.symm)
  · rw [if_neg place, decide_eq_false fun all => place ⟨all.1, all.2.1⟩]

/-- A character of a comment. -/
theorem Commenting.step (commenting : Commenting before text parser) {c : UInt8}
    (open_ : c = 0x3e → 2 ≤ parser.bufpos → ¬ hyphens <:+ text) :
    ∃ target, parser.partialChar c = next target ∧ Commenting before (text ++ [c]) target ∧
      target.ecount = parser.ecount ∧ target.buffer.length = parser.buffer.length := by
  obtain ⟨state, gathers, bufpos⟩ := commenting
  have seen := ends_comment gathers c
  rw [decide_eq_false fun all => open_ all.1 all.2.1 all.2.2] at seen
  obtain ⟨room, pieces, calls, rfl⟩ := gathers
  have stored := held_store room c
  have length : (store parser c).buffer.length = parser.buffer.length := List.length_set
  have put_ : parser.put parser.bufpos c =
      some { parser with buffer := parser.buffer.set parser.bufpos c } := if_pos room
  have step : parser.partialChar c =
      if parser.bufpos + 1 = (store parser c).buffer.length then
        next { (store parser c).call (.comment (store parser c).held) with bufpos := 0 }
      else next (store parser c) := by
    rw [partialChar, state]
    show Option.bind (if c = 0x3e ∧ parser.bufpos ≥ 2 then
      strncmp (· = ·) (parser.buffer.drop (parser.bufpos - 2)) hyphens else some false) _ = _
    rw [seen]
    show (parser.put parser.bufpos c).bind _ = _
    rw [put_]
    rfl
  have place : (pieces.flatten ++ parser.held ++ [c]).length % parser.buffer.length =
      (parser.bufpos + 1) % parser.buffer.length := by
    rw [List.length_append, bufpos, List.length_singleton, Nat.mod_add_mod]
  by_cases last : parser.bufpos + 1 = parser.buffer.length
  · rw [length, if_pos last] at step
    refine ⟨_, step, ⟨state, ⟨?_, pieces ++ [parser.held ++ [c]], ?_, ?_⟩, ?_⟩, rfl, length⟩
    · show 0 < (store parser c).buffer.length
      rw [length]
      exact Nat.zero_lt_of_lt room
    · show parser.calls ++ [.comment (store parser c).held] = _
      rw [calls, stored, List.map_append, List.append_assoc]
      rfl
    · rw [held_zero, List.append_nil, List.flatten_append, List.flatten_singleton,
        List.append_assoc]
    · show 0 = _ % (store parser c).buffer.length
      rw [length, place, last, Nat.mod_self]
  · rw [length, if_neg last] at step
    have more : parser.bufpos + 1 < parser.buffer.length := lt_of_le_of_ne room last
    refine ⟨_, step, ⟨state, ⟨?_, pieces, calls, ?_⟩, ?_⟩, rfl, length⟩
    · rw [length]
      exact more
    · rw [stored, List.append_assoc]
    · rw [length, place, Nat.mod_eq_of_lt more]
      rfl

/-- The end of a comment, when both of its hyphens are in the buffer. -/
theorem Commenting.ends (commenting : Commenting before (text ++ hyphens) parser)
    (both : 2 ≤ parser.bufpos) :
    ∃ target, parser.partialChar 0x3e = next target ∧ Gathers .comment before text target ∧
      target.state = .none ∧ target.bufpos = 0 ∧ target.ecount = parser.ecount := by
  obtain ⟨state, gathers, -⟩ := commenting
  have seen := ends_comment gathers 0x3e
  have ends := List.suffix_append text hyphens
  rw [decide_eq_true ⟨rfl, both, ends⟩] at seen
  rw [gathers.suffix hyphens both] at ends
  obtain ⟨rest, split⟩ := ends
  have step : parser.partialChar 0x3e = next { if parser.bufpos - 2 ≠ 0 then
      call { parser with bufpos := parser.bufpos - 2 }
        (.comment (held { parser with bufpos := parser.bufpos - 2 }))
      else { parser with bufpos := parser.bufpos - 2 } with bufpos := 0, state := .none } := by
    rw [partialChar, state]
    show Option.bind (if (0x3e : UInt8) = 0x3e ∧ parser.bufpos ≥ 2 then
      strncmp (· = ·) (parser.buffer.drop (parser.bufpos - 2)) hyphens else some false) _ = _
    rw [seen]
    rfl
  obtain ⟨room, pieces, calls, whole⟩ := gathers
  obtain ⟨left, rest_eq⟩ : parser.bufpos - 2 = rest.length ∧
      held { parser with bufpos := parser.bufpos - 2 } = rest := held_cut room.le split
  have text_eq : pieces.flatten ++ rest = text := by
    rw [← split, ← List.append_assoc] at whole
    exact List.append_cancel_right whole
  have start : 0 < parser.buffer.length := Nat.zero_lt_of_lt room
  refine ⟨_, step, ?_⟩
  by_cases empty : parser.bufpos - 2 = 0
  · rw [if_neg (not_not.mpr empty)]
    have nothing : rest = [] := List.eq_nil_of_length_eq_zero (left.symm.trans empty)
    refine ⟨⟨start, pieces, calls, ?_⟩, rfl, rfl, rfl⟩
    rw [← text_eq, nothing]
    rfl
  · rw [if_pos empty, rest_eq]
    refine ⟨⟨start, pieces ++ [rest], ?_, ?_⟩, rfl, rfl, rfl⟩
    · show parser.calls ++ [_] = _
      rw [calls, List.map_append, List.append_assoc]
      rfl
    · rw [← text_eq, List.flatten_append, List.flatten_singleton]
      exact List.append_nil _

/-- The mark of a comment. -/
theorem begins_comment (reader : Reader) (state : parser.state = .none)
    (large : 16 ≤ parser.buffer.length) :
    ∃ target, Commenting parser.clearBuffer.calls [] target ∧ target.ecount = parser.ecount ∧
      target.buffer.length = parser.buffer.length ∧
      ∀ text, scan reader.read parser ([0x3c, 0x21, 0x2d, 0x2d] ++ text) =
        scan reader.read target text := by
  obtain ⟨buffer, ecount, -⟩ := entered_eq parser
  let first := entered parser
  let second := store first 0x21
  let third := store second 0x2d
  have length₁ : first.buffer.length = parser.buffer.length := congrArg List.length buffer
  have length₂ : second.buffer.length = parser.buffer.length := (length_store _ _).trans length₁
  have length₃ : third.buffer.length = parser.buffer.length := (length_store _ _).trans length₂
  have step₁ : first.partialChar 0x21 = next second :=
    read_plain rfl (show 0 + 1 < first.buffer.length by omega) (by decide)
  have step₂ : second.partialChar 0x2d = next third :=
    read_tag rfl (show 1 + 1 < second.buffer.length by omega) (by decide)
      (fun same => absurd same.1 (by decide)) (fun same => absurd same.2 (by decide : (1 : ℕ) ≠ 2))
      fun same => absurd same (by decide)
  have held₂ : second.held = [0x21] := by
    rw [held_store (show 0 < first.buffer.length by omega), held_nil rfl]
    rfl
  have held₃ : third.held = commentTag := by
    rw [held_store (show 1 < second.buffer.length by omega), held₂]
    rfl
  have marked : strncmp (· = ·) third.buffer commentTag = some true := by
    rw [strncmp_eq_true_iff, ← held₃]
    exact List.take_prefix _ _
  let last : XMLParser := { third with state := .comment, bufpos := 0 }
  have step₃ : third.partialChar 0x2d = next last := read_commentMark rfl rfl marked
  have start : 0 < third.buffer.length := by omega
  refine ⟨last, ⟨rfl, ⟨start, [], (List.append_nil _).symm, held_nil rfl⟩, ?_⟩, ecount, length₃, ?_⟩
  · exact (Nat.zero_mod _).symm
  · intro text
    have open_ : parser.state ≠ .ended := by rw [state]; decide
    show scan reader.read parser (0x3c :: 0x21 :: 0x2d :: 0x2d :: text) = _
    rw [reader.scan_cons open_ State.noConfusion (read_opens state),
      reader.scan_cons State.noConfusion State.noConfusion step₁,
      reader.scan_cons State.noConfusion State.noConfusion step₂,
      reader.scan_cons State.noConfusion State.noConfusion step₃]

/-- The text of a comment. -/
theorem Commenting.run (reader : Reader) (commenting : Commenting before [] parser) {text : Text}
    (open_ : ∀ early late, text = early ++ 0x3e :: late → ¬ hyphens <:+ early) :
    ∃ target, scan reader.read parser text = next target ∧ Commenting before text target ∧
      target.ecount = parser.ecount ∧ target.buffer.length = parser.buffer.length := by
  induction text using List.reverseRecOn with
  | nil => exact ⟨parser, rfl, commenting, rfl, rfl⟩
  | append_singleton text c inductionHypothesis =>
    have earlier : ∀ early late, text = early ++ 0x3e :: late → ¬ hyphens <:+ early := by
      rintro early late rfl
      exact open_ early (late ++ [c]) (by rw [List.append_assoc, List.cons_append])
    obtain ⟨middle, read, commenting, ecount, length⟩ := inductionHypothesis earlier
    obtain ⟨target, step, commenting', ecount', length'⟩ := commenting.step (c := c) <| by
      rintro rfl _
      exact open_ text [] rfl
    refine ⟨target, scan_snoc.mpr ⟨middle, read, ?_⟩, commenting', ecount'.trans ecount,
      length'.trans length⟩
    refine (reader.read_iff ?_ ?_).mpr step
    · rw [commenting.state]
      decide
    · rw [commenting'.state]
      decide

/-- A comment is delivered when its end does not come to the start of the buffer. -/
theorem delivers_comment_iff (reader : Reader) (state : parser.state = .none)
    (large : 16 ≤ parser.buffer.length) (plain : ¬ hyphens <:+: text) :
    Delivers reader .comment parser (commentSection text) text ↔
      2 ≤ (text.length + 2) % parser.buffer.length := by
  obtain ⟨first, commenting, ecount, length, begins⟩ := begins_comment reader state large
  have open_ : ∀ early late, text ++ hyphens = early ++ 0x3e :: late → ¬ hyphens <:+ early := by
    intro early late split ends
    rcases List.append_eq_append_iff.mp split with ⟨more, rfl, tail⟩ | ⟨more, rfl, tail⟩
    · have mem : (0x3e : UInt8) ∈ hyphens := by
        rw [tail]
        exact List.mem_append_right _ List.mem_cons_self
      exact absurd mem (by decide)
    · exact plain (ends.isInfix.trans (List.infix_append' [] early more))
  obtain ⟨middle, read, commenting, ecount', length'⟩ := commenting.run reader open_
  have place : middle.bufpos = (text.length + 2) % parser.buffer.length := by
    rw [commenting.bufpos, length', length, List.length_append]
    rfl
  have middleOpen : middle.state ≠ .ended := by
    rw [commenting.state]
    decide
  have whole : ∀ target, scan reader.read parser (commentSection text) = next target ↔
      reader.read middle 0x3e = next target := by
    intro target
    rw [commentSection, List.append_assoc, begins, scan_snoc]
    refine ⟨fun ⟨other, read', last⟩ => ?_, fun last => ⟨middle, read, last⟩⟩
    rw [read] at read'
    rwa [(Prod.mk.inj (Option.some.inj read')).2]
  rw [← place]
  constructor
  · rintro ⟨target, pieces, scanned, state', -, -, -, -⟩
    by_contra short
    have targetOpen : target.state ≠ .ended := by
      rw [state']
      decide
    obtain ⟨other, step, commenting', -⟩ := commenting.step (c := 0x3e)
      fun _ both => absurd both short
    have last := (reader.read_iff middleOpen targetOpen).mp ((whole target).mp scanned)
    rw [step] at last
    obtain rfl := (Prod.mk.inj (Option.some.inj last)).2
    exact nomatch state'.symm.trans commenting'.state
  · intro both
    obtain ⟨target, step, ⟨_, pieces, calls, gathered⟩, state', bufpos, ecount''⟩ :=
      commenting.ends both
    have targetOpen : target.state ≠ .ended := by
      rw [state']
      decide
    rw [held_nil bufpos, List.append_nil] at gathered
    refine ⟨target, pieces, ?_, state', bufpos, ?_, calls, gathered⟩
    · exact (whole target).mpr ((reader.read_iff middleOpen targetOpen).mpr step)
    · exact ecount''.trans (ecount'.trans ecount)

end Comments

/-! ### The mark of a section -/

section Marks

variable {parser : XMLParser}

/-- `<!` stands in a tag. -/
theorem begins_declaration (reader : Reader) (state : parser.state = .none)
    (large : 16 ≤ parser.buffer.length) :
    Holding .tag parser.clearBuffer.calls parser.ecount [0x21] ((entered parser).store 0x21) ∧
      ((entered parser).store 0x21).buffer = 0x21 :: parser.buffer.drop 1 ∧
      ∀ text, scan reader.read parser (0x3c :: 0x21 :: text) =
        scan reader.read ((entered parser).store 0x21) text := by
  have buffer := (entered_eq parser).1
  have room : (entered parser).bufpos + 1 < (entered parser).buffer.length := by
    rw [buffer]
    exact Nat.lt_of_lt_of_le (by decide : 0 + 1 < 16) large
  have step : (entered parser).partialChar 0x21 = next ((entered parser).store 0x21) :=
    read_plain rfl room (by decide)
  have open_ : parser.state ≠ .ended := by
    rw [state]
    decide
  refine ⟨(holding_entered parser).store (Nat.lt_of_succ_lt room) 0x21, ?_, fun text => ?_⟩
  · show (entered parser).buffer.set 0 0x21 = _
    rw [buffer]
    obtain ⟨first, rest, split⟩ :=
      List.exists_cons_of_length_pos (Nat.lt_of_lt_of_le (by decide) large)
    rw [split]
    rfl
  · rw [reader.scan_cons open_ State.noConfusion (read_opens state),
      reader.scan_cons State.noConfusion State.noConfusion step]

/-- A bracket behind it opens a declaration where the buffer holds the rest of one. -/
theorem strncmp_doctype (large : 16 ≤ parser.buffer.length) :
    strncmp (· = ·) (0x21 :: parser.buffer.drop 1) doctypeTag = some (decide (Stale parser)) := by
  have long : doctypeTag.length ≤ (0x21 :: parser.buffer.drop 1).length := by
    rw [List.length_cons, List.length_drop]
    show 9 ≤ _
    omega
  rw [strncmp_eq long]
  exact congrArg some (decide_eq_decide.mpr (List.prefix_cons_inj 0x21))

/-- The mark of a section of characters is kept in the buffer. -/
theorem begins_cdata (reader : Reader) (state : parser.state = .none)
    (large : 16 ≤ parser.buffer.length) (fresh : ¬ Stale parser) :
    ∃ target, target.state = .cdata ∧
      Gathers .characters parser.clearBuffer.calls cdataTag target ∧
      target.ecount = parser.ecount ∧
      ∀ text, scan reader.read parser (0x3c :: cdataTag ++ 0x5b :: text) =
        scan reader.read target text := by
  obtain ⟨tagged, buffer, begins⟩ := begins_declaration reader state large
  let first := (entered parser).store 0x21
  have length : first.buffer.length = parser.buffer.length := by
    rw [buffer, List.length_cons, List.length_drop]
    omega
  have unmarked : strncmp (· = ·) first.buffer doctypeTag = some false := by
    rw [buffer, strncmp_doctype large, decide_eq_false fresh]
  have step : first.partialChar 0x5b = next (first.store 0x5b) :=
    read_tag rfl (show 1 + 1 < first.buffer.length by omega) (by decide)
      (fun same => absurd same.2 (by decide : (1 : ℕ) ≠ 7)) (fun same => absurd same.1 (by decide))
      fun _ => unmarked
  have length' : (first.store 0x5b).buffer.length = parser.buffer.length :=
    (length_store _ _).trans length
  have room : ([0x21] ++ [0x5b]).length + ([0x43, 0x44, 0x41, 0x54, 0x41] : Text).length <
      (first.store 0x5b).buffer.length := by
    rw [length']
    exact Nat.lt_of_lt_of_le (by decide : 7 < 16) large
  obtain ⟨last, tagged', length'', later⟩ :=
    (tagged.store (show 1 < first.buffer.length by omega) 0x5b).plain reader room
      (by decide +kernel)
  have whole : last.held = cdataTag := tagged'.held
  have marked : strncmp (· = ·) last.buffer cdataTag = some true := by
    rw [strncmp_eq_true_iff, ← whole]
    exact List.take_prefix _ _
  have mark := read_cdataMark tagged'.state tagged'.bufpos marked
  have lastOpen : last.state ≠ .ended := by
    rw [tagged'.state]
    decide
  refine ⟨{ last with state := .cdata }, rfl, ⟨?_, [], ?_, whole⟩, tagged'.ecount, fun text => ?_⟩
  · show last.bufpos < last.buffer.length
    have place : last.bufpos = 7 := tagged'.bufpos
    rw [place, length'', length']
    exact Nat.lt_of_lt_of_le (by decide) large
  · exact tagged'.calls.trans (List.append_nil _).symm
  · show scan reader.read parser (0x3c :: 0x21 :: (0x5b :: ([0x43, 0x44, 0x41, 0x54, 0x41] ++
      0x5b :: text))) = _
    rw [begins, reader.scan_cons State.noConfusion State.noConfusion step, later,
      reader.scan_cons lastOpen State.noConfusion mark]

/-- Or it opens a declaration. -/
theorem begins_doctype (reader : Reader) (state : parser.state = .none)
    (large : 16 ≤ parser.buffer.length) (stale : Stale parser) :
    ∃ target, target.state = .dtd ∧ target.bufpos = 0 ∧
      target.calls = parser.clearBuffer.calls ∧ target.ecount = parser.ecount ∧
      target.dcount = parser.dcount ∧ target.buffer.length = parser.buffer.length ∧
      ∀ text, scan reader.read parser (0x3c :: 0x21 :: 0x5b :: text) =
        scan reader.read target text := by
  obtain ⟨tagged, buffer, begins⟩ := begins_declaration reader state large
  have marked : strncmp (· = ·) ((entered parser).store 0x21).buffer doctypeTag = some true := by
    rw [buffer, strncmp_doctype large, decide_eq_true stale]
  have length : ((entered parser).store 0x21).buffer.length = parser.buffer.length := by
    rw [buffer, List.length_cons, List.length_drop]
    omega
  have mark := read_doctypeMark tagged.state
    (by rw [tagged.bufpos]; exact (by decide : (1 : ℕ) ≠ 7)) marked
  refine ⟨{ (entered parser).store 0x21 with state := .dtd, bufpos := 0 }, rfl, rfl,
    tagged.calls, tagged.ecount, (entered_eq parser).2.2, length, fun text => ?_⟩
  rw [begins, reader.scan_cons State.noConfusion State.noConfusion mark]

end Marks

/-! ### Sections of characters -/

section Cdata

variable {before : List Callback} {text : Text} {parser : XMLParser}

/-- A character of a section: it is kept, or it is the last of the mark at the end. -/
theorem read_cdata (state : parser.state = .cdata)
    (gathers : Gathers .characters before text parser) (inside : parser.ecount ≠ 0) (c : UInt8) :
    ∃ target, parser.partialChar c = next target ∧ target.ecount = parser.ecount ∧
      (target.state = .cdata ∧ Gathers .characters before (text ++ [c]) target ∨
        target.state = .none ∧ target.bufpos = 0 ∧ ∃ shorter, text ++ [c] = shorter ++ sectionEnd ∧
          Gathers .characters before shorter target) := by
  obtain ⟨middle, stored, gathers', state', ecount, -⟩ := gathers.putBuffer inside c
  have step : parser.partialChar c =
      if middle.bufpos > 2 then
        (equal (middle.buffer.drop (middle.bufpos - 3)) sectionEnd).bind fun ends =>
          if ends then next (clearBuffer { middle with
            bufpos := middle.bufpos - 3, state := .none })
          else next middle
      else next middle := by
    rw [partialChar, state]
    show (parser.putBuffer c).bind _ = _
    rw [stored]
    rfl
  by_cases three : middle.bufpos > 2
  · rw [if_pos three] at step
    cases found : equal (middle.buffer.drop (middle.bufpos - 3)) sectionEnd with
    | none =>
      have short := ((Written.equal_eq_none_iff _ _).mp found).length_le
      rw [List.length_drop] at short
      have room := gathers'.room
      have three_ : sectionEnd.length = 3 := rfl
      omega
    | some ends =>
      rw [found] at step
      cases ends with
      | false => exact ⟨middle, step, ecount, Or.inl ⟨state'.trans state, gathers'⟩⟩
      | true =>
        have ends : sectionEnd <:+ middle.held :=
          (@suffix_held middle gathers'.room.le sectionEnd three).mpr (prefix_of_equal found)
        obtain ⟨rest, split⟩ := ends
        obtain ⟨room, pieces, calls, whole⟩ := gathers'
        have rest_eq : held { middle with bufpos := middle.bufpos - 3, state := .none } = rest :=
          (held_cut room.le split).2
        have gathered : Gathers .characters before (pieces.flatten ++ rest)
            { middle with bufpos := middle.bufpos - 3, state := .none } :=
          ⟨Nat.lt_of_le_of_lt (Nat.sub_le _ _) room, pieces, calls, by rw [rest_eq]⟩
        refine ⟨_, step, ?_, Or.inr ⟨?_, rfl, pieces.flatten ++ rest, ?_,
          gathered.clearBuffer (ecount ▸ inside)⟩⟩
        · rw [clearBuffer_eq]
          split <;> exact ecount
        · rw [clearBuffer_eq]
          split <;> rfl
        · rw [← whole, ← split, List.append_assoc]
  · rw [if_neg three] at step
    exact ⟨middle, step, ecount, Or.inl ⟨state'.trans state, gathers'⟩⟩

/-- A section is read to where its end is seen, at the end or not at all. -/
theorem run_cdata (state : parser.state = .cdata)
    (gathers : Gathers .characters before text parser) (inside : parser.ecount ≠ 0) {more : Text}
    (open_ : ∀ early late, more = early ++ late → late ≠ [] → ¬ sectionEnd <:+ text ++ early) :
    ∃ target, scan partialChar parser more = next target ∧ target.ecount = parser.ecount ∧
      (target.state = .cdata ∧ Gathers .characters before (text ++ more) target ∨
        target.state = .none ∧ target.bufpos = 0 ∧
          ∃ shorter, text ++ more = shorter ++ sectionEnd ∧
            Gathers .characters before shorter target) := by
  induction more using List.reverseRecOn with
  | nil => exact ⟨parser, rfl, rfl, Or.inl ⟨state, (List.append_nil text).symm ▸ gathers⟩⟩
  | append_singleton more c inductionHypothesis =>
    have earlier : ∀ early late, more = early ++ late → late ≠ [] →
        ¬ sectionEnd <:+ text ++ early := by
      rintro early late rfl some_
      exact open_ early (late ++ [c]) (List.append_assoc _ _ _) (by simp)
    obtain ⟨middle, read, ecount, led⟩ := inductionHypothesis earlier
    rcases led with ⟨state', gathers'⟩ | ⟨_, _, shorter, split, _⟩
    · obtain ⟨target, step, ecount', led⟩ := read_cdata state' gathers' (ecount ▸ inside) c
      rw [List.append_assoc] at led
      exact ⟨target, scan_snoc.mpr ⟨middle, read, step⟩, ecount'.trans ecount, led⟩
    · exact absurd ⟨shorter, split.symm⟩ (open_ more [c] rfl (List.cons_ne_nil _ _))

/-- Two texts that end with the same characters. -/
theorem mem_of_last {first second tail : Text} {c : UInt8}
    (same : first ++ [c] = second ++ tail) (some_ : tail ≠ []) : c ∈ tail := by
  obtain ⟨rest, last, rfl⟩ := (List.eq_nil_or_concat tail).resolve_left some_
  rw [List.concat_eq_append, ← List.append_assoc] at same
  obtain rfl : c = last := List.singleton_injective (List.append_inj' same rfl).2
  rw [List.concat_eq_append]
  exact List.mem_append_right _ (List.mem_singleton_self c)

/-- The mark at the end of a section overlaps itself nowhere. -/
theorem borderless {rest after late : Text} (begins : sectionEnd = rest ++ after)
    (ends : sectionEnd = after ++ late) (some_ : late ≠ []) (shorter : rest ≠ sectionEnd) :
    False := by
  have total := congrArg List.length begins
  have total' := congrArg List.length ends
  have late_ := List.length_pos_iff.mpr some_
  rw [List.length_append] at total total'
  have whole : rest.length ≠ sectionEnd.length := fun same =>
    shorter ((List.prefix_append rest after).eq_of_length (same.trans (congrArg _ begins)) |>.trans
      begins.symm)
  have here : sectionEnd.drop rest.length = after := by rw [begins, List.drop_left]
  have there : sectionEnd.take after.length = after := by
    conv_lhs => rw [ends, List.take_left]
  have three : sectionEnd.length = 3 := rfl
  have same : sectionEnd.drop rest.length = sectionEnd.take (3 - rest.length) := by
    rw [here, ← there]
    congr 1
    omega
  have places : rest.length = 1 ∨ rest.length = 2 := by omega
  rcases places with one | two
  · rw [one] at same
    exact absurd same (by decide)
  · rw [two] at same
    exact absurd same (by decide)

/-- The mark at the end of a section does not end anywhere before. -/
theorem not_ends_early (plain : ¬ sectionEnd <:+: text) {early late : Text}
    (split : text ++ sectionEnd = early ++ late) (some_ : late ≠ []) :
    ¬ sectionEnd <:+ cdataTag ++ early := by
  rintro ⟨first, ends⟩
  -- the mark before the section has no bracket at its end
  obtain ⟨more, rfl⟩ : sectionEnd <:+ early := by
    rcases List.append_eq_append_iff.mp ends.symm with ⟨more, -, rfl⟩ | ⟨more, start, here⟩
    · exact List.suffix_append more sectionEnd
    · by_cases nothing : more = []
      · rw [here, nothing]
        exact List.suffix_refl _
      · have mem : (0x41 : UInt8) ∈ more := @mem_of_last cdataTag.dropLast _ _ _ start nothing
        have mem' : (0x41 : UInt8) ∈ sectionEnd := here ▸ List.mem_append_left _ mem
        exact absurd mem' (by decide)
  rw [List.append_assoc] at split
  rcases List.append_eq_append_iff.mp split with ⟨rest, -, behind⟩ | ⟨rest, rfl, behind⟩
  · have lengths := congrArg List.length behind
    rw [List.length_append, List.length_append] at lengths
    have late_ := List.length_pos_iff.mpr some_
    omega
  · rcases List.append_eq_append_iff.mp behind with ⟨after, rfl, -⟩ | ⟨after, begins, ends'⟩
    · exact plain (List.infix_append' _ _ _)
    · exact borderless begins ends' some_ fun whole =>
        plain (whole ▸ (List.suffix_append _ _).isInfix)

theorem cdataSection_eq (text : Text) :
    cdataSection text = 0x3c :: cdataTag ++ 0x5b :: (text ++ sectionEnd) := by
  rw [cdataSection, List.append_assoc]
  rfl

/-- The mark before a section is handed out with it. -/
theorem not_delivers_cdata (reader : Reader) (state : parser.state = .none)
    (inside : parser.ecount ≠ 0) (large : 16 ≤ parser.buffer.length) (fresh : ¬ Stale parser)
    (plain : ¬ sectionEnd <:+: text) :
    ¬ Delivers reader .characters parser (cdataSection text) text := by
  rintro ⟨target, pieces, scanned, state', bufpos, -, calls, rfl⟩
  have open_ : parser.state ≠ .ended := by
    rw [state]
    decide
  have read := reader.scan_next open_ scanned
  obtain ⟨first, state₁, gathers, ecount, begins⟩ := begins_cdata .partialData state large fresh
  rw [cdataSection_eq] at read
  obtain ⟨target', read', -, led⟩ := run_cdata state₁ gathers (ecount ▸ inside)
    fun early late split some_ => not_ends_early plain split some_
  have same : next target' = (next target : Outcome XMLParser Bool) :=
    read'.symm.trans ((begins _).symm.trans read)
  obtain rfl := (Prod.mk.inj (Option.some.inj same)).2
  rcases led with ⟨cdata, -⟩ | ⟨-, -, shorter, split, _, pieces', calls', gathered⟩
  · exact nomatch cdata.symm.trans state'
  · have kept : shorter = cdataTag ++ pieces.flatten := by
      rw [← List.append_assoc] at split
      exact (List.append_cancel_right split).symm
    have said_ := congrArg said (List.append_cancel_left (calls'.symm.trans calls))
    rw [said_characters, said_characters] at said_
    rw [held_nil bufpos, List.append_nil, said_, kept] at gathered
    have lengths := congrArg List.length gathered
    rw [List.length_append] at lengths
    have seven : cdataTag.length = 7 := rfl
    omega

end Cdata

/-! ### Declarations -/

section Dtd

variable {text : Text} {parser : XMLParser}

/-- A declaration is read to its end, or to the end of the text. -/
theorem run_dtd (state : parser.state = .dtd) (text : Text) :
    (∃ dcount, scan partialChar parser text = next { parser with dcount := dcount }) ∨
      ∃ early late, text = early ++ 0x3e :: late ∧
        scan partialChar parser text =
          scan partialChar { parser with dcount := 0, state := .none } late := by
  induction text generalizing parser with
  | nil => exact Or.inl ⟨parser.dcount, rfl⟩
  | cons c text inductionHypothesis =>
    have goesOn : ∀ dcount : Int32, parser.partialChar c = next { parser with dcount := dcount } →
        (∃ dcount, scan partialChar parser (c :: text) = next { parser with dcount := dcount }) ∨
          ∃ early late, c :: text = early ++ 0x3e :: late ∧
            scan partialChar parser (c :: text) =
              scan partialChar { parser with dcount := 0, state := .none } late := by
      intro dcount step
      have whole : scan partialChar parser (c :: text) =
          scan partialChar { parser with dcount := dcount } text := by
        rw [scan, step]
        rfl
      rw [whole]
      rcases @inductionHypothesis { parser with dcount := dcount } state with
        kept | ⟨early, late, rfl, left⟩
      · exact Or.inl kept
      · exact Or.inr ⟨c :: early, late, rfl, left⟩
    have step : parser.partialChar c =
        if c = 0x3c then next { parser with dcount := parser.dcount + 1 }
        else if c = 0x3e ∧ parser.dcount ≠ 0 then next { parser with dcount := parser.dcount - 1 }
        else if c = 0x3e then next { parser with state := .none }
        else next parser := by
      rw [partialChar, state]
    by_cases opens : c = 0x3c
    · rw [if_pos opens] at step
      exact goesOn _ step
    by_cases closes : c = 0x3e ∧ parser.dcount ≠ 0
    · rw [if_neg opens, if_pos closes] at step
      exact goesOn _ step
    by_cases last : c = 0x3e
    · have none : parser.dcount = 0 := not_not.mp fun some_ => closes ⟨last, some_⟩
      rw [if_neg opens, if_neg closes, if_pos last] at step
      refine Or.inr ⟨[], text, by rw [last]; rfl, ?_⟩
      rw [scan, step, ← none]
      rfl
    · rw [if_neg opens, if_neg closes, if_neg last] at step
      exact goesOn parser.dcount step

/-- A section that is taken for a declaration and is empty is read over. -/
theorem read_declared (reader : Reader) (state : parser.state = .dtd) (text : Text)
    (plain : ∀ c ∈ text, c ≠ 0x3c ∧ c ≠ 0x3e) : scan reader.read parser text = next parser := by
  induction text with
  | nil => rfl
  | cons c text inductionHypothesis =>
    obtain ⟨notOpen, notClose⟩ := plain c List.mem_cons_self
    have step : parser.partialChar c = next parser := by
      rw [partialChar, state]
      dsimp only
      rw [if_neg notOpen, if_neg fun both => notClose both.1, if_neg notClose]
    have open_ : parser.state ≠ .ended := by
      rw [state]
      decide
    rw [reader.scan_cons open_ open_ step]
    exact inductionHypothesis fun other member => plain other (List.mem_cons_of_mem _ member)

/-- What is read of a text whose end is that of a section, and is handed out to its end, has lost
three characters, or that end is handed out too. -/
theorem behind_or_said {start target : XMLParser} {tail : Text} (state : start.state = .none)
    (placed : Placed start) (read : scan partialChar start (tail ++ sectionEnd) = next target)
    (state' : target.state = .none) (bufpos : target.bufpos = 0) :
    spent target + 3 ≤ spent start + weight (tail ++ sectionEnd) ∨
      ∃ more, said target.calls = said start.calls ++ more ++ sectionEnd := by
  obtain ⟨middle, first, second⟩ := scan_append_iff.mp read
  obtain ⟨-, placed', spent_, lost⟩ := lost_of_scan state placed first
  rcases lost with none | amp | behind
  · by_cases inside : middle.ecount = 0
    · have still : scan partialChar middle sectionEnd = next middle := by
        have skips : ∀ {c : UInt8}, c ≠ 0x3c → middle.partialChar c = next middle :=
          fun plain => read_outside none inside plain
        rw [sectionEnd, scan, skips (by decide)]
        show scan partialChar middle [0x5d, 0x3e] = _
        rw [scan, skips (by decide)]
        show scan partialChar middle [0x3e] = _
        rw [scan, skips (by decide)]
        rfl
      obtain rfl := (Prod.mk.inj (Option.some.inj (still.symm.trans second))).2
      refine Or.inl ?_
      rw [weight_append]
      exact Nat.add_le_add_right spent_ 3
    · have room := placed'.room (by rw [none]; decide)
      obtain ⟨last, read', ⟨_, pieces, calls, gathered⟩, -⟩ :=
        run_text .partialData none inside (.start room)
          (show ∀ c ∈ sectionEnd, c ≠ 0x3c ∧ c ≠ 0x26 by decide +kernel)
      have same : next last = (next target : Outcome XMLParser Bool) := read'.symm.trans second
      obtain rfl := (Prod.mk.inj (Option.some.inj same)).2
      obtain ⟨more, calls'⟩ := calls_of_scan first
      rw [held_nil bufpos, List.append_nil] at gathered
      refine Or.inr ⟨said more ++ middle.held, ?_⟩
      rw [calls, calls', said_append, said_append, said_characters, gathered]
      simp only [List.append_assoc]
  · obtain ⟨_, step, _⟩ :=
      scan_append_iff.mp (show scan partialChar middle ([0x5d] ++ [0x5d, 0x3e]) = _ from second)
    rw [scan_singleton] at step
    exact absurd rfl ((kept placed' step).entity amp).1
  · rcases behind.run placed' second with ⟨tag, -⟩ | three
    · exact absurd (tag.symm.trans state') (by decide)
    · exact Or.inl three

/-- A bracket that closes a declaration before the end of a section is one of its text. -/
theorem closes_within {declared early late : Text} (open_ : 0x3e ∉ declared)
    (split : declared ++ (text ++ sectionEnd) = early ++ 0x3e :: late) (some_ : late ≠ []) :
    ∃ first rest, text = first ++ 0x3e :: rest ∧ late = rest ++ sectionEnd := by
  have split' : (declared ++ text) ++ sectionEnd = (early ++ [0x3e]) ++ late := by
    rw [List.append_assoc, split, List.append_assoc]
    rfl
  obtain ⟨rest, within, rfl⟩ : ∃ rest, declared ++ text = early ++ 0x3e :: rest ∧
      late = rest ++ sectionEnd := by
    rcases List.append_eq_append_iff.mp split' with ⟨more, close, ends⟩ | ⟨more, here, ends⟩
    · by_cases nothing : more = []
      · rw [nothing, List.append_nil] at close
        rw [nothing] at ends
        exact ⟨[], close.symm, ends.symm⟩
      · have mem : (0x3e : UInt8) ∈ more := mem_of_last close nothing
        have cut := congrArg List.dropLast ends
        rw [List.dropLast_append_of_ne_nil some_] at cut
        have mem' : (0x3e : UInt8) ∈ sectionEnd.dropLast := cut ▸ List.mem_append_left _ mem
        exact absurd mem' (by decide)
    · exact ⟨more, by rw [here, List.append_assoc]; rfl, ends⟩
  rcases List.append_eq_append_iff.mp within with ⟨more, -, here⟩ | ⟨more, here, behind⟩
  · exact ⟨more, rest, here, rfl⟩
  · cases more with
    | nil => exact ⟨[], rest, behind.symm, rfl⟩
    | cons close more =>
      obtain rfl : 0x3e = close := (List.cons.inj behind).1
      exact absurd (here ▸ List.mem_append_right _ List.mem_cons_self) open_

/-- Where a declaration has come to its end within a text, what follows to the end of the section
does not make up for the part before. -/
theorem unsaid_behind {source target : XMLParser} {early rest : Text}
    (plain : ¬ sectionEnd <:+: early ++ 0x3e :: rest) (state : source.state = .none)
    (start : source.bufpos = 0) (placed : Placed source)
    (read : scan partialChar source (rest ++ sectionEnd) = next target)
    (state' : target.state = .none) (bufpos : target.bufpos = 0) :
    said target.calls ≠ said source.calls ++ (early ++ 0x3e :: rest) := by
  intro said_
  have spent₁ : spent source = weight (said source.calls) := by
    rw [spent, held_nil start]
    exact Nat.add_zero _
  have spent₂ : spent target = weight (said target.calls) := by
    rw [spent, held_nil bufpos]
    exact Nat.add_zero _
  rcases behind_or_said state placed read state' bufpos with lost | ⟨more, ends⟩
  · rw [spent₂, said_, spent₁, weight_append, weight_append, weight_append] at lost
    have one : weight (0x3e :: rest) = 1 + weight rest := weight_append [0x3e] rest
    have three : weight sectionEnd = 3 := rfl
    omega
  · rw [said_, List.append_assoc] at ends
    exact plain (List.append_cancel_left ends ▸ (List.suffix_append _ _).isInfix)

/-- An empty section that is taken for a declaration hands out nothing. -/
theorem delivers_stale_nil (reader : Reader) (state : parser.state = .none)
    (placed : Placed parser) (large : 16 ≤ parser.buffer.length) (stale : Stale parser) :
    Delivers reader .characters parser (cdataSection []) [] := by
  have none : parser.dcount = 0 := placed.dcount (by rw [state]; decide)
  obtain ⟨first, state₁, start, calls₁, ecount, dcount, -, begins⟩ :=
    begins_doctype reader state large stale
  have open₁ : first.state ≠ .ended := by
    rw [state₁]
    decide
  have step : first.partialChar 0x3e = next { first with state := .none } := by
    rw [partialChar, state₁]
    dsimp only
    rw [if_neg (by decide), if_neg fun both => both.2 (dcount.trans none), if_pos rfl]
  have read := read_declared reader state₁ [0x43, 0x44, 0x41, 0x54, 0x41, 0x5b, 0x5d, 0x5d]
    (by decide +kernel)
  have written : cdataSection [] =
      0x3c :: 0x21 :: 0x5b :: [0x43, 0x44, 0x41, 0x54, 0x41, 0x5b, 0x5d, 0x5d, 0x3e] :=
    cdataSection_eq []
  refine ⟨{ first with state := .none }, [], ?_, rfl, start, ecount, ?_, rfl⟩
  · rw [written, begins]
    exact scan_snoc.mpr ⟨first, read, (reader.read_iff open₁ State.noConfusion).mpr step⟩
  · exact calls₁.trans (List.append_nil _).symm

/-- A section that is taken for a declaration hands out nothing of what it should. -/
theorem delivers_stale_iff (reader : Reader) (state : parser.state = .none)
    (placed : Placed parser) (large : 16 ≤ parser.buffer.length) (stale : Stale parser)
    (plain : ¬ sectionEnd <:+: text) :
    Delivers reader .characters parser (cdataSection text) text ↔ text = [] := by
  have open_ : parser.state ≠ .ended := by
    rw [state]
    decide
  have written : cdataSection text =
      0x3c :: 0x21 :: 0x5b :: ([0x43, 0x44, 0x41, 0x54, 0x41, 0x5b] ++ (text ++ sectionEnd)) :=
    cdataSection_eq text
  constructor
  · rw [written]
    rintro ⟨target, pieces, scanned, state', bufpos, -, calls, whole⟩
    have read := reader.scan_next open_ scanned
    obtain ⟨first, state₁, start, calls₁, -, dcount, length, begins⟩ :=
      begins_doctype .partialData state large stale
    rw [show scan partialChar parser _ = scan partialChar first _ from begins _] at read
    rcases run_dtd state₁ ([0x43, 0x44, 0x41, 0x54, 0x41, 0x5b] ++ (text ++ sectionEnd)) with
      ⟨dcount', left⟩ | ⟨early, late, split, left⟩
    · obtain rfl := (Prod.mk.inj (Option.some.inj (left.symm.trans read))).2
      exact absurd (state₁.symm.trans state') (by decide)
    · rw [left] at read
      by_cases nothing : late = []
      · rw [nothing] at read
        cases read
        have silent : pieces.map Callback.characters = [] := by
          rw [← calls₁] at calls
          exact List.append_cancel_left (calls.symm.trans (List.append_nil _).symm)
        rw [← whole, List.map_eq_nil_iff.mp silent]
        rfl
      · exfalso
        obtain ⟨early', rest, rfl, rfl⟩ := closes_within (by decide) split nothing
        obtain ⟨opened, opened_eq⟩ : ∃ opened, opened =
          { first with dcount := 0, state := State.none } := ⟨_, rfl⟩
        have state₂ : opened.state = .none := by rw [opened_eq]
        have start₂ : opened.bufpos = 0 := by rw [opened_eq, start]
        have calls₂ : opened.calls = parser.clearBuffer.calls := by rw [opened_eq, calls₁]
        have placed₂ : Placed opened := by
          rw [opened_eq]
          refine ⟨fun _ => ?_, fun _ => rfl⟩
          show first.bufpos < first.buffer.length
          omega
        rw [← opened_eq] at read
        refine unsaid_behind plain state₂ start₂ placed₂ read state' bufpos ?_
        rw [calls, calls₂, said_append, said_characters, whole]
  · rintro rfl
    exact delivers_stale_nil reader state placed large stale

end Dtd

/-! ### Documents -/

/-- Behind whatever content, a section of characters is never delivered, but that one that is empty
where the content before it has left `DOCTYPE ` in the buffer; and a comment is delivered when it
does not end where the buffer is full, or one character behind. -/
theorem sections_delivered_iff (reader : Reader) {origin source : XMLParser}
    (large : 16 ≤ origin.buffer.length) {content : Text}
    (read : scan reader.read origin.reset content = next source) (state : source.state = .none)
    (text : Text) :
    (source.ecount ≠ 0 → ¬ sectionEnd <:+: text →
      (Delivers reader .characters source (cdataSection text) text ↔ text = [] ∧ Stale source)) ∧
    (¬ hyphens <:+: text →
      (Delivers reader .comment source (commentSection text) text ↔
        2 ≤ (text.length + 2) % origin.buffer.length)) := by
  have start : 0 < origin.buffer.length := Nat.lt_of_lt_of_le (by decide) large
  have lost := lost_of_scan rfl (placed_reset origin start)
    (reader.scan_next State.noConfusion read)
  have size : source.buffer.length = origin.buffer.length := lost.size
  rw [← size] at large ⊢
  refine ⟨fun inside plain => ?_, fun plain => delivers_comment_iff reader state large plain⟩
  by_cases stale : Stale source
  · rw [delivers_stale_iff reader state lost.placed large stale plain]
    exact (and_iff_left stale).symm
  · exact iff_of_false (not_delivers_cdata reader state inside large stale plain)
      fun both => stale both.2

/-- `<a>`, and behind it a section and a comment of one character. -/
theorem sections_delivered_iff_element :
    ∃ source, scan Reader.parse.read (reset ⟨0, 0, .none, List.replicate 16 0, 0, []⟩)
        [0x3c, 0x61, 0x3e] = next source ∧
      ¬ Delivers .parse .characters source (cdataSection [0x62]) [0x62] ∧
      Delivers .parse .comment source (commentSection [0x62]) [0x62] := by
  have read : scan Reader.parse.read (reset ⟨0, 0, .none, List.replicate 16 0, 0, []⟩)
      [0x3c, 0x61, 0x3e] = next ⟨1, 0, .none, 0x61 :: List.replicate 15 0, 0,
        [.startDocument, .startElement [0x61] []]⟩ := rfl
  obtain ⟨characters, comment⟩ := sections_delivered_iff .parse (by decide) read rfl [0x62]
  exact ⟨_, read, fun delivered =>
    absurd ((characters (by decide) (by decide)).mp delivered).1 (by decide),
    (comment (by decide)).mpr (by decide)⟩

/-- Behind `<a>` the section `<![CDATA[b]]>` is handed out with its mark, and a comment of fourteen
characters does not end. -/
theorem section_not_delivered :
    ∃ source, scan Reader.parse.read (reset ⟨0, 0, .none, List.replicate 16 0, 0, []⟩)
        [0x3c, 0x61, 0x3e] = next source ∧ source.ecount ≠ 0 ∧
      ¬ Delivers .parse .characters source (cdataSection [0x62]) [0x62] ∧
      ¬ Delivers .parse .comment source (commentSection (List.replicate 14 0x62))
        (List.replicate 14 0x62) := by
  refine ⟨⟨1, 0, .none, 0x61 :: List.replicate 15 0, 0,
    [.startDocument, .startElement [0x61] []]⟩, rfl, by decide, ?_, ?_⟩
  · exact not_delivers_cdata .parse rfl (by decide) (by decide) (by decide) (by decide)
  · rw [delivers_comment_iff .parse rfl (by decide) (by decide)]
    decide

end XMLParser

end CommonCpp
