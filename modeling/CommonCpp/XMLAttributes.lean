/-
This file says which attributes the loop of `parseTag` reads within what stands in the buffer and
within the array of their pointers, and which not.

The text of the tag ends at `bufpos`. The loop looks at the byte behind it when it has come to the
end, and it looks for the end of a value in quotes wherever there is something. What is behind the
text of the tag is what the buffer holds there; the kinds of texts that lead out of it, or to
more pointers than there are places for, are listed in `Overruns`.
-/

import CommonCpp.XMLParser

namespace CommonCpp

open Bytes Ctype

namespace XMLParser

/-! ### What an attribute is -/

/-- The text begins with the name of an attribute, behind white space. -/
def Begins (text : Text) : Prop := ∃ c rest, text.dropWhile isspace = c :: rest ∧ isElement c

/-- This is what comes behind the `=` of the first attribute. -/
def Assigns (text value : Text) : Prop :=
  Begins text ∧ (text.dropWhile isspace).dropWhile isElement = 0x3d :: value

abbrev IsQuote (c : UInt8) : Prop := c = 0x27 ∨ c = 0x22

/-- The loop comes to neither the character nor a null in the text. -/
def Misses (c : UInt8) (text : Text) : Prop := c ∉ text ∧ 0 ∉ text

/-- The text begins with a whole attribute: without a value, with one in quotes, or with one without
quotes. The loop goes on with the rest. -/
inductive Attribute : Text → Text → Prop
  | empty {text rest : Text} {c : UInt8} (assigns : Assigns text (c :: rest))
      (space : isspace c) : Attribute text (c :: rest)
  | quoted {text value rest : Text} {quote : UInt8}
      (assigns : Assigns text (quote :: (value ++ quote :: rest))) (isQuote : IsQuote quote)
      (misses : Misses quote value) : Attribute text rest
  | bare {text value rest : Text} {c d : UInt8} (assigns : Assigns text (c :: value))
      (element : isElement c) (ends : value.dropWhile isElement = d :: rest) :
      Attribute text (d :: rest)

/-- The same where the loop is already behind the tag, and does not pass over names. -/
inductive StrayAttribute : Text → Text → Prop
  | char {rest : Text} {c : UInt8} (open_ : isspace c ∨ isElement c) :
      StrayAttribute (0x3d :: c :: rest) (c :: rest)
  | quoted {value rest : Text} {quote : UInt8} (isQuote : IsQuote quote)
      (misses : Misses quote value) :
      StrayAttribute (0x3d :: quote :: (value ++ quote :: rest)) rest

/-- How the loop comes to grief behind the tag, with room for so many pairs of pointers: what there
is ends, or the room does. -/
inductive Strays : Nat → Text → Prop
  | ends (pairs : Nat) : Strays pairs []
  | full (c : UInt8) (rest : Text) : Strays 0 (c :: rest)
  | equals (pairs : Nat) : Strays (pairs + 1) [0x3d]
  | unclosed (pairs : Nat) {rest : Text} {quote : UInt8} (isQuote : IsQuote quote)
      (misses : Misses quote rest) : Strays (pairs + 1) (0x3d :: quote :: rest)
  | later {pairs : Nat} {text rest : Text} (whole : StrayAttribute text rest)
      (strays : Strays pairs rest) : Strays (pairs + 1) text

/-- How it does in the tag, of which this is left and this is behind it. The byte behind the
tag is looked at where the tag ends behind white space, behind a value in quotes, or with a value
without quotes. The pair of nulls at the end needs room too. -/
inductive Overruns (behind : Text) : Nat → Text → Prop
  | ends {pairs : Nat} {text : Text} (blank : text.dropWhile isspace = [])
      (outside : behind = [] ∨ pairs = 0) : Overruns behind pairs text
  | full {text : Text} (begins : Begins text) : Overruns behind 0 text
  | noValue {text : Text} (assigns : Assigns text []) : Overruns behind 1 text
  | bareEnds {pairs : Nat} {text value : Text} {c : UInt8} (assigns : Assigns text (c :: value))
      (element : isElement c) (ends : value.dropWhile isElement = [])
      (outside : behind = [] ∨ pairs = 0) : Overruns behind (pairs + 1) text
  | unclosed {pairs : Nat} {text value : Text} {quote : UInt8}
      (assigns : Assigns text (quote :: value)) (isQuote : IsQuote quote)
      (misses : Misses quote (value ++ behind)) : Overruns behind (pairs + 1) text
  | strays {pairs : Nat} {text value more rest : Text} {quote : UInt8}
      (assigns : Assigns text (quote :: value)) (isQuote : IsQuote quote)
      (stale : behind = more ++ quote :: rest) (misses : Misses quote (value ++ more))
      (strays : Strays pairs rest) : Overruns behind (pairs + 1) text
  | later {pairs : Nat} {text rest : Text} (whole : Attribute text rest)
      (overruns : Overruns behind pairs rest) : Overruns behind (pairs + 1) text

/-! ### Characters -/

theorem isElement_of_isspace {c : UInt8} (space : isspace c) : isElement c = false := by
  simp only [isspace, isElement, isalnum, isdigit, decide_eq_true_eq, decide_eq_false_iff_not,
    UInt8.le_iff_toNat_le, ← UInt8.toNat_inj, UInt8.reduceToNat] at space ⊢
  omega

theorem isElement_quote {c : UInt8} (isQuote : IsQuote c) : isElement c = false := by
  rcases isQuote with rfl | rfl <;> decide

theorem isspace_quote {c : UInt8} (isQuote : IsQuote c) : isspace c = false := by
  rcases isQuote with rfl | rfl <;> decide

theorem isspace_element {c : UInt8} (element : isElement c) : isspace c = false := by
  cases space : isspace c with
  | false => rfl
  | true => rw [isElement_of_isspace space] at element; cases element

theorem strchr_found {c : UInt8} {text : Text} (misses : Misses c text) (rest : Text) :
    strchr c (text ++ c :: rest) = some (some text.length) := by
  induction text with
  | nil => exact if_pos rfl
  | cons char text inductionHypothesis =>
    have here : char ≠ c := fun same => misses.1 (same ▸ List.mem_cons_self)
    have null : char ≠ 0 := fun same => misses.2 (same ▸ List.mem_cons_self)
    have later : Misses c text := ⟨fun member => misses.1 (List.mem_cons_of_mem char member),
      fun member => misses.2 (List.mem_cons_of_mem char member)⟩
    rw [List.cons_append, strchr, if_neg here, if_neg null, inductionHypothesis later]
    rfl

/-- What a search for a character in a memory comes to: it leaves the memory, or comes to a null, or
to the character. -/
theorem strchr_cases (c : UInt8) (text : Text) :
    strchr c text = none ∧ Misses c text ∨ strchr c text = some none ∧ ¬ Misses c text ∨
      ∃ value rest, text = value ++ c :: rest ∧ Misses c value ∧
        strchr c text = some (some value.length) := by
  induction text with
  | nil => exact .inl ⟨rfl, List.not_mem_nil, List.not_mem_nil⟩
  | cons char text inductionHypothesis =>
    by_cases here : char = c
    · refine .inr (.inr ⟨[], text, by rw [here]; rfl, ⟨List.not_mem_nil, List.not_mem_nil⟩, ?_⟩)
      rw [strchr, if_pos here]
      rfl
    · by_cases null : char = 0
      · refine .inr (.inl ⟨?_, fun misses => misses.2 (null ▸ List.mem_cons_self)⟩)
        rw [strchr, if_neg here, if_pos null]
      · have step : strchr c (char :: text) =
            (strchr c text).map fun found => found.map (· + 1) := by
          rw [strchr, if_neg here, if_neg null]
        have misses_cons : ∀ {rest : Text}, Misses c (char :: rest) ↔ Misses c rest := by
          intro rest
          simp [Misses, Ne.symm here, Ne.symm null]
        rcases inductionHypothesis with ⟨found, misses⟩ | ⟨found, stops⟩ |
          ⟨value, rest, rfl, misses, found⟩
        · exact .inl ⟨by rw [step, found]; rfl, misses_cons.mpr misses⟩
        · exact .inr (.inl ⟨by rw [step, found]; rfl, fun misses => stops (misses_cons.mp misses)⟩)
        · exact .inr (.inr ⟨char :: value, rest, rfl, misses_cons.mpr misses,
            by rw [step, found]; rfl⟩)

/-! ### The parts of the loop -/

theorem getElem?_here (before rest : Text) : (before ++ rest)[before.length]? = rest.head? := by
  rw [List.getElem?_append_right (Nat.le_refl _), Nat.sub_self, List.head?_eq_getElem?]

theorem set_here (before rest : Text) (c d : UInt8) :
    (before ++ c :: rest).set before.length d = before ++ [d] ++ rest := by
  rw [List.set_append_right _ _ (Nat.le_refl _), Nat.sub_self, List.set_cons_zero,
    List.append_assoc, List.singleton_append]

theorem span_here (before text behind : Text) :
    span (before.length + text.length) (before ++ (text ++ behind)) before.length =
      (text.takeWhile isElement).length := by
  rw [span, ← List.append_assoc, ← List.length_append, List.take_left, List.drop_left]

theorem blanks_zero (len : ℕ) (buffer : Text) :
    blanks 0 len buffer = buffer[len]?.map fun _ => (true, len, buffer) := by
  unfold blanks
  cases buffer[len]? <;> rfl

theorem blanks_succ (room : ℕ) {len : ℕ} {buffer : Text} {char : UInt8}
    (here : buffer[len]? = some char) :
    blanks (room + 1) len buffer =
      if isElement char then some (true, len, buffer)
      else if !isspace char then some (false, len, buffer)
      else blanks room (len + 1) (buffer.set len 0) := by
  rw [blanks.eq_def]
  simp only [here]
  rfl

/-- A blank is passed over, and is null from then on. -/
theorem blanks_space (before : Text) {char : UInt8} (space : isspace char) (text behind : Text) :
    blanks (char :: text).length before.length (before ++ (char :: text ++ behind)) =
      blanks text.length (before ++ [0]).length (before ++ [0] ++ (text ++ behind)) := by
  have here : (before ++ (char :: text ++ behind))[before.length]? = some char :=
    getElem?_here before _
  have changed : (before ++ (char :: text ++ behind)).set before.length 0 =
      before ++ [0] ++ (text ++ behind) := set_here before (text ++ behind) char 0
  have dark : isElement char = false := isElement_of_isspace space
  rw [List.length_cons, blanks_succ _ here, dark, space, changed, List.length_append]
  rfl

/-- Where there is nothing but white space the loop over it comes to the end of the tag. -/
theorem blanks_end (behind : Text) {text : Text} (blank : text.dropWhile isspace = [])
    (before : Text) :
    ∃ before' : Text, before'.length = before.length + text.length ∧
      blanks text.length before.length (before ++ (text ++ behind)) =
        behind.head?.map fun _ => (true, before'.length, before' ++ behind) := by
  induction text generalizing before with
  | nil =>
    refine ⟨before, rfl, ?_⟩
    show blanks 0 before.length (before ++ behind) = _
    rw [blanks_zero, getElem?_here]
  | cons char text inductionHypothesis =>
    have space : isspace char := by
      by_contra dark
      rw [List.dropWhile_cons_of_neg dark] at blank
      cases blank
    rw [List.dropWhile_cons_of_pos space] at blank
    obtain ⟨before', length, read⟩ := inductionHypothesis blank (before ++ [0])
    refine ⟨before', ?_, ?_⟩
    · rw [length, List.length_append, List.length_singleton, List.length_cons]
      omega
    · rw [blanks_space before space, read]

/-- Otherwise it comes to a character, which it accepts when a name may begin with it. -/
theorem blanks_char (behind : Text) {text rest : Text} {c : UInt8}
    (char : text.dropWhile isspace = c :: rest) (before : Text) :
    ∃ before' : Text, before'.length + (c :: rest).length = before.length + text.length ∧
      blanks text.length before.length (before ++ (text ++ behind)) =
        some (isElement c, before'.length, before' ++ (c :: rest ++ behind)) := by
  induction text generalizing before with
  | nil => cases char
  | cons first text inductionHypothesis =>
    by_cases space : isspace first
    · rw [List.dropWhile_cons_of_pos space] at char
      obtain ⟨before', length, read⟩ := inductionHypothesis char (before ++ [0])
      refine ⟨before', ?_, ?_⟩
      · rw [length, List.length_append, List.length_singleton, List.length_cons]
        omega
      · rw [blanks_space before space, read]
    · rw [List.dropWhile_cons_of_neg space] at char
      obtain ⟨rfl, rfl⟩ := List.cons.inj char
      have here : (before ++ (first :: text ++ behind))[before.length]? = some first :=
        getElem?_here before _
      refine ⟨before, rfl, ?_⟩
      rw [List.length_cons, blanks_succ _ here]
      simp only [space]
      cases isElement first <;> rfl

/-! ### One round of the loop -/

/-- How the loop goes on from the value of an attribute. -/
def follow (bufpos free : ℕ) (attrib : List (Option ℕ)) (name : ℕ) :
    Value × ℕ × Text → Option (Bool × Text × List (Option ℕ))
  | (.refused, _, buffer) => some (false, buffer, attrib)
  | (.last value, _, buffer) =>
    if 2 ≤ free then some (true, buffer, attrib ++ [some name, value]) else none
  | (.more value, len, buffer) => attributes bufpos free len buffer (attrib ++ [some name, value])

/-- What comes after the white space. -/
def round (bufpos free : ℕ) (attrib : List (Option ℕ)) :
    Bool × ℕ × Text → Option (Bool × Text × List (Option ℕ))
  | (accepted, len, buffer) =>
    if !accepted then some (false, buffer, attrib)
    else if len = bufpos then some (true, buffer, attrib)
    else if len + span bufpos buffer len = bufpos then some (false, buffer, attrib)
    else (buffer[len + span bufpos buffer len]?).bind fun char =>
      if char ≠ 0x3d then some (false, buffer, attrib)
      else (value bufpos (len + span bufpos buffer len + 1)
        (buffer.set (len + span bufpos buffer len) 0)).bind (follow bufpos free attrib len)

theorem attributes_succ (bufpos free len : ℕ) (buffer : Text) (attrib : List (Option ℕ)) :
    attributes bufpos (free + 2) len buffer attrib =
      (blanks (bufpos - len) len buffer).bind (round bufpos free attrib) := by
  delta attributes
  show (blanks (bufpos - len) len buffer).bind _ = _
  congr 1
  funext ⟨accepted, len, buffer⟩
  cases accepted with
  | false => rfl
  | true =>
    show (if len = bufpos then if 2 ≤ free + 2 then some (true, buffer, attrib) else none else _) =
      if len = bufpos then some (true, buffer, attrib) else _
    by_cases ends : len = bufpos
    · rw [if_pos ends, if_pos ends, if_pos (Nat.le_add_left 2 free)]
    · rw [if_neg ends, if_neg ends]
      show (if len + span bufpos buffer len = bufpos then _ else
        (buffer[len + span bufpos buffer len]?).bind _) = _
      refine congrArg (ite _ _) (congrArg _ (funext fun char => ?_))
      refine congrArg (ite _ _) (congrArg _ (funext fun ⟨value, len, buffer⟩ => ?_))
      cases value with
      | refused => rfl
      | last value => rfl
      | more value =>
        show _ = attributes bufpos free len buffer _
        delta attributes
        rfl

/-- Without room there may be neither an attribute nor an end. -/
theorem attributes_zero (bufpos len : ℕ) (buffer : Text) (attrib : List (Option ℕ)) :
    attributes bufpos 0 len buffer attrib =
      (blanks (bufpos - len) len buffer).bind fun found =>
        if !found.1 then some (false, found.2.2, attrib) else none := by
  show (blanks (bufpos - len) len buffer).bind _ = _
  congr 1
  funext ⟨accepted, len, buffer⟩
  show (if !accepted then _ else if len = bufpos then if 2 ≤ 0 then _ else _ else none) = _
  cases accepted with
  | false => rfl
  | true => simp

/-! ### Values -/

theorem value_end (len : ℕ) (buffer : Text) :
    value len len buffer = some (.last none, len, buffer) := if_pos rfl

/-- What is made of the value that begins with a character. -/
theorem value_here {bufpos len : ℕ} {buffer : Text} {c : UInt8} (inside : len ≠ bufpos)
    (here : buffer[len]? = some c) :
    value bufpos len buffer =
      if isspace c then some (.more none, len, buffer)
      else if IsQuote c then
        (strchr c (buffer.drop (len + 1))).bind fun
          | none => some (.refused, len, buffer)
          | some ep => some (.more (some (len + 1)), len + 1 + ep + 1, buffer.set (len + 1 + ep) 0)
      else if !isElement c then some (.refused, len, buffer)
      else if len + span bufpos buffer len = bufpos then
        if len + span bufpos buffer len < buffer.length then
          some (.last (some 0), len + span bufpos buffer len,
            buffer.set (len + span bufpos buffer len) 0)
        else none
      else some (.more (some 0), len + span bufpos buffer len, buffer) := by
  rw [value, if_neg inside, here]
  rfl

section Char

variable {bufpos : ℕ} {before : Text} {c : UInt8}

theorem value_space (inside : before.length ≠ bufpos) (after : Text) (space : isspace c) :
    value bufpos before.length (before ++ c :: after) =
      some (.more none, before.length, before ++ c :: after) := by
  rw [value_here inside (getElem?_here before _), if_pos space]

theorem value_outside (inside : before.length ≠ bufpos) :
    value bufpos before.length before = none := by
  have outside : before[before.length]? = none := List.getElem?_eq_none (Nat.le_refl _)
  rw [value, if_neg inside, outside]
  rfl

/-- What is found for the quote decides. -/
theorem value_quote (inside : before.length ≠ bufpos) (after : Text) (isQuote : IsQuote c) :
    value bufpos before.length (before ++ c :: after) =
      (strchr c after).bind fun
        | none => some (.refused, before.length, before ++ c :: after)
        | some ep => some (.more (some (before.length + 1)), before.length + 1 + ep + 1,
            (before ++ c :: after).set (before.length + 1 + ep) 0) := by
  have behind : (before ++ c :: after).drop (before.length + 1) = after := by
    rw [← List.singleton_append, ← List.append_assoc,
      List.drop_left' (by rw [List.length_append, List.length_singleton])]
  rw [value_here inside (getElem?_here before _), isspace_quote isQuote,
    if_neg Bool.false_ne_true, if_pos isQuote, behind]

theorem value_refused (inside : before.length ≠ bufpos) (after : Text)
    (dark : isspace c = false) (bare : ¬ IsQuote c) (refused : isElement c = false) :
    value bufpos before.length (before ++ c :: after) =
      some (.refused, before.length, before ++ c :: after) := by
  rw [value_here inside (getElem?_here before _), dark, if_neg Bool.false_ne_true, if_neg bare,
    refused, Bool.not_false, if_pos rfl]

theorem value_element (inside : before.length ≠ bufpos) (after : Text) (element : isElement c) :
    value bufpos before.length (before ++ c :: after) =
      let len := before.length + span bufpos (before ++ c :: after) before.length
      if len = bufpos then
        if len < (before ++ c :: after).length then
          some (.last (some 0), len, (before ++ c :: after).set len 0)
        else none
      else some (.more (some 0), len, before ++ c :: after) := by
  have bare : ¬ IsQuote c := fun isQuote => by
    rw [isElement_quote isQuote] at element
    cases element
  rw [value_here inside (getElem?_here before _), isspace_element element,
    if_neg Bool.false_ne_true, if_neg bare, element, Bool.not_true, if_neg Bool.false_ne_true]

end Char

/-- A value in quotes is cut at the second. -/
theorem value_cut (before : Text) {bufpos : ℕ} (inside : before.length ≠ bufpos) {quote : UInt8}
    (isQuote : IsQuote quote) {text : Text} (misses : Misses quote text) (rest : Text) :
    value bufpos before.length (before ++ quote :: (text ++ quote :: rest)) =
      some (.more (some (before.length + 1)), (before ++ (quote :: text ++ [0])).length,
        before ++ (quote :: text ++ [0]) ++ rest) := by
  have whole : before ++ quote :: (text ++ quote :: rest) =
      before ++ [quote] ++ text ++ quote :: rest := by simp
  have cut : before ++ (quote :: text ++ [0]) ++ rest =
      before ++ [quote] ++ text ++ [0] ++ rest := by simp
  have place : before.length + 1 + text.length = (before ++ [quote] ++ text).length := by
    rw [List.length_append, List.length_append, List.length_singleton]
  have place' : (before ++ (quote :: text ++ [0])).length =
      before.length + 1 + text.length + 1 := by
    simp only [List.length_append, List.length_cons, List.length_nil]
    omega
  rw [value_quote inside _ isQuote, strchr_found misses rest, place', cut]
  show some (Value.more _, _, (before ++ quote :: (text ++ quote :: rest)).set _ 0) = _
  rw [whole, place, set_here]

/-- Behind a value that ends in its quote the loop goes on. -/
theorem value_quoted (before : Text) {bufpos : ℕ} (inside : before.length ≠ bufpos) {quote : UInt8}
    (isQuote : IsQuote quote) {text : Text} (misses : Misses quote text) (rest : Text) :
    ∃ before' : Text, before'.length = before.length + 1 + text.length + 1 ∧
      value bufpos before.length (before ++ quote :: (text ++ quote :: rest)) =
        some (.more (some (before.length + 1)), before'.length, before' ++ rest) := by
  refine ⟨before ++ (quote :: text ++ [0]), ?_, value_cut before inside isQuote misses rest⟩
  simp only [List.length_append, List.length_cons, List.length_nil]
  omega

/-- A value without quotes is passed over as far as the tag goes. -/
theorem value_word (before : Text) {c : UInt8} (element : isElement c) (text behind : Text) :
    value (before.length + (c :: text).length) before.length (before ++ (c :: text ++ behind)) =
      let len := before.length + ((c :: text).takeWhile isElement).length
      if len = before.length + (c :: text).length then
        if len < (before ++ (c :: text ++ behind)).length then
          some (.last (some 0), len, (before ++ (c :: text ++ behind)).set len 0)
        else none
      else some (.more (some 0), len, before ++ (c :: text ++ behind)) := by
  have inside : before.length ≠ before.length + (c :: text).length := by simp
  rw [← span_here before (c :: text) behind]
  exact value_element inside _ element

/-- One that ends before the tag does. -/
theorem value_bare (before : Text) {c d : UInt8} {text rest : Text} (element : isElement c)
    (ends : text.dropWhile isElement = d :: rest) (behind : Text) :
    ∃ before' : Text, before'.length + (d :: rest).length = before.length + (c :: text).length ∧
      value (before.length + (c :: text).length) before.length (before ++ (c :: text ++ behind)) =
        some (.more (some 0), before'.length, before' ++ (d :: rest ++ behind)) := by
  have split : (c :: text).takeWhile isElement ++ d :: rest = c :: text := by
    rw [← ends, ← List.dropWhile_cons_of_pos element, List.takeWhile_append_dropWhile]
  have long : ((c :: text).takeWhile isElement).length + (d :: rest).length =
      (c :: text).length := by rw [← List.length_append, split]
  have stops : ¬ before.length + ((c :: text).takeWhile isElement).length =
      before.length + (c :: text).length := by
    rw [← long, List.length_cons]
    omega
  refine ⟨before ++ (c :: text).takeWhile isElement, ?_, ?_⟩
  · rw [List.length_append, Nat.add_assoc, long]
  · rw [value_word before element]
    simp only [stops, ↓reduceIte]
    rw [List.length_append, List.append_assoc before, ← List.append_assoc _ (d :: rest), split]

/-- One that goes up to the end of the tag. The byte behind it is looked at. -/
theorem value_bareEnds (before : Text) {c : UInt8} {text : Text} (element : isElement c)
    (ends : text.dropWhile isElement = []) (behind : Text) :
    ∃ buffer len, value (before.length + (c :: text).length) before.length
        (before ++ (c :: text ++ behind)) =
      if behind = [] then none else some (.last (some 0), len, buffer) := by
  have all : (c :: text).takeWhile isElement = c :: text := by
    have split := @List.takeWhile_append_dropWhile _ isElement (c :: text)
    rwa [List.dropWhile_cons_of_pos element, ends, List.append_nil] at split
  refine ⟨(before ++ (c :: text ++ behind)).set (before.length + (c :: text).length) 0,
    before.length + (c :: text).length, ?_⟩
  rw [value_word before element, all]
  by_cases none_ : behind = []
  · have outside : ¬ before.length + (c :: text).length <
        (before ++ (c :: text ++ behind)).length := by simp [none_]
    simp only [outside, ↓reduceIte, if_pos none_]
  · have room : before.length + (c :: text).length < (before ++ (c :: text ++ behind)).length := by
      have some_ : 0 < behind.length := List.length_pos_iff.mpr none_
      rw [List.length_append, List.length_append]
      omega
    simp only [room, none_, ↓reduceIte]

/-! ### The loop in the tag -/

/-- The loop where this is left of the tag, and this is behind it. -/
def left (before text behind : Text) (free : ℕ) (attrib : List (Option ℕ)) :
    Option (Bool × Text × List (Option ℕ)) :=
  attributes (before.length + text.length) free before.length (before ++ (text ++ behind)) attrib

section Tag

variable {before text behind : Text} {attrib : List (Option ℕ)}

theorem left_ends (blank : text.dropWhile isspace = []) (pairs : ℕ) :
    left before text behind (2 * pairs) attrib = none ↔ behind = [] ∨ pairs = 0 := by
  obtain ⟨before', length, read⟩ := blanks_end behind blank before
  cases pairs with
  | zero =>
    rw [left, attributes_zero, Nat.add_sub_cancel_left, read]
    cases behind <;> simp
  | succ pairs =>
    rw [left, Nat.mul_succ, attributes_succ, Nat.add_sub_cancel_left, read, ← length]
    cases behind <;> simp [round]

theorem left_refused {c : UInt8} {rest : Text} (char : text.dropWhile isspace = c :: rest)
    (refused : isElement c = false) (pairs : ℕ) :
    left before text behind (2 * pairs) attrib ≠ none := by
  obtain ⟨before', length, read⟩ := blanks_char behind char before
  cases pairs with
  | zero =>
    rw [left, attributes_zero, Nat.add_sub_cancel_left, read, refused]
    exact Option.some_ne_none _
  | succ pairs =>
    rw [left, Nat.mul_succ, attributes_succ, Nat.add_sub_cancel_left, read, refused]
    exact Option.some_ne_none _

theorem left_full (begins : Begins text) : left before text behind 0 attrib = none := by
  obtain ⟨c, rest, char, element⟩ := begins
  obtain ⟨before', length, read⟩ := blanks_char behind char before
  rw [left, attributes_zero, Nat.add_sub_cancel_left, read, element]
  rfl

/-- A name that goes up to the end of the tag is refused. -/
theorem round_nameEnds (free : ℕ) {c : UInt8} (element : isElement c) {rest : Text}
    (ends : rest.dropWhile isElement = []) :
    round (before.length + (c :: rest).length) free attrib
      (true, before.length, before ++ (c :: rest ++ behind)) ≠ none := by
  have all : (c :: rest).takeWhile isElement = c :: rest := by
    have split := @List.takeWhile_append_dropWhile _ isElement (c :: rest)
    rwa [List.dropWhile_cons_of_pos element, ends, List.append_nil] at split
  rw [round, span_here, all]
  simp

/-- A name is passed over, and the character behind it decides. -/
theorem round_name (free : ℕ) {c e : UInt8} (element : isElement c) {rest tail : Text}
    (ends : rest.dropWhile isElement = e :: tail) :
    ∃ before' : Text, before'.length + tail.length = before.length + (c :: rest).length ∧
      round (before.length + (c :: rest).length) free attrib
          (true, before.length, before ++ (c :: rest ++ behind)) =
        if e ≠ 0x3d then some (false, before ++ (c :: rest ++ behind), attrib)
        else (value (before.length + (c :: rest).length) before'.length
          (before' ++ (tail ++ behind))).bind
            (follow (before.length + (c :: rest).length) free attrib before.length) := by
  have split : (c :: rest).takeWhile isElement ++ e :: tail = c :: rest := by
    rw [← ends, ← List.dropWhile_cons_of_pos element, List.takeWhile_append_dropWhile]
  have long : ((c :: rest).takeWhile isElement).length + (e :: tail).length =
      (c :: rest).length := by rw [← List.length_append, split]
  have whole : before ++ (c :: rest ++ behind) =
      before ++ (c :: rest).takeWhile isElement ++ e :: (tail ++ behind) := by
    rw [List.append_assoc before, ← List.cons_append, ← List.append_assoc _ (e :: tail), split]
  have place : before.length + ((c :: rest).takeWhile isElement).length =
      (before ++ (c :: rest).takeWhile isElement).length := List.length_append.symm
  have inside : before.length ≠ before.length + (c :: rest).length := by simp
  have stops : ¬ (before ++ (c :: rest).takeWhile isElement).length =
      before.length + (c :: rest).length := by
    rw [← place, ← long, List.length_cons]
    omega
  refine ⟨before ++ (c :: rest).takeWhile isElement ++ [0], ?_, ?_⟩
  · rw [List.length_append, ← place, List.length_singleton, ← long, List.length_cons]
    omega
  · rw [round, span_here, place]
    simp only [Bool.not_true, Bool.false_eq_true, ↓reduceIte, inside, stops]
    rw [whole, getElem?_here, set_here, @List.length_append _ _ [0], List.length_singleton]
    rfl

theorem left_plain (begins : Begins text) (plain : ∀ value, ¬ Assigns text value) (free : ℕ) :
    left before text behind (free + 2) attrib ≠ none := by
  obtain ⟨c, rest, char, element⟩ := id begins
  obtain ⟨before', length, read⟩ := blanks_char behind char before
  rw [left, attributes_succ, Nat.add_sub_cancel_left, read, element, ← length, Option.bind_some]
  cases ends : rest.dropWhile isElement with
  | nil => exact round_nameEnds free element ends
  | cons e tail =>
    obtain ⟨_, _, same⟩ := @round_name before' behind attrib free c e element rest tail ends
    have other : e ≠ 0x3d := fun equals => plain tail ⟨begins, by
      rw [char, List.dropWhile_cons_of_pos element, ends, equals]⟩
    rw [same, if_pos other]
    exact Option.some_ne_none _

/-- What comes behind the `=` decides how the loop goes on. -/
theorem left_assigns (before behind : Text) (attrib : List (Option ℕ)) {text' : Text}
    (assigns : Assigns text text') (free : ℕ) :
    ∃ before' : Text, ∃ name, before'.length + text'.length = before.length + text.length ∧
      left before text behind (free + 2) attrib =
        (value (before'.length + text'.length) before'.length (before' ++ (text' ++ behind))).bind
          (follow (before'.length + text'.length) free attrib name) := by
  obtain ⟨⟨c, rest, char, element⟩, equals⟩ := assigns
  rw [char, List.dropWhile_cons_of_pos element] at equals
  obtain ⟨before₁, length₁, read⟩ := blanks_char behind char before
  obtain ⟨before₂, length₂, same⟩ :=
    @round_name before₁ behind attrib free c 0x3d element _ _ equals
  refine ⟨before₂, before₁.length, length₂.trans length₁, ?_⟩
  rw [left, attributes_succ, Nat.add_sub_cancel_left, read, element, Option.bind_some, length₂,
    ← length₁, same]
  rfl

end Tag

/-! ### The loop behind the tag -/

section Stray

variable {bufpos : ℕ} {before : Text} {attrib : List (Option ℕ)}

theorem span_stray (behind : bufpos ≤ before.length) (buffer : Text) :
    span bufpos buffer before.length = 0 := by
  have none_ : (buffer.take bufpos).drop before.length = [] :=
    List.drop_eq_nil_of_le (Nat.le_trans (List.length_take_le _ _) behind)
  rw [span, none_]
  rfl

theorem stray_blanks (behind : bufpos ≤ before.length) (rest : Text) :
    blanks (bufpos - before.length) before.length (before ++ rest) =
      rest.head?.map fun _ => (true, before.length, before ++ rest) := by
  rw [Nat.sub_eq_zero_of_le behind, blanks_zero, getElem?_here]

theorem stray_ends (behind : bufpos ≤ before.length) (free : ℕ) :
    attributes bufpos (2 * free) before.length before attrib = none := by
  have read := stray_blanks behind []
  rw [List.append_nil] at read
  cases free with
  | zero => rw [attributes_zero, read]; rfl
  | succ free => rw [Nat.mul_succ, attributes_succ, read]; rfl

theorem stray_full (behind : bufpos ≤ before.length) (rest : Text) :
    attributes bufpos 0 before.length (before ++ rest) attrib = none := by
  rw [attributes_zero, stray_blanks behind]
  cases rest <;> rfl

theorem stray_char (behind : bufpos < before.length) (free : ℕ) (c : UInt8) (rest : Text) :
    attributes bufpos (free + 2) before.length (before ++ c :: rest) attrib =
      if c ≠ 0x3d then some (false, before ++ c :: rest, attrib)
      else (value bufpos (before ++ [0]).length (before ++ [0] ++ rest)).bind
        (follow bufpos free attrib before.length) := by
  have apart : before.length ≠ bufpos := Nat.ne_of_gt behind
  rw [attributes_succ, stray_blanks (Nat.le_of_lt behind), List.head?_cons, Option.map_some,
    Option.bind_some, round, span_stray (Nat.le_of_lt behind), Nat.add_zero, getElem?_here,
    set_here, @List.length_append _ _ [0], List.length_singleton]
  simp only [Bool.not_true, Bool.false_eq_true, ↓reduceIte, apart]
  rfl

/-- Behind the tag a value without quotes is not passed over. -/
theorem stray_value {c : UInt8} (behind : bufpos < before.length) (open_ : isspace c ∨ isElement c)
    (rest : Text) :
    ∃ start, value bufpos before.length (before ++ c :: rest) =
      some (.more start, before.length, before ++ c :: rest) := by
  have apart : before.length ≠ bufpos := Nat.ne_of_gt behind
  rcases open_ with space | element
  · exact ⟨none, value_space apart rest space⟩
  · refine ⟨some 0, ?_⟩
    rw [value_element apart rest element, span_stray (Nat.le_of_lt behind)]
    simp only [Nat.add_zero, apart, ↓reduceIte]

theorem stray_attribute {text rest : Text} (whole : StrayAttribute text rest)
    (behind : bufpos < before.length) (free : ℕ) :
    ∃ (before' : Text) (attrib' : List (Option ℕ)), bufpos < before'.length ∧
      attributes bufpos (free + 2) before.length (before ++ text) attrib =
        attributes bufpos free before'.length (before' ++ rest) attrib' := by
  have behind' : bufpos < (before ++ [0]).length :=
    Nat.lt_of_lt_of_le behind (List.prefix_append before [0]).length_le
  cases whole with
  | @char rest c open_ =>
    obtain ⟨start, read⟩ := stray_value behind' open_ rest
    refine ⟨before ++ [0], attrib ++ [some before.length, start], behind', ?_⟩
    rw [stray_char behind, if_neg (not_not_intro rfl), read]
    rfl
  | @quoted value rest quote isQuote misses =>
    obtain ⟨before', length, read⟩ :=
      value_quoted (before ++ [0]) (Nat.ne_of_gt behind') isQuote misses rest
    refine ⟨before', attrib ++ [some before.length, some ((before ++ [0]).length + 1)], by omega,
      ?_⟩
    rw [stray_char behind, if_neg (not_not_intro rfl), read]
    rfl

theorem none_of_strays {pairs : ℕ} {rest : Text} (strays : Strays pairs rest)
    (behind : bufpos < before.length) :
    attributes bufpos (2 * pairs) before.length (before ++ rest) attrib = none := by
  have behind' : bufpos < (before ++ [0]).length :=
    Nat.lt_of_lt_of_le behind (List.prefix_append before [0]).length_le
  induction strays generalizing before attrib with
  | ends pairs =>
    rw [List.append_nil]
    exact stray_ends (Nat.le_of_lt behind) pairs
  | full c rest => exact stray_full (Nat.le_of_lt behind) _
  | equals pairs =>
    rw [Nat.mul_succ, stray_char behind, if_neg (not_not_intro rfl), List.append_nil,
      value_outside (Nat.ne_of_gt behind')]
    rfl
  | @unclosed pairs rest quote isQuote misses =>
    have missed : strchr quote rest = none := by
      rcases strchr_cases quote rest with ⟨missed, _⟩ | ⟨_, stops⟩ | ⟨value, rest', rfl, _⟩
      · exact missed
      · exact absurd misses stops
      · exact absurd (List.mem_append_right value List.mem_cons_self) misses.1
    rw [Nat.mul_succ, stray_char behind, if_neg (not_not_intro rfl),
      value_quote (Nat.ne_of_gt behind') rest isQuote, missed]
    rfl
  | later whole _ inductionHypothesis =>
    obtain ⟨before', attrib', farther, same⟩ := stray_attribute whole behind (2 * _)
    rw [Nat.mul_succ, same]
    exact inductionHypothesis farther
      (Nat.lt_of_lt_of_le farther (List.prefix_append before' [0]).length_le)

/-- The induction is on the room. -/
theorem strays_of_none {pairs : ℕ} {rest : Text} (behind : bufpos < before.length)
    (lost : attributes bufpos (2 * pairs) before.length (before ++ rest) attrib = none) :
    Strays pairs rest := by
  induction pairs generalizing before attrib rest with
  | zero =>
    cases rest with
    | nil => exact .ends 0
    | cons c rest => exact .full c rest
  | succ pairs inductionHypothesis =>
    have goesOn : ∀ {rest'}, StrayAttribute rest rest' → Strays (pairs + 1) rest := by
      intro rest' whole
      obtain ⟨before', attrib', farther, same⟩ := @stray_attribute bufpos before attrib _ _ whole
        behind (2 * pairs)
      exact .later whole (inductionHypothesis farther (same ▸ lost))
    cases rest with
    | nil => exact .ends _
    | cons c rest =>
      have behind' : bufpos < (before ++ [0]).length :=
        Nat.lt_of_lt_of_le behind (List.prefix_append before [0]).length_le
      rw [Nat.mul_succ, stray_char behind] at lost
      by_cases equals : c = 0x3d
      · subst equals
        cases rest with
        | nil => exact .equals pairs
        | cons d rest =>
          rw [if_neg (not_not_intro rfl)] at lost
          by_cases open_ : isspace d ∨ isElement d
          · exact goesOn (.char open_)
          · by_cases isQuote : IsQuote d
            · rw [value_quote (Nat.ne_of_gt behind') rest isQuote] at lost
              rcases strchr_cases d rest with
                ⟨_, misses⟩ | ⟨found, _⟩ | ⟨value, rest', rfl, misses, _⟩
              · exact .unclosed pairs isQuote misses
              · rw [found] at lost
                cases lost
              · exact goesOn (.quoted isQuote misses)
            · rw [value_refused (Nat.ne_of_gt behind') rest
                (by simpa using fun space => open_ (.inl space)) isQuote
                (by simpa using fun element => open_ (.inr element))] at lost
              cases lost
      · rw [if_pos equals] at lost
        cases lost

end Stray

/-! ### The whole loop -/

section Loop

variable {before text behind : Text} {attrib : List (Option ℕ)}

/-- Behind a whole attribute the loop goes on. -/
theorem left_attribute {rest : Text} (whole : Attribute text rest) (free : ℕ) :
    ∃ (before' : Text) (attrib' : List (Option ℕ)),
      left before text behind (free + 2) attrib = left before' rest behind free attrib' := by
  cases whole with
  | @empty rest c assigns space =>
    obtain ⟨before', name, length, same⟩ := left_assigns before behind attrib assigns free
    have inside : before'.length ≠ before'.length + (c :: rest).length := by simp
    refine ⟨before', attrib ++ [some name, none], ?_⟩
    rw [same, List.cons_append, value_space inside _ space]
    rfl
  | @quoted value rest quote assigns isQuote misses =>
    obtain ⟨before', name, length, same⟩ := left_assigns before behind attrib assigns free
    have inside : before'.length ≠
        before'.length + (quote :: (value ++ quote :: rest)).length := by simp
    obtain ⟨before'', length', read⟩ := value_quoted before' inside isQuote misses (rest ++ behind)
    have place : before'.length + (quote :: (value ++ quote :: rest)).length =
        before''.length + rest.length := by
      rw [length', List.length_cons, List.length_append, List.length_cons]
      omega
    refine ⟨before'', attrib ++ [some name, some (before'.length + 1)], ?_⟩
    rw [same, List.cons_append, List.append_assoc, List.cons_append, read, place]
    rfl
  | @bare value rest c d assigns element ends =>
    obtain ⟨before', name, length, same⟩ := left_assigns before behind attrib assigns free
    obtain ⟨before'', length', read⟩ := value_bare before' element ends behind
    refine ⟨before'', attrib ++ [some name, some 0], ?_⟩
    rw [same, read, ← length']
    rfl

/-- A quote that is closed behind the tag takes the loop there. -/
theorem left_strays {value more rest : Text} {quote : UInt8}
    (assigns : Assigns text (quote :: value)) (isQuote : IsQuote quote)
    (misses : Misses quote (value ++ more)) (free : ℕ) :
    ∃ (before' : Text) (bufpos : ℕ) (attrib' : List (Option ℕ)), bufpos < before'.length ∧
      left before text (more ++ quote :: rest) (free + 2) attrib =
        attributes bufpos free before'.length (before' ++ rest) attrib' := by
  obtain ⟨before', name, length, same⟩ :=
    left_assigns before (more ++ quote :: rest) attrib assigns free
  have inside : before'.length ≠ before'.length + (quote :: value).length := by simp
  obtain ⟨before'', length', read⟩ := value_quoted before' inside isQuote misses rest
  refine ⟨before'', before'.length + (quote :: value).length,
    attrib ++ [some name, some (before'.length + 1)], ?_, ?_⟩
  · rw [length', List.length_cons, List.length_append]
    omega
  · rw [same, List.cons_append, ← List.append_assoc value, read]
    rfl

/-- A quote that is not closed at all leads out of the buffer. -/
theorem left_unclosed {value : Text} {quote : UInt8} (assigns : Assigns text (quote :: value))
    (isQuote : IsQuote quote) (missed : strchr quote (value ++ behind) = none) (free : ℕ) :
    left before text behind (free + 2) attrib = none := by
  obtain ⟨before', name, length, same⟩ := left_assigns before behind attrib assigns free
  have inside : before'.length ≠ before'.length + (quote :: value).length := by simp
  rw [same, List.cons_append, value_quote inside _ isQuote, missed]
  rfl

/-- A value without quotes at the end of the tag needs a byte behind it, and room. -/
theorem left_bareEnds {value : Text} {c : UInt8} (assigns : Assigns text (c :: value))
    (element : isElement c) (ends : value.dropWhile isElement = []) (pairs : ℕ) :
    left before text behind (2 * (pairs + 1)) attrib = none ↔ behind = [] ∨ pairs = 0 := by
  obtain ⟨before', name, length, same⟩ := left_assigns before behind attrib assigns (2 * pairs)
  obtain ⟨buffer, len, read⟩ := value_bareEnds before' element ends behind
  rw [Nat.mul_succ, same, read]
  by_cases none_ : behind = []
  · simp [none_]
  · simp only [none_, ↓reduceIte, Option.bind_some, follow, false_or]
    cases pairs <;> simp

theorem left_noValue (assigns : Assigns text []) (pairs : ℕ) :
    left before text behind (2 * (pairs + 1)) attrib = none ↔ pairs = 0 := by
  obtain ⟨before', name, length, same⟩ := left_assigns before behind attrib assigns (2 * pairs)
  rw [Nat.mul_succ, same, List.length_nil, Nat.add_zero, value_end]
  simp only [Option.bind_some, follow]
  cases pairs <;> simp

/-- Any other character of a value is refused. -/
theorem left_refusedValue {value : Text} {c : UInt8} (assigns : Assigns text (c :: value))
    (dark : isspace c = false) (bare : ¬ IsQuote c) (refused : isElement c = false) (free : ℕ) :
    left before text behind (free + 2) attrib ≠ none := by
  obtain ⟨before', name, length, same⟩ := left_assigns before behind attrib assigns free
  have inside : before'.length ≠ before'.length + (c :: value).length := by simp
  rw [same, List.cons_append, value_refused inside _ dark bare refused]
  exact Option.some_ne_none _

theorem left_quoteStops {value : Text} {quote : UInt8} (assigns : Assigns text (quote :: value))
    (isQuote : IsQuote quote) (stops : strchr quote (value ++ behind) = some none) (free : ℕ) :
    left before text behind (free + 2) attrib ≠ none := by
  obtain ⟨before', name, length, same⟩ := left_assigns before behind attrib assigns free
  have inside : before'.length ≠ before'.length + (quote :: value).length := by simp
  rw [same, List.cons_append, value_quote inside _ isQuote, stops]
  exact Option.some_ne_none _

theorem none_of_overruns {pairs : ℕ} (overruns : Overruns behind pairs text) :
    left before text behind (2 * pairs) attrib = none := by
  induction overruns generalizing before attrib with
  | ends blank outside => exact (left_ends blank _).mpr outside
  | full begins => exact left_full begins
  | noValue assigns => exact (left_noValue assigns 0).mpr rfl
  | bareEnds assigns element ends outside =>
    exact (left_bareEnds assigns element ends _).mpr outside
  | @unclosed pairs text value quote assigns isQuote misses =>
    have missed : strchr quote (value ++ behind) = none := by
      rcases strchr_cases quote (value ++ behind) with ⟨missed, _⟩ | ⟨_, stops⟩ |
        ⟨value', rest, found, _⟩
      · exact missed
      · exact absurd misses stops
      · exact absurd (found ▸ List.mem_append_right value' List.mem_cons_self) misses.1
    exact left_unclosed assigns isQuote missed (2 * pairs)
  | @strays pairs text value more rest quote assigns isQuote stale misses strays =>
    obtain ⟨before', bufpos, attrib', farther, same⟩ :=
      @left_strays before text attrib value more rest quote assigns isQuote misses (2 * pairs)
    rw [stale, Nat.mul_succ, same]
    exact none_of_strays strays farther
  | @later pairs text rest whole _ inductionHypothesis =>
    obtain ⟨before', attrib', same⟩ := @left_attribute before text behind attrib _ whole (2 * pairs)
    rw [Nat.mul_succ, same]
    exact inductionHypothesis

/-- How a quote leads out of the buffer: it is closed nowhere, it is closed in the tag and the loop
goes on from there, or it is closed behind the tag. -/
theorem overruns_of_quote {pairs : ℕ} {value : Text} {quote : UInt8}
    (assigns : Assigns text (quote :: value)) (isQuote : IsQuote quote)
    (goesOn : ∀ {rest}, Attribute text rest → Overruns behind (pairs + 1) text)
    (lost : left before text behind (2 * pairs + 2) attrib = none) :
    Overruns behind (pairs + 1) text := by
  rcases strchr_cases quote (value ++ behind) with ⟨_, misses⟩ | ⟨stops, _⟩ |
    ⟨value', rest, found, misses, _⟩
  · exact .unclosed assigns isQuote misses
  · exact absurd lost (left_quoteStops assigns isQuote stops _)
  · rcases List.append_eq_append_iff.mp found with ⟨more, rfl, stale⟩ | ⟨more, rfl, after⟩
    · obtain ⟨before', bufpos, attrib', farther, same⟩ :=
        @left_strays before text attrib value more rest quote assigns isQuote misses (2 * pairs)
      rw [stale, same] at lost
      exact .strays assigns isQuote stale misses (strays_of_none farther lost)
    · cases more with
      | nil =>
        rw [List.append_nil] at assigns
        have stale : behind = [] ++ quote :: rest := after.symm
        have misses' : Misses quote (value' ++ []) := by rwa [List.append_nil]
        obtain ⟨before', bufpos, attrib', farther, same⟩ :=
          @left_strays before text attrib value' [] rest quote assigns isQuote misses' (2 * pairs)
        rw [stale, same] at lost
        exact .strays assigns isQuote stale misses' (strays_of_none farther lost)
      | cons c more =>
        obtain ⟨rfl, _⟩ := List.cons.inj after
        exact goesOn (.quoted assigns isQuote misses)

/-- The induction is on the room: each round of the loop takes one pair. -/
theorem overruns_of_none {pairs : ℕ} (lost : left before text behind (2 * pairs) attrib = none) :
    Overruns behind pairs text := by
  induction pairs generalizing before text attrib with
  | zero =>
    cases char : text.dropWhile isspace with
    | nil => exact .ends char (.inr rfl)
    | cons c rest =>
      cases element : isElement c with
      | false => exact absurd lost (left_refused char element 0)
      | true => exact .full ⟨c, rest, char, element⟩
  | succ pairs inductionHypothesis =>
    have goesOn : ∀ {rest}, Attribute text rest → Overruns behind (pairs + 1) text := by
      intro rest whole
      obtain ⟨before', attrib', same⟩ :=
        @left_attribute before text behind attrib _ whole (2 * pairs)
      exact .later whole (inductionHypothesis (same ▸ lost))
    cases char : text.dropWhile isspace with
    | nil => exact .ends char ((left_ends char _).mp lost)
    | cons c rest =>
      cases element : isElement c with
      | false => exact absurd lost (left_refused char element (pairs + 1))
      | true =>
        have begins : Begins text := ⟨c, rest, char, element⟩
        by_cases assigned : ∃ value, Assigns text value
        · obtain ⟨value, assigns⟩ := assigned
          cases value with
          | nil =>
            have full : pairs = 0 := (left_noValue assigns pairs).mp lost
            rw [full]
            exact .noValue assigns
          | cons d value =>
            by_cases space : isspace d
            · exact goesOn (.empty assigns space)
            · by_cases isQuote : IsQuote d
              · exact overruns_of_quote assigns isQuote goesOn lost
              · cases word : isElement d with
                | false =>
                  exact absurd lost
                    (left_refusedValue assigns (Bool.eq_false_iff.mpr space) isQuote word _)
                | true =>
                  cases ends : value.dropWhile isElement with
                  | nil =>
                    exact .bareEnds assigns word ends ((left_bareEnds assigns word ends _).mp lost)
                  | cons e rest => exact goesOn (.bare assigns word ends)
        · exact absurd lost (left_plain begins (fun value assigns => assigned ⟨value, assigns⟩) _)

/-- The loop leaves what there is exactly in these ways. -/
theorem left_eq_none_iff (pairs : ℕ) :
    left before text behind (2 * pairs) attrib = none ↔ Overruns behind pairs text :=
  ⟨overruns_of_none, none_of_overruns⟩

end Loop

/-! ### A longer buffer -/

theorem getElem?_more {buffer : Text} {place : ℕ} {c : UInt8} (here : buffer[place]? = some c)
    (more : Text) : (buffer ++ more)[place]? = some c := by
  have inside : place < buffer.length := (List.getElem?_eq_some_iff.mp here).1
  rw [List.getElem?_append_left inside, here]

theorem set_more {buffer : Text} {place : ℕ} {c : UInt8} (here : buffer[place]? = some c)
    (more : Text) (d : UInt8) : (buffer ++ more).set place d = buffer.set place d ++ more :=
  List.set_append_left _ _ (List.getElem?_eq_some_iff.mp here).1

theorem span_more {bufpos : ℕ} {buffer : Text} (within : bufpos ≤ buffer.length) (more : Text)
    (len : ℕ) : span bufpos (buffer ++ more) len = span bufpos buffer len := by
  rw [span, span, List.take_append_of_le_length within]

theorem strchr_more {c : UInt8} {text : Text} {found : Option ℕ}
    (search : strchr c text = some found) (more : Text) :
    strchr c (text ++ more) = some found := by
  induction text generalizing found with
  | nil => cases search
  | cons char text inductionHypothesis =>
    rw [List.cons_append]
    rw [strchr] at search ⊢
    by_cases here : char = c
    · rw [if_pos here] at search ⊢
      exact search
    · by_cases null : char = 0
      · rw [if_neg here, if_pos null] at search ⊢
        exact search
      · rw [if_neg here, if_neg null] at search ⊢
        obtain ⟨found', search', rfl⟩ := Option.map_eq_some_iff.mp search
        rw [inductionHypothesis search']
        rfl

theorem strchr_lt {c : UInt8} {text : Text} {place : ℕ}
    (search : strchr c text = some (some place)) :
    place < text.length := by
  rcases strchr_cases c text with ⟨found, _⟩ | ⟨found, _⟩ | ⟨value, rest, rfl, _, found⟩
  · rw [found] at search
    cases search
  · rw [found] at search
    cases search
  · rw [found] at search
    cases search
    simp

/-- The loop over white space does not see what is behind what it reads. -/
theorem blanks_more {room len len' : ℕ} {buffer buffer' : Text} {accepted : Bool}
    (read : blanks room len buffer = some (accepted, len', buffer')) :
    buffer'.length = buffer.length ∧
      ∀ more, blanks room len (buffer ++ more) = some (accepted, len', buffer' ++ more) := by
  induction room generalizing len buffer with
  | zero =>
    rw [blanks_zero] at read
    obtain ⟨char, here, same⟩ := Option.map_eq_some_iff.mp read
    cases same
    refine ⟨rfl, fun more => ?_⟩
    rw [blanks_zero, getElem?_more here]
    rfl
  | succ room inductionHypothesis =>
    cases here : buffer[len]? with
    | none =>
      unfold blanks at read
      rw [here] at read
      cases read
    | some char =>
      rw [blanks_succ room here] at read
      by_cases element : isElement char
      · rw [if_pos element] at read
        cases read
        exact ⟨rfl, fun more => by rw [blanks_succ room (getElem?_more here more), if_pos element]⟩
      · by_cases dark : !isspace char
        · rw [if_neg element, if_pos dark] at read
          cases read
          exact ⟨rfl, fun more => by
            rw [blanks_succ room (getElem?_more here more), if_neg element, if_pos dark]⟩
        · rw [if_neg element, if_neg dark] at read
          obtain ⟨length, later⟩ := inductionHypothesis read
          rw [List.length_set] at length
          refine ⟨length, fun more => ?_⟩
          rw [blanks_succ room (getElem?_more here more), if_neg element, if_neg dark,
            set_more here, later]

/-- Neither does what reads a value. -/
theorem value_more {bufpos len len' : ℕ} {buffer buffer' : Text} {found : Value}
    (within : bufpos ≤ buffer.length)
    (read : value bufpos len buffer = some (found, len', buffer')) :
    buffer'.length = buffer.length ∧
      ∀ more, value bufpos len (buffer ++ more) = some (found, len', buffer' ++ more) := by
  by_cases ends : len = bufpos
  · rw [value, if_pos ends] at read
    cases read
    exact ⟨rfl, fun more => by rw [value, if_pos ends]⟩
  · cases here : buffer[len]? with
    | none =>
      rw [value, if_neg ends, here] at read
      cases read
    | some c =>
      rw [value_here ends here] at read
      have inside : len + 1 ≤ buffer.length := (List.getElem?_eq_some_iff.mp here).1
      by_cases space : isspace c
      · rw [if_pos space] at read
        cases read
        exact ⟨rfl, fun more => by rw [value_here ends (getElem?_more here more), if_pos space]⟩
      · by_cases isQuote : IsQuote c
        · rw [if_neg space, if_pos isQuote] at read
          obtain ⟨ep, search, made⟩ := Option.bind_eq_some_iff.mp read
          have search_more : ∀ more, strchr c ((buffer ++ more).drop (len + 1)) = some ep := by
            intro more
            rw [List.drop_append_of_le_length inside, strchr_more search more]
          cases ep with
          | none =>
            cases made
            refine ⟨rfl, fun more => ?_⟩
            rw [value_here ends (getElem?_more here more), if_neg space, if_pos isQuote,
              search_more]
            rfl
          | some ep =>
            cases made
            have place : len + 1 + ep < buffer.length := by
              have found := strchr_lt search
              rw [List.length_drop] at found
              omega
            refine ⟨List.length_set, fun more => ?_⟩
            rw [value_here ends (getElem?_more here more), if_neg space, if_pos isQuote,
              search_more, ← List.set_append_left _ _ place]
            rfl
        · by_cases refused : !isElement c
          · rw [if_neg space, if_neg isQuote, if_pos refused] at read
            cases read
            refine ⟨rfl, fun more => ?_⟩
            rw [value_here ends (getElem?_more here more), if_neg space, if_neg isQuote,
              if_pos refused]
          · rw [if_neg space, if_neg isQuote, if_neg refused] at read
            have read_more : ∀ more, value bufpos len (buffer ++ more) = _ := fun more => by
              rw [value_here ends (getElem?_more here more), if_neg space, if_neg isQuote,
                if_neg refused, span_more within]
            by_cases last : len + span bufpos buffer len = bufpos
            · rw [if_pos last] at read
              by_cases room : len + span bufpos buffer len < buffer.length
              · rw [if_pos room] at read
                cases read
                refine ⟨List.length_set, fun more => ?_⟩
                have room' : len + span bufpos buffer len < (buffer ++ more).length := by
                  rw [List.length_append]
                  exact Nat.lt_add_right _ room
                rw [read_more, if_pos last, if_pos room', List.set_append_left _ _ room]
              · rw [if_neg room] at read
                cases read
            · rw [if_neg last] at read
              cases read
              exact ⟨rfl, fun more => by rw [read_more, if_neg last]⟩

/-- A loop leaves the buffer as long as it was, and does not depend on what is behind it. -/
def More (loop : Text → Option (Bool × Text × List (Option ℕ))) (buffer : Text) : Prop :=
  ∀ accepted buffer' attrib', loop buffer = some (accepted, buffer', attrib') →
    buffer'.length = buffer.length ∧
      ∀ more, loop (buffer ++ more) = some (accepted, buffer' ++ more, attrib')

/-- Neither does one round depend on it, when the loop after it does not. -/
theorem round_more {bufpos pairs len : ℕ} {buffer : Text} {attrib : List (Option ℕ)} {good : Bool}
    (within : bufpos ≤ buffer.length)
    (later : ∀ {len : ℕ} {buffer : Text} {attrib : List (Option ℕ)}, bufpos ≤ buffer.length →
      More (fun text => attributes bufpos (2 * pairs) len text attrib) buffer) :
    More (fun text => round bufpos (2 * pairs) attrib (good, len, text)) buffer := by
  intro accepted buffer' attrib' made
  dsimp only at made ⊢
  cases good with
  | false =>
    cases made
    exact ⟨rfl, fun more => rfl⟩
  | true =>
    by_cases ends : len = bufpos
    · rw [round, if_neg (by decide), if_pos ends] at made
      cases made
      exact ⟨rfl, fun more => by rw [round, if_neg (by decide), if_pos ends]⟩
    · by_cases bare : len + span bufpos buffer len = bufpos
      · rw [round, if_neg (by decide), if_neg ends, if_pos bare] at made
        cases made
        refine ⟨rfl, fun more => ?_⟩
        rw [round, if_neg (by decide), if_neg ends, span_more within, if_pos bare]
      · rw [round, if_neg (by decide), if_neg ends, if_neg bare] at made
        obtain ⟨char, here, made⟩ := Option.bind_eq_some_iff.mp made
        have round_more : ∀ more, round bufpos (2 * pairs) attrib (true, len, buffer ++ more) = _ :=
          fun more => by
            rw [round, if_neg (by decide), if_neg ends, span_more within, if_neg bare,
              getElem?_more here more, Option.bind_some, set_more here more]
        by_cases other : char ≠ 0x3d
        · rw [if_pos other] at made
          cases made
          exact ⟨rfl, fun more => by rw [round_more, if_pos other]⟩
        · rw [if_neg other] at made
          obtain ⟨⟨found, len', after⟩, valued, made⟩ := Option.bind_eq_some_iff.mp made
          have within' : bufpos ≤ (buffer.set (len + span bufpos buffer len) 0).length := by
            rw [List.length_set]
            exact within
          obtain ⟨length, value_more⟩ := value_more within' valued
          rw [List.length_set] at length
          have value_round : ∀ more, round bufpos (2 * pairs) attrib (true, len, buffer ++ more) =
              follow bufpos (2 * pairs) attrib len (found, len', after ++ more) :=
            fun more => by
              rw [round_more, if_neg other, value_more]
              rfl
          cases found with
          | refused =>
            cases made
            exact ⟨length, fun more => by rw [value_round]; rfl⟩
          | last value =>
            by_cases room : 2 ≤ 2 * pairs
            · rw [follow, if_pos room] at made
              cases made
              exact ⟨length, fun more => by rw [value_round, follow, if_pos room]⟩
            · rw [follow, if_neg room] at made
              cases made
          | more value =>
            rw [← length] at within
            obtain ⟨same, rest⟩ := later within _ _ _ made
            refine ⟨same.trans length, fun more => ?_⟩
            rw [value_round, follow]
            exact rest more

/-- Neither does the loop, and it leaves the buffer as long as it was. -/
theorem attributes_more {bufpos pairs len : ℕ} {buffer buffer' : Text}
    {attrib attrib' : List (Option ℕ)} {accepted : Bool} (within : bufpos ≤ buffer.length)
    (read : attributes bufpos (2 * pairs) len buffer attrib = some (accepted, buffer', attrib')) :
    buffer'.length = buffer.length ∧
      ∀ more, attributes bufpos (2 * pairs) len (buffer ++ more) attrib =
        some (accepted, buffer' ++ more, attrib') := by
  suffices rounds : ∀ {len : ℕ} {buffer : Text} {attrib : List (Option ℕ)},
      bufpos ≤ buffer.length →
      More (fun text => attributes bufpos (2 * pairs) len text attrib) buffer from
    rounds within _ _ _ read
  clear read within
  induction pairs with
  | zero =>
    intro len buffer attrib within accepted buffer' attrib' read
    dsimp only at read ⊢
    rw [Nat.mul_zero, attributes_zero] at read
    obtain ⟨⟨good, len', middle⟩, blank, made⟩ := Option.bind_eq_some_iff.mp read
    obtain ⟨length, blank_more⟩ := blanks_more blank
    cases good with
    | true => cases made
    | false =>
      cases made
      refine ⟨length, fun more => ?_⟩
      rw [Nat.mul_zero, attributes_zero, blank_more]
      rfl
  | succ pairs inductionHypothesis =>
    intro len buffer attrib within accepted buffer' attrib' read
    dsimp only at read ⊢
    rw [Nat.mul_succ, attributes_succ] at read
    obtain ⟨⟨good, len', middle⟩, blank, made⟩ := Option.bind_eq_some_iff.mp read
    obtain ⟨length, blank_more⟩ := blanks_more blank
    rw [← length] at within ⊢
    obtain ⟨same, later⟩ := round_more within inductionHypothesis _ _ _ made
    refine ⟨same, fun more => ?_⟩
    rw [Nat.mul_succ, attributes_succ, blank_more]
    exact later more

end XMLParser

end CommonCpp
