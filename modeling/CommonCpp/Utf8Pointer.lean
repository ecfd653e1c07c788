/-
This file models `utf8_pointer`, which goes to and fro in a UTF-8 text, and shows that it goes from
character to character.

It goes on by looking for the next byte that does not continue a character, and back by looking for
the one before; `offset` goes by the sizes that the first bytes tell. In a text of whole
characters these are the same places.

A pointer is how far it stands in a memory, and the memory is what may be read: a byte outside of
it has no outcome. A `long` is an integer.
-/

import CommonCpp.UString

namespace CommonCpp

namespace Utf8

namespace Pointer

/-! ### The code -/

/-- `while((*text & 0xc0) == 0x80) ++text;`, over what is to be read. -/
def skip : Text → ℕ → Option ℕ
  | [], _ => none
  | byte :: rest, text => if byte &&& 0xc0 = 0x80 then skip rest (text + 1) else some text

def inc (memory : Text) (text : ℕ) : Option ℕ := do
  let byte ← memory[text]?
  if byte < 0x80 then some (text + 1)
  else
    let text := if byte &&& 0xc0 = 0xc0 then text + 1 else text
    skip (memory.drop text) text

/-- `while((*(--text) & 0xc0) == 0x80);`. -/
def dec (memory : Text) : ℕ → Option ℕ
  | 0 => none
  | text + 1 => do
    let byte ← memory[text]?
    if byte &&& 0xc0 = 0x80 then dec memory text else some text

/-- So many steps. -/
def steps (step : ℕ → Option ℕ) : ℕ → ℕ → Option ℕ
  | 0, text => some text
  | offset + 1, text => (step text).bind (steps step offset)

/-- `operator+=`, and with it `operator+`. -/
def plus (memory : Text) (text : ℕ) (offset : ℤ) : Option ℕ :=
  if offset = 0 then some text
  else if offset > 0 then steps (inc memory) offset.toNat text
  else steps (dec memory) (-offset).toNat text

/-- `operator-=`, and with it `operator-`. -/
def minus (memory : Text) (text : ℕ) (offset : ℤ) : Option ℕ :=
  if offset = 0 then some text
  else if offset > 0 then steps (dec memory) offset.toNat text
  else steps (inc memory) (-offset).toNat text

/-- `operator[]`. -/
def get (memory : Text) (text : ℕ) (offset : ℤ) : Option (Option ℕ) :=
  if offset = 0 then some (codepoint (memory.drop text))
  else
    (if offset > 0 then steps (inc memory) offset.toNat text
      else steps (dec memory) (-offset).toNat text).map fun ncp => codepoint (memory.drop ncp)

/-! ### Texts of whole characters -/

/-- A first byte, and as many that continue it as it says. -/
def Whole (char : Text) : Prop :=
  ∃ lead tail, char = lead :: tail ∧ lead ≠ 0 ∧ size char = tail.length + 1 ∧
    ∀ byte ∈ tail, byte &&& 0xc0 = 0x80

end Pointer

/-- A text of whole characters. -/
structure Characters where
  chars : List Text
  whole : ∀ char ∈ chars, Pointer.Whole char

namespace Characters

/-- How far the character stands in the text. -/
def start (text : Characters) (pos : ℕ) : ℕ := (text.chars.take pos).flatten.length

/-- The text in a memory: there is a null behind it, and something behind that. -/
def memory (text : Characters) (after : Text) : Text := text.chars.flatten ++ 0 :: after

end Characters

namespace Pointer

/-! ### One character -/

theorem lead_eq {lead : UInt8} {tail : Text} (sized : size (lead :: tail) ≠ 0) :
    lead &&& 0xc0 ≠ 0x80 ∧ (lead < 0x80 → size (lead :: tail) = 1) ∧
      (¬ lead < 0x80 → lead &&& 0xc0 = 0xc0) := by
  have all : ∀ byte < 256, size [UInt8.ofNat byte] ≠ 0 → UInt8.ofNat byte &&& 0xc0 ≠ 0x80 ∧
      (UInt8.ofNat byte < 0x80 → size [UInt8.ofNat byte] = 1) ∧
      (¬ UInt8.ofNat byte < 0x80 → UInt8.ofNat byte &&& 0xc0 = 0xc0) := by decide +kernel
  have found := all lead.toNat lead.toNat_lt
  rw [UInt8.ofNat_toNat] at found
  exact found sized

/-- What stands behind a character does not continue it. -/
def Begins (rest : Text) : Prop := ∃ byte tail, rest = byte :: tail ∧ byte &&& 0xc0 ≠ 0x80

theorem skip_eq {tail rest : Text} (continues : ∀ byte ∈ tail, byte &&& 0xc0 = 0x80)
    (begins : Begins rest) (text : ℕ) : skip (tail ++ rest) text = some (text + tail.length) := by
  induction tail generalizing text with
  | nil =>
    obtain ⟨byte, tail, rfl, other⟩ := begins
    exact if_neg other
  | cons byte tail inductionHypothesis =>
    have later := inductionHypothesis
      (fun byte member => continues byte (List.mem_cons_of_mem _ member)) (text + 1)
    rw [List.cons_append, skip, if_pos (continues byte List.mem_cons_self), later,
      List.length_cons, Nat.add_assoc, Nat.add_comm 1]

theorem inc_eq {char rest : Text} (whole : Whole char) (begins : Begins rest) (before : Text) :
    inc (before ++ (char ++ rest)) before.length = some (before.length + char.length) := by
  obtain ⟨lead, tail, rfl, _, sized, continues⟩ := whole
  obtain ⟨_, ascii, marked⟩ := lead_eq (sized.trans_ne (Nat.succ_ne_zero _))
  have here : (before ++ (lead :: tail ++ rest))[before.length]? = some lead := by
    rw [List.getElem?_append_right (Nat.le_refl _), Nat.sub_self]
    rfl
  have behind : (before ++ (lead :: tail ++ rest)).drop (before.length + 1) = tail ++ rest := by
    rw [List.drop_append, Nat.add_sub_cancel_left,
      List.drop_eq_nil_of_le (Nat.le_succ before.length)]
    rfl
  rw [inc, here]
  show (if lead < 0x80 then _ else _) = _
  by_cases one : lead < 0x80
  · have nothing : tail.length = 0 := Nat.succ_injective (sized.symm.trans (ascii one))
    rw [if_pos one, List.length_cons, nothing]
  · rw [if_neg one, if_pos (marked one), behind, skip_eq continues begins, List.length_cons,
      Nat.add_assoc, Nat.add_comm 1]

/-- From anywhere in a character the way back leads to its start. -/
theorem dec_within {lead : UInt8} {tail : Text} (begins : lead &&& 0xc0 ≠ 0x80)
    (continues : ∀ byte ∈ tail, byte &&& 0xc0 = 0x80) (before rest : Text) {place : ℕ}
    (within : place ≤ tail.length) :
    dec (before ++ (lead :: tail ++ rest)) (before.length + place + 1) = some before.length := by
  induction place with
  | zero =>
    have here : (before ++ (lead :: tail ++ rest))[before.length]? = some lead := by
      rw [List.getElem?_append_right (Nat.le_refl _), Nat.sub_self]
      rfl
    rw [Nat.add_zero, dec, here]
    exact if_neg begins
  | succ place inductionHypothesis =>
    have inside : place < tail.length := within
    have here : (before ++ (lead :: tail ++ rest))[before.length + place + 1]? =
        some tail[place] := by
      rw [Nat.add_assoc, List.getElem?_append_right (Nat.le_add_right _ _),
        Nat.add_sub_cancel_left, List.cons_append, List.getElem?_cons_succ,
        List.getElem?_append_left inside, List.getElem?_eq_getElem inside]
    rw [← Nat.add_assoc before.length, dec, here]
    show (if tail[place] &&& 0xc0 = 0x80 then _ else _) = _
    rw [if_pos (continues _ (List.getElem_mem inside))]
    exact inductionHypothesis (Nat.le_of_lt inside)

theorem dec_eq {char : Text} (whole : Whole char) (before rest : Text) :
    dec (before ++ (char ++ rest)) (before.length + char.length) = some before.length := by
  obtain ⟨lead, tail, rfl, _, sized, continues⟩ := whole
  obtain ⟨begins, _⟩ := lead_eq (sized.trans_ne (Nat.succ_ne_zero _))
  exact dec_within begins continues before rest (Nat.le_refl tail.length)

/-! ### Whole texts -/

section Text

variable {text : Characters} {after : Text} {pos : ℕ}

theorem Whole.begins {char : Text} (whole : Whole char) (rest : Text) : Begins (char ++ rest) := by
  obtain ⟨lead, tail, rfl, _, sized, _⟩ := whole
  exact ⟨lead, tail ++ rest, rfl, (lead_eq (sized.trans_ne (Nat.succ_ne_zero _))).1⟩

theorem Whole.length_pos {char : Text} (whole : Whole char) : 0 < char.length := by
  obtain ⟨lead, tail, rfl, _⟩ := whole
  exact Nat.succ_pos _

/-- Behind whole characters there is another one, or the null. -/
theorem begins_flatten {chars : List Text} (whole : ∀ char ∈ chars, Whole char) (after : Text) :
    Begins (chars.flatten ++ 0 :: after) := by
  cases chars with
  | nil => exact ⟨0, after, rfl, by decide⟩
  | cons char chars =>
    rw [List.flatten_cons, List.append_assoc]
    exact (whole char List.mem_cons_self).begins _

/-- The memory around a character. -/
theorem memory_eq (after : Text) (inside : pos < text.chars.length) :
    text.memory after = (text.chars.take pos).flatten ++
      (text.chars[pos] ++ ((text.chars.drop (pos + 1)).flatten ++ 0 :: after)) := by
  have split :
      text.chars = text.chars.take pos ++ text.chars[pos] :: text.chars.drop (pos + 1) := by
    rw [← List.drop_eq_getElem_cons inside, List.take_append_drop]
  have flat := congrArg List.flatten split
  rw [List.flatten_append, List.flatten_cons] at flat
  rw [Characters.memory, flat]
  simp only [List.append_assoc]

theorem start_succ (inside : pos < text.chars.length) :
    text.start (pos + 1) = text.start pos + text.chars[pos].length := by
  rw [Characters.start, Characters.start, List.take_succ_eq_append_getElem inside,
    List.flatten_append, List.length_append, List.flatten_singleton]

/-- Forwards and backwards by one character. -/
theorem inc_start (inside : pos < text.chars.length) :
    inc (text.memory after) (text.start pos) = some (text.start (pos + 1)) := by
  have whole := text.whole _ (List.getElem_mem inside)
  have later : ∀ char ∈ text.chars.drop (pos + 1), Whole char := fun char member =>
    text.whole char (List.mem_of_mem_drop member)
  have behind := begins_flatten later after
  rw [memory_eq after inside, start_succ inside]
  exact inc_eq whole behind _

theorem dec_start (inside : pos < text.chars.length) :
    dec (text.memory after) (text.start (pos + 1)) = some (text.start pos) := by
  rw [memory_eq after inside, start_succ inside]
  exact dec_eq (text.whole _ (List.getElem_mem inside)) _ _

theorem steps_inc {offset : ℕ} (within : pos + offset ≤ text.chars.length) :
    steps (inc (text.memory after)) offset (text.start pos) = some (text.start (pos + offset)) := by
  induction offset generalizing pos with
  | zero => rfl
  | succ offset inductionHypothesis =>
    have inside : pos < text.chars.length := by omega
    have later := @inductionHypothesis (pos + 1) (by omega)
    rw [steps, inc_start inside, Option.bind_some, later]
    congr 2
    omega

theorem steps_dec {offset : ℕ} (within : pos + offset ≤ text.chars.length) :
    steps (dec (text.memory after)) offset (text.start (pos + offset)) = some (text.start pos) := by
  induction offset with
  | zero => rfl
  | succ offset inductionHypothesis =>
    have inside : pos + offset < text.chars.length := within
    rw [← Nat.add_assoc, steps, dec_start inside, Option.bind_some]
    exact inductionHypothesis (Nat.le_of_lt inside)

/-- The sizes that the first bytes tell lead to the same places. -/
theorem drop_memory (after : Text) (inside : pos < text.chars.length) :
    ((text.memory after).drop (text.start pos)).headD 0 ≠ 0 ∧
      size ((text.memory after).drop (text.start pos)) = text.chars[pos].length := by
  have behind : (text.memory after).drop (text.start pos) =
      text.chars[pos] ++ ((text.chars.drop (pos + 1)).flatten ++ 0 :: after) := by
    rw [memory_eq after inside]
    exact List.drop_left
  obtain ⟨lead, tail, char, visible, sized, _⟩ := text.whole _ (List.getElem_mem inside)
  rw [behind, char] at *
  exact ⟨visible, sized⟩

theorem drop_succ (after : Text) (inside : pos < text.chars.length) :
    ((text.memory after).drop (text.start pos)).drop
        (size ((text.memory after).drop (text.start pos))) =
      (text.memory after).drop (text.start (pos + 1)) := by
  rw [(drop_memory after inside).2, List.drop_drop, start_succ inside]

theorem size_ne_zero (after : Text) (inside : pos < text.chars.length) :
    size ((text.memory after).drop (text.start pos)) ≠ 0 := by
  rw [(drop_memory after inside).2]
  exact Nat.ne_of_gt (text.whole _ (List.getElem_mem inside)).length_pos

theorem count_memory (text : Characters) (after : Text) :
    count (text.memory after) = text.chars.length := by
  have behind : ∀ left pos, pos + left = text.chars.length →
      count ((text.memory after).drop (text.start pos)) = left := by
    intro left
    induction left with
    | zero =>
      intro pos whole
      have all : text.chars.take pos = text.chars := List.take_of_length_le (by omega)
      have ended : (text.memory after).drop (text.start pos) = 0 :: after := by
        rw [Characters.memory, Characters.start, all]
        exact List.drop_left
      rw [ended, count, if_pos rfl]
    | succ left inductionHypothesis =>
      intro pos more
      have inside : pos < text.chars.length := by omega
      rw [count_eq (drop_memory after inside).1 (size_ne_zero after inside), drop_succ after inside,
        inductionHypothesis (pos + 1) (by omega)]
  exact behind text.chars.length 0 (Nat.zero_add _)

theorem offsetLoop_memory {left : ℕ} (within : pos + left ≤ text.chars.length) :
    (offsetLoop left ((text.memory after).drop (text.start pos))).map (text.start pos + ·) =
      some (text.start (pos + left)) := by
  induction left generalizing pos with
  | zero => rfl
  | succ left inductionHypothesis =>
    have inside : pos < text.chars.length := by omega
    have sum : text.start pos + size ((text.memory after).drop (text.start pos)) =
        text.start (pos + 1) := by
      rw [(drop_memory after inside).2, start_succ inside]
    have later := @inductionHypothesis (pos + 1) (by omega)
    have place : pos + 1 + left = pos + (left + 1) := by omega
    rw [← place, ← later, offsetLoop, if_neg (size_ne_zero after inside), drop_succ after inside,
      Option.map_map]
    congr 1
    funext distance
    show text.start pos + (_ + distance) = _
    rw [← Nat.add_assoc, sum]

theorem offset_memory (after : Text) (within : pos ≤ text.chars.length) :
    offset (text.memory after) pos = some (text.start pos) := by
  have loop := @offsetLoop_memory text after 0 pos (by rwa [Nat.zero_add])
  have first : text.start 0 = 0 := rfl
  rw [first, Nat.zero_add, List.drop_zero] at loop
  simp only [Nat.zero_add, Option.map_id'] at loop
  unfold offset
  rw [count_memory]
  dsimp only
  rw [if_neg (by omega)]
  by_cases start : (pos : ℤ) = 0
  · have zero : pos = 0 := by omega
    rw [if_pos start, zero]
    rfl
  · rw [if_neg start, if_neg (by omega), Int.toNat_natCast]
    exact loop

/-! ### Moving -/

variable {offset : ℤ}

theorem plus_start (low : 0 ≤ pos + offset) (high : pos + offset ≤ text.chars.length)
    (inside : pos ≤ text.chars.length) :
    plus (text.memory after) (text.start pos) offset = some (text.start (pos + offset).toNat) := by
  rw [plus]
  rcases Int.lt_trichotomy offset 0 with negative | zero | positive
  · have back : (pos + offset).toNat + (-offset).toNat = pos := by omega
    have stepped := @steps_dec text after (pos + offset).toNat (-offset).toNat (by omega)
    rw [back] at stepped
    rw [if_neg (by omega), if_neg (by omega), stepped]
  · rw [if_pos zero, zero, add_zero, Int.toNat_natCast]
  · have further : (pos + offset).toNat = pos + offset.toNat := by omega
    rw [if_neg (by omega), if_pos positive, further]
    exact steps_inc (by omega)

theorem minus_start (low : 0 ≤ pos - offset) (high : pos - offset ≤ text.chars.length)
    (inside : pos ≤ text.chars.length) :
    minus (text.memory after) (text.start pos) offset = some (text.start (pos - offset).toNat) := by
  have opposite : minus (text.memory after) (text.start pos) offset =
      plus (text.memory after) (text.start pos) (-offset) := by
    rw [minus, plus, Int.neg_neg]
    rcases Int.lt_trichotomy offset 0 with negative | zero | positive
    · rw [if_neg (by omega), if_neg (by omega), if_neg (by omega), if_pos (by omega)]
    · rw [if_pos zero, if_pos (by omega)]
    · rw [if_neg (by omega), if_pos positive, if_neg (by omega), if_neg (by omega)]
  rw [opposite, sub_eq_add_neg]
  exact plus_start (by omega) (by omega) inside

theorem get_start (low : 0 ≤ pos + offset) (high : pos + offset ≤ text.chars.length)
    (inside : pos ≤ text.chars.length) :
    get (text.memory after) (text.start pos) offset =
      some (codepoint ((text.memory after).drop (text.start (pos + offset).toNat))) := by
  have moved := @plus_start _ after _ _ low high inside
  rw [plus] at moved
  rw [get]
  by_cases zero : offset = 0
  · rw [if_pos zero] at moved ⊢
    rw [← Option.some.inj moved]
  · rw [if_neg zero] at moved ⊢
    rw [moved]
    rfl

end Text

/-- In a text of whole characters, whatever is behind its null: from the start of a character (or
the end) `+=` by any number that stays in the text, and `-=` by its negative, lead to the start of
the character so many further, which is where `offset` is; moving back leads to where it was;
`[]` reads what `codepoint` reads there; and a step forwards and one backwards undo each other. -/
theorem pointer_moves (text : Characters) (after : Text) {pos : ℕ} {offset : ℤ}
    (inside : pos ≤ text.chars.length) (low : 0 ≤ pos + offset)
    (high : pos + offset ≤ text.chars.length) :
    let memory := text.memory after
    let target := text.start (pos + offset).toNat
    plus memory (text.start pos) offset = some target ∧
      minus memory (text.start pos) (-offset) = some target ∧
      Utf8.offset memory (pos + offset) = some target ∧
      (plus memory (text.start pos) offset).bind (plus memory · (-offset)) =
        some (text.start pos) ∧
      (minus memory (text.start pos) (-offset)).bind (minus memory · offset) =
        some (text.start pos) ∧
      get memory (text.start pos) offset = some (codepoint (memory.drop target)) ∧
      ∀ place < text.chars.length,
        inc memory (text.start place) = some (text.start (place + 1)) ∧
        dec memory (text.start (place + 1)) = some (text.start place) := by
  intro memory target
  have there : ((pos + offset).toNat : ℤ) = pos + offset := Int.toNat_of_nonneg low
  have within : (pos + offset).toNat ≤ text.chars.length := by omega
  have forth : plus memory (text.start pos) offset = some target := plus_start low high inside
  have forth' : minus memory (text.start pos) (-offset) = some target := by
    have moved := @minus_start text after pos (-offset) (by omega) (by omega) inside
    rwa [sub_neg_eq_add] at moved
  have back : plus memory target (-offset) = some (text.start pos) := by
    have moved := @plus_start text after (pos + offset).toNat (-offset) (by omega) (by omega) within
    rwa [there, add_neg_cancel_right, Int.toNat_natCast] at moved
  have back' : minus memory target offset = some (text.start pos) := by
    have moved := @minus_start text after (pos + offset).toNat offset (by omega) (by omega) within
    rwa [there, add_sub_cancel_right, Int.toNat_natCast] at moved
  refine ⟨forth, forth', ?_, ?_, ?_, get_start low high inside, fun place inside => ?_⟩
  · rw [← there]
    exact offset_memory after within
  · rw [forth]
    exact back
  · rw [forth']
    exact back'
  · exact ⟨inc_start inside, dec_start inside⟩

/-- `Aé€`. -/
def mixed : Characters where
  chars := [[0x41], [0xc3, 0xa9], [0xe2, 0x82, 0xac]]
  whole := by
    intro char member
    simp only [List.mem_cons, List.not_mem_nil, or_false] at member
    rcases member with rfl | rfl | rfl
    · exact ⟨0x41, [], rfl, by decide, by decide, nofun⟩
    · exact ⟨0xc3, [0xa9], rfl, by decide, by decide,
        List.forall_mem_cons.mpr ⟨by decide, nofun⟩⟩
    · exact ⟨0xe2, [0x82, 0xac], rfl, by decide, by decide,
        List.forall_mem_cons.mpr ⟨by decide, List.forall_mem_cons.mpr ⟨by decide, nofun⟩⟩⟩

/-- From the last character of `Aé€` to the first. -/
theorem pointer_moves_back :
    plus (mixed.memory []) (mixed.start 2) (-2) = some (mixed.start 0) ∧
      get (mixed.memory []) (mixed.start 2) (-2) = some (some 0x41) := by
  obtain ⟨forth, _, _, _, _, read, _⟩ :=
    @pointer_moves mixed [] 2 (-2) (by decide) (by decide) (by decide)
  exact ⟨forth, read.trans (by decide +kernel)⟩

end Pointer

end Utf8

end CommonCpp
