/-
This file settles whether editing a string is editing a list: whether `add`, `paste`, `cut`,
`trim`, `chop`, `strip` and `set`, called on a string that no other string shares its buffer with,
make of its text what they would make of a list of characters, call after call.

The sizes that are added up are those of things that are in memory at the same time, and so stay
below `2 ^ 64`; only the size that `cut` is given need not be that of anything. The sum that `cut`
makes of it and of the offset is taken modulo `2 ^ 64`, and so a large size is not clipped, but
taken for one that ends before the offset. In the same way `trim` counts with an `unsigned`, which
starts again at zero after `2 ^ 32` characters, and then the method does not end. These are the
only calls that do not edit the list.
-/

import CommonCpp.CstringTexts
import CommonCpp.StringCopies

namespace CommonCpp

open Bytes Counted Counter

namespace Strings

/-! ### The methods whose numbers wrap -/

/-- The difference of two numbers of type `size_t`. -/
def minus (a b : ℕ) : ℕ := (a + 2 ^ 64 - b) % 2 ^ 64

/-- `memmove` within a memory. There is no outcome when it leaves the memory. -/
def memmove (text : Text) (dest src size : ℕ) : Option Text :=
  if src + size ≤ text.length ∧ dest + size ≤ text.length then
    some (move text dest ((text.drop src).take size))
  else none

/-- `fix`, where the length may be behind the memory. -/
def fixInside (str : Cstring) : Option Cstring :=
  if str.len < str.text.length then some str.fix else none

/-- `String::cut(size_t, size_t)`, with the sum and the differences of its numbers as they are. -/
def cut (str : Cstring) (offset size : ℕ) : Option Cstring :=
  if offset ≥ str.len then some str
  else
    let size := if size = 0 then str.len else size
    let behind := (offset + size) % 2 ^ 64
    if behind ≥ str.len then fixInside { str with len := offset }
    else do
      let text ← memmove str.text offset behind (minus (minus str.len offset) size)
      fixInside { str with text := text, len := minus str.len size }

/-- The loop of `trim`, whose counter is an `unsigned`. -/
def trimLoop (str : Cstring) (clist : Text) : ℕ → ℕ → Option ℕ
  | 0, _ => none
  | fuel + 1, offset =>
    if offset < str.len ∧ strchr clist (str.text.getD offset 0) then
      trimLoop str clist fuel ((offset + 1) % 2 ^ 32)
    else some offset

/-- `String::trim(const char *)`, with so many rounds of its loop at most. -/
def trim (fuel : ℕ) (str : Cstring) (clist : Text) : Option Cstring := do
  let offset ← trimLoop str clist fuel 0
  if offset = 0 then some str
  else if offset = str.len then some str.clear
  else do
    let text ← memmove str.text 0 offset (str.len - offset)
    fixInside { str with text := text, len := str.len - offset }

/-- `String::strip(const char *)`. -/
def strip (fuel : ℕ) (str : Cstring) (clist : Text) : Option Cstring := do
  let str ← trim fuel str clist
  some (str.chop clist)

/-! ### Editing a string -/

inductive Edit
  | add (s : Text)
  | paste (offset : ℕ) (cp : Text) (size : ℕ)
  | cut (offset size : ℕ)
  | trim (clist : Text)
  | chop (clist : Text)
  | strip (clist : Text)
  | set (offset : ℕ) (s : Text) (size : ℕ)

section

variable {Name : Type} [DecidableEq Name]

/-- What a method that may have no outcome does to the buffer of its string. -/
def attempt (state : State Name) (this : Name) (change : Cstring → Option Cstring) :
    Option (State Name) :=
  match state.str this with
  | none => some state
  | some str => do
    let new ← change (state.heap.cstring str)
    some (edit state this fun _ => new)

/-- A call, whose loop may go round so many times. -/
def editOnce (fuel : ℕ) (state : State Name) (this : Name) : Edit → Option (State Name)
  | .add s => some (Strings.add state this s)
  | .paste offset cp size => some (Strings.paste state this offset (some cp) size)
  | .cut offset size => attempt state this fun str => Strings.cut str offset size
  | .trim clist => attempt state this fun str => Strings.trim fuel str clist
  | .chop clist => attempt state this fun str => some (str.chop clist)
  | .strip clist => attempt state this fun str => Strings.strip fuel str clist
  | .set offset s size => attempt state this fun str => some (str.setOffset offset s size)

end

/-! ### Editing a list -/

/-- The text of a string, and the size its buffer has. -/
structure Content where
  size : ℕ
  text : Text

/-- A character is in a list of characters. -/
def listed (clist : Text) (ch : UInt8) : Bool := ch ∈ string clist

/-- The size of the buffer once it has room for so many more characters. -/
def Content.room (content : Content) (more : ℕ) : ℕ :=
  if content.size = 0 ∨ more + content.text.length > content.size then
    more + content.text.length
  else content.size

/-- What an edit makes of the text, as a list of characters. -/
def Content.edited (content : Content) : Edit → Content
  | .add s => ⟨content.room (strlen s), content.text ++ string s⟩
  | .paste offset cp size =>
    let inserted := if size = 0 then string cp else (string cp).take size
    ⟨content.room inserted.length,
      content.text.take offset ++ inserted ++ content.text.drop offset⟩
  | .cut offset size =>
    { content with
      text := content.text.take offset ++
        if size = 0 then [] else content.text.drop (offset + size) }
  | .trim clist => { content with text := content.text.dropWhile (listed clist) }
  | .chop clist => { content with text := content.text.rdropWhile (listed clist) }
  | .strip clist =>
    { content with
      text := (content.text.dropWhile (listed clist)).rdropWhile (listed clist) }
  | .set offset s size =>
    let given := if size = 0 then string s else (string s).take size
    let written := given.take (content.size - offset)
    { content with
      text := content.text.take offset ++ written ++
        content.text.drop (offset + written.length) }

/-- What an edit may be given: numbers of type `size_t`, sizes that do not exceed the text, texts
that find room in memory beside that of the string, and for `set` an offset within the text. -/
def Content.Given (content : Content) : Edit → Prop
  | .add s => content.text.length + strlen s < 2 ^ 64
  | .paste _ cp size => size ≤ strlen cp ∧ content.text.length + strlen cp < 2 ^ 64
  | .cut offset size => offset < 2 ^ 64 ∧ size < 2 ^ 64
  | .trim _ | .chop _ | .strip _ => True
  | .set offset s size => offset ≤ content.text.length ∧ size ≤ strlen s

/-- The numbers of the method do not hold what they count. -/
def Content.Wraps (content : Content) : Edit → Prop
  | .cut offset size =>
    offset < content.text.length ∧
      2 ^ 64 ≤ offset + if size = 0 then content.text.length else size
  | .trim clist | .strip clist => 2 ^ 32 ≤ (content.text.takeWhile (listed clist)).length
  | _ => False

/-! ### The buffer of the string -/

section Methods

variable {str : Cstring} {t clist : Text}

theorem fixInside_eq (inside : str.len < str.text.length) : fixInside str = some str.fix :=
  if_pos inside

theorem memmove_eq {text : Text} {dest src size : ℕ} (source : src + size ≤ text.length)
    (target : dest + size ≤ text.length) :
    memmove text dest src size = some (move text dest ((text.drop src).take size)) :=
  if_pos ⟨source, target⟩

theorem minus_eq {a b : ℕ} (le : b ≤ a) (lt : a < 2 ^ 64) : minus a b = a - b := by
  unfold minus
  have split : a + 2 ^ 64 - b = (a - b) + 2 ^ 64 := by omega
  rw [split, Nat.add_mod_right, Nat.mod_eq_of_lt ((Nat.sub_le a b).trans_lt lt)]

/-- Where its sum does not wrap, `cut` is what it is for numbers of any size. -/
theorem cut_eq (contains : str.Contains t) (lt : str.max < 2 ^ 64) {offset size : ℕ}
    (fits : offset < t.length → offset + (if size = 0 then t.length else size) < 2 ^ 64) :
    Strings.cut str offset size = some (str.cut offset size) := by
  unfold Strings.cut Cstring.cut
  dsimp only
  rw [contains.len]
  split
  next => rfl
  next before =>
  have fits_ := fits (Nat.lt_of_not_le before)
  generalize (if size = 0 then t.length else size) = size at fits_ ⊢
  rw [Nat.mod_eq_of_lt fits_]
  have len_le := contains.len_le
  have length := contains.length
  split
  next beyond =>
    exact fixInside_eq (show offset < str.text.length by omega)
  next within =>
    have first : minus t.length offset = t.length - offset := minus_eq (by omega) (by omega)
    have second : minus (t.length - offset) size = t.length - offset - size :=
      minus_eq (by omega) (by omega)
    have third : minus t.length size = t.length - size := minus_eq (by omega) (by omega)
    rw [first, second, third, memmove_eq (by omega) (by omega)]
    refine fixInside_eq ?_
    show t.length - size < (move str.text offset _).length
    rw [length_move (by rw [List.length_take]; omega)]
    omega

/-- Where its sum wraps, `cut` does not leave the first characters. -/
theorem cut_wraps (contains : str.Contains t) (lt : str.max < 2 ^ 64) {offset size : ℕ}
    (small : offset < 2 ^ 64) (small_ : size < 2 ^ 64) (within : offset < t.length)
    (wraps : 2 ^ 64 ≤ offset + if size = 0 then t.length else size) {new : Cstring}
    (cut_ : Strings.cut str offset size = some new) : ¬ new.Contains (t.take offset) := by
  intro left
  have len_le := contains.len_le
  have len_ : new.len = offset := by
    rw [left.len, List.length_take_of_le within.le]
  unfold Strings.cut at cut_
  rw [contains.len, if_neg (Nat.not_le_of_lt within)] at cut_
  dsimp only at cut_
  have large : (if size = 0 then t.length else size) < 2 ^ 64 := by split <;> omega
  generalize (if size = 0 then t.length else size) = size at wraps large cut_
  have behind : (offset + size) % 2 ^ 64 = offset + size - 2 ^ 64 := by
    rw [Nat.mod_eq_sub_mod wraps, Nat.mod_eq_of_lt (by omega)]
  rw [behind, if_neg (by omega)] at cut_
  obtain ⟨text, -, fixed⟩ := Option.bind_eq_some_iff.mp cut_
  unfold fixInside at fixed
  split at fixed
  next =>
    cases fixed
    have same : minus t.length size = offset := len_
    unfold minus at same
    omega
  next => cases fixed

/-- Among the characters at the start that are in the list, and the one behind these, a place has
one of them if it is before their end. -/
theorem takeWhile_goes_on (p : UInt8 → Bool) (t : Text) {offset : ℕ}
    (reached : offset ≤ (t.takeWhile p).length) :
    (offset < t.length ∧ p (t.getD offset 0) = true) ↔ offset < (t.takeWhile p).length := by
  induction t generalizing offset with
  | nil => simp
  | cons ch t inductionHypothesis =>
    by_cases first : p ch
    · rw [List.takeWhile_cons_of_pos first, List.length_cons] at reached ⊢
      cases offset with
      | zero => simp [first]
      | succ offset =>
        rw [List.length_cons, Nat.succ_lt_succ_iff, Nat.succ_lt_succ_iff, List.getD_cons_succ]
        exact inductionHypothesis (Nat.le_of_succ_le_succ reached)
    · rw [List.takeWhile_cons_of_neg first, List.length_nil, Nat.le_zero] at reached
      rw [List.takeWhile_cons_of_neg first, reached]
      simp [first]

/-- The test of the loop. -/
theorem trimLoop_test (contains : str.Contains t) (clist : Text) {offset : ℕ}
    (reached : offset ≤ (t.takeWhile (strchr clist)).length) :
    (offset < str.len ∧ strchr clist (str.text.getD offset 0) = true) ↔
      offset < (t.takeWhile (strchr clist)).length := by
  rw [← takeWhile_goes_on (strchr clist) t reached, contains.len]
  refine and_congr_right fun within => ?_
  have read : t.getD offset 0 = str.text.getD offset 0 := by
    rw [← contains.take_len, contains.len, List.getD_eq_getElem?_getD,
      List.getElem?_take_of_lt within, List.getD_eq_getElem?_getD]
  rw [read]

/-- The loop counts the characters at the start that are in the list, when it can. -/
theorem trimLoop_eq (contains : str.Contains t)
    (fits : (t.takeWhile (strchr clist)).length < 2 ^ 32) {offset fuel : ℕ}
    (reached : offset ≤ (t.takeWhile (strchr clist)).length)
    (enough : (t.takeWhile (strchr clist)).length < offset + fuel) :
    trimLoop str clist fuel offset = some (t.takeWhile (strchr clist)).length := by
  induction fuel generalizing offset with
  | zero => exact absurd enough (Nat.not_lt_of_le reached)
  | succ fuel inductionHypothesis =>
    rw [trimLoop]
    simp only [trimLoop_test contains clist reached]
    split
    next before =>
      rw [Nat.mod_eq_of_lt (by omega)]
      exact inductionHypothesis before (by omega)
    next whole =>
      exact congrArg some (Nat.le_antisymm reached (Nat.le_of_not_lt whole))

/-- The loop does not end when its counter starts again before it has counted them. -/
theorem trimLoop_none (contains : str.Contains t)
    (wraps : 2 ^ 32 ≤ (t.takeWhile (strchr clist)).length) (fuel : ℕ) {offset : ℕ}
    (small : offset < 2 ^ 32) : trimLoop str clist fuel offset = none := by
  induction fuel generalizing offset with
  | zero => rfl
  | succ fuel inductionHypothesis =>
    have before : offset < (t.takeWhile (strchr clist)).length := small.trans_le wraps
    rw [trimLoop, if_pos ((trimLoop_test contains clist before.le).mpr before)]
    exact inductionHypothesis (Nat.mod_lt _ (by norm_num))

/-- Where its counter does not wrap, `trim` ends and is what it is for a counter of any size. -/
theorem trim_eq (contains : str.Contains t)
    (fits : (t.takeWhile (strchr clist)).length < 2 ^ 32) :
    Strings.trim ((t.takeWhile (strchr clist)).length + 1) str clist = some (str.trim clist) := by
  have counted := trimLoop_eq contains fits (Nat.zero_le _)
    (show (t.takeWhile (strchr clist)).length < 0 + ((t.takeWhile (strchr clist)).length + 1) by
      omega)
  have within : (t.takeWhile (strchr clist)).length ≤ t.length :=
    (List.takeWhile_sublist _).length_le
  have length := contains.length
  have len_le := contains.len_le
  unfold Strings.trim Cstring.trim
  rw [counted, Option.bind_eq_bind, Option.bind_some]
  dsimp only
  rw [contains.take_len, contains.len]
  generalize (t.takeWhile (strchr clist)).length = offset at within ⊢
  split
  next => rfl
  next some_ =>
  split
  next => rfl
  next =>
    rw [memmove_eq (by omega) (by omega)]
    refine fixInside_eq ?_
    show t.length - offset < (move str.text 0 _).length
    rw [length_move (by rw [List.length_take]; omega)]
    omega

theorem trim_none (contains : str.Contains t)
    (wraps : 2 ^ 32 ≤ (t.takeWhile (strchr clist)).length) (fuel : ℕ) :
    Strings.trim fuel str clist = none := by
  unfold Strings.trim
  rw [trimLoop_none contains wraps fuel (by norm_num)]
  rfl

/-- The null apart, `strchr` finds what is listed. -/
theorem strchr_listed {ch : UInt8} (visible : ch ≠ 0) (clist : Text) :
    strchr clist ch = listed clist ch := by
  simp [strchr, listed, visible]

/-- A text has no null, so that what `strchr` finds at its start is listed. -/
theorem dropWhile_listed (noNull : 0 ∉ t) (clist : Text) :
    t.takeWhile (strchr clist) = t.takeWhile (listed clist) ∧
      t.dropWhile (strchr clist) = t.dropWhile (listed clist) := by
  induction t with
  | nil => exact ⟨rfl, rfl⟩
  | cons ch t inductionHypothesis =>
    rw [List.mem_cons, not_or] at noNull
    obtain ⟨taken, dropped⟩ := inductionHypothesis noNull.2
    have first := strchr_listed (Ne.symm noNull.1) clist
    cases listed_ : listed clist ch with
    | true =>
      rw [listed_] at first
      rw [List.takeWhile_cons_of_pos first, List.takeWhile_cons_of_pos listed_,
        List.dropWhile_cons_of_pos first, List.dropWhile_cons_of_pos listed_, taken]
      exact ⟨rfl, dropped⟩
    | false =>
      rw [listed_] at first
      have first_ : ¬ strchr clist ch = true := Bool.eq_false_iff.mp first
      have not_ : ¬ listed clist ch = true := Bool.eq_false_iff.mp listed_
      rw [List.takeWhile_cons_of_neg first_, List.takeWhile_cons_of_neg not_,
        List.dropWhile_cons_of_neg first_, List.dropWhile_cons_of_neg not_]
      exact ⟨rfl, rfl⟩

theorem rdropWhile_listed (noNull : 0 ∉ t) (clist : Text) :
    t.rdropWhile (strchr clist) = t.rdropWhile (listed clist) := by
  have noNull_ : 0 ∉ t.reverse := fun member => noNull (List.mem_reverse.mp member)
  rw [List.rdropWhile, List.rdropWhile, (dropWhile_listed noNull_ clist).2]

end Methods

/-! ### The string that holds the buffer alone -/

section Owned

variable {Name : Type} [DecidableEq Name] {state : State Name} {this : Name}

/-- No other string points to the buffer, nor is it counted for one. -/
structure Alone (state : State Name) (this : Name) (str : ℕ) : Prop where
  points : state.str this = some str
  count : ¬ state.heap.isCopied str
  others : ∀ other, other ≠ this → state.str other ≠ some str
  within : ∀ other str, state.str other = some str → str < state.heap.size

/-- A buffer with this size and this text. -/
structure Stored (str : Cstring) (content : Content) : Prop where
  contains : str.Contains content.text
  size : str.max = content.size
  size_lt : content.size < 2 ^ 64

/-- A string that holds its buffer alone, which has this size and contains this text. -/
def Owned (state : State Name) (this : Name) (content : Content) : Prop :=
  ∃ str, Alone state this str ∧ Stored (state.heap.cstring str) content

variable {str : ℕ} {content target : Content}

omit [DecidableEq Name] in
theorem Alone.edit (alone : Alone state this str) (change : Cstring → Cstring) :
    Alone (edit state this change) this str := by
  unfold Strings.edit
  rw [alone.points]
  exact ⟨alone.points, alone.count, alone.others, alone.within⟩

omit [DecidableEq Name] in
/-- What is done to the buffer is done to the string. -/
theorem Alone.owned_edit (alone : Alone state this str) {change : Cstring → Cstring}
    (stored : Stored (change (state.heap.cstring str)) target) :
    Owned (Strings.edit state this change) this target := by
  refine ⟨str, alone.edit change, ?_⟩
  rw [cstring_edit alone.points]
  exact stored

omit [DecidableEq Name] in
theorem Alone.attempt_eq (alone : Alone state this str) {change : Cstring → Option Cstring} :
    attempt state this change =
      (change (state.heap.cstring str)).map fun new => Strings.edit state this fun _ => new := by
  unfold attempt
  rw [alone.points]
  dsimp only
  cases change (state.heap.cstring str) <;> rfl

omit [DecidableEq Name] in
theorem Alone.attempt (alone : Alone state this str) {change : Cstring → Option Cstring}
    {new : Cstring} (changed : change (state.heap.cstring str) = some new)
    (stored : Stored new target) :
    ∃ next, attempt state this change = some next ∧ Owned next this target := by
  refine ⟨Strings.edit state this fun _ => new, ?_, alone.owned_edit stored⟩
  rw [alone.attempt_eq, changed]
  rfl

theorem Content.room_zero {str : Cstring} (stored : Stored str content) :
    content.room 0 = content.size := by
  have le := stored.contains.len_le
  rw [stored.size] at le
  unfold Content.room
  split <;> omega

theorem Content.le_room (content : Content) (more : ℕ) :
    more + content.text.length ≤ content.room more := by
  unfold Content.room
  split <;> omega

/-- A copy of a buffer has its text. -/
theorem contains_cowed {str : Cstring} {t : Text} (contains : str.Contains t) {size : ℕ}
    (room : t.length ≤ size) (positive : 0 < size) (junk : ℕ → UInt8) :
    (cowed str (Cstring.create size junk)).Contains t := by
  have length_ : (Cstring.create size junk).text.length = size + 1 :=
    Cstring.length_create size junk
  have strlen_ : strlen str.text = t.length := contains.strlen.trans contains.len
  have counted : (if strlen str.text ≥ size + 1 then size + 1 - 1 else strlen str.text) =
      t.length := by
    rw [strlen_]
    exact if_neg (by omega)
  have copied : str.text.take t.length = t := by
    rw [← contains.len, contains.take_len]
  show Cstring.Contains ⟨size, str.len,
    Bytes.set (Cstring.create size junk).text 0 (size + 1) str.text⟩ t
  unfold Bytes.set
  rw [if_neg (by omega), counted]
  dsimp only
  rw [copied, Nat.zero_add, ← contains.len]
  have moved := @Cstring.take_move (Cstring.create size junk).text t 0 (Nat.zero_le _)
  rw [Nat.zero_add, List.take_zero, List.nil_append] at moved
  have memory : (move (Cstring.create size junk).text 0 t).length = size + 1 := by
    rw [length_move (by omega), length_]
  exact Cstring.contains_fix contains.noNull moved contains.len room memory

/-- The buffer that `cow` makes is a copy of the one the string had. -/
theorem cow_new (points_ : state.str this = some str) {size : ℕ} {s : Text}
    (detaches : Detaches state.heap str size s) :
    (cow state this size s).str this = some state.heap.size ∧
      (cow state this size s).heap.size = state.heap.size + 1 ∧
      (cow state this size s).heap.cstring state.heap.size =
        cowed (state.heap.cstring str) (Cstring.create (wanted state.heap str size s)
          (state.heap.fresh state.heap.size)) := by
  rw [cow_detached points_ detaches]
  refine ⟨store_str_self _ _ _, ?_, ?_⟩
  · show (Heap.release _ str).size = _
    rw [release_size]
    rfl
  · show (Heap.release _ str).cstring state.heap.size = _
    rw [release_cstring]
    show Function.update _ _ _ state.heap.size = _
    rw [Function.update_self]
    exact congrArg (cowed _) (Function.update_self _ _ _)

/-- The buffer that `cow` makes for the string is its own. -/
theorem Alone.detach (alone : Alone state this str) {size : ℕ} {s : Text}
    (detaches : Detaches state.heap str size s) :
    Alone (cow state this size s) this state.heap.size := by
  have apart : str ≠ state.heap.size := Nat.ne_of_lt (alone.within this str alone.points)
  obtain ⟨points_, larger, -⟩ := cow_new alone.points detaches
  have others := (touches_cow state this size s).str
  refine ⟨points_, ?_, fun other elsewhere points_ => ?_, fun other old points_ => ?_⟩
  · rw [cow_detached alone.points detaches]
    show ¬ (Heap.release _ str).count state.heap.size > 1
    rw [release_count_of_ne apart.symm]
    show ¬ Function.update (Function.update state.heap.count state.heap.size 0) state.heap.size
      (raise (Function.update state.heap.count state.heap.size 0 state.heap.size) 1)
      state.heap.size > 1
    rw [Function.update_self, Function.update_self]
    exact Nat.lt_irrefl 1
  · rw [others other elsewhere] at points_
    exact Nat.lt_irrefl _ (alone.within other _ points_)
  · rw [larger]
    by_cases same : other = this
    · have new := (cow_new alone.points detaches).1
      rw [same, new] at points_
      cases points_
      exact Nat.lt_succ_self _
    · rw [others other same] at points_
      exact (alone.within other old points_).trans (Nat.lt_succ_self _)

/-- `cow` leaves the string a buffer that has room for so many more characters. -/
theorem Alone.cow (alone : Alone state this str)
    (stored : Stored (state.heap.cstring str) content) {size : ℕ} {s : Text} (positive : 0 < size)
    (given : size ≤ strlen s) (fits : content.text.length + size < 2 ^ 64) :
    ∃ new, Alone (cow state this size s) this new ∧
      Stored ((cow state this size s).heap.cstring new) ⟨content.room size, content.text⟩ := by
  have len_ : (state.heap.cstring str).len = content.text.length := stored.contains.len
  by_cases detaches : Detaches state.heap str size s
  · obtain ⟨-, -, new⟩ := cow_new alone.points detaches
    have grown : content.room size = size + content.text.length := by
      rw [Detaches, or_iff_right alone.count, stored.size, wanted_eq given, len_] at detaches
      exact if_pos detaches.2
    refine ⟨state.heap.size, alone.detach detaches, ?_⟩
    rw [new, wanted_eq given, len_, grown]
    exact ⟨contains_cowed stored.contains (Nat.le_add_left _ _) (by omega) _, rfl,
      (Nat.add_comm _ _).trans_lt fits⟩
  · rw [cow_attached alone.points detaches]
    rw [Detaches, stored.size, wanted_eq given, len_] at detaches
    have same : content.room size = content.size :=
      if_neg fun grows => detaches ⟨by omega, Or.inr grows⟩
    rw [same]
    exact ⟨str, alone, stored⟩

/-! ### One call -/

/-- A call edits the list: it ends, and leaves the string alone with what the edit makes of its
text. -/
def Edits (state : State Name) (this : Name) (content : Content) (edit : Edit)
    (next : State Name) : Prop :=
  (∃ fuel, editOnce fuel state this edit = some next) ∧ Owned next this (content.edited edit)

theorem Owned.add (owned : Owned state this content) {s : Text}
    (given : content.Given (.add s)) :
    Owned (Strings.add state this s) this (content.edited (.add s)) := by
  obtain ⟨str, alone, stored⟩ := owned
  show Owned _ this ⟨content.room (strlen s), content.text ++ string s⟩
  unfold Strings.add
  split
  next empty =>
    rw [strlen, empty, List.append_nil]
    refine ⟨str, alone, ?_⟩
    show Stored _ ⟨content.room 0, content.text⟩
    rw [Content.room_zero stored]
    exact stored
  next some_ =>
    rw [alone.points]
    obtain ⟨new, alone_, stored_⟩ := alone.cow stored (List.length_pos_iff.mpr some_) le_rfl given
    refine alone_.owned_edit ⟨stored_.contains.add ?_, ?_, stored_.size_lt⟩
    · rw [stored_.size, Nat.add_comm]
      exact content.le_room (strlen s)
    · rw [Cstring.max_add]
      exact stored_.size

/-- What is inserted by `paste`. -/
theorem inserted_eq (cp : Text) (size : ℕ) :
    (string cp).take (if size = 0 then strlen cp else size) =
      if size = 0 then string cp else (string cp).take size := by
  split
  · exact List.take_length
  · rfl

theorem Owned.paste (owned : Owned state this content) {offset size : ℕ} {cp : Text}
    (given : content.Given (.paste offset cp size)) :
    Owned (Strings.paste state this offset (some cp) size) this
      (content.edited (.paste offset cp size)) := by
  obtain ⟨str, alone, stored⟩ := owned
  obtain ⟨short, fits⟩ := given
  have short_ : (if size = 0 then strlen cp else size) ≤ strlen cp := by split <;> omega
  unfold Strings.paste Content.edited
  dsimp only
  rw [← inserted_eq]
  generalize (if size = 0 then strlen cp else size) = size at short_ ⊢
  have length_ : ((string cp).take size).length = size := List.length_take_of_le short_
  rw [length_]
  split
  next zero =>
    rw [zero, List.take_zero, List.append_nil, List.take_append_drop, Content.room_zero stored]
    exact ⟨str, alone, stored⟩
  next some_ =>
    rw [alone.points]
    have positive : 0 < size := Nat.pos_of_ne_zero some_
    obtain ⟨new, alone_, stored_⟩ := alone.cow stored positive short_ (by omega)
    refine alone_.owned_edit ⟨stored_.contains.paste positive short_ ?_, ?_, stored_.size_lt⟩
    · rw [stored_.size]
      exact content.le_room size
    · rw [Cstring.max_paste]
      exact stored_.size

/-- A call edits the list when the method does, in the buffer. -/
theorem Alone.edits (alone : Alone state this str) {edit : Edit} (fuel : ℕ)
    (change : Cstring → Option Cstring)
    (called : editOnce fuel state this edit = Strings.attempt state this change) {new : Cstring}
    (changed : change (state.heap.cstring str) = some new)
    (stored : Stored new (content.edited edit)) : ∃ next, Edits state this content edit next := by
  obtain ⟨next, attempted, owned_⟩ := alone.attempt changed stored
  exact ⟨next, ⟨fuel, called.trans attempted⟩, owned_⟩

omit [DecidableEq Name] in
/-- A call is right only when the method is, for the buffer. -/
theorem Alone.of_attempt (alone : Alone state this str) {change : Cstring → Option Cstring}
    {next : State Name} (attempted : Strings.attempt state this change = some next)
    (owned : Owned next this target) :
    ∃ new, change (state.heap.cstring str) = some new ∧ Stored new target := by
  rw [alone.attempt_eq] at attempted
  obtain ⟨new, changed, rfl⟩ := Option.map_eq_some_iff.mp attempted
  obtain ⟨str', alone_, stored⟩ := owned
  have same : str' = str :=
    Option.some.inj (alone_.points.symm.trans (alone.edit fun _ => new).points)
  rw [same, cstring_edit alone.points] at stored
  exact ⟨new, changed, stored⟩

/-- The methods that work in place, and always end, edit the list. -/
theorem edits_chop (owned : Owned state this content) (clist : Text) :
    ∃ next, Edits state this content (.chop clist) next := by
  obtain ⟨str, alone, stored⟩ := owned
  have chopped := stored.contains.chop clist
  rw [rdropWhile_listed stored.contains.noNull] at chopped
  exact alone.edits 0 (fun str => some (str.chop clist)) rfl rfl
    ⟨chopped, (Cstring.max_chop _ _).trans stored.size, stored.size_lt⟩

theorem edits_set (owned : Owned state this content) {offset size : ℕ} {s : Text}
    (given : content.Given (.set offset s size)) :
    ∃ next, Edits state this content (.set offset s size) next := by
  obtain ⟨str, alone, stored⟩ := owned
  have written := stored.contains.setOffset given.1 given.2
  rw [Nat.min_comm, ← List.take_take, inserted_eq, stored.size] at written
  exact alone.edits 0 (fun str => some (str.setOffset offset s size)) rfl rfl
    ⟨written, (Cstring.max_setOffset _ _ _ _).trans stored.size, stored.size_lt⟩

theorem edits_cut_iff (owned : Owned state this content) {offset size : ℕ}
    (given : content.Given (.cut offset size)) :
    (∃ next, Edits state this content (.cut offset size) next) ↔
      ¬ content.Wraps (.cut offset size) := by
  obtain ⟨str, alone, stored⟩ := owned
  have lt : (state.heap.cstring str).max < 2 ^ 64 := by
    rw [stored.size]
    exact stored.size_lt
  constructor
  · rintro ⟨next, ⟨fuel, attempted⟩, owned_⟩ ⟨within, wraps⟩
    obtain ⟨new, cut_, stored_⟩ :=
      @Alone.of_attempt _ _ _ _ _ alone (fun str => Strings.cut str offset size) _ attempted owned_
    refine cut_wraps stored.contains lt given.1 given.2 within wraps cut_ ?_
    have left : new.Contains (content.text.take offset ++
        if size = 0 then [] else content.text.drop (offset + size)) := stored_.contains
    have len_le := stored.contains.len_le
    have nothing : (if size = 0 then [] else content.text.drop (offset + size)) = [] := by
      split
      next => rfl
      next some_ =>
        rw [if_neg some_] at wraps
        have small := stored.size_lt
        rw [stored.size] at len_le
        exact List.drop_eq_nil_of_le (by omega)
    rw [nothing, List.append_nil] at left
    exact left
  · intro fits
    have sound := stored.contains.cut offset size
    have same : content.text.drop (offset + if size = 0 then content.text.length else size) =
        if size = 0 then [] else content.text.drop (offset + size) := by
      split
      · exact List.drop_eq_nil_of_le (Nat.le_add_left _ _)
      · rfl
    rw [same] at sound
    have cut_ := cut_eq stored.contains lt fun within => Nat.lt_of_not_le fun wraps =>
      fits ⟨within, wraps⟩
    exact alone.edits 0 (fun str => Strings.cut str offset size) rfl cut_
      ⟨sound, (Cstring.max_cut _ _ _).trans stored.size, stored.size_lt⟩

theorem edits_trim_iff (owned : Owned state this content) (clist : Text) :
    (∃ next, Edits state this content (.trim clist) next) ↔ ¬ content.Wraps (.trim clist) := by
  obtain ⟨str, alone, stored⟩ := owned
  obtain ⟨taken, dropped⟩ := dropWhile_listed stored.contains.noNull clist
  show _ ↔ ¬ 2 ^ 32 ≤ (content.text.takeWhile (listed clist)).length
  rw [← taken]
  constructor
  · rintro ⟨next, ⟨fuel, attempted⟩, owned_⟩ wraps
    obtain ⟨new, trimmed, -⟩ :=
      @Alone.of_attempt _ _ _ _ _ alone (fun str => Strings.trim fuel str clist) _ attempted owned_
    rw [trim_none stored.contains wraps fuel] at trimmed
    cases trimmed
  · intro fits
    have sound := stored.contains.trim clist
    rw [dropped] at sound
    exact alone.edits _ (fun str => Strings.trim _ str clist) rfl
      (trim_eq stored.contains (Nat.lt_of_not_le fits))
      ⟨sound, (Cstring.max_trim _ _).trans stored.size, stored.size_lt⟩

theorem edits_strip_iff (owned : Owned state this content) (clist : Text) :
    (∃ next, Edits state this content (.strip clist) next) ↔ ¬ content.Wraps (.strip clist) := by
  obtain ⟨str, alone, stored⟩ := owned
  obtain ⟨taken, dropped⟩ := dropWhile_listed stored.contains.noNull clist
  show _ ↔ ¬ 2 ^ 32 ≤ (content.text.takeWhile (listed clist)).length
  rw [← taken]
  constructor
  · rintro ⟨next, ⟨fuel, attempted⟩, owned_⟩ wraps
    obtain ⟨new, stripped, -⟩ :=
      @Alone.of_attempt _ _ _ _ _ alone (fun str => Strings.strip fuel str clist) _ attempted owned_
    unfold Strings.strip at stripped
    rw [trim_none stored.contains wraps fuel] at stripped
    cases stripped
  · intro fits
    have sound := stored.contains.strip clist
    rw [dropped, rdropWhile_listed (dropped ▸ (stored.contains.trim clist).noNull)] at sound
    have stripped : Strings.strip ((content.text.takeWhile (strchr clist)).length + 1)
        (state.heap.cstring str) clist = some ((state.heap.cstring str).strip clist) := by
      unfold Strings.strip
      rw [trim_eq stored.contains (Nat.lt_of_not_le fits)]
      rfl
    have size_ : ((state.heap.cstring str).strip clist).max = content.size := by
      rw [Cstring.strip, Cstring.max_chop, Cstring.max_trim]
      exact stored.size
    exact alone.edits _ (fun str => Strings.strip _ str clist) rfl stripped
      ⟨sound, size_, stored.size_lt⟩

/-- A call edits the list exactly when the numbers of the method hold what they count. -/
theorem edits_once_iff (owned : Owned state this content) {edit : Edit}
    (given : content.Given edit) :
    (∃ next, Edits state this content edit next) ↔ ¬ content.Wraps edit := by
  cases edit with
  | add s => exact iff_of_true ⟨_, ⟨0, rfl⟩, owned.add given⟩ id
  | paste offset cp size => exact iff_of_true ⟨_, ⟨0, rfl⟩, owned.paste given⟩ id
  | cut offset size => exact edits_cut_iff owned given
  | trim clist => exact edits_trim_iff owned clist
  | chop clist => exact iff_of_true (edits_chop owned clist) id
  | strip clist => exact edits_strip_iff owned clist
  | set offset s size => exact iff_of_true (edits_set owned given) id

/-! ### Many calls -/

/-- Each of these calls edits the list that the calls before it have left. -/
def EditsAll (this : Name) : State Name → Content → List Edit → Prop
  | _, _, [] => True
  | state, content, edit :: edits =>
    ∃ next, Edits state this content edit next ∧ EditsAll this next (content.edited edit) edits

/-- Each of these edits is given what it may be given. -/
def Content.GivenAll : Content → List Edit → Prop
  | _, [] => True
  | content, edit :: edits => content.Given edit ∧ (content.edited edit).GivenAll edits

/-- In none of these edits do the numbers wrap. -/
def Content.WrapsNever : Content → List Edit → Prop
  | _, [] => True
  | content, edit :: edits => ¬ content.Wraps edit ∧ (content.edited edit).WrapsNever edits

/-- The calls of a sequence edit the list one after the other exactly when in none of them the
numbers wrap. -/
theorem edits_iff {edits : List Edit} (owned : Owned state this content)
    (given : content.GivenAll edits) :
    EditsAll this state content edits ↔ content.WrapsNever edits := by
  induction edits generalizing state content with
  | nil => exact Iff.rfl
  | cons edit edits inductionHypothesis =>
    obtain ⟨first, later⟩ := given
    have once := edits_once_iff owned first
    constructor
    · rintro ⟨next, edited_, all⟩
      exact ⟨once.mp ⟨next, edited_⟩, (inductionHypothesis edited_.2 later).mp all⟩
    · rintro ⟨fits, never⟩
      obtain ⟨next, edited_⟩ := once.mpr fits
      exact ⟨next, edited_, (inductionHypothesis edited_.2 later).mpr never⟩

end Owned

/-! ### A short string -/

theorem alone_hi : Alone hi false 0 := by
  have first : hi.str false = some 0 := by decide
  have none_ : hi.str true = none := by decide
  refine ⟨first, by decide, fun other apart points_ => ?_, fun other str points_ => ?_⟩
  · cases other with
    | false => exact apart rfl
    | true =>
      rw [none_] at points_
      cases points_
  · cases other with
    | false =>
      rw [first] at points_
      cases points_
      exact Nat.zero_lt_one
    | true =>
      rw [none_] at points_
      cases points_

theorem owned_hi : Owned hi false ⟨2, [0x48, 0x69]⟩ :=
  ⟨0, alone_hi, ⟨by decide, by decide, by decide, by decide⟩, by decide,
    show 2 < 2 ^ 64 by decide⟩

/-- `Hi` is made `Ha!`, and then `Ah!`. -/
theorem edits_iff_hi : EditsAll false hi ⟨2, [0x48, 0x69]⟩
    [.add [0x21], .set 1 [0x61] 0, .paste 0 [0x20, 0x41] 2, .cut 2 1, .trim [0x20]] := by
  refine (edits_iff owned_hi ?_).mpr ?_
  · simp [Content.GivenAll, Content.Given, Content.edited, Content.room, strlen, string]
  · simp [Content.WrapsNever, Content.Wraps, Content.edited, string, listed]

/-- `cut(1, npos)` on `Hi`: what would be left is `H`, but the null is set behind the memory. -/
theorem cut_overruns : Owned hi false ⟨2, [0x48, 0x69]⟩ ∧
    Content.GivenAll ⟨2, [0x48, 0x69]⟩ [.cut 1 (2 ^ 64 - 1)] ∧
    (∀ fuel, editOnce fuel hi false (.cut 1 (2 ^ 64 - 1)) = none) ∧
    ¬ EditsAll false hi ⟨2, [0x48, 0x69]⟩ [.cut 1 (2 ^ 64 - 1)] := by
  have overruns : ∀ fuel, editOnce fuel hi false (.cut 1 (2 ^ 64 - 1)) = none := by
    intro fuel
    have outside : cut (hi.heap.cstring 0) 1 (2 ^ 64 - 1) = none := by decide +kernel
    show attempt hi false (fun str => Strings.cut str 1 (2 ^ 64 - 1)) = none
    rw [alone_hi.attempt_eq, outside]
    rfl
  refine ⟨owned_hi, ⟨⟨by norm_num, by norm_num⟩, trivial⟩, overruns, ?_⟩
  rintro ⟨next, ⟨⟨fuel, called⟩, -⟩, -⟩
  rw [overruns fuel] at called
  cases called

end Strings

end CommonCpp
