/-
This file tells, for each method that changes a buffer in place, when the value of the buffer
is the same afterwards: the text that is read from it, and its length.

For most of them it is when the method finds nothing to do. A text that is written over
another leaves the value as it is when it is written behind the null, or when it is there
already.
-/

import CommonCpp.Cstring

namespace CommonCpp

open Ctype Bytes

namespace Cstring

/-! ### When the value is kept -/

section Kept

variable {str : Cstring}

theorem value_ne_of_len {other : Cstring} (apart : other.len ≠ str.len) :
    other.value ≠ str.value :=
  fun same => apart (value_eq_iff.mp same).2

theorem Valid.strlen_le (valid : Valid str) : strlen str.text ≤ str.max := by
  by_contra longer
  have within : str.text.length ≤ strlen str.text := by
    rw [valid.length]
    exact Nat.lt_of_not_le longer
  have whole : string str.text = str.text := by
    rw [← take_strlen, List.take_of_length_le within]
  have null := valid.terminated
  rw [← whole] at null
  exact zero_notMem_string str.text null

theorem string_fix (str : Cstring) : string (fix str).text = (string str.text).take str.len :=
  string_set_zero str.text str.len

theorem value_fix_iff : (fix str).value = str.value ↔ strlen str.text ≤ str.len := by
  rw [value_eq_iff, string_fix, List.take_eq_self_iff]
  exact and_iff_left rfl

theorem value_clearAt_iff {offset : ℕ} : (clearAt str offset).value = str.value ↔
    str.len ≤ offset := by
  unfold clearAt
  split
  next behind => exact iff_of_true rfl behind
  next within => exact iff_of_false (value_ne_of_len (by dsimp only; omega)) within

theorem value_dec_iff {offset : ℕ} : (dec str offset).value = str.value ↔ str.len = 0 := by
  unfold dec
  split
  next empty => exact iff_of_true rfl empty
  next filled =>
    refine iff_of_false ?_ filled
    split
    · exact value_ne_of_len (Ne.symm filled)
    · exact value_ne_of_len (by dsimp only; omega)

theorem value_inc_iff {offset : ℕ} :
    (inc str offset).value = str.value ↔ str.len = 0 ∧ string str.text = [] := by
  unfold inc
  have positive : 0 < if offset = 0 then 1 else offset := by split <;> omega
  generalize (if offset = 0 then 1 else offset) = offset at positive ⊢
  dsimp only
  split
  next reached =>
    have cleared : string ((str.text.set 0 0).set 0 0) = [] := by
      rw [string_set_zero, List.take_zero]
    show ({ str with text := (str.text.set 0 0).set 0 0, len := 0 } : Cstring).value = _ ↔ _
    rw [value_eq_iff, cleared]
    exact ⟨fun ⟨text, len⟩ => ⟨len.symm, text.symm⟩, fun ⟨len, text⟩ => ⟨text.symm, len.symm⟩⟩
  next within =>
    refine iff_of_false (value_ne_of_len ?_) fun empty => ?_
    · show str.len - offset ≠ str.len
      omega
    · exact within (empty.1 ▸ Nat.zero_le _)

/-- A text is added where there is room for it. -/
theorem len_add {s : Text} (visible : string s ≠ []) (room : str.len + strlen s ≤ str.max) :
    (add str s).len = str.len + strlen s := by
  have positive : 0 < strlen s := List.length_pos_iff.mpr visible
  unfold add
  dsimp only
  rw [if_neg (Nat.ne_of_gt positive), if_neg (Nat.not_lt_of_le room),
    if_neg (Nat.not_lt_of_le positive)]
  rfl

/-- What is cut out before the end makes the string shorter. -/
theorem len_cut_lt {offset : ℕ} (within : offset < str.len) (size : ℕ) :
    (cut str offset size).len < str.len := by
  have positive : 0 < if size = 0 then str.len else size := by split <;> omega
  unfold cut
  generalize (if size = 0 then str.len else size) = size at positive ⊢
  rw [if_neg (Nat.not_le_of_lt within)]
  dsimp only
  split
  · exact within
  · show str.len - size < str.len
    omega

theorem value_cut_iff {offset size : ℕ} :
    (cut str offset size).value = str.value ↔ str.len ≤ offset := by
  by_cases behind : str.len ≤ offset
  · exact iff_of_true (congrArg value (if_pos behind)) behind
  · exact iff_of_false
      (value_ne_of_len (Nat.ne_of_lt (len_cut_lt (Nat.lt_of_not_le behind) size))) behind

theorem len_cut_le (offset size : ℕ) : (cut str offset size).len ≤ str.len := by
  by_cases behind : str.len ≤ offset
  · exact (congrArg len (if_pos behind)).le
  · exact Nat.le_of_lt (len_cut_lt (Nat.lt_of_not_le behind) size)

theorem value_splitAt_iff {pos : ℕ} :
    (splitAt str pos).value = str.value ↔ str.len ≤ pos ∨ strlen str.text ≤ pos := by
  unfold splitAt
  split
  next behind => exact iff_of_true rfl (Or.inl behind)
  next within =>
    have cut_ : string (fix { str with text := str.text.set pos 0 }).text =
        (string str.text).take pos := by
      rw [string_fix, string_set_zero, List.take_take, Nat.min_eq_right (by dsimp only; omega)]
    rw [value_eq_iff, cut_, List.take_eq_self_iff, or_iff_right within]
    exact and_iff_left rfl

theorem value_split_iff {s : ℤ} : (split str s).value = str.value ↔
    s < 0 ∨ str.len ≤ s ∨ strlen str.text ≤ s.toNat := by
  unfold split
  split
  next outside =>
    refine iff_of_true rfl ?_
    rcases outside with before | behind
    · exact Or.inl before
    · exact Or.inr (Or.inl behind)
  next inside =>
    rw [not_or] at inside
    rw [or_iff_right inside.1, or_iff_right inside.2]
    have cut_ : string (fix { str with text := str.text.set s.toNat 0 }).text =
        (string str.text).take s.toNat := by
      rw [string_fix, string_set_zero, List.take_take, Nat.min_eq_right (by dsimp only; omega)]
    split
    next null =>
      refine iff_of_true rfl (Nat.le_of_not_lt fun within => ?_)
      exact getD_ne_zero within null
    next visible =>
      rw [value_eq_iff, cut_, List.take_eq_self_iff]
      exact and_iff_left rfl

/-- What is written, and where it ends, when a text is set. -/
theorem string_set (str : Cstring) (s : Text) :
    string (set str s).text = (string s).take str.max ∧
      (set str s).len = ((string s).take str.max).length := by
  have size_ : (if strlen s > str.max then str.max else strlen s) =
      ((string s).take str.max).length := by
    rw [List.length_take]
    show _ = min str.max (strlen s)
    split <;> omega
  have written : s.take ((string s).take str.max).length = (string s).take str.max := by
    have shorter : ((string s).take str.max).length ≤ strlen s := by
      rw [List.length_take]
      exact Nat.min_le_right _ _
    rw [take_eq_of_le shorter, List.length_take]
    show (string s).take (min str.max (string s).length) = _
    rw [← List.take_take, List.take_length]
  have noNull : 0 ∉ (string s).take str.max :=
    fun member => zero_notMem_string s (List.mem_of_mem_take member)
  unfold set
  rw [size_]
  dsimp only
  rw [written]
  refine ⟨?_, rfl⟩
  rw [string_fix]
  dsimp only
  rw [string_move_within (Nat.zero_le _), List.take_zero, List.nil_append, string_append noNull,
    List.take_left]

theorem value_set_iff {s : Text} : (set str s).value = str.value ↔
    string str.text = (string s).take str.max ∧ str.len = ((string s).take str.max).length := by
  obtain ⟨text, len⟩ := string_set str s
  rw [value_eq_iff, text, len]
  exact and_congr eq_comm eq_comm

/-- What is left when the front is dropped is another text. -/
theorem value_set_drop_ne {pos : ℕ} (positive : 0 < pos)
    (within : pos ≤ str.len) : (set str (str.text.drop pos)).value ≠ str.value := by
  intro same
  obtain ⟨text, len⟩ := value_set_iff.mp same
  have whole : strlen str.text = str.len := by
    rw [strlen, text, ← len]
  have left : (string (str.text.drop pos)).length = str.len - pos := by
    rw [string_drop (by omega), List.length_drop]
    exact congrArg (· - pos) whole
  rw [List.length_take, left] at len
  omega

theorem value_rsplitAt_iff {pos : ℕ} :
    (rsplitAt str pos).value = str.value ↔ pos = 0 ∨ str.len < pos := by
  unfold rsplitAt
  split
  next outside => exact iff_of_true rfl outside.symm
  next inside =>
    refine iff_of_false ?_ fun outside => inside outside.symm
    exact value_set_drop_ne (by omega) (by omega)

theorem value_rsplit_iff {s : ℤ} :
    (rsplit str s).value = str.value ↔ s ≤ 0 ∨ str.len < s := by
  unfold rsplit
  split
  next outside => exact iff_of_true rfl outside
  next inside =>
    refine iff_of_false ?_ inside
    exact value_set_drop_ne (by omega) (by omega)

theorem value_clear_iff :
    (clear str).value = str.value ↔ string str.text = [] ∧ str.len = 0 := by
  have set_ := @value_set_iff str []
  rwa [string_nil, List.take_nil] at set_

/-- A string of any length is changed when it is cleared. -/
theorem len_clear (str : Cstring) : (clear str).len = 0 := by
  unfold clear set
  show (if 0 > str.max then str.max else 0) = 0
  exact if_neg (Nat.not_lt_zero _)

/-- A method that takes characters off leaves a string alone or shortens it. -/
def Shortens (str other : Cstring) : Prop := other = str ∨ other.len < str.len

theorem Shortens.value_iff {other : Cstring} (shortens : Shortens str other) :
    other.value = str.value ↔ other = str := by
  refine ⟨fun same => ?_, congrArg value⟩
  rcases shortens with kept | shorter
  · exact kept
  · exact absurd same (value_ne_of_len (Nat.ne_of_lt shorter))

theorem Shortens.trans {other third : Cstring} (first : Shortens str other)
    (second : Shortens other third) : Shortens str third := by
  rcases first with rfl | shorter
  · exact second
  · rcases second with rfl | shorter'
    · exact Or.inr shorter
    · exact Or.inr (shorter'.trans shorter)

/-- When two steps leave a string alone, each of them does. -/
theorem Shortens.eq_iff {other third : Cstring} (first : Shortens str other)
    (second : Shortens other third) : third = str ↔ other = str ∧ third = other := by
  constructor
  · rintro rfl
    rcases first with rfl | shorter
    · exact ⟨rfl, rfl⟩
    · rcases second with same | shorter'
      · exact ⟨same.symm, same⟩
      · exact absurd (shorter'.trans shorter) (Nat.lt_irrefl _)
  · rintro ⟨rfl, rfl⟩
    rfl

theorem shortens_trim (str : Cstring) (clist : Text) : Shortens str (trim str clist) := by
  unfold trim
  dsimp only
  split
  · exact Or.inl rfl
  next some_ =>
    refine Or.inr ?_
    have within : ((str.text.take str.len).takeWhile (strchr clist)).length ≤ str.len :=
      (List.takeWhile_sublist _).length_le.trans (List.length_take_le _ _)
    split
    · rw [len_clear]
      omega
    · show str.len - _ < str.len
      omega

theorem shortens_chop (str : Cstring) (clist : Text) : Shortens str (chop str clist) := by
  unfold chop
  split
  · exact Or.inl rfl
  next filled =>
    have within : ((str.text.take str.len).rdropWhile (strchr clist)).length ≤ str.len :=
      (List.rdropWhile_prefix _ _).length_le.trans (List.length_take_le _ _)
    dsimp only
    split
    · refine Or.inr ?_
      rw [len_clear]
      omega
    split
    · exact Or.inl rfl
    · refine Or.inr ?_
      show ((str.text.take str.len).rdropWhile (strchr clist)).length < str.len
      omega

/-- Nothing is trimmed when the first character is not in the list. -/
theorem trim_eq_iff (valid : Valid str) (clist : Text) :
    trim str clist = str ↔ str.len = 0 ∨ strchr clist (str.text.headD 0) = false := by
  have some_ : str.text ≠ [] := by
    rw [← List.length_pos_iff, valid.length]
    exact Nat.succ_pos _
  have first : ((str.text.take str.len).takeWhile (strchr clist)).length = 0 ↔
      str.len = 0 ∨ strchr clist (str.text.headD 0) = false := by
    obtain ⟨ch, text, text_⟩ := List.exists_cons_of_ne_nil some_
    rw [text_, List.headD_cons]
    cases str.len with
    | zero => simp
    | succ len => cases listed : strchr clist ch <;> simp [listed]
  rw [← first]
  constructor
  · intro same
    by_contra trimmed
    have shorter : (trim str clist).len ≠ str.len := by
      have within : ((str.text.take str.len).takeWhile (strchr clist)).length ≤ str.len :=
        (List.takeWhile_sublist _).length_le.trans (List.length_take_le _ _)
      unfold trim
      dsimp only
      rw [if_neg trimmed]
      split
      · rw [len_clear]
        omega
      · show str.len - _ ≠ str.len
        omega
    exact shorter (congrArg len same)
  · intro none_
    exact if_pos none_

/-- Nothing is chopped when the last character is not in the list. -/
theorem chop_eq_iff (valid : Valid str) (clist : Text) : chop str clist = str ↔
    str.len = 0 ∨ strchr clist (str.text.getD (str.len - 1) 0) = false := by
  by_cases empty : str.len = 0
  · exact iff_of_true (if_pos empty) (Or.inl empty)
  rw [or_iff_right empty]
  have taken : (str.text.take str.len).length = str.len :=
    List.length_take_of_le (by rw [valid.length]; exact valid.len_le.trans (Nat.le_succ _))
  have filled : str.text.take str.len ≠ [] := by
    rw [← List.length_pos_iff, taken]
    exact Nat.pos_of_ne_zero empty
  have last : (str.text.take str.len).getLast filled = str.text.getD (str.len - 1) 0 := by
    have inside : str.len - 1 < str.text.length := by
      rw [valid.length]
      exact (Nat.sub_le _ _).trans_lt (Nat.lt_succ_of_le valid.len_le)
    rw [List.getLast_eq_getElem, List.getElem_take, List.getD_eq_getElem?_getD,
      List.getElem?_eq_getElem inside, Option.getD_some]
    simp only [taken]
  have whole : ((str.text.take str.len).rdropWhile (strchr clist)).length = str.len ↔
      strchr clist (str.text.getD (str.len - 1) 0) = false := by
    have prefix_ := List.rdropWhile_prefix (strchr clist) (str.text.take str.len)
    rw [← last]
    constructor
    · intro same
      have kept := prefix_.eq_of_length (same.trans taken.symm)
      exact Bool.eq_false_iff.mpr (List.rdropWhile_eq_self_iff.mp kept filled)
    · intro stop
      rw [List.rdropWhile_eq_self_iff.mpr fun _ => by rw [stop]; exact Bool.false_ne_true, taken]
  rw [← whole]
  unfold chop
  rw [if_neg empty]
  dsimp only
  constructor
  · intro same
    split at same
    next none_ => exact absurd ((len_clear str).symm.trans (congrArg len same)) (Ne.symm empty)
    next => 
      split at same
      next reached => exact reached
      next => exact congrArg len same
  · intro reached
    rw [if_neg (by omega), if_pos reached]

theorem value_trim_iff (valid : Valid str) (clist : Text) :
    (trim str clist).value = str.value ↔
      str.len = 0 ∨ strchr clist (str.text.headD 0) = false := by
  rw [(shortens_trim str clist).value_iff, trim_eq_iff valid]

theorem value_chop_iff (valid : Valid str) (clist : Text) :
    (chop str clist).value = str.value ↔
      str.len = 0 ∨ strchr clist (str.text.getD (str.len - 1) 0) = false := by
  rw [(shortens_chop str clist).value_iff, chop_eq_iff valid]

theorem value_strip_iff (valid : Valid str) (clist : Text) :
    (strip str clist).value = str.value ↔
      str.len = 0 ∨ strchr clist (str.text.headD 0) = false ∧
        strchr clist (str.text.getD (str.len - 1) 0) = false := by
  have first := shortens_trim str clist
  have second := shortens_chop (trim str clist) clist
  have both : strip str clist = str ↔ trim str clist = str ∧ chop str clist = str := by
    rw [strip, first.eq_iff second]
    constructor
    · rintro ⟨trimmed, chopped⟩
      rw [trimmed] at chopped
      exact ⟨trimmed, chopped⟩
    · rintro ⟨trimmed, chopped⟩
      exact ⟨trimmed, by rw [trimmed, chopped]⟩
  rw [strip, (first.trans second).value_iff, ← strip, both, trim_eq_iff valid, chop_eq_iff valid,
    ← or_and_left]

/-- A change of the characters of the text. -/
theorem value_change_iff {turn : UInt8 → UInt8} (visible : ∀ {ch}, ch ≠ 0 → turn ch ≠ 0) :
    ({ str with text := change turn str.text } : Cstring).value = str.value ↔
      ∀ ch ∈ string str.text, turn ch = ch := by
  show (string (change turn str.text), str.len) = (string str.text, str.len) ↔ _
  rw [string_change visible, Prod.mk.injEq, and_iff_left rfl]
  calc (string str.text).map turn = string str.text
      ↔ (string str.text).map turn = (string str.text).map id := by rw [List.map_id]
    _ ↔ ∀ ch ∈ string str.text, turn ch = ch := List.map_inj_left

theorem value_upper_iff :
    (upper str).value = str.value ↔ ∀ ch ∈ string str.text, toupper ch = ch :=
  value_change_iff @toupper_ne_zero

theorem value_lower_iff :
    (lower str).value = str.value ↔ ∀ ch ∈ string str.text, tolower ch = ch :=
  value_change_iff @tolower_ne_zero

theorem value_erase_iff (valid : Valid str) :
    (erase str).value = str.value ↔ string str.text = [] := by
  have erased : string (erase str).text = [] := by
    unfold erase
    rw [string_fix]
    dsimp only
    cases max_ : str.max with
    | zero =>
      have empty : str.len = 0 := Nat.le_zero.mp (max_ ▸ valid.len_le)
      rw [empty, List.take_zero]
    | succ max =>
      rw [string_move_within (Nat.zero_le _), List.take_zero, List.nil_append,
        List.replicate_succ, List.cons_append, string_cons_zero, List.take_nil]
  rw [value_eq_iff, erased, eq_comm]
  exact and_iff_left rfl

theorem len_fillLoop (fill : UInt8) (size : ℕ) :
    (fillLoop str fill size).len = str.len + min size (str.max - str.len) := by
  induction size generalizing str with
  | zero => simp [fillLoop]
  | succ size inductionHypothesis =>
    rw [fillLoop]
    split
    next room =>
      rw [inductionHypothesis]
      dsimp only
      omega
    next => omega

theorem value_fill_iff {size : ℕ} {ch : UInt8} : (fill str size ch).value = str.value ↔
    (str.max ≤ str.len ∨ size = 0) ∧ strlen str.text ≤ str.len := by
  by_cases nothing : str.max ≤ str.len ∨ size = 0
  · have kept : fillLoop str ch size = str := by
      rcases nothing with full | rfl
      · cases size with
        | zero => rfl
        | succ size => exact if_neg (Nat.not_lt_of_le full)
      · rfl
    rw [fill, kept, value_fix_iff, and_iff_right nothing]
  · refine iff_of_false (value_ne_of_len ?_) fun both => nothing both.1
    show (fillLoop str ch size).len ≠ str.len
    rw [len_fillLoop]
    omega

/-! ### Fields -/

/-- Nothing is changed when these bytes are written in a place: they end at the length or before it,
and are behind the null or there already. -/
def Idle (str : Cstring) (offset : ℕ) (written : Text) : Prop :=
  offset + written.length ≤ str.len ∧
    (strlen str.text < offset ∨ (str.text.drop offset).take written.length = written)

/-- Nothing is changed when these bytes are written in a place and one of them is then replaced,
which is done also where the place is behind the length and nothing is written. -/
def IdleMarked (str : Cstring) (offset : ℕ) (written : Text) (place : ℕ) (overflow : UInt8) :
    Prop :=
  offset ≤ str.len ∧ Idle str offset (written.set place overflow) ∨
    str.len < offset ∧
      (strlen str.text < offset + place ∨ str.text.getD (offset + place) 0 = overflow)

/-- A field that ends within the memory is not clipped. -/
theorem clipped_of_le {offset size : ℕ} (fits : offset + size ≤ str.max) (s : Text) :
    clipped str offset s size = size :=
  if_neg (Nat.not_lt_of_le ((sum_le _ _ _).trans fits))

/-- A field for so many bytes of a text ends where the memory does at the latest. -/
theorem clipped_eq_min {offset size : ℕ} {s : Text} (given : size ≤ strlen s) :
    clipped str offset s size = min size (str.max - offset) := by
  unfold clipped
  rw [sum_of_le given]
  split <;> omega

/-- What is written in a place inside the memory. -/
theorem setAt_eq {offset size : ℕ} {s : Text} (inside : offset < str.max)
    (reached : offset ≤ str.len) {field : Text}
    (written : (string s).take (clipped str offset s size) = field) :
    setAt str offset s size =
      if str.len < offset + field.length then
        { str with
          text := (move str.text offset field).set (offset + field.length) 0
          len := offset + field.length }
      else { str with text := move str.text offset field } := by
  unfold setAt
  rw [if_neg (not_or.mpr ⟨Nat.not_le_of_lt inside, Nat.not_lt_of_le reached⟩)]
  dsimp only
  rw [written]

theorem noNull_take (s : Text) (size : ℕ) : 0 ∉ (string s).take size :=
  fun member => zero_notMem_string s (List.mem_of_mem_take member)

theorem value_setAt_iff (valid : Valid str) {offset size : ℕ} {s : Text}
    (inside : offset < str.max) (reached : offset ≤ str.len) :
    (setAt str offset s size).value = str.value ↔
      Idle str offset ((string s).take (clipped str offset s size)) := by
  have memory : offset ≤ str.text.length := by
    rw [valid.length]
    exact (Nat.le_of_lt inside).trans (Nat.le_succ _)
  rw [setAt_eq inside reached rfl, Idle]
  split
  next longer =>
    exact iff_of_false (value_ne_of_len (Nat.ne_of_gt longer))
      fun idle => Nat.not_lt_of_le idle.1 longer
  next within =>
    rw [value_eq_iff, and_iff_left rfl, and_iff_right (Nat.le_of_not_lt within)]
    exact string_move_iff (noNull_take s _) memory

theorem room_pos {offset : ℕ} (inside : offset < str.max) (size : ℕ) :
    0 < room str offset size := by
  unfold room
  split <;> omega

theorem room_le {offset : ℕ} (inside : offset < str.max) (size : ℕ) :
    offset + room str offset size ≤ str.max := by
  unfold room
  split <;> omega

/-- A text that is set in a field. -/
theorem setOffset_eq {offset size : ℕ} {s : Text} (visible : string s ≠ []) (positive : 0 < size) :
    setOffset str offset s size = setAt str offset s size := by
  rw [setOffset, if_neg visible, if_neg (Nat.ne_of_gt positive)]

theorem setAt_outside {offset size : ℕ} {s : Text} (outside : str.max ≤ offset ∨ str.len < offset) :
    setAt str offset s size = str :=
  if_pos outside

theorem value_setOffset_iff (valid : Valid str) {offset size : ℕ} {s : Text} :
    (setOffset str offset s size).value = str.value ↔
      string s = [] ∨ str.max ≤ offset ∨ str.len < offset ∨
        Idle str offset ((string s).take
          (clipped str offset s (if size = 0 then strlen s else size))) := by
  by_cases empty : string s = []
  · exact iff_of_true (congrArg value (if_pos empty)) (Or.inl empty)
  by_cases outside : str.max ≤ offset ∨ str.len < offset
  · refine iff_of_true ?_ (Or.inr (or_assoc.mp (Or.inl outside)))
    rw [setOffset, if_neg empty, setAt_outside outside]
  rw [or_iff_right empty, ← or_assoc, or_iff_right outside, setOffset, if_neg empty]
  rw [not_or] at outside
  have inside : offset < str.max := Nat.lt_of_not_le outside.1
  exact value_setAt_iff valid inside (Nat.le_of_not_lt outside.2)

/-- A text that fills a field, one character of which is replaced. -/
theorem value_marked_iff (valid : Valid str) {offset size place : ℕ} {s : Text} {overflow : UInt8}
    (visible : overflow ≠ 0) (inside : offset < str.max) (fits : offset + size ≤ str.max)
    (long : size ≤ strlen s) (within : place < size) :
    ({ setOffset str offset s size with
        text := (setOffset str offset s size).text.set (offset + place) overflow } :
        Cstring).value = str.value ↔
      IdleMarked str offset ((string s).take size) place overflow := by
  have positive : 0 < size := Nat.zero_lt_of_lt within
  have some_ : string s ≠ [] := by
    rw [← List.length_pos_iff]
    exact positive.trans_le long
  have whole : ((string s).take size).length = size := List.length_take_of_le long
  have memory : offset + size < str.text.length := by
    rw [valid.length]
    exact Nat.lt_succ_of_le fits
  rw [setOffset_eq some_ positive, IdleMarked]
  by_cases behind : str.len < offset
  · rw [setAt_outside (Or.inr behind), value_eq_iff, and_iff_left rfl,
      or_iff_right fun reached => Nat.not_lt_of_le reached.1 behind, and_iff_right behind]
    have byte : (str.text.drop (offset + place)).take [overflow].length = [overflow] ↔
        str.text.getD (offset + place) 0 = overflow := by
      have here : offset + place < str.text.length := by omega
      rw [List.drop_eq_getElem_cons here, List.getD_eq_getElem?_getD,
        List.getElem?_eq_getElem here, Option.getD_some, List.length_singleton,
        List.take_succ_cons, List.take_zero, List.cons.injEq, and_iff_left rfl]
    rw [set_eq_move (by omega), string_move_iff (by simpa using Ne.symm visible) (by omega), byte]
  · have reached := Nat.le_of_not_lt behind
    rw [or_iff_left fun outside => behind outside.1, and_iff_right reached,
      setAt_eq inside reached rfl, clipped_of_le fits, whole, Idle, List.length_set, whole]
    split
    next longer =>
      exact iff_of_false (value_ne_of_len (Nat.ne_of_gt longer))
        fun idle => Nat.not_lt_of_le idle.1 longer
    next ends =>
      have noNull : 0 ∉ ((string s).take size).set place overflow := by
        intro member
        rcases List.mem_or_eq_of_mem_set member with old | new
        · exact noNull_take s size old
        · exact visible new.symm
      have read := string_move_iff noNull (show offset ≤ str.text.length by omega)
      rw [List.length_set, whole] at read
      rw [value_eq_iff, and_iff_left rfl, and_iff_right (Nat.le_of_not_lt ends)]
      dsimp only
      rw [move_set (by omega) (by omega), read]

/-- What a field is set to: the text as far as there is room. -/
def KeptField (str : Cstring) (s : Text) (overflow : UInt8) (offset size : ℕ) (field : Text)
    (place : ℕ) : Prop :=
  string s = [] ∨ str.max ≤ offset ∨
    if strlen s ≤ room str offset size ∨ overflow = 0 then str.len < offset ∨ Idle str offset field
    else IdleMarked str offset field place overflow

theorem value_setOverflow_iff (valid : Valid str) {s : Text} {overflow : UInt8} {offset size : ℕ} :
    (setOverflow str s overflow offset size).value = str.value ↔
      KeptField str s overflow offset size ((string s).take (room str offset size))
        (room str offset size - 1) := by
  unfold setOverflow KeptField
  by_cases empty : string s = []
  · exact iff_of_true (congrArg value (if_pos empty)) (Or.inl empty)
  by_cases outside : str.max ≤ offset
  · refine iff_of_true (congrArg value ?_) (Or.inr (Or.inl outside))
    rw [if_neg empty, if_pos outside]
  have inside : offset < str.max := Nat.lt_of_not_le outside
  have positive := room_pos inside size
  have fits := room_le inside size
  rw [or_iff_right empty, or_iff_right outside]
  dsimp only
  rw [if_neg empty, if_neg outside]
  generalize room str offset size = room at positive fits ⊢
  have plain : (setOffset str offset s room).value = str.value ↔
      str.len < offset ∨ Idle str offset ((string s).take room) := by
    rw [value_setOffset_iff valid, or_iff_right empty, or_iff_right outside,
      if_neg (Nat.ne_of_gt positive), clipped_of_le fits]
  by_cases short : strlen s ≤ room
  · rw [if_pos short, if_pos (Or.inl short), plain]
  by_cases unmarked : overflow = 0
  · rw [if_neg short, if_neg (fun both => both.2 unmarked), if_pos (Or.inr unmarked), plain]
  · rw [if_neg short, if_pos ⟨Nat.lt_of_not_le short, unmarked⟩,
      if_neg (not_or.mpr ⟨short, unmarked⟩), Nat.add_sub_assoc positive]
    exact value_marked_iff valid unmarked inside fits (Nat.le_of_not_le short) (by omega)

theorem value_rset_iff (valid : Valid str) {s : Text} {overflow : UInt8} {offset size : ℕ} :
    (rset str s overflow offset size).value = str.value ↔
      KeptField str s overflow offset size
        ((string s).drop (strlen s - room str offset size)) 0 := by
  unfold rset KeptField
  by_cases empty : string s = []
  · exact iff_of_true (congrArg value (if_pos empty)) (Or.inl empty)
  by_cases outside : str.max ≤ offset
  · refine iff_of_true (congrArg value ?_) (Or.inr (Or.inl outside))
    rw [if_neg empty, if_pos outside]
  have inside : offset < str.max := Nat.lt_of_not_le outside
  have positive := room_pos inside size
  have fits := room_le inside size
  rw [or_iff_right empty, or_iff_right outside]
  dsimp only
  rw [if_neg empty, if_neg outside]
  generalize room str offset size = room at positive fits ⊢
  have last : string (if strlen s > room then s.drop (strlen s - room) else s) =
      (string s).drop (strlen s - room) := by
    split
    · exact string_drop (Nat.sub_le _ _)
    next short => rw [Nat.sub_eq_zero_of_le (Nat.le_of_not_lt short), List.drop_zero]
  have length_ : ((string s).drop (strlen s - room)).length = min (strlen s) room := by
    rw [List.length_drop]
    show strlen s - (strlen s - room) = _
    omega
  have some_ : (string s).drop (strlen s - room) ≠ [] := by
    have positive' : 0 < strlen s := List.length_pos_iff.mpr empty
    rw [← List.length_pos_iff, length_]
    omega
  have whole : ((string s).drop (strlen s - room)).take room =
      (string s).drop (strlen s - room) :=
    List.take_of_length_le (length_ ▸ Nat.min_le_right _ _)
  generalize (if strlen s > room then s.drop (strlen s - room) else s) = s' at last ⊢
  have plain : (setOffset str offset s' room).value = str.value ↔
      str.len < offset ∨ Idle str offset ((string s).drop (strlen s - room)) := by
    rw [value_setOffset_iff valid, last, or_iff_right some_, or_iff_right outside,
      if_neg (Nat.ne_of_gt positive), clipped_of_le fits, whole]
  by_cases unmarked : strlen s ≤ room ∨ overflow = 0
  · rw [if_pos unmarked, if_neg, plain]
    rintro ⟨visible, long⟩
    exact unmarked.elim (Nat.not_le_of_lt long) visible
  · rw [if_neg unmarked]
    rw [not_or] at unmarked
    have long := Nat.lt_of_not_le unmarked.1
    have strlen_ : room ≤ strlen s' := by
      rw [strlen, last, length_]
      omega
    rw [if_pos ⟨unmarked.2, long⟩, ← whole, ← last]
    exact value_marked_iff valid unmarked.2 inside fits strlen_ positive

/-! ### Quotes -/

/-- A text that stands between two characters of a list of pairs. -/
def Quoted (text : Text) : Text → Prop
  | open_ :: close :: clist =>
    open_ ≠ 0 ∧ (text.headD 0 = open_ ∧ text.getD (text.length - 1) 0 = close ∨ Quoted text clist)
  | _ => False

/-- The last character is taken off from a text that is quoted. -/
theorem unquoteLoop_eq (text clist : Text) (filled : 0 < strlen text) :
    Quoted (string text) clist ∧
        unquoteLoop text (strlen text) clist = (text.set (strlen text - 1) 0, 1) ∨
      ¬ Quoted (string text) clist ∧ unquoteLoop text (strlen text) clist = (text, 0) := by
  have head : (string text).headD 0 = text.headD 0 := by
    cases text with
    | nil => rfl
    | cons ch text =>
      by_cases null : ch = 0
      · rw [null]
        rfl
      · rw [string_cons null]
        rfl
  have last : (string text).getD ((string text).length - 1) 0 =
      text.getD (strlen text - 1) 0 := by
    rw [← take_strlen, List.length_take_of_le (strlen_le_length text),
      List.getD_eq_getElem?_getD, List.getElem?_take_of_lt (by omega),
      List.getD_eq_getElem?_getD]
  induction clist using List.twoStepInduction with
  | nil => exact Or.inr ⟨not_false, rfl⟩
  | singleton open_ => exact Or.inr ⟨not_false, rfl⟩
  | cons_cons open_ close clist inductionHypothesis _ =>
    rw [Quoted, head, last, unquoteLoop]
    by_cases ended : open_ = 0
    · exact Or.inr ⟨fun quoted => quoted.1 ended, if_pos ended⟩
    rw [if_neg ended, and_iff_right ended]
    by_cases pair : text.headD 0 = open_ ∧ text.getD (strlen text - 1) 0 = close
    · exact Or.inl ⟨Or.inl pair, if_pos pair⟩
    · rw [if_neg pair, or_iff_right pair]
      exact inductionHypothesis

theorem value_unquote_iff (valid : Valid str) {clist : Text} :
    (unquote str clist).value = str.value ↔
      string str.text = [] ∨
        ¬ Quoted (string str.text) clist ∧ str.len = strlen str.text := by
  unfold unquote
  dsimp only
  by_cases empty : strlen str.text = 0
  · rw [if_pos empty, value_fix_iff, empty]
    exact iff_of_true (Nat.zero_le _) (Or.inl (List.length_eq_zero_iff.mp empty))
  have filled : string str.text ≠ [] := fun none_ => empty (congrArg List.length none_)
  rw [if_neg empty, or_iff_right filled]
  rcases unquoteLoop_eq str.text clist (Nat.pos_of_ne_zero empty) with
    ⟨quoted, loop⟩ | ⟨unquoted, loop⟩
  · rw [loop]
    refine iff_of_false (fun same => ?_) fun kept => kept.1 quoted
    have text := (value_eq_iff.mp same).1
    rw [(string_set _ _).1] at text
    have shorter : strlen ((str.text.set (strlen str.text - 1) 0).drop 1) ≤
        strlen str.text - 1 := by
      have dropped : strlen (str.text.drop 1) = strlen str.text - 1 := by
        rw [strlen, string_drop (Nat.pos_of_ne_zero empty), List.length_drop]
        rfl
      rw [List.drop_set]
      split
      · exact dropped.le
      · rw [strlen, string_set_zero]
        exact (List.length_take_le _ _).trans (by omega)
    have lengths := congrArg List.length text
    have least := List.length_take_le' str.max
      (string ((str.text.set (strlen str.text - 1) 0).drop 1))
    rw [lengths] at least
    have contradiction_ : strlen str.text ≤ strlen str.text - 1 := least.trans shorter
    omega
  · rw [loop]
    have whole : (string str.text).take str.max = string str.text :=
      List.take_of_length_le valid.strlen_le
    show (set str str.text).value = str.value ↔ _
    rw [value_set_iff, whole, and_iff_right rfl, and_iff_right unquoted]
    rfl

end Kept

end Cstring

end CommonCpp
