/-
This file settles which changes of a string its copies see. A copy shares the buffer of the
string, and only `add`, `paste` and `replace` take a buffer of their own before they write. Every
other method writes into the buffer that is shared: a copy stays what it is only when the method
finds nothing to change.

A change is seen by no string that has another buffer. For one that has the same, each method
has its own condition, which speaks of the buffer, of its count and of what the method is
given. It is exact when the strings are counted as they should be; where they are not,
`replace` may also put back what it has taken away.
-/

import CommonCpp.CstringKept
import CommonCpp.StringCounts

namespace CommonCpp

open Bytes Ctype Cstring Counted Concurrency

namespace Strings

variable {Name : Type} [DecidableEq Name]

/-- What a string is read as: its text, and its length. -/
def value (state : State Name) (name : Name) : Text × ℕ :=
  match state.str name with
  | none => ([], 0)
  | some str => (state.heap.cstring str).value

/-! ### Other buffers -/

section Frame

variable {state target : State Name} {this other : Name}

omit [DecidableEq Name] in
theorem value_eq {str : ℕ} (points_ : state.str other = some str) :
    value state other = (state.heap.cstring str).value := by
  rw [value, points_]

omit [DecidableEq Name] in
/-- A call on one string does not change the value of one that has another buffer. -/
theorem Touches.value_eq (touches : Touches this state target) (apart : other ≠ this)
    (alone : ∀ str, state.str other = some str →
      str < state.heap.size ∧ state.str this ≠ some str) :
    value target other = value state other := by
  unfold value
  rw [touches.str other apart]
  cases other_ : state.str other with
  | none => rfl
  | some str =>
    obtain ⟨within, elsewhere⟩ := alone str other_
    dsimp only
    rw [touches.cstring str within elsewhere]

end Frame

/-! ### The condition of each method -/

/-- The size of the buffer that `cow` asks for. -/
def wanted (heap : Heap) (str size : ℕ) (s : Text) : ℕ := sum (heap.cstring str).len size s

/-- `cow` gives the string a buffer of its own. -/
def Detaches (heap : Heap) (str size : ℕ) (s : Text) : Prop :=
  wanted heap str size s ≠ 0 ∧ (heap.isCopied str ∨ (heap.cstring str).max = 0 ∨
    wanted heap str size s > (heap.cstring str).max)

/-- The method finds nothing to change in the buffer, or does not write into it. -/
def Keeps (heap : Heap) (str : ℕ) : Mutation → Prop
  | .set s =>
    string (heap.cstring str).text = (string (s.getD [])).take (heap.cstring str).max ∧
      (heap.cstring str).len = ((string (s.getD [])).take (heap.cstring str).max).length
  | .setOffset offset s size =>
    string (s.getD []) = [] ∨ (heap.cstring str).max ≤ offset ∨ (heap.cstring str).len < offset ∨
      Idle (heap.cstring str) offset ((string (s.getD [])).take
        (clipped (heap.cstring str) offset (s.getD [])
          (if size = 0 then strlen (s.getD []) else size)))
  | .setOverflow s overflow offset size =>
    KeptField (heap.cstring str) (s.getD []) overflow offset size
      ((string (s.getD [])).take (room (heap.cstring str) offset size))
      (room (heap.cstring str) offset size - 1)
  | .rset s overflow offset size =>
    KeptField (heap.cstring str) (s.getD []) overflow offset size
      ((string (s.getD [])).drop (strlen (s.getD []) - room (heap.cstring str) offset size)) 0
  | .add s => string (s.getD []) = [] ∨ Detaches heap str (strlen (s.getD [])) (s.getD [])
  | .addChar ch => ch = 0 ∨ Detaches heap str 1 [ch]
  | .paste _ cp size =>
    cp = none ∨ size = 0 ∧ string (cp.getD []) = [] ∨
      Detaches heap str (if size = 0 then strlen (cp.getD []) else size) (cp.getD [])
  | .cut offset _ => (heap.cstring str).len ≤ offset
  | .trim clist =>
    (heap.cstring str).len = 0 ∨ strchr clist ((heap.cstring str).text.headD 0) = false
  | .chop clist =>
    (heap.cstring str).len = 0 ∨
      strchr clist ((heap.cstring str).text.getD ((heap.cstring str).len - 1) 0) = false
  | .strip clist =>
    (heap.cstring str).len = 0 ∨ strchr clist ((heap.cstring str).text.headD 0) = false ∧
      strchr clist ((heap.cstring str).text.getD ((heap.cstring str).len - 1) 0) = false
  | .clearAt offset => (heap.cstring str).len ≤ offset
  | .clear => string (heap.cstring str).text = [] ∧ (heap.cstring str).len = 0
  | .upper => ∀ ch ∈ string (heap.cstring str).text, toupper ch = ch
  | .lower => ∀ ch ∈ string (heap.cstring str).text, tolower ch = ch
  | .erase => string (heap.cstring str).text = []
  | .replace substring _ insensitive rounds =>
    rounds = 0 ∨ substring = none ∨ (heap.cstring str).len = 0 ∨
      found insensitive (heap.cstring str).text (substring.getD []) = false
  | .split none | .rsplit none => True
  | .split (some s) =>
    s < 0 ∨ (heap.cstring str).len ≤ s ∨ strlen (heap.cstring str).text ≤ s.toNat
  | .splitAt pos => (heap.cstring str).len ≤ pos ∨ strlen (heap.cstring str).text ≤ pos
  | .rsplit (some s) => s ≤ 0 ∨ (heap.cstring str).len < s
  | .rsplitAt pos => pos = 0 ∨ (heap.cstring str).len < pos
  | .fill size _ =>
    ((heap.cstring str).max ≤ (heap.cstring str).len ∨ size = 0) ∧
      strlen (heap.cstring str).text ≤ (heap.cstring str).len
  | .unquote clist =>
    string (heap.cstring str).text = [] ∨
      ¬ Quoted (string (heap.cstring str).text) clist ∧
        (heap.cstring str).len = strlen (heap.cstring str).text
  | .inc _ => (heap.cstring str).len = 0 ∧ string (heap.cstring str).text = []
  | .dec _ => (heap.cstring str).len = 0

/-- The size that `paste` is given is a number of type `size_t`. -/
def Mutation.Given : Mutation → Prop
  | .paste _ _ size => size < 2 ^ 64
  | _ => True

/-- `replace`, whose condition is exact only where the copies of a string are counted. -/
def Mutation.replaces : Mutation → Prop
  | .replace _ _ _ _ => True
  | _ => False

section Shared

variable {state : State Name} {this other : Name} {str : ℕ}

omit [DecidableEq Name] in
theorem cstring_edit (this_ : state.str this = some str) (change : Cstring → Cstring) :
    (edit state this change).heap.cstring str = change (state.heap.cstring str) := by
  rw [edit, this_]
  exact Function.update_self _ _ _

omit [DecidableEq Name] in
/-- What is done in place is seen by every string that has the buffer. -/
theorem value_edit (this_ : state.str this = some str) (other_ : state.str other = some str)
    (change : Cstring → Cstring) :
    value (edit state this change) other = (change (state.heap.cstring str)).value := by
  rw [value, edit_str, other_]
  exact congrArg Cstring.value (cstring_edit this_ change)

omit [DecidableEq Name] in
theorem value_edit_iff (this_ : state.str this = some str) (other_ : state.str other = some str)
    (change : Cstring → Cstring) :
    value (edit state this change) other = value state other ↔
      (change (state.heap.cstring str)).value = (state.heap.cstring str).value := by
  rw [value_edit this_ other_, value_eq other_]

theorem cow_attached {size : ℕ} {s : Text} (this_ : state.str this = some str)
    (attached : ¬ Detaches state.heap str size s) : cow state this size s = state := by
  unfold cow
  rw [this_]
  dsimp only
  split
  · rfl
  next some_ =>
    refine if_neg fun detaches => attached ⟨some_, ?_⟩
    rcases detaches with none_ | copied | longer
    · exact Or.inr (Or.inl none_)
    · exact Or.inl copied
    · exact Or.inr (Or.inr longer)

theorem cow_detached {size : ℕ} {s : Text} (this_ : state.str this = some str)
    (detaches : Detaches state.heap str size s) :
    cow state this size s = store { state with
      heap := (((state.heap.create (wanted state.heap str size s)).edit state.heap.size
        (cowed (state.heap.cstring str))).retain state.heap.size).release str } this
      (some state.heap.size) := by
  have detaches' : (state.heap.cstring str).max = 0 ∨ state.heap.isCopied str ∨
      wanted state.heap str size s > (state.heap.cstring str).max :=
    or_left_comm.mp detaches.2
  unfold cow
  rw [this_]
  exact (if_neg detaches.1).trans (if_pos detaches')

omit [DecidableEq Name] in
theorem wanted_eq {size : ℕ} {s : Text} (given : size ≤ strlen s) :
    wanted state.heap str size s = size + (state.heap.cstring str).len :=
  (sum_of_le given).trans (Nat.add_comm _ _)

omit [DecidableEq Name] in
/-- In the buffer that is not left there is room for so many characters of the text. -/
theorem room_of_attached {size : ℕ} {s : Text} (positive : 0 < size) (given : size ≤ strlen s)
    (attached : ¬ Detaches state.heap str size s) :
    ¬ state.heap.isCopied str ∧ (state.heap.cstring str).max ≠ 0 ∧
      size + (state.heap.cstring str).len ≤ (state.heap.cstring str).max := by
  rw [Detaches, wanted_eq given, not_and_or, not_or, not_or, not_not, Nat.not_lt] at attached
  exact attached.resolve_left (by omega)

/-- The copies of a string that takes a buffer of its own see nothing of what it does then. -/
theorem value_of_detached {size : ℕ} {s : Text} {target : State Name} (apart : other ≠ this)
    (this_ : state.str this = some str) (other_ : state.str other = some str)
    (within : str < state.heap.size) (detaches : Detaches state.heap str size s)
    (touches : Touches this (cow state this size s) target) :
    value target other = value state other := by
  have cowed := touches_cow state this size s
  have new : (cow state this size s).str this = some state.heap.size := by
    rw [cow_detached this_ detaches, store_str_self]
  have shared : (cow state this size s).str other = some str := by
    rw [cowed.str other apart, other_]
  calc value target other
      = value (cow state this size s) other := by
        refine touches.value_eq apart fun str' points_ => ?_
        obtain rfl : str = str' := Option.some.inj (shared.symm.trans points_)
        refine ⟨within.trans_le cowed.size, fun same => ?_⟩
        rw [new] at same
        exact Nat.ne_of_gt within (Option.some.inj same)
    _ = value state other := by
        rw [value_eq shared, value_eq other_, cow_cstring state this size s within]

/-- Adding is seen by a copy only when it is done in the buffer of both. -/
theorem value_add_iff (apart : other ≠ this) (this_ : state.str this = some str)
    (other_ : state.str other = some str) (within : str < state.heap.size) (s : Text) :
    value (add state this s) other = value state other ↔
      string s = [] ∨ Detaches state.heap str (strlen s) s := by
  unfold add
  by_cases empty : string s = []
  · rw [if_pos empty]
    exact iff_of_true rfl (Or.inl empty)
  rw [if_neg empty, or_iff_right empty, this_]
  dsimp only
  have positive : 0 < strlen s := List.length_pos_iff.mpr empty
  by_cases detaches : Detaches state.heap str (strlen s) s
  · exact iff_of_true
      (value_of_detached apart this_ other_ within detaches (.edit _ this _)) detaches
  · refine iff_of_false (fun same => ?_) detaches
    rw [cow_attached this_ detaches, value_edit_iff this_ other_] at same
    have room := (room_of_attached positive le_rfl detaches).2.2
    have longer := len_add empty (show (state.heap.cstring str).len + strlen s ≤
      (state.heap.cstring str).max by omega)
    have kept := (value_eq_iff.mp same).2
    omega

theorem value_addChar_iff (apart : other ≠ this) (this_ : state.str this = some str)
    (other_ : state.str other = some str) (within : str < state.heap.size) (ch : UInt8) :
    value (addChar state this ch) other = value state other ↔
      ch = 0 ∨ Detaches state.heap str 1 [ch] := by
  by_cases null : ch = 0
  · refine iff_of_true ?_ (Or.inl null)
    rw [addChar, if_pos null]
  have buf : string [ch] = [ch] := string_eq_self (by simpa using Ne.symm null)
  have one : strlen [ch] = 1 := by rw [strlen, buf]; rfl
  have same : addChar state this ch = add state this [ch] := by
    rw [addChar, add, if_neg null, if_neg (by rw [buf]; exact List.cons_ne_nil _ _), one]
  rw [same, value_add_iff apart this_ other_ within, buf, one, or_iff_right (List.cons_ne_nil _ _),
    or_iff_right null]

theorem value_paste_iff (apart : other ≠ this) (this_ : state.str this = some str)
    (other_ : state.str other = some str) (within : str < state.heap.size) (offset : ℕ)
    {cp : Option Text} {size : ℕ} (small : size < 2 ^ 64) :
    value (paste state this offset cp size) other = value state other ↔
      cp = none ∨ size = 0 ∧ string (cp.getD []) = [] ∨
        Detaches state.heap str (if size = 0 then strlen (cp.getD []) else size)
          (cp.getD []) := by
  cases cp with
  | none => exact iff_of_true rfl (Or.inl rfl)
  | some cp =>
    have none_ : size = 0 ∧ string cp = [] ↔ (if size = 0 then strlen cp else size) = 0 := by
      rw [strlen]
      split
      next zero => simp [zero]
      next given => simp [given]
    have small_ : (if size = 0 then strlen cp else size) ≤ strlen cp ∨
        (if size = 0 then strlen cp else size) < 2 ^ 64 := by
      split
      · exact Or.inl le_rfl
      · exact Or.inr small
    unfold paste
    dsimp only [Option.getD_some]
    rw [or_iff_right (Option.some_ne_none cp), none_]
    generalize (if size = 0 then strlen cp else size) = size at small_ ⊢
    by_cases zero : size = 0
    · rw [if_pos zero]
      exact iff_of_true rfl (Or.inl zero)
    rw [if_neg zero, or_iff_right zero, this_]
    dsimp only
    by_cases detaches : Detaches state.heap str size cp
    · exact iff_of_true (value_of_detached apart this_ other_ within detaches (.edit _ this _))
        detaches
    · refine iff_of_false (fun same => ?_) detaches
      rw [cow_attached this_ detaches, value_edit_iff this_ other_] at same
      have kept : sum (state.heap.cstring str).len size cp = (state.heap.cstring str).len :=
        (value_eq_iff.mp same).2
      unfold sum at kept
      split at kept <;> omega

/-- What is not found is not replaced. -/
theorem replace_of_kept {substring cp : Option Text} {insensitive : Bool} {rounds : ℕ}
    (this_ : state.str this = some str)
    (kept : rounds = 0 ∨ substring = none ∨ (state.heap.cstring str).len = 0 ∨
      found insensitive (state.heap.cstring str).text (substring.getD []) = false) :
    replace state this substring cp insensitive rounds = state := by
  unfold replace
  rw [this_]
  cases substring with
  | none => rfl
  | some substring =>
    dsimp only
    split
    · rfl
    next filled =>
      cases rounds with
      | zero => rfl
      | succ rounds =>
        have missing : found insensitive (state.heap.cstring str).text substring = false := by
          simpa [filled] using kept
        unfold replaceLoop
        rw [this_]
        dsimp only
        rw [List.drop_zero, missing]
        rfl

/-- A text that is replaced by nothing is cut out of the same buffer again and again. -/
theorem replaceLoop_cuts {substring : Text} {cp : Option Text} (nothing : strlen (cp.getD []) = 0)
    (insensitive : Bool) (rounds offset : ℕ) (this_ : state.str this = some str) :
    (replaceLoop this substring cp insensitive rounds offset state).str = state.str ∧
      ((replaceLoop this substring cp insensitive rounds offset state).heap.cstring str).len ≤
        (state.heap.cstring str).len := by
  induction rounds generalizing offset state with
  | zero => exact ⟨rfl, le_rfl⟩
  | succ rounds inductionHypothesis =>
    unfold replaceLoop
    rw [this_]
    dsimp only
    split
    · rw [if_neg (not_not.mpr nothing)]
      have cut_ : (edit state this fun str => str.cut offset (strlen substring)).str this =
          some str := by
        rw [edit_str, this_]
      obtain ⟨same, shorter⟩ := inductionHypothesis offset cut_
      refine ⟨same.trans (edit_str _ _ _), shorter.trans ?_⟩
      rw [cstring_edit this_]
      exact len_cut_le _ _
    · exact ⟨rfl, le_rfl⟩

/-- What is pasted into a string with copies is pasted into another buffer, and so is what
follows. -/
theorem value_of_pasted {target : State Name} (apart : other ≠ this)
    (this_ : state.str this = some str) (other_ : state.str other = some str)
    (within : str < state.heap.size) (copied : state.heap.isCopied str) {offset : ℕ}
    {cp : Option Text} (pastes : strlen (cp.getD []) ≠ 0)
    (touches : Touches this (paste state this offset cp 0) target) :
    value target other = value state other := by
  cases cp with
  | none => exact absurd rfl pastes
  | some cp =>
    rw [Option.getD_some] at pastes
    have pasted_ : paste state this offset (some cp) 0 =
        edit (cow state this (strlen cp) cp) this fun str => str.paste offset cp (strlen cp) := by
      unfold paste
      dsimp only
      rw [if_pos rfl, if_neg pastes, this_]
    rw [pasted_] at touches
    have detaches : Detaches state.heap str (strlen cp) cp := by
      by_contra attached
      exact (room_of_attached (Nat.pos_of_ne_zero pastes) le_rfl attached).1 copied
    exact value_of_detached apart this_ other_ within detaches
      ((Touches.edit _ this _).trans touches)

/-- What is found is cut out before anything is pasted, and the copies see that. -/
theorem len_value_replace_lt (apart : other ≠ this) (this_ : state.str this = some str)
    (other_ : state.str other = some str) (within : str < state.heap.size)
    (copied : state.heap.isCopied str) {substring : Text} {cp : Option Text} {insensitive : Bool}
    (filled : (state.heap.cstring str).len ≠ 0)
    (found_ : found insensitive (state.heap.cstring str).text substring) (rounds : ℕ) :
    (value (replace state this (some substring) cp insensitive (rounds + 1)) other).2 <
      (state.heap.cstring str).len := by
  obtain ⟨cut_, cut_eq⟩ : ∃ cut_, cut_ = edit state this fun str => str.cut 0 (strlen substring) :=
    ⟨_, rfl⟩
  have cutThis : cut_.str this = some str := by rw [cut_eq, edit_str, this_]
  have cutOther : cut_.str other = some str := by rw [cut_eq, edit_str, other_]
  have shorter : (cut_.heap.cstring str).len < (state.heap.cstring str).len := by
    rw [cut_eq, cstring_edit this_]
    exact len_cut_lt (Nat.pos_of_ne_zero filled) _
  have cutHeap : cut_.heap.count = state.heap.count ∧ cut_.heap.size = state.heap.size := by
    rw [cut_eq, edit, this_]
    exact ⟨rfl, rfl⟩
  have cutCopied : cut_.heap.isCopied str := by
    unfold Heap.isCopied
    rw [cutHeap.1]
    exact copied
  have first : replace state this (some substring) cp insensitive (rounds + 1) =
      if strlen (cp.getD []) ≠ 0 then
        replaceLoop this substring cp insensitive rounds (0 + strlen (cp.getD []))
          (paste cut_ this 0 cp 0)
      else replaceLoop this substring cp insensitive rounds 0 cut_ := by
    unfold replace
    rw [this_]
    dsimp only
    rw [if_neg filled, replaceLoop, this_]
    dsimp only
    rw [List.drop_zero, if_pos found_, cut_eq]
  rw [first]
  split
  next pastes =>
    rw [value_of_pasted apart cutThis cutOther (by rw [cutHeap.2]; exact within) cutCopied pastes
      (touches_replaceLoop this substring cp insensitive rounds _ _), value_eq cutOther]
    exact shorter
  next nothing =>
    obtain ⟨same, less⟩ : (replaceLoop this substring cp insensitive rounds 0 cut_).str =
        cut_.str ∧
        ((replaceLoop this substring cp insensitive rounds 0 cut_).heap.cstring str).len ≤
          (cut_.heap.cstring str).len :=
      replaceLoop_cuts (not_not.mp nothing) insensitive rounds 0 cutThis
    rw [value_eq (by rw [same, cutOther])]
    exact less.trans_lt shorter

theorem value_replace_iff (apart : other ≠ this) (this_ : state.str this = some str)
    (other_ : state.str other = some str) (within : str < state.heap.size)
    (copied : state.heap.isCopied str) {substring cp : Option Text} {insensitive : Bool}
    {rounds : ℕ} :
    value (replace state this substring cp insensitive rounds) other = value state other ↔
      rounds = 0 ∨ substring = none ∨ (state.heap.cstring str).len = 0 ∨
        found insensitive (state.heap.cstring str).text (substring.getD []) = false := by
  refine ⟨fun same => ?_, fun kept => by rw [replace_of_kept this_ kept]⟩
  by_contra changed
  simp only [not_or, Bool.not_eq_false] at changed
  obtain ⟨some_, given, filled, found_⟩ := changed
  obtain ⟨rounds, rfl⟩ := Nat.exists_eq_succ_of_ne_zero some_
  obtain ⟨substring, rfl⟩ := Option.ne_none_iff_exists'.mp given
  rw [Option.getD_some] at found_
  have shorter : (value (replace state this (some substring) cp insensitive rounds.succ) other).2 <
      (state.heap.cstring str).len :=
    len_value_replace_lt apart this_ other_ within copied filled found_ rounds
  rw [same, value_eq other_] at shorter
  exact Nat.lt_irrefl _ shorter

theorem value_set_iff (this_ : state.str this = some str) (other_ : state.str other = some str)
    (s : Text) : value (set state this s) other = value state other ↔
      string (state.heap.cstring str).text = (string s).take (state.heap.cstring str).max ∧
        (state.heap.cstring str).len =
          ((string s).take (state.heap.cstring str).max).length := by
  rw [set, this_]
  exact (value_edit_iff this_ other_ _).trans Cstring.value_set_iff

theorem value_fill_iff (this_ : state.str this = some str) (other_ : state.str other = some str)
    (size : ℕ) (ch : UInt8) : value (fill state this size ch) other = value state other ↔
      ((state.heap.cstring str).max ≤ (state.heap.cstring str).len ∨ size = 0) ∧
        strlen (state.heap.cstring str).text ≤ (state.heap.cstring str).len := by
  rw [fill, this_]
  exact (value_edit_iff this_ other_ _).trans Cstring.value_fill_iff

/-- What a method does to a string is not seen by one that shares the buffer exactly when the
condition of the method holds. -/
theorem value_mutate_iff (apart : other ≠ this) (this_ : state.str this = some str)
    (other_ : state.str other = some str) (within : str < state.heap.size)
    (valid : (state.heap.cstring str).Valid) (mutation : Mutation)
    (given : mutation.Given)
    (counted : mutation.replaces → state.heap.isCopied str) :
    value (mutate state this mutation) other = value state other ↔
      Keeps state.heap str mutation := by
  have inPlace := value_edit_iff this_ other_
  cases mutation with
  | set s => exact value_set_iff this_ other_ _
  | setOffset offset s size => exact (inPlace _).trans (value_setOffset_iff valid)
  | setOverflow s overflow offset size => exact (inPlace _).trans (value_setOverflow_iff valid)
  | rset s overflow offset size => exact (inPlace _).trans (value_rset_iff valid)
  | add s => exact value_add_iff apart this_ other_ within _
  | addChar ch => exact value_addChar_iff apart this_ other_ within ch
  | paste offset cp size => exact value_paste_iff apart this_ other_ within offset given
  | cut offset size => exact (inPlace _).trans value_cut_iff
  | trim clist => exact (inPlace _).trans (value_trim_iff valid clist)
  | chop clist => exact (inPlace _).trans (value_chop_iff valid clist)
  | strip clist => exact (inPlace _).trans (value_strip_iff valid clist)
  | clearAt offset => exact (inPlace _).trans value_clearAt_iff
  | clear => exact (inPlace _).trans value_clear_iff
  | upper => exact (inPlace _).trans value_upper_iff
  | lower => exact (inPlace _).trans value_lower_iff
  | erase => exact (inPlace _).trans (value_erase_iff valid)
  | replace substring cp insensitive rounds =>
    exact value_replace_iff apart this_ other_ within (counted trivial)
  | split s =>
    cases s with
    | none => exact iff_of_true rfl trivial
    | some s => exact (inPlace _).trans value_split_iff
  | splitAt pos => exact (inPlace _).trans value_splitAt_iff
  | rsplit s =>
    cases s with
    | none => exact iff_of_true rfl trivial
    | some s => exact (inPlace _).trans value_rsplit_iff
  | rsplitAt pos => exact (inPlace _).trans value_rsplitAt_iff
  | fill size ch => exact value_fill_iff this_ other_ size ch
  | unquote clist => exact (inPlace _).trans (value_unquote_iff valid)
  | inc offset => exact (inPlace _).trans value_inc_iff
  | dec offset => exact (inPlace _).trans value_dec_iff

end Shared

/-! ### Copies -/

/-- The ways to make one string a copy of another: by the assignment, or by the constructor. -/
inductive Copying
  | assign
  | construct

/-- `b = a`, or `String b(a)`. -/
def Copying.action (copying : Copying) (a b : Name) : Action Name :=
  match copying with
  | .assign => .assign b a
  | .construct => .copy b a

/-- The string has no buffer, or one that holds a text. -/
def Holds (state : State Name) (this : Name) : Prop :=
  ∀ str, state.str this = some str → str < state.heap.size ∧ (state.heap.cstring str).Valid

/-- The condition of the method, for the buffer of the string it is called on. -/
def Kept (state : State Name) (this : Name) (mutation : Mutation) : Prop :=
  ∀ str, state.str this = some str → Keeps state.heap str mutation

/-- The count of the buffer says that the string has copies. -/
def Counted (state : State Name) (this : Name) : Prop :=
  ∀ str, state.str this = some str → state.heap.isCopied str

section Copies

variable {source target : State Name} {a b : Name}

/-- A copy points to the buffer of the other string, which stays what it is. -/
theorem copied (apart : a ≠ b) (copying : Copying)
    (performed : target = perform source (copying.action a b)) :
    target.str a = source.str a ∧ target.str b = source.str a ∧
      target.heap.size = source.heap.size ∧ target.heap.cstring = source.heap.cstring := by
  have retained : ∀ ref : Option ℕ, (source.heap.retainRef ref).size = source.heap.size ∧
      (source.heap.retainRef ref).cstring = source.heap.cstring := by
    intro ref
    cases ref <;> exact ⟨rfl, rfl⟩
  cases copying with
  | construct =>
    rw [performed]
    exact ⟨store_str_of_ne apart _ _, store_str_self _ b _, retained _⟩
  | assign =>
    have performed' : target = assign source b a := performed
    unfold assign at performed'
    split at performed'
    next same =>
      rw [performed']
      exact ⟨rfl, same, rfl, rfl⟩
    next =>
      have released : ∀ (heap : Heap) (ref : Option ℕ), (heap.releaseRef ref).size = heap.size ∧
          (heap.releaseRef ref).cstring = heap.cstring := by
        intro heap ref
        cases ref with
        | none => exact ⟨rfl, rfl⟩
        | some str => exact ⟨release_size heap str, release_cstring heap str⟩
      rw [performed']
      exact ⟨store_str_of_ne apart _ _, store_str_self _ b _,
        (released _ _).1.trans (retained _).1, (released _ _).2.trans (retained _).2⟩

/-- Where the counts of a program agree with its strings, a buffer of two strings is counted. -/
theorem counted_of_consistent [Fintype Name] (consistent : Consistent target) (apart : a ≠ b)
    (shared : target.str b = target.str a) : Counted target a := by
  intro str points_
  have others : (store target a none).str b = some str := by
    rw [store_str_of_ne apart.symm, shared, points_]
  have more := holders_pos others
  have stored := holders_store target a none str
  rw [points_, points_none, points_some, if_pos rfl, Nat.add_zero] at stored
  have held := holders_pos points_
  have count := (consistent.counts str (consistent.lt_size held) held).1
  show target.heap.count str > 1
  omega

/-- A method leaves a copy of its string as it is when the condition of the method holds, and only
then where the copies are counted, which makes a difference for `replace`. -/
theorem copies_independent_iff (apart : a ≠ b) (holds : Holds source a) (copying : Copying)
    (mutation : Mutation) (given : mutation.Given)
    (performed : target = perform source (copying.action a b)) :
    (Kept target a mutation → value (mutate target a mutation) b = value target b) ∧
      ((mutation.replaces → Counted target a) →
        value (mutate target a mutation) b = value target b → Kept target a mutation) := by
  obtain ⟨same, shared, size, cstring⟩ := copied apart copying performed
  have touches := touches_mutate target a mutation
  cases a_ : source.str a with
  | none =>
    rw [a_] at same shared
    have unseen : value (mutate target a mutation) b = value target b := by
      refine touches.value_eq apart.symm fun str points_ => ?_
      rw [shared] at points_
      cases points_
    refine ⟨fun _ => unseen, fun _ _ str points_ => ?_⟩
    rw [same] at points_
    cases points_
  | some str =>
    rw [a_] at same shared
    obtain ⟨within, valid⟩ := holds str a_
    rw [← size] at within
    rw [← cstring] at valid
    have kept_iff : Kept target a mutation ↔ Keeps target.heap str mutation := by
      refine ⟨fun kept => kept str same, fun keeps other points_ => ?_⟩
      rw [same] at points_
      cases points_
      exact keeps
    rw [kept_iff]
    have exact_ := value_mutate_iff apart.symm same shared within valid mutation given
    refine ⟨fun keeps => ?_, fun counted unchanged => ?_⟩
    · cases mutation with
      | replace substring cp insensitive rounds =>
        show value (replace target a substring cp insensitive rounds) b = value target b
        rw [replace_of_kept same keeps]
      | _ => exact (exact_ fun replaces => replaces.elim).mpr keeps
    · exact (exact_ fun replaces => counted replaces str same).mp unchanged

end Copies

/-! ### Two strings -/

/-- A program that has constructed a string with this text. -/
def hi : State Bool := perform (start Bool) (.construct false (.text (some [0x48, 0x69])))

theorem holds_hi : Holds hi false := by
  intro str points_
  have first : hi.str false = some 0 := by decide
  rw [first] at points_
  cases points_
  exact ⟨by decide, ⟨by decide, by decide, by decide⟩⟩

/-- What is added to a string is not seen by its copy. -/
theorem copies_independent_iff_added :
    value (mutate (perform hi (Copying.construct.action false true)) false (.add (some [0x21])))
        true = value (perform hi (Copying.construct.action false true)) true := by
  refine (copies_independent_iff (by decide) holds_hi .construct (.add (some [0x21]))
    trivial rfl).1 ?_
  intro str points_
  have first : (perform hi (Copying.construct.action false true)).str false = some 0 := by decide
  rw [first] at points_
  cases points_
  exact Or.inr ⟨by decide, Or.inl (by decide)⟩

/-- `String a("Hi"); String b(a); a.upper();`: the copy is `HI` too. -/
theorem upper_changes_copy :
    ∃ moves, ∃ state : State Bool, (machine Bool).Run moves state ∧
      value (perform state (Copying.construct.action false true)) true = ([0x48, 0x69], 2) ∧
      value (mutate (perform state (Copying.construct.action false true)) false .upper) true =
        ([0x48, 0x49], 2) := by
  have first : (machine Bool).Run [] (start Bool) := .start ⟨_, _, rfl⟩
  have run := first.take (.construct false (.text (some [0x48, 0x69]))) (by decide)
  exact ⟨_, _, run, by decide, by decide⟩

end Strings

end CommonCpp
