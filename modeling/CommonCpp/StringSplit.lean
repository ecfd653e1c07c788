/-
This file settles which fields of a text `StringPager::split` adds to a pager, and when they are
those that `StringPager::join` has put together.

The fields are what is left between the occurrences of the separator, found from the left, and the
empty ones are passed over. They are cut out of a copy of the text, by a null at the place of each
occurrence. A text without an occurrence has no field. As `token` does, `split` asks the pages of
the pager for each field, and throws at the first that does not fit.

The end of a memory is taken for a null, and the string that `join` returns is found where it was
put together.
-/

import CommonCpp.StringEdits
import CommonCpp.StringReplace
import CommonCpp.StringTokens

namespace CommonCpp

open Bytes Occurrences

namespace StringPager

open Memory (Path)
open Pager (State Holds)
open Strings (strstr Spells)

/-! ### The code -/

/-- `strcasestr`: how far in the memory the text is found, in either case. -/
def strcasestr (text substring : Text) : Option ℕ :=
  first ((string substring).map Ctype.tolower) ((string text).map Ctype.tolower)

/-- Where the next separator is, by the flag `INSENSITIVE`. -/
def find (flags : ℕ) (prior text : Text) : Option ℕ :=
  if flags % 2 = 1 then strcasestr prior text else strstr prior text

/-- The loop of `split`, with so many rounds at most. -/
def splitLoop (pagesize : ℕ) (text : Text) (flags : ℕ) :
    ℕ → Text → ℕ → Bool → State Text → ℕ → Option (State Text × Except String ℕ)
  | 0, _, _, _, _, _ => none
  | fuel + 1, tmp, prior, found, state, count =>
    if tmp.getD prior 0 = 0 then some (state, .ok count)
    else
      match find flags (tmp.drop prior) text with
      | none =>
        if found then
          addCounted pagesize state (tmp.drop prior) count fun state count =>
            some (state, .ok count)
        else some (state, .ok count)
      | some before =>
        let match_ := prior + before
        let tmp := tmp.set match_ 0
        let prior_ := match_ + strlen text
        if match_ > prior then
          addCounted pagesize state (tmp.drop prior) count fun state count =>
            splitLoop pagesize text flags fuel tmp prior_ true state count
        else splitLoop pagesize text flags fuel tmp prior_ true state count

/-- `StringPager::split(const char *, const char *, unsigned)`. -/
def split (pagesize fuel : ℕ) (state : State Text) (text string_ : Text) (flags : ℕ) :
    Option (State Text × Except String ℕ) :=
  (dup (string string_)).bind fun tmp =>
    splitLoop pagesize text flags fuel (tmp ++ [0]) 0 false state 0

/-- Whether a text is given, and has a character. -/
def shown (text : Option Text) : Bool := (text.getD []).headD 0 ≠ 0

section

variable {Name : Type} [DecidableEq Name]

/-- The loop of `join`, over so many members at most. -/
def joinLoop (pager : State Text) (middle suffix : Option Text) (tmp : Name) :
    ℕ → Option ℕ → Strings.State Name → Option (Strings.State Name)
  | _, none, state => some state
  | 0, some _, _ => none
  | fuel + 1, some mp, state =>
    let state := Strings.add state tmp (pager.text mp)
    let state :=
      if pager.next mp ≠ none ∧ shown middle then Strings.add state tmp (middle.getD [])
      else if pager.next mp = none ∧ shown suffix then Strings.add state tmp (suffix.getD [])
      else state
    joinLoop pager middle suffix tmp fuel (pager.next mp) state

/-- `StringPager::join(const char *, const char *, const char *)`, where the string is put together
under this name. -/
def join (pager : State Text) (state : Strings.State Name) (tmp : Name)
    (prefix_ middle suffix : Option Text) : Option (Strings.State Name) :=
  let state := Strings.construct state tmp .empty
  if pager.members = 0 then some state
  else
    let state := if shown prefix_ then Strings.add state tmp (prefix_.getD []) else state
    joinLoop pager middle suffix tmp pager.allocated pager.root state

end

/-! ### The fields -/

/-- The fields of a text behind one separator: what is left between those in it, less what is
empty. -/
def fieldsBehind (separator t : Text) : List Text := (parts separator t).filter (· ≠ [])

/-- The fields that are left when a separator has been found, or none has yet. -/
def left (separator : Text) (found : Bool) (t : Text) : List Text :=
  if found ∨ separator <:+: t then fieldsBehind separator t else []

/-- The fields of a text: of one without a separator there is none. -/
def fields (separator t : Text) : List Text := left separator false t

variable {separator text s : Text} {place : ℕ}

theorem left_of_found {found : Bool} (found_ : found ∨ separator <:+: s) :
    left separator found s = fieldsBehind separator s :=
  if_pos found_

theorem fieldsBehind_nil (separator : Text) : fieldsBehind separator [] = [] := rfl

theorem fields_nil (separator : Text) : fields separator [] = [] := ite_self _

theorem fieldsBehind_of_none (filled : s ≠ []) (none_ : first separator s = none) :
    fieldsBehind separator s = [s] := by
  rw [fieldsBehind, parts_of_none none_]
  exact List.filter_cons_of_pos (decide_eq_true filled)

theorem fieldsBehind_of_first (filled : separator ≠ []) {a b : Text}
    (found : first separator (a ++ separator ++ b) = some a.length) :
    fieldsBehind separator (a ++ separator ++ b) =
      if a ≠ [] then a :: fieldsBehind separator b else fieldsBehind separator b := by
  rw [fieldsBehind, parts_append filled found, List.filter_cons]
  by_cases empty : a = []
  · rw [if_neg (by simpa using empty), if_neg (not_not.mpr empty)]
    rfl
  · rw [if_pos (decide_eq_true empty), if_pos empty]
    rfl

/-! ### Splitting -/

/-- A null that is put over the first character of the separator ends the field before it. -/
theorem cut_separator (filled : string separator ≠ []) {a b : Text}
    (stands : Stands text place (a ++ string separator ++ b)) (noNull : 0 ∉ a) :
    string ((text.set (place + a.length) 0).drop place) = a ∧
      Stands (text.set (place + a.length) 0) (place + a.length + strlen separator) b := by
  obtain ⟨first_, rest_, separator_⟩ := List.exists_cons_of_ne_nil filled
  rw [separator_, List.append_assoc, List.cons_append] at stands
  obtain ⟨read, behind⟩ := stands.cut noNull
  have onward := behind.onward
  have length : place + a.length + 1 + rest_.length = place + a.length + strlen separator := by
    rw [strlen, separator_, List.length_cons]
    omega
  rw [length] at onward
  exact ⟨read, onward⟩

/-- The loop adds the fields of what its pointer points to. -/
theorem splitLoop_spec (filled : string separator ≠ []) {pagesize fuel count : ℕ} {found : Bool}
    {state : State Text} {items : List Text} (enough : s.length < fuel)
    (stands : Stands text place s) (noNull : 0 ∉ s) (holds : Holds state items)
    (small : items.length + (left (string separator) found s).length < 2 ^ 32)
    (small_ : count + (left (string separator) found s).length < 2 ^ 32) :
    Appends pagesize items (left (string separator) found s) count
      (splitLoop pagesize separator 0 fuel text place found state count) := by
  induction fuel generalizing s text place state items count found with
  | zero => exact absurd enough (Nat.not_lt_zero _)
  | succ fuel inductionHypothesis =>
    have searched : find 0 (text.drop place) separator = first (string separator) s := by
      rw [find, if_neg (by decide), strstr, stands.reads noNull]
    unfold splitLoop
    rw [stands.char, searched]
    rcases s with _ | ⟨c, t⟩
    · rw [List.headD_nil, if_pos rfl, left, fieldsBehind_nil, ite_self]
      exact appends_nil pagesize holds count
    have visible : c ≠ 0 := fun null => noNull (null ▸ List.mem_cons_self)
    rw [List.headD_cons, if_neg visible]
    generalize whole : c :: t = s at enough stands noNull small small_ searched ⊢
    have some_ : s ≠ [] := whole ▸ List.cons_ne_nil c t
    clear whole
    cases found_ : first (string separator) s with
    | none =>
      have missing := first_eq_none_iff.mp found_
      dsimp only
      cases found with
      | false =>
        rw [if_neg Bool.false_ne_true, left, if_neg (by simpa using missing)]
        exact appends_nil pagesize holds count
      | true =>
        rw [left_of_found (Or.inl rfl), fieldsBehind_of_none some_ found_] at small small_ ⊢
        rw [if_pos rfl]
        have read := stands.reads noNull
        nth_rewrite 1 [← read]
        refine appends_cons holds small small_ fun target holds' => ?_
        rw [read] at holds' ⊢
        exact appends_nil pagesize holds' (count + 1)
    | some before =>
      obtain ⟨a, b, rfl, rfl⟩ := exists_split_of_first found_
      have occurs : string separator <:+: a ++ string separator ++ b := ⟨a, b, rfl⟩
      rw [left_of_found (Or.inr occurs)] at small small_ ⊢
      have noNull_ : 0 ∉ a ∧ 0 ∉ b := by
        rw [List.mem_append, List.mem_append, not_or, not_or] at noNull
        exact ⟨noNull.1.1, noNull.2⟩
      obtain ⟨read, onward⟩ := cut_separator filled stands noNull_.1
      have fewer : b.length < fuel := by
        have positive := List.length_pos_iff.mpr filled
        rw [List.length_append, List.length_append] at enough
        omega
      rw [fieldsBehind_of_first filled found_] at small small_ ⊢
      dsimp only
      by_cases empty : a = []
      · rw [if_neg (not_not.mpr empty)] at small small_ ⊢
        rw [empty, List.length_nil, Nat.add_zero] at onward ⊢
        rw [if_neg (Nat.lt_irrefl place)]
        rw [← left_of_found (Or.inl rfl)] at small small_ ⊢
        exact inductionHypothesis fewer onward noNull_.2 holds small small_
      · rw [if_pos empty] at small small_ ⊢
        rw [List.length_cons] at small small_
        have later : place + a.length > place :=
          Nat.lt_add_of_pos_right (List.length_pos_iff.mpr empty)
        rw [if_pos later]
        nth_rewrite 1 [← read]
        refine appends_cons holds small small_ fun target holds' => ?_
        rw [read] at holds' ⊢
        rw [← left_of_found (Or.inl rfl)] at small small_ ⊢
        exact inductionHypothesis fewer onward noNull_.2 holds'
          (by rw [List.length_append, List.length_singleton]; omega) (by omega)

/-! ### Joining -/

section

variable {Name : Type} [DecidableEq Name] {state : Strings.State Name} {tmp : Name} {t : Text}

/-- A text is written into a buffer that has room for it. -/
theorem contains_set {str : Cstring} (length : str.text.length = str.max + 1) {s : Text}
    (room : strlen s ≤ str.max) : (str.set s).Contains (string s) := by
  unfold Cstring.set
  dsimp only
  rw [if_neg (Nat.not_lt_of_le room), take_strlen]
  refine Cstring.contains_fix (zero_notMem_string s) ?_ rfl room ?_
  · have moved := @Cstring.take_move str.text (string s) 0 (Nat.zero_le _)
    rwa [Nat.zero_add, List.take_zero, List.nil_append] at moved
  · rw [length_move, length]
    rw [Nat.zero_add, length]
    exact room.trans (Nat.le_succ _)

/-- What is added to a string is appended to its text. -/
theorem spells_add (spells : Spells state tmp t) (s : Text) :
    Spells (Strings.add state tmp s) tmp (t ++ string s) := by
  unfold Strings.add
  by_cases empty : string s = []
  · rwa [if_pos empty, empty, List.append_nil]
  rw [if_neg empty]
  have positive : 0 < strlen s := List.length_pos_iff.mpr empty
  obtain ⟨none_, rfl⟩ | ⟨str, reads⟩ := spells
  · rw [none_, List.nil_append]
    show Spells (Strings.set state tmp s) tmp _
    rw [Strings.set, none_]
    refine Or.inr ⟨state.heap.size, ?_⟩
    have points_ : (Strings.make state tmp (strlen s)).str tmp = some state.heap.size :=
      Strings.store_str_self _ _ _
    have new : (Strings.make state tmp (strlen s)).heap.cstring state.heap.size =
        Cstring.create (strlen s) (state.heap.fresh state.heap.size) :=
      Function.update_self _ _ _
    refine ⟨?_, ?_, ?_⟩
    · rw [Strings.edit_str]
      exact points_
    · rw [Strings.edit, points_]
      exact Nat.lt_succ_self _
    · rw [Strings.cstring_edit points_, new]
      exact contains_set (Cstring.length_create _ _) le_rfl
  · rw [reads.points]
    obtain ⟨new, reads_, room⟩ := reads.cow positive le_rfl
    exact Or.inr ⟨new, reads_.edit (reads_.contains.add (by rwa [Nat.add_comm]))⟩

/-- A text without a character may be added as well. -/
theorem add_shown (state : Strings.State Name) (tmp : Name) (text : Option Text) :
    (if shown text then Strings.add state tmp (text.getD []) else state) =
      Strings.add state tmp (text.getD []) := by
  split
  · rfl
  next empty =>
    have none_ : string (text.getD []) = [] := by
      cases characters : text.getD [] with
      | nil => rfl
      | cons c rest =>
        have null : c = 0 := by simpa [shown, characters] using empty
        rw [null, string_cons_zero]
    rw [Strings.add, if_pos none_]

/-- What the texts are together, with one text between them and another behind them. -/
def together (middle suffix : Text) (texts : List Text) : Text :=
  if texts = [] then [] else middle.intercalate texts ++ suffix

theorem together_cons (middle suffix text : Text) {texts : List Text} (more : texts ≠ []) :
    together middle suffix (text :: texts) = text ++ middle ++ together middle suffix texts := by
  rw [together, if_neg (List.cons_ne_nil _ _), List.intercalate_cons_of_ne_nil more, together,
    if_neg more, List.append_assoc _ _ suffix]

/-- The loop appends the texts, and what is between them and behind them. -/
theorem joinLoop_spec {pager : State Text} {pointer : Option ℕ} {nodes : List ℕ}
    (path : Path pager.next pointer nodes none) {fuel : ℕ}
    (enough : nodes.length ≤ fuel) (spells : Spells state tmp t) (middle suffix : Option Text) :
    ∃ target, joinLoop pager middle suffix tmp fuel pointer state = some target ∧
      Spells target tmp (t ++ together (string (middle.getD [])) (string (suffix.getD []))
        (nodes.map fun node => string (pager.text node))) := by
  induction nodes generalizing pointer fuel state t with
  | nil =>
    cases path
    refine ⟨state, by cases fuel <;> rfl, ?_⟩
    rw [together, List.map_nil, if_pos rfl, List.append_nil]
    exact spells
  | cons node rest inductionHypothesis =>
    obtain ⟨rfl, onward⟩ := path
    cases fuel with
    | zero => cases enough
    | succ fuel =>
      have enough_ := Nat.le_of_succ_le_succ enough
      have one := spells_add spells (pager.text node)
      rw [joinLoop]
      cases rest with
      | nil =>
        have last : pager.next node = none := onward
        have two := spells_add one (suffix.getD [])
        obtain ⟨target, looped, ends⟩ := inductionHypothesis onward enough_ two
        refine ⟨target, ?_, ?_⟩
        · simp only [last, ne_eq, not_true_eq_false, false_and, if_false, true_and] at looped ⊢
          rw [add_shown]
          exact looped
        · rw [together, List.map_nil, if_pos rfl, List.append_nil, List.append_assoc] at ends
          rw [together, List.map_cons, if_neg (List.cons_ne_nil _ _), List.map_nil,
            List.intercalate_singleton]
          exact ends
      | cons next rest =>
        have later : pager.next node = some next := onward.1
        have two := spells_add one (middle.getD [])
        obtain ⟨target, looped, ends⟩ := inductionHypothesis onward enough_ two
        refine ⟨target, ?_, ?_⟩
        · simp only [later, ne_eq, reduceCtorEq, not_false_eq_true, true_and, false_and, if_false]
            at looped ⊢
          rw [add_shown]
          exact looped
        · have more : ((next :: rest).map fun node => string (pager.text node)) ≠ [] :=
            List.cons_ne_nil _ _
          rw [List.map_cons, together_cons _ _ _ more, ← List.append_assoc, ← List.append_assoc]
          exact ends

/-- Texts that are joined without a prefix and a suffix. -/
theorem join_spec {pager : State Text} {texts : List Text} (holds : Holds pager texts)
    (noNull : ∀ text ∈ texts, 0 ∉ text) (some_ : texts ≠ []) (state : Strings.State Name)
    (tmp : Name) (middle : Text) :
    ∃ target, join pager state tmp none (some middle) none = some target ∧
      Spells target tmp ((string middle).intercalate texts) := by
  obtain ⟨nodes, chained, rfl⟩ := holds
  have many : pager.members ≠ 0 := by
    rw [chained.members]
    intro none_
    rw [List.length_eq_zero_iff.mp none_] at some_
    exact some_ rfl
  have empty : Spells (Strings.construct state tmp .empty) tmp [] :=
    Or.inl ⟨Strings.store_str_self _ _ _, rfl⟩
  obtain ⟨target, looped, ends⟩ :=
    joinLoop_spec chained.path chained.length_le empty (some middle) none
  have read : (nodes.map fun node => string (pager.text node)) = nodes.map pager.text :=
    List.map_congr_left fun node member => string_eq_self (noNull _ (List.mem_map_of_mem member))
  refine ⟨target, ?_, ?_⟩
  · rw [join, if_neg many]
    exact looped
  · rw [read, together, if_neg some_] at ends
    show Spells target tmp _
    rw [List.nil_append] at ends
    exact (List.append_nil ((string middle).intercalate (nodes.map pager.text))) ▸ ends

omit [DecidableEq Name] in
theorem string_cStr (spells : Spells state tmp t) : string (Strings.cStr state tmp) = t := by
  obtain ⟨none_, rfl⟩ | ⟨str, reads⟩ := spells
  · rw [Strings.cStr, none_]
    rfl
  · rw [Strings.cStr, reads.points]
    exact reads.contains.string

end

/-! ### Fields that are joined and split -/

/-- The separator occurs only where it has been put between the texts. -/
def OnlyBetween (separator : Text) (texts : List Text) : Prop :=
  ∀ i, separator <+: (separator.intercalate texts).drop i →
    ∃ k, 0 < k ∧ k < texts.length ∧ i = (separator.intercalate (texts.take k)).length

theorem fields_intercalate {separator : Text} (filled : separator ≠ []) {texts : List Text}
    (two : 2 ≤ texts.length) (visible : ∀ text ∈ texts, text ≠ [])
    (only : OnlyBetween separator texts) :
    fields separator (separator.intercalate texts) = texts := by
  have some_ : texts ≠ [] := List.length_pos_iff.mp (Nat.lt_of_lt_of_le Nat.zero_lt_two two)
  have occurs : separator <:+: separator.intercalate texts := by
    obtain ⟨text, rest, rfl⟩ := List.exists_cons_of_ne_nil some_
    have more : rest ≠ [] := List.length_pos_iff.mp (Nat.le_of_succ_le_succ two)
    exact ⟨text, separator.intercalate rest, (List.intercalate_cons_of_ne_nil more).symm⟩
  rw [fields, left_of_found (Or.inr occurs), fieldsBehind, parts_intercalate filled some_ only]
  exact List.filter_eq_self.mpr fun text member => decide_eq_true (visible text member)

/-- `split` adds the fields of a text that is not empty, up to the first that does not fit in a
page, and returns their number when there is none. Those of a text that `join` has put together are
what it was put together from. The pages are of a size for which they are sound. -/
theorem fields_split {separator : Text} (filled : string separator ≠ []) :
    (∀ memory pagesize fuel state items, string memory ≠ [] → Memalloc.Regular pagesize →
      strlen memory < fuel → Holds state items →
      items.length + (fields (string separator) (string memory)).length < 2 ^ 32 →
      Appends pagesize items (fields (string separator) (string memory)) 0
        (split pagesize fuel state separator memory 0)) ∧
    ∀ (pager : State Text) texts, Holds pager texts → (∀ text ∈ texts, text ≠ [] ∧ 0 ∉ text) →
      2 ≤ texts.length → OnlyBetween (string separator) texts →
      ∀ (strings : Strings.State String) tmp,
        ∃ target, join pager strings tmp none (some separator) none = some target ∧
          ∀ pagesize fuel state items, Memalloc.Regular pagesize →
            strlen (Strings.cStr target tmp) < fuel → Holds state items →
            items.length + texts.length < 2 ^ 32 →
            Appends pagesize items texts 0
              (split pagesize fuel state separator (Strings.cStr target tmp) 0) := by
  have splits : ∀ memory pagesize fuel state items, string memory ≠ [] → Memalloc.Regular pagesize →
      strlen memory < fuel → Holds state items →
      items.length + (fields (string separator) (string memory)).length < 2 ^ 32 →
      Appends pagesize items (fields (string separator) (string memory)) 0
        (split pagesize fuel state separator memory 0) := by
    intro memory pagesize fuel state items some_ _ enough holds small
    rw [split, dup_eq_some_iff.mpr ⟨some_, rfl⟩, Option.bind_some]
    have copied : Stands (string memory ++ [0]) 0 (string memory) := rfl
    exact splitLoop_spec filled enough copied (zero_notMem_string memory) holds small
      (by rw [Nat.zero_add]; exact (Nat.le_add_left _ _).trans_lt small)
  refine ⟨splits, fun pager texts holds proper two only strings tmp => ?_⟩
  have some_ : texts ≠ [] := List.length_pos_iff.mp (Nat.lt_of_lt_of_le Nat.zero_lt_two two)
  obtain ⟨target, joined, spells⟩ := join_spec holds (fun text member => (proper text member).2)
    some_ strings tmp separator
  refine ⟨target, joined, fun pagesize fuel state items regular enough holds_ small => ?_⟩
  have read : fields (string separator) (string (Strings.cStr target tmp)) = texts := by
    rw [string_cStr spells]
    exact fields_intercalate filled two (fun text member => (proper text member).1) only
  have filled_ : string (Strings.cStr target tmp) ≠ [] := by
    intro none_
    rw [none_, fields_nil] at read
    exact some_ read.symm
  have appends := splits (Strings.cStr target tmp) pagesize fuel state items filled_ regular enough
    holds_
  rw [read] at appends
  exact appends small

/-- The fields of `a,,b`, and those of `a` and `b` with a comma between them. -/
theorem fields_split_a_b :
    Appends 256 [] [[0x61], [0x62]] 0
        (split 256 5 (Pager.constructed fun _ => []) [0x2c, 0] [0x61, 0x2c, 0x2c, 0x62, 0] 0) ∧
      ∃ pager target fuel, Holds pager [[0x61], [0x62]] ∧
        join pager ⟨⟨0, fun _ => 0, fun _ => 0, fun _ => Cstring.create 0 fun _ => 0,
          fun _ _ => 0⟩, fun _ => false, fun _ => none⟩ "tmp" none (some [0x2c, 0]) none =
          some target ∧
        Appends 256 [] [[0x61], [0x62]] 0
          (split 256 fuel (Pager.constructed fun _ => []) [0x2c, 0] (Strings.cStr target "tmp")
            0) := by
  have filled : string [0x2c, 0] ≠ [] := by decide
  have empty : Holds (Pager.constructed fun _ => ([] : Text)) [] :=
    ⟨[], Pager.Chained.constructed _, rfl⟩
  have fields_ : fields (string [0x2c, 0]) (string [0x61, 0x2c, 0x2c, 0x62, 0]) =
      [[0x61], [0x62]] := by decide
  have regular : Memalloc.Regular 256 := ⟨by decide, by decide, by decide⟩
  have splits := (fields_split filled).1 [0x61, 0x2c, 0x2c, 0x62, 0] 256 5 _ [] (by decide) regular
    (by decide) empty (by rw [fields_]; decide)
  rw [fields_] at splits
  obtain ⟨pager, -, one⟩ := holds_add empty (by decide) [0x61]
  obtain ⟨pager, -, two⟩ := holds_add one (by decide) [0x62]
  have only : OnlyBetween (string [0x2c, 0]) [[0x61], [0x62]] := by
    intro i there
    refine ⟨1, by decide, by decide, ?_⟩
    rcases i with _ | _ | _ | i
    · exact absurd there (by decide)
    · rfl
    · exact absurd there (by decide)
    · have beyond : ((string [0x2c, 0]).intercalate [[0x61], [0x62]]).drop (i + 1 + 1 + 1) = [] :=
        List.drop_eq_nil_of_le (Nat.le_add_left 3 i)
      rw [beyond] at there
      exact absurd (List.prefix_nil.mp there) filled
  obtain ⟨target, joined, again⟩ := (fields_split filled).2 pager _ two
    (by decide) (by decide) only ⟨⟨0, fun _ => 0, fun _ => 0, fun _ => Cstring.create 0 fun _ => 0,
      fun _ _ => 0⟩, fun _ => false, fun _ => none⟩ "tmp"
  exact ⟨splits, pager, target, _, two, joined,
    again 256 _ _ [] regular (Nat.lt_succ_self _) empty (by decide)⟩

/-- A field that is as long as a page throws, in an empty pager with pages of the default size: the
number of the fields is not returned. -/
theorem long_field_throws :
    ¬ ∃ after count, split 256 300 (Pager.constructed fun _ => []) [0x2c, 0]
      (List.replicate 240 0x78 ++ [0x2c, 0x62, 0]) 0 = some (after, .ok count) := by
  rintro ⟨after, count, returned⟩
  have thrown : ((split 256 300 (Pager.constructed fun _ => []) [0x2c, 0]
      (List.replicate 240 0x78 ++ [0x2c, 0x62, 0]) 0).map fun after => after.2.toOption) =
      some none := by decide +kernel
  rw [returned] at thrown
  cases thrown

end StringPager

end CommonCpp
