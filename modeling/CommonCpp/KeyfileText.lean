/-
This file models the text of a configuration file: the lines that `save` writes, and
how `load` reads a file into lines and what a line says.

A line is read into a buffer of 1024 bytes and chopped. One that then ends with a
backslash is joined to what is read next, which is put in the place of the backslash
and may use only what is left of the buffer. So what is read as a line need not start
where a line of the file starts. It is bounded, though: each line of the file that is
not empty is the start of one line that is read at most, in whole or in part.

A value with a double quote is written as it is. It is read back unless it has blanks
around it, ends with a backslash, or is enclosed in a pair that is taken off. What is
read instead is a different value, whatever the line is joined to.
-/

import Mathlib.Data.List.DropRight
import Mathlib.Data.List.TakeWhile
import CommonCpp.Keyfile

namespace CommonCpp

open Ctype

namespace Keyfile

/-! ### The code -/

/-- The functions of `String` for texts, which change them in place. -/
def trim (str clist : Text) : Text :=
  str.dropWhile fun char => char ∈ clist

def chop (str clist : Text) : Text :=
  str.rdropWhile fun char => char ∈ clist

def strip (str clist : Text) : Text :=
  chop (trim str clist) clist

/-- The loop of `unquote` over the pairs. -/
def unquoted (str : Text) : Text → Text
  | first :: last :: clist =>
    if str.head? = some first ∧ str.getLast? = some last then str.dropLast.tail
    else unquoted str clist
  | _ => str

def unquote (str clist : Text) : Option Text :=
  if str = [] then none else some (unquoted str clist)

/-- The blanks that are chopped off a line, and those around a section name or a key and around a
value. -/
def lineBlanks : Text := [0x0d, 0x0a, 0x09, 0x20]

def nameBlanks : Text := [0x20, 0x09]

def valueBlanks : Text := [0x20, 0x09, 0x0d, 0x0a]

/-- The pairs that are taken off a value: double quotes, single quotes, braces and parentheses. -/
def quotes : Text := [0x22, 0x22, 0x27, 0x27, 0x7b, 0x7d, 0x28, 0x29]

/-- What a line says: the name of a section, or a key and its value. -/
inductive Statement
  | name (id : Text)
  | key (id : Text) (value : Option Text)

/-- The part of `load` that reads a line. -/
def statement (linebuf : Text) : Option Statement :=
  match linebuf.dropWhile isspace with
  | [] => none
  | first :: rest =>
    if first = 0x5b then
      if 0x5d ∈ rest then
        some (.name (strip (rest.takeWhile fun char => char ≠ 0x5d) nameBlanks))
      else none
    else if isalnum first ∧ 0x3d ∈ first :: rest then
      some (.key (strip ((first :: rest).takeWhile fun char => char ≠ 0x3d) nameBlanks)
        (unquote (strip ((first :: rest).dropWhile fun char => char ≠ 0x3d).tail valueBlanks)
          quotes))
    else none

/-- `fgets` of up to a number of bytes: what it reads, what it leaves, and whether it came to the
end of the file. -/
def fgets : Nat → Text → Text × Text × Bool
  | 0, file => ([], file, false)
  | _ + 1, [] => ([], [], true)
  | size + 1, char :: file =>
    if char = 0x0a then ([char], file, false)
    else
      let (read, left, feof) := fgets size file
      (char :: read, left, feof)

/-- What is read into the buffer behind what is kept in it, up to a null, and chopped. -/
def readChunk (kept file : Text) : Text × Text × Bool :=
  let (read, left, feof) := fgets (1023 - kept.length) file
  (chop (read.takeWhile fun char => char ≠ 0) lineBlanks, left, feof)

/-- The lines that are read. There is no outcome when they are more than the fuel. -/
def readLines : Nat → Text → Text → Option (List Text)
  | 0, _, _ => none
  | fuel + 1, kept, file =>
    let (lp, left, feof) := readChunk kept file
    if lp.getLast? = some 0x5c then readLines fuel (kept ++ lp.dropLast) left
    else if kept ++ lp = [] ∧ feof then some []
    else (readLines fuel [] left).map fun lines => (kept ++ lp) :: lines

/-- A key and its value as `save` writes them. -/
def keyLine (entry : Text × Text) : Text :=
  if 0x22 ∈ entry.2 then entry.1 ++ 0x3d :: entry.2
  else entry.1 ++ 0x3d :: 0x22 :: (entry.2 ++ [0x22])

def nameLine (id : Text) : Text :=
  0x5b :: (id ++ [0x5d])

/-- Lines as they stand in a file. -/
def file (lines : List Text) : Text :=
  lines.flatMap fun line => line ++ [0x0a]

theorem mem_lineBlanks (char : UInt8) : char ∈ lineBlanks ↔ char ∈ valueBlanks := by
  simp only [lineBlanks, valueBlanks, List.mem_cons, List.not_mem_nil, or_false]
  tauto

theorem keyLine_eq (key value : Text) : ∃ text, keyLine (key, value) = key ++ 0x3d :: text := by
  unfold keyLine
  split
  next => exact ⟨value, rfl⟩
  next => exact ⟨0x22 :: (value ++ [0x22]), rfl⟩

/-! ### Texts that are chopped -/

section Chop

variable {str clist : Text}

theorem chop_append_of_not_mem {last : UInt8} (kept : last ∉ clist) (str : Text) :
    chop (str ++ [last]) clist = str ++ [last] :=
  List.rdropWhile_concat_neg _ _ _ (by simpa using kept)

theorem chop_append_of_mem {last : UInt8} (dropped : last ∈ clist) (str : Text) :
    chop (str ++ [last]) clist = chop str clist :=
  List.rdropWhile_concat_pos _ _ _ (by simpa using dropped)

/-- Nothing before a byte that is kept is chopped off. -/
theorem chop_append_cons {char : UInt8} (kept : char ∉ clist) (first last : Text) :
    chop (first ++ char :: last) clist = first ++ char :: chop last clist := by
  induction last using List.reverseRecOn with
  | nil => exact chop_append_of_not_mem kept first
  | append_singleton last final inductionHypothesis =>
    rw [← List.cons_append, ← List.append_assoc]
    by_cases dropped : final ∈ clist
    · rw [chop_append_of_mem dropped, chop_append_of_mem dropped, inductionHypothesis]
    · rw [chop_append_of_not_mem dropped, chop_append_of_not_mem dropped, List.append_assoc,
        List.cons_append]

/-- What is chopped off are bytes of the list. -/
theorem exists_chop_append (str clist : Text) :
    ∃ blanks, str = chop str clist ++ blanks ∧ ∀ char ∈ blanks, char ∈ clist := by
  induction str using List.reverseRecOn with
  | nil => exact ⟨[], rfl, by simp⟩
  | append_singleton str final inductionHypothesis =>
    by_cases dropped : final ∈ clist
    · obtain ⟨blanks, whole, within⟩ := inductionHypothesis
      rw [chop_append_of_mem dropped]
      refine ⟨blanks ++ [final], ?_, ?_⟩
      · rw [← List.append_assoc, ← whole]
      · exact List.forall_mem_append.mpr ⟨within, by simpa using dropped⟩
    · exact ⟨[], by rw [chop_append_of_not_mem dropped, List.append_nil], by simp⟩

theorem length_chop_le (str clist : Text) : (chop str clist).length ≤ str.length := by
  obtain ⟨blanks, whole, _⟩ := exists_chop_append str clist
  calc (chop str clist).length ≤ (chop str clist ++ blanks).length := by simp
    _ = str.length := by rw [← whole]

theorem chop_eq_self (kept : ∀ last, str.getLast? = some last → last ∉ clist) :
    chop str clist = str := by
  rcases List.eq_nil_or_concat' str with rfl | ⟨first, last, rfl⟩
  · rfl
  · exact chop_append_of_not_mem (kept last List.getLast?_concat) first

/-- What is stripped off are bytes of the list. -/
theorem exists_strip_append (str clist : Text) :
    ∃ before after, str = before ++ strip str clist ++ after ∧ (∀ char ∈ before, char ∈ clist) ∧
      ∀ char ∈ after, char ∈ clist := by
  obtain ⟨after, whole, within⟩ := exists_chop_append (trim str clist) clist
  refine ⟨str.takeWhile fun char => char ∈ clist, after, ?_, fun char member => ?_, within⟩
  · rw [List.append_assoc]
    unfold strip
    rw [← whole]
    exact List.takeWhile_append_dropWhile.symm
  · simpa using List.mem_takeWhile_imp member

theorem strip_eq_self (starts : ∀ first, str.head? = some first → first ∉ clist)
    (ends : ∀ last, str.getLast? = some last → last ∉ clist) : strip str clist = str := by
  have untrimmed : trim str clist = str := by
    cases str with
    | nil => rfl
    | cons first rest => exact List.dropWhile_cons_of_neg (by simpa using starts first rfl)
  rw [strip, untrimmed, chop_eq_self ends]

theorem length_strip_le (str clist : Text) : (strip str clist).length ≤ str.length := by
  obtain ⟨before, after, whole, _⟩ := exists_strip_append str clist
  calc (strip str clist).length ≤ (before ++ strip str clist ++ after).length := by
        simp only [List.length_append]
        omega
    _ = str.length := by rw [← whole]

theorem not_mem_of_getLast?_chop {last : UInt8}
    (final : (chop str clist).getLast? = some last) : last ∉ clist := by
  intro member
  have some_ : chop str clist ≠ [] := by
    intro empty
    rw [empty] at final
    cases final
  have kept := List.rdropWhile_last_not (fun char => decide (char ∈ clist)) str some_
  rw [List.getLast?_eq_some_getLast some_, Option.some_inj] at final
  exact kept (decide_eq_true (final ▸ member))

theorem not_mem_of_head?_strip {first : UInt8} (starts : (strip str clist).head? = some first) :
    first ∉ clist := by
  intro member
  have some_ : trim str clist ≠ [] := by
    intro empty
    rw [strip, empty] at starts
    cases starts
  obtain ⟨after, whole, _⟩ := exists_chop_append (trim str clist) clist
  have here : (trim str clist).head? = some first := by
    rw [whole, List.head?_append]
    exact congrArg (fun head => head.or after.head?) starts
  have kept := List.head_dropWhile_not (fun char => decide (char ∈ clist)) some_
  rw [List.head?_eq_some_head some_, Option.some_inj] at here
  rw [← here] at member
  exact of_decide_eq_false kept member

end Chop

/-- A text is unquoted as it is, or its first and last bytes, which may be one, are taken off and
the first is a quote. -/
theorem unquoted_cases (str clist : Text) :
    unquoted str clist = str ∨ ∃ first ∈ clist, str = [first] ∧ unquoted str clist = [] ∨
      ∃ last, str = first :: (unquoted str clist ++ [last]) := by
  fun_induction unquoted str clist with
  | case1 first last clist enclosed =>
    obtain ⟨starts, ends⟩ := enclosed
    refine Or.inr ⟨first, List.mem_cons_self, ?_⟩
    obtain ⟨rest, rfl⟩ := List.head?_eq_some_iff.mp starts
    rcases List.eq_nil_or_concat' rest with rfl | ⟨middle, final, rfl⟩
    · exact Or.inl ⟨rfl, rfl⟩
    · refine Or.inr ⟨final, ?_⟩
      rw [← List.cons_append, List.dropLast_concat]
      rfl
  | case2 first last clist _ inductionHypothesis =>
    refine inductionHypothesis.imp_right fun enclosed => ?_
    obtain ⟨quote, member, shape⟩ := enclosed
    exact ⟨quote, by simp [member], shape⟩
  | case3 => exact Or.inl rfl

/-! ### What a line says -/

/-- A letter or a digit is on no list that has none. -/
theorem not_mem_of_isalnum {char : UInt8} (alnum : isalnum char) {list : Text}
    (none_ : ∀ other ∈ list, isalnum other = false) : char ∉ list := by
  intro member
  rw [none_ char member] at alnum
  cases alnum

theorem isspace_of_isalnum {char : UInt8} (alnum : isalnum char) : isspace char = false := by
  unfold isalnum isdigit at alnum
  unfold isspace
  simp only [decide_eq_true_eq, decide_eq_false_iff_not, UInt8.le_iff_toNat_le,
    ← UInt8.toNat_inj] at alnum ⊢
  simp only [UInt8.reduceToNat] at alnum ⊢
  omega

/-- A key is one that `load` can read: it starts with a letter or a digit, has no equals sign, and
does not end with a blank. -/
structure KeyReadable (key : Text) : Prop where
  starts : ∃ first rest, key = first :: rest ∧ isalnum first
  unequal : 0x3d ∉ key
  ends : ∀ last, key.getLast? = some last → last ∉ nameBlanks

/-- A line of a key says the text behind the first equals sign, stripped and unquoted. -/
theorem statement_key {key : Text} (readable : KeyReadable key) (text : Text) :
    statement (key ++ 0x3d :: text) =
      some (.key key (unquote (strip text valueBlanks) quotes)) := by
  obtain ⟨first, rest, whole, alnum⟩ := readable.starts
  have unspaced : (key ++ 0x3d :: text).dropWhile isspace = first :: (rest ++ 0x3d :: text) := by
    rw [whole, List.cons_append]
    exact List.dropWhile_cons_of_neg (by simp [isspace_of_isalnum alnum])
  have bracket : first ≠ 0x5b := by
    rintro rfl
    exact absurd alnum (by decide)
  have before : (key ++ 0x3d :: text).takeWhile (fun char => char ≠ 0x3d) = key := by
    rw [List.takeWhile_append_of_pos fun char member => decide_eq_true
      (ne_of_mem_of_not_mem member readable.unequal)]
    simp
  have behind : (key ++ 0x3d :: text).dropWhile (fun char => char ≠ 0x3d) = 0x3d :: text := by
    rw [List.dropWhile_append_of_pos fun char member => decide_eq_true
      (ne_of_mem_of_not_mem member readable.unequal)]
    simp
  have stripped : strip key nameBlanks = key := by
    refine strip_eq_self (fun char starts => ?_) readable.ends
    rw [whole, List.head?_cons, Option.some_inj] at starts
    exact not_mem_of_isalnum (starts ▸ alnum) (by decide +kernel)
  have whole' : first :: (rest ++ 0x3d :: text) = key ++ 0x3d :: text := by
    rw [whole, List.cons_append]
  unfold statement
  rw [unspaced]
  simp only [bracket, if_false, alnum, whole', before, behind, stripped, List.tail_cons]
  simp

/-- A section name is one that `load` can read: it has no closing bracket and no blanks around
it. -/
structure NameReadable (name : Text) : Prop where
  unbracketed : 0x5d ∉ name
  starts : ∀ first, name.head? = some first → first ∉ nameBlanks
  ends : ∀ last, name.getLast? = some last → last ∉ nameBlanks

theorem statement_nameLine {name : Text} (readable : NameReadable name) :
    statement (nameLine name) = some (.name name) := by
  have unspaced : (nameLine name).dropWhile isspace = nameLine name :=
    List.dropWhile_cons_of_neg (by decide)
  have before : (name ++ [0x5d]).takeWhile (fun char => char ≠ 0x5d) = name := by
    rw [List.takeWhile_append_of_pos fun char member => decide_eq_true
      (ne_of_mem_of_not_mem member readable.unbracketed)]
    simp
  unfold statement
  rw [unspaced]
  simp only [nameLine, if_true, before, strip_eq_self readable.starts readable.ends]
  simp

/-- A text starts and ends with the two bytes of a pair. -/
def Enclosed (str : Text) : Prop :=
  ∃ pair ∈ [((0x22 : UInt8), (0x22 : UInt8)), (0x27, 0x27), (0x7b, 0x7d), (0x28, 0x29)],
    str.head? = some pair.1 ∧ str.getLast? = some pair.2

instance : DecidablePred Enclosed := fun str =>
  inferInstanceAs (Decidable (∃ pair ∈ _, str.head? = some (Prod.fst pair) ∧ _))

/-- One pair is taken off at most. -/
theorem unquoted_quotes (str : Text) :
    unquoted str quotes = if Enclosed str then str.dropLast.tail else str := by
  simp only [quotes, unquoted, Enclosed, List.mem_cons, List.not_mem_nil, or_false,
    exists_eq_or_imp, exists_eq_left, ite_or]

/-- A value is kept by its line: if it has a double quote, it has no blanks around it, does not end
with a backslash, and is not enclosed in a pair. -/
def Kept (value : Text) : Prop :=
  0x22 ∈ value → (∀ first ∈ value.head?, first ∉ valueBlanks) ∧
    (∀ last ∈ value.getLast?, last ∉ valueBlanks ∧ last ≠ 0x5c) ∧ ¬ Enclosed value

instance : DecidablePred Kept := fun value =>
  inferInstanceAs (Decidable (0x22 ∈ value → _ ∧ _ ∧ _))

theorem statement_keyLine {key value : Text} (readable : KeyReadable key) (kept : Kept value) :
    statement (keyLine (key, value)) = some (.key key (some value)) := by
  unfold keyLine
  split
  next quoted =>
    obtain ⟨starts, ends, bare⟩ := kept quoted
    have stripped : strip value valueBlanks = value :=
      strip_eq_self starts fun last final => (ends last final).1
    rw [statement_key readable, stripped, unquote, if_neg (List.ne_nil_of_mem quoted),
      unquoted_quotes, if_neg bare]
  next =>
    have stripped : strip (0x22 :: (value ++ [0x22])) valueBlanks =
        0x22 :: (value ++ [0x22]) := by
      refine strip_eq_self (fun first starts => ?_) fun last ends => ?_
      · cases starts
        decide
      · rw [← List.cons_append, List.getLast?_concat] at ends
        cases ends
        decide
    have inside : unquoted (0x22 :: (value ++ [0x22])) quotes = value := by
      rw [quotes, unquoted, ← List.cons_append, List.getLast?_concat, List.dropLast_concat]
      rfl
    rw [statement_key readable, stripped, unquote, if_neg (List.cons_ne_nil _ _), inside]

/-! ### Lines that are read -/

/-- A line is read as it is: it fits into the buffer, has no newline and no null, and its last byte
is neither a blank nor a backslash. -/
structure LineReadable (line : Text) : Prop where
  fits : line.length < 1023
  plain : 0x0a ∉ line ∧ 0 ∉ line
  ends : ∀ last, line.getLast? = some last → last ∉ lineBlanks ∧ last ≠ 0x5c

theorem LineReadable.nil : LineReadable [] :=
  ⟨by decide, ⟨List.not_mem_nil, List.not_mem_nil⟩, fun _ ends => by cases ends⟩

/-- A line of the file that fits is read to its end. -/
theorem fgets_line {line : Text} (unbroken : 0x0a ∉ line) {size : Nat} (fits : line.length < size)
    (left : Text) : fgets size (line ++ 0x0a :: left) = (line ++ [0x0a], left, false) := by
  induction line generalizing size with
  | nil =>
    obtain ⟨size, rfl⟩ := Nat.exists_eq_add_of_lt fits
    simp [fgets]
  | cons char line inductionHypothesis =>
    obtain ⟨other, unbroken⟩ := not_or.mp (List.mem_cons.not.mp unbroken)
    cases size with
    | zero => cases fits
    | succ size =>
      rw [List.cons_append, fgets, if_neg (Ne.symm other),
        inductionHypothesis unbroken (Nat.lt_of_succ_lt_succ fits)]
      rfl

/-- A longer one is cut. -/
theorem fgets_cut {line : Text} (unbroken : 0x0a ∉ line) {size : Nat} (cut : size ≤ line.length)
    (left : Text) :
    fgets size (line ++ left) = (line.take size, line.drop size ++ left, false) := by
  induction line generalizing size with
  | nil =>
    obtain rfl := Nat.le_zero.mp cut
    cases left <;> rfl
  | cons char line inductionHypothesis =>
    obtain ⟨other, unbroken⟩ := not_or.mp (List.mem_cons.not.mp unbroken)
    cases size with
    | zero => rfl
    | succ size =>
      rw [List.cons_append, fgets, if_neg (Ne.symm other),
        inductionHypothesis unbroken (Nat.le_of_succ_le_succ cut)]
      rfl

theorem chop_newline (line : Text) : chop (line ++ [0x0a]) lineBlanks = chop line lineBlanks :=
  chop_append_of_mem (by decide) line

theorem takeWhile_plain {line : Text} (plain : 0 ∉ line) :
    line.takeWhile (fun char => char ≠ 0) = line :=
  List.takeWhile_eq_self_iff.mpr fun _ member =>
    decide_eq_true (ne_of_mem_of_not_mem member plain)

theorem readChunk_line {line : Text} (plain : 0x0a ∉ line ∧ 0 ∉ line) {kept : Text}
    (fits : line.length < 1023 - kept.length) (left : Text) :
    readChunk kept (line ++ 0x0a :: left) = (chop line lineBlanks, left, false) := by
  have plain' : 0 ∉ line ++ [0x0a] := by simp [plain.2]
  rw [readChunk, fgets_line plain.1 fits]
  simp only [takeWhile_plain plain', chop_newline]

theorem readChunk_cut {line : Text} (plain : 0x0a ∉ line ∧ 0 ∉ line) {kept : Text}
    (cut : 1023 - kept.length ≤ line.length) (left : Text) :
    readChunk kept (line ++ 0x0a :: left) = (chop (line.take (1023 - kept.length)) lineBlanks,
      line.drop (1023 - kept.length) ++ 0x0a :: left, false) := by
  have plain' : 0 ∉ line.take (1023 - kept.length) := fun member =>
    plain.2 (List.mem_of_mem_take member)
  rw [readChunk, fgets_cut plain.1 cut]
  simp only [takeWhile_plain plain']

/-- A line that is read as it is. -/
theorem readLines_line {line : Text} (readable : LineReadable line) (fuel : Nat) (left : Text) :
    readLines (fuel + 1) [] (line ++ 0x0a :: left) =
      (readLines fuel [] left).map fun lines => line :: lines := by
  have whole : chop line lineBlanks = line :=
    chop_eq_self fun last ends => (readable.ends last ends).1
  have unjoined : line.getLast? ≠ some 0x5c := fun ends => (readable.ends _ ends).2 rfl
  rw [readLines, readChunk_line readable.plain (by simpa using readable.fits)]
  simp [whole, unjoined]

/-- Lines that are read as they are. -/
theorem readLines_file {first : List Text} (readable : ∀ line ∈ first, LineReadable line)
    (fuel : Nat) (left : Text) :
    readLines (first.length + fuel) [] (file first ++ left) =
      (readLines fuel [] left).map fun lines => first ++ lines := by
  induction first with
  | nil => simp [file]
  | cons line rest inductionHypothesis =>
    obtain ⟨here, later⟩ := List.forall_mem_cons.mp readable
    have split : file (line :: rest) ++ left = line ++ 0x0a :: (file rest ++ left) := by
      simp [file]
    rw [split, List.length_cons, Nat.add_right_comm, readLines_line here,
      inductionHypothesis later, Option.map_map]
    rfl

/-! ### Lines that are joined -/

/-- A line of a file, or what is left of one: it would fit into an empty buffer. -/
def Short (line : Text) : Prop :=
  line.length < 1023 ∧ 0x0a ∉ line ∧ 0 ∉ line

/-- One for a text that is not empty. -/
def weight (text : Text) : Nat :=
  if text = [] then 0 else 1

/-- The number of lines that are not empty. -/
def weights (lines : List Text) : Nat :=
  (lines.map weight).sum

theorem weight_le_one (text : Text) : weight text ≤ 1 := by
  unfold weight
  split <;> omega

theorem weight_of_ne_nil {text : Text} (some_ : text ≠ []) : weight text = 1 :=
  if_neg some_

theorem weight_append_le (first last : Text) :
    weight (first ++ last) ≤ weight first + weight last := by
  by_cases empty : last = []
  · rw [empty, List.append_nil]
    exact Nat.le_add_right _ _
  · have whole := weight_le_one (first ++ last)
    rw [weight_of_ne_nil empty]
    omega

/-- A text that is taken from another one is empty where that is. -/
theorem weight_le_weight {line part : Text} (from_ : line = [] → part = []) :
    weight part ≤ weight line := by
  by_cases empty : line = []
  · rw [from_ empty, empty]
  · rw [weight_of_ne_nil empty]
    exact weight_le_one part

theorem chop_nil_of_nil {line : Text} (empty : line = []) : chop line lineBlanks = [] := by
  rw [empty]
  rfl

theorem Short.drop {line : Text} (short : Short line) (taken : Nat) : Short (line.drop taken) := by
  refine ⟨?_, fun member => short.2.1 (List.mem_of_mem_drop member),
    fun member => short.2.2 (List.mem_of_mem_drop member)⟩
  rw [List.length_drop]
  exact Nat.lt_of_le_of_lt (Nat.sub_le _ _) short.1

/-- One turn of the loop, whether it takes the line whole or cuts it. -/
theorem weights_turn_le {fuel : Nat} {kept lp : Text} {lines left read : List Text}
    (chunk : readChunk kept (file lines) = (lp, file left, false))
    (later : ∀ {kept read}, readLines fuel kept (file left) = some read →
      weights read ≤ weight kept + weights left)
    (done : readLines (fuel + 1) kept (file lines) = some read)
    (bounded : ∀ part, part = lp ∨ part = lp.dropLast →
      weight (kept ++ part) + weights left ≤ weight kept + weights lines) :
    weights read ≤ weight kept + weights lines := by
  rw [readLines, chunk] at done
  simp only [Bool.false_eq_true, and_false, if_false] at done
  split at done
  next => exact (later done).trans (bounded _ (Or.inr rfl))
  next =>
    obtain ⟨more, finished, rfl⟩ := Option.map_eq_some_iff.mp done
    have onward := later finished
    have empty : weight [] = 0 := rfl
    have here := bounded lp (Or.inl rfl)
    have whole : weights ((kept ++ lp) :: more) = weight (kept ++ lp) + weights more := rfl
    omega

/-- No more lines are read than begin in the file, but for the one that was begun. -/
theorem weights_readLines_le {fuel : Nat} {kept : Text} {lines read : List Text}
    (short : ∀ line ∈ lines, Short line) (done : readLines fuel kept (file lines) = some read) :
    weights read ≤ weight kept + weights lines := by
  induction fuel generalizing kept lines read with
  | zero => cases done
  | succ fuel inductionHypothesis =>
    cases lines with
    | nil =>
      obtain ⟨feof, nothing⟩ : ∃ feof, readChunk kept [] = ([], [], feof) := by
        cases room : 1023 - kept.length <;> exact ⟨_, by rw [readChunk, room]; rfl⟩
      simp only [file, List.flatMap_nil, readLines, nothing, List.getLast?_nil, reduceCtorEq,
        if_false, List.append_nil] at done
      split at done
      next =>
        cases done
        exact Nat.zero_le _
      next =>
        obtain ⟨more, finished, rfl⟩ := Option.map_eq_some_iff.mp done
        have later := inductionHypothesis short finished
        have empty : weight [] = 0 := rfl
        simp only [weights, List.map_cons, List.sum_cons, List.map_nil, List.sum_nil] at later ⊢
        omega
    | cons line rest =>
      obtain ⟨here, later⟩ := List.forall_mem_cons.mp short
      have split : file (line :: rest) = line ++ 0x0a :: file rest := by simp [file]
      have count : weights (line :: rest) = weight line + weights rest := rfl
      by_cases fits : line.length < 1023 - kept.length
      · refine weights_turn_le (by rw [split, readChunk_line here.2 fits])
          (fun finished => inductionHypothesis later finished) done fun part part_ => ?_
        have bound := weight_append_le kept part
        have taken : weight part ≤ weight line := by
          refine weight_le_weight fun empty => ?_
          rcases part_ with rfl | rfl <;> rw [chop_nil_of_nil empty]
          rfl
        omega
      · have begun : kept ≠ [] := by
          rintro rfl
          exact fits (by simpa using here.1)
        obtain ⟨left, left_⟩ : ∃ left, left = line.drop (1023 - kept.length) := ⟨_, rfl⟩
        have cut : readChunk kept (file (line :: rest)) =
            (chop (line.take (1023 - kept.length)) lineBlanks, file (left :: rest), false) := by
          rw [split, readChunk_cut here.2 (Nat.le_of_not_lt fits), left_]
          simp [file]
        have shortLeft : Short left := left_ ▸ here.drop _
        refine weights_turn_le cut (fun finished => inductionHypothesis
          (List.forall_mem_cons.mpr ⟨shortLeft, later⟩) finished) done fun part _ => ?_
        have bound : weight left ≤ weight line := weight_le_weight fun empty => by
          rw [left_, empty, List.drop_nil]
        have one := weight_le_one (kept ++ part)
        have begun' := weight_of_ne_nil begun
        have count' : weights (left :: rest) = weight left + weights rest := rfl
        omega

end Keyfile

end CommonCpp
