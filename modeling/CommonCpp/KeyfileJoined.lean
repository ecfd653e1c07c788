/-
This file shows that the lines of a file come to an end, and what is read of a value
that its line does not keep.

A value with a double quote is written as it is. When it has blanks around it or is
enclosed in a pair, a shorter value is read. When it ends with a backslash, its line is
joined to what is read next, which starts like a line of the file and so with neither a
blank, a quote nor a backslash. To bring the value back the text behind it would have to
be the backslash, or the text in front of it would have to be repeated until it covers
the place where the next line starts.
-/

import CommonCpp.KeyfileText

namespace CommonCpp

open Ctype

namespace Keyfile

/-! ### The end of the file -/

theorem length_fgets_le (size : Nat) (file : Text) :
    (fgets size file).2.1.length ≤ file.length := by
  induction size generalizing file with
  | zero => exact Nat.le_refl _
  | succ size inductionHypothesis =>
    cases file with
    | nil => exact Nat.le_refl _
    | cons char file =>
      rw [fgets]
      split
      · exact Nat.le_succ _
      · exact Nat.le_succ_of_le (inductionHypothesis file)

/-- Where there is room for a byte, one is read, or the file is at its end. -/
theorem fgets_room (size : Nat) (file : Text) :
    fgets (size + 1) file = ([], [], true) ∧ file = [] ∨
      (fgets (size + 1) file).2.1.length < file.length := by
  cases file with
  | nil => exact Or.inl ⟨rfl, rfl⟩
  | cons char file =>
    refine Or.inr ?_
    rw [fgets]
    split
    · exact Nat.lt_succ_self _
    · exact Nat.lt_succ_of_le (length_fgets_le size file)

/-- A turn of the loop reads a byte, or it ends a line that was begun, or the file. -/
theorem readLines_total {fuel : Nat} {kept file : Text}
    (enough : 2 * file.length + weight kept < fuel) : (readLines fuel kept file).isSome := by
  induction fuel generalizing kept file with
  | zero => cases enough
  | succ fuel inductionHypothesis =>
    rw [readLines]
    obtain ⟨lp, left, feof, chunk⟩ :
        ∃ lp left feof, readChunk kept file = (lp, left, feof) := ⟨_, _, _, rfl⟩
    have left_ : (fgets (1023 - kept.length) file).2.1 = left :=
      congrArg (fun read => read.2.1) chunk
    have feof_ : (fgets (1023 - kept.length) file).2.2 = feof :=
      congrArg (fun read => read.2.2) chunk
    have lp_ : chop ((fgets (1023 - kept.length) file).1.takeWhile fun char => char ≠ 0)
        lineBlanks = lp := congrArg Prod.fst chunk
    have goesOn : ∀ kept', 2 * left.length + weight kept' < fuel ∨ left.length < file.length →
        (readLines fuel kept' left).isSome := by
      intro kept' less
      have one := weight_le_one kept'
      exact inductionHypothesis (by omega)
    have nothing : weight [] = 0 := rfl
    simp only [chunk]
    rcases room : 1023 - kept.length with _ | size
    · -- the buffer is full
      have begun : kept ≠ [] := by
        rintro rfl
        cases room
      rw [room] at left_ lp_
      obtain rfl : [] = lp := lp_
      obtain rfl : file = left := left_
      have weight_ := weight_of_ne_nil begun
      rw [if_neg (by simp), if_neg (by simp [begun]), Option.isSome_map]
      exact goesOn [] (Or.inl (by omega))
    · rw [room] at left_ feof_ lp_
      rcases fgets_room size file with ⟨atEnd, rfl⟩ | less
      · rw [atEnd] at left_ feof_ lp_
        obtain rfl : [] = lp := lp_
        obtain rfl : [] = left := left_
        obtain rfl : true = feof := feof_
        rw [if_neg (by simp)]
        split
        next => rfl
        next unended =>
          have begun : kept ≠ [] := by simpa using unended
          have weight_ := weight_of_ne_nil begun
          rw [Option.isSome_map]
          exact goesOn [] (Or.inl (by omega))
      · rw [left_] at less
        split
        next => exact goesOn _ (Or.inr less)
        next =>
          split
          next => rfl
          next =>
            rw [Option.isSome_map]
            exact goesOn [] (Or.inr less)

/-! ### Where lines start -/

/-- The bytes that the lines of a saved file start with. -/
def Starting (char : UInt8) : Prop :=
  isalnum char ∨ char = 0x5b

theorem Starting.not_mem {char : UInt8} (starting : Starting char) {list : Text}
    (none_ : ∀ other ∈ list, isalnum other = false) (unbracketed : 0x5b ∉ list) :
    char ∉ list := by
  rcases starting with alnum | rfl
  · exact not_mem_of_isalnum alnum none_
  · exact unbracketed

theorem Starting.ne {char : UInt8} (starting : Starting char) {other : UInt8}
    (none_ : isalnum other = false) (unbracketed : 0x5b ≠ other) : char ≠ other := by
  have apart : char ∉ [other] :=
    starting.not_mem (by simpa using none_) (by simpa using unbracketed)
  simpa using apart

/-- A line starts like those that are written, or is empty. -/
def Starts (line : Text) : Prop :=
  ∀ first, line.head? = some first → Starting first

/-- What is read next starts where a line of the file does. -/
theorem readChunk_starts {kept : Text} (room : kept.length < 1023) {lines : List Text}
    (starts : ∀ line ∈ lines, Starts line) : Starts (readChunk kept (file lines)).1 := by
  obtain ⟨size, room'⟩ : ∃ size, 1023 - kept.length = size + 1 :=
    Nat.exists_eq_succ_of_ne_zero (Nat.sub_ne_zero_of_lt room)
  have read : (readChunk kept (file lines)).1 =
      chop ((fgets (size + 1) (file lines)).1.takeWhile fun char => char ≠ 0) lineBlanks := by
    rw [← room']
    rfl
  rw [read]
  rcases lines with _ | ⟨_ | ⟨char, line⟩, rest⟩
  · intro first head
    cases head
  · intro first head
    cases head
  · have starting : Starting char := starts _ List.mem_cons_self char rfl
    have plain : char ≠ 0x0a := starting.ne (by decide) (by decide)
    have nonzero : char ≠ 0 := starting.ne (by decide) (by decide)
    have unblank : char ∉ lineBlanks := starting.not_mem (by decide +kernel) (by decide)
    have split : file ((char :: line) :: rest) = char :: (line ++ 0x0a :: file rest) := by
      simp [file]
    rw [split, fgets, if_neg plain, List.takeWhile_cons_of_pos (by simpa using nonzero)]
    intro first head
    have whole := chop_append_cons unblank [] ((fgets size (line ++ 0x0a :: file rest)).1.takeWhile
      fun char => char ≠ 0)
    rw [List.nil_append] at whole
    rw [whole] at head
    cases head
    exact starting

/-! ### What a line is joined to -/

/-- A line that was begun is read, with something behind it. -/
theorem readLines_begun {fuel : Nat} {kept file : Text} {read : List Text} (begun : kept ≠ [])
    (done : readLines fuel kept file = some read) :
    ∃ text more, read = (kept ++ text) :: more := by
  induction fuel generalizing kept file read with
  | zero => cases done
  | succ fuel inductionHypothesis =>
    rw [readLines] at done
    split at done
    rename_i lp left feof chunk
    split at done
    next =>
      obtain ⟨text, more, whole⟩ := inductionHypothesis (by simp [begun]) done
      exact ⟨lp.dropLast ++ text, more, by rw [whole, List.append_assoc]⟩
    next =>
      rw [if_neg (by simp [begun])] at done
      obtain ⟨more, _, rfl⟩ := Option.map_eq_some_iff.mp done
      exact ⟨lp, more, rfl⟩

/-- What a line is joined to starts like a line of the file. -/
theorem readLines_joined {fuel : Nat} {kept : Text} {lines read : List Text} (begun : kept ≠ [])
    (room : kept.length < 1023) (starts : ∀ line ∈ lines, Starts line)
    (done : readLines fuel kept (file lines) = some read) :
    ∃ text more, read = (kept ++ text) :: more ∧ Starts text := by
  cases fuel with
  | zero => cases done
  | succ fuel =>
    have first := readChunk_starts room starts
    rw [readLines] at done
    split at done
    rename_i lp left feof chunk
    rw [chunk] at first
    split at done
    next joined =>
      obtain ⟨text, more, whole⟩ := readLines_begun (by simp [begun]) done
      refine ⟨lp.dropLast ++ text, more, by rw [whole, List.append_assoc], ?_⟩
      -- the backslash is not the byte that the text starts with
      obtain ⟨some_, rfl⟩ : ∃ some_, lp = some_ ++ [0x5c] := List.getLast?_eq_some_iff.mp joined
      rw [List.dropLast_concat]
      cases some_ with
      | nil =>
        have starting : Starting 0x5c := first 0x5c rfl
        exact absurd rfl (starting.ne (by decide) (by decide))
      | cons char some_ =>
        intro head here
        exact first head here
    next =>
      rw [if_neg (by simp [begun])] at done
      obtain ⟨more, _, rfl⟩ := Option.map_eq_some_iff.mp done
      exact ⟨lp, more, rfl, first⟩

/-! ### Texts that are repeated -/

/-- A text that begins with another one and then itself has no bytes but those of the other. -/
theorem mem_of_repeated {str before : Text} (some_ : before ≠ [])
    (repeated : str <+: before ++ str) : ∀ char ∈ str, char ∈ before := by
  induction length : str.length using Nat.strong_induction_on generalizing str with
  | h length_ inductionHypothesis =>
    rcases List.prefix_or_prefix_of_prefix repeated (List.prefix_append before str) with
      within | covers
    · exact fun char member => within.subset member
    · obtain ⟨rest, rfl⟩ := covers
      have repeated' : rest <+: before ++ rest := (List.prefix_append_right_inj before).mp repeated
      have shorter : rest.length < length_ := by
        have positive := List.length_pos_of_ne_nil some_
        rw [← length, List.length_append]
        omega
      intro char member
      rcases List.mem_append.mp member with here | later
      · exact here
      · exact inductionHypothesis rest.length shorter repeated' rfl char later

/-- So the byte behind it is one of them as well. -/
theorem mem_of_repeated_next {str before : Text} {char : UInt8} (some_ : before ≠ [])
    (repeated : str ++ [char] <+: before ++ str) : char ∈ before := by
  have within : str <+: before ++ str := (List.prefix_append str [char]).trans repeated
  have member : char ∈ before ++ str := repeated.subset (by simp)
  rcases List.mem_append.mp member with here | later
  · exact here
  · exact mem_of_repeated some_ within char later

/-- What a value that ends with a backslash is joined to does not bring it back. -/
theorem unquote_joined_ne {first blanks text : Text} (starts : Starts text) :
    (unquote (strip (first ++ text) valueBlanks) quotes).getD [] ≠ first ++ 0x5c :: blanks := by
  intro same
  have some_ : first ++ 0x5c :: blanks ≠ [] := by simp
  obtain ⟨before, after, whole, blank, _⟩ := exists_strip_append (first ++ text) valueBlanks
  obtain ⟨taken, rest, taken_, repeats⟩ : ∃ taken rest,
      (∀ char ∈ taken, char ∈ valueBlanks ++ quotes) ∧
        first ++ text = taken ++ (first ++ 0x5c :: rest) := by
    have blank' : ∀ char ∈ before, char ∈ valueBlanks ++ quotes := fun char member =>
      List.mem_append_left _ (blank char member)
    rw [unquote] at same
    split at same
    next => exact absurd same.symm some_
    next =>
      rw [Option.getD_some] at same
      rcases unquoted_cases (strip (first ++ text) valueBlanks) quotes with
        bare | ⟨quote, member, ⟨_, nothing⟩ | ⟨last, enclosed⟩⟩
      · refine ⟨before, blanks ++ after, blank', ?_⟩
        rw [bare] at same
        rw [same] at whole
        simpa using whole
      · rw [nothing] at same
        exact absurd same.symm some_
      · refine ⟨before ++ [quote], blanks ++ last :: after, ?_, ?_⟩
        · exact List.forall_mem_append.mpr ⟨blank', by simp [member]⟩
        · rw [same] at enclosed
          rw [enclosed] at whole
          simpa using whole
  by_cases untaken : taken = []
  · -- the text would start with the backslash
    rw [untaken, List.nil_append, List.append_cancel_left_eq] at repeats
    have starting : Starting 0x5c := starts 0x5c (by rw [repeats]; rfl)
    exact absurd rfl (starting.ne (by decide) (by decide))
  · cases text with
    | nil =>
      have length := congrArg List.length repeats
      simp only [List.append_nil, List.length_append, List.length_cons] at length
      omega
    | cons char text =>
      have starting : Starting char := starts char rfl
      have here : first ++ [char] <+: taken ++ (first ++ 0x5c :: rest) := by
        rw [← repeats]
        exact ⟨text, by simp⟩
      have there : taken ++ first <+: taken ++ (first ++ 0x5c :: rest) := ⟨0x5c :: rest, by simp⟩
      have positive := List.length_pos_of_ne_nil untaken
      have within : first ++ [char] <+: taken ++ first :=
        List.prefix_of_prefix_length_le here there (by simp; omega)
      exact starting.not_mem (by decide +kernel) (by decide)
        (taken_ char (mem_of_repeated_next untaken within))

/-! ### Values that are not kept -/

theorem chop_lineBlanks (str : Text) : chop str lineBlanks = chop str valueBlanks :=
  congrArg (fun list => str.rdropWhile list) (funext fun char =>
    decide_eq_decide.mpr (mem_lineBlanks char))

/-- A value that comes through whole has no blanks around it and is not enclosed. -/
theorem strip_eq_of_unquote {value : Text} (some_ : value ≠ [])
    (same : (unquote (strip (chop value valueBlanks) valueBlanks) quotes).getD [] = value) :
    strip value valueBlanks = value ∧ chop value valueBlanks = value ∧ ¬ Enclosed value := by
  have chopped := length_chop_le value valueBlanks
  have stripped := length_strip_le (chop value valueBlanks) valueBlanks
  rw [unquote] at same
  split at same
  next => exact absurd same.symm some_
  next =>
    rw [Option.getD_some, unquoted_quotes] at same
    split at same
    next =>
      have length := congrArg List.length same
      have positive := List.length_pos_of_ne_nil some_
      rw [List.length_tail, List.length_dropLast] at length
      omega
    next bare =>
      obtain ⟨blanks, whole, _⟩ := exists_chop_append value valueBlanks
      have unchopped : chop value valueBlanks = value := by
        have length := congrArg List.length whole
        rw [List.length_append] at length
        rw [same] at stripped
        have nothing : blanks = [] := List.eq_nil_of_length_eq_zero (by omega)
        rw [nothing, List.append_nil] at whole
        exact whole.symm
      rw [unchopped] at same bare
      rw [same] at bare
      exact ⟨same, unchopped, bare⟩

/-- A value that is not kept is read as another one. -/
theorem readLines_unkept {key value : Text} (readable : KeyReadable key)
    (short : Short (keyLine (key, value))) (unkept : ¬ Kept value) {lines : List Text}
    (starts : ∀ line ∈ lines, Starts line) {fuel : Nat} {read : List Text}
    (done : readLines fuel [] (file (keyLine (key, value) :: lines)) = some read) :
    ∃ line more other, read = line :: more ∧ statement line = some (.key key other) ∧
      other.getD [] ≠ value := by
  obtain ⟨quoted, broken⟩ := Classical.not_imp.mp unkept
  have some_ : value ≠ [] := List.ne_nil_of_mem quoted
  have written : keyLine (key, value) = key ++ 0x3d :: value := if_pos quoted
  rw [written] at short done
  cases fuel with
  | zero => cases done
  | succ fuel =>
    have split : file ((key ++ 0x3d :: value) :: lines) =
        (key ++ 0x3d :: value) ++ 0x0a :: file lines := by simp [file]
    have chopped : chop (key ++ 0x3d :: value) lineBlanks =
        key ++ 0x3d :: chop value valueBlanks := by
      rw [chop_append_cons (by decide), chop_lineBlanks]
    rw [split, readLines, readChunk_line short.2 (by simpa using short.1), chopped] at done
    simp only [List.nil_append, Bool.false_eq_true, and_false, if_false] at done
    obtain ⟨blanks, whole, blank⟩ := exists_chop_append value valueBlanks
    split at done
    next joined =>
      -- the value ends with a backslash before its last blanks
      have ends : (chop value valueBlanks).getLast? = some 0x5c := by
        rcases List.eq_nil_or_concat' (chop value valueBlanks) with empty | ⟨first, last, final⟩
        · rw [empty, List.getLast?_concat] at joined
          cases joined
        · rw [final, ← List.cons_append, ← List.append_assoc, List.getLast?_concat] at joined
          rw [final, List.getLast?_concat]
          exact joined
      obtain ⟨first, final⟩ := List.getLast?_eq_some_iff.mp ends
      rw [final] at done whole
      rw [← List.cons_append, ← List.append_assoc, List.dropLast_concat] at done
      have room : (key ++ 0x3d :: first).length < 1023 := by
        have fits := short.1
        rw [whole] at fits
        simp only [List.length_append, List.length_cons] at fits ⊢
        omega
      obtain ⟨text, more, rfl, starts'⟩ := readLines_joined (by simp) room starts done
      refine ⟨_, more, unquote (strip (first ++ text) valueBlanks) quotes, rfl, ?_, ?_⟩
      · rw [List.append_assoc, List.cons_append]
        exact statement_key readable _
      · rw [whole, List.append_assoc, List.singleton_append]
        exact unquote_joined_ne starts'
    next unjoined =>
      obtain ⟨more, _, rfl⟩ := Option.map_eq_some_iff.mp done
      refine ⟨_, more, _, rfl, statement_key readable _, fun same => broken ?_⟩
      obtain ⟨stripped, unchopped, bare⟩ := strip_eq_of_unquote some_ same
      refine ⟨fun first starts => @not_mem_of_head?_strip value _ _ (by rwa [stripped]),
        fun last final => ⟨@not_mem_of_getLast?_chop value _ _ (by rwa [unchopped]), ?_⟩, bare⟩
      rintro rfl
      refine unjoined ?_
      rw [unchopped, List.getLast?_append, List.getLast?_cons, final]
      rfl

end Keyfile

end CommonCpp
