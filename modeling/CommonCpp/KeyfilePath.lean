/-
This file models how a `keyfile` is saved to a file and loaded from it, and shows what
is read of the lines that were written.

A keyfile lists default keys and sections, and writes a line for each. The lines of a
file are statements: each names a section, or sets a key in the section that was named
last or among the default keys. What they do to the keyfile is the subject of the next
file.

Where every value is kept by its line, the statements that are read are those that were
written. The first value that is not kept is read as another one, and no more statements
are read than were written.

Names, keys and values are copied with `dup`. It writes nothing when the text is empty,
and what then stands in the copy is not known: there is no outcome.
-/

import CommonCpp.Bytes
import CommonCpp.KeyfileJoined
import CommonCpp.KeyfileMerge

namespace CommonCpp

open Concurrency KeyLog Memory
open Bytes (dup)

namespace Keyfile

/-! ### The code -/

/-- What a keyfile lists: its default keys and its sections. -/
structure Contents where
  defaults : List (Text × Text)
  sections : List (Text × List (Text × Text))
  deriving DecidableEq

/-- The lines that `save` writes. -/
def Contents.lines (contents : Contents) : List Text :=
  contents.defaults.map keyLine ++ [] :: contents.sections.flatMap fun keydata =>
    nameLine keydata.1 :: (keydata.2.map keyLine ++ [[]])

section Code

variable {File : Type} (folding : Comparison Text) [DecidableEq File]

omit [DecidableEq File] in
/-- What `save` walks along: the default keys, if any were opened, and the sections. -/
def contents (heap : Heap File) (this : File) : Option Contents :=
  let defaults : Option (List (Text × Text)) := match heap.defaults this with
    | some defaults => Keydata.entries heap defaults
    | none => some []
  defaults.bind fun defaults => (sections heap this).bind fun list =>
    let named := fun (keydata : Text × Option (List (Text × Text))) =>
      keydata.2.map fun entries => (keydata.1, entries)
    (list.mapM named).map fun sections => ⟨defaults, sections⟩

omit [DecidableEq File] in
/-- `save`, up to the file that its lines are written to. -/
def save (heap : Heap File) (this : File) : Option Text :=
  (contents heap this).map fun contents => file contents.lines

/-- What `load` does with a line: it goes to a section, or it sets a key in the one it went to last
or among the default keys. -/
def loadLine (this : File) (state : Heap File × Option Nat) :
    Statement → Option (Heap File × Option Nat)
  | .name id => (get folding state.1 this id).bind fun keydata =>
    match keydata with
    | some keydata => some (state.1, some keydata)
    | none => (dup id).bind fun name =>
      (create folding state.1 this name).map fun heap => (heap, some state.1.keydatas)
  | .key id value => (state.2.or (state.1.defaults this)).bind fun keydata =>
    (dup id).bind fun key => (value.mapM dup).bind fun value =>
      (Keydata.set folding state.1 keydata key value).map fun heap => (heap, state.2)

/-- `load` of a file that was opened. -/
def loadPath (heap : Heap File) (this : File) (file : Text) : Option (Heap File) :=
  (readLines (2 * file.length + 1) [] file).bind fun lines =>
    ((lines.filterMap statement).foldlM (loadLine folding this)
      (openDefaults heap this, none)).map Prod.fst

end Code

/-! ### What is written -/

/-- A line as it is written. -/
def line : Option Statement → Text
  | some (.name id) => nameLine id
  | some (.key id value) => keyLine (id, value.getD [])
  | none => []

def keyStatement (entry : Text × Text) : Statement :=
  .key entry.1 (some entry.2)

namespace Contents

/-- The statements of the lines. An empty line has none. -/
def items (contents : Contents) : List (Option Statement) :=
  contents.defaults.map (fun entry => some (keyStatement entry)) ++
    none :: contents.sections.flatMap fun keydata => some (.name keydata.1) ::
      (keydata.2.map (fun entry => some (keyStatement entry)) ++ [none])

def statements (contents : Contents) : List Statement :=
  contents.defaults.map keyStatement ++ contents.sections.flatMap fun keydata =>
    .name keydata.1 :: keydata.2.map keyStatement

/-- All keys and values. -/
def entries (contents : Contents) : List (Text × Text) :=
  contents.defaults ++ contents.sections.flatMap Prod.snd

/-- The names, keys and values have the form that a file can hold. -/
structure Writable (contents : Contents) : Prop where
  names : ∀ id ∈ contents.sections.map Prod.fst, NameReadable id ∧ Short (nameLine id)
  keys : ∀ entry ∈ contents.entries, KeyReadable entry.1 ∧ Short (keyLine entry)

theorem lines_eq (contents : Contents) : contents.lines = contents.items.map line := by
  simp [lines, items, line, keyStatement, Function.comp_def, List.map_flatMap]

theorem statements_eq (contents : Contents) :
    contents.statements = contents.items.filterMap id := by
  simp [statements, items, List.filterMap_flatMap, List.filterMap_map]

end Contents

/-- A statement whose line can be read. -/
def Legible : Option Statement → Prop
  | some (.name id) => NameReadable id ∧ Short (nameLine id)
  | some (.key id value) => KeyReadable id ∧ Short (keyLine (id, value.getD [])) ∧ value.isSome
  | none => True

/-- A statement whose value, if any, is kept. -/
def ItemKept : Option Statement → Prop
  | some (.key _ value) => Kept (value.getD [])
  | _ => True

namespace Contents

variable {contents : Contents}

theorem mem_items {item : Option Statement} (member : item ∈ contents.items) :
    item = none ∨ (∃ id ∈ contents.sections.map Prod.fst, item = some (.name id)) ∨
      ∃ entry ∈ contents.entries, item = some (keyStatement entry) := by
  simp only [items, List.mem_append, List.mem_map, List.mem_cons, List.mem_flatMap,
    List.not_mem_nil, or_false] at member
  rcases member with ⟨entry, on, rfl⟩ | rfl | ⟨keydata, on, rfl | ⟨entry, on', rfl⟩ | rfl⟩
  · exact Or.inr (Or.inr ⟨entry, List.mem_append_left _ on, rfl⟩)
  · exact Or.inl rfl
  · exact Or.inr (Or.inl ⟨keydata.1, List.mem_map_of_mem on, rfl⟩)
  · exact Or.inr (Or.inr ⟨entry, List.mem_append_right _ (List.mem_flatMap_of_mem on on'), rfl⟩)
  · exact Or.inl rfl

theorem legible (writable : contents.Writable) : ∀ item ∈ contents.items, Legible item := by
  intro item member
  rcases mem_items member with rfl | ⟨id, on, rfl⟩ | ⟨entry, on, rfl⟩
  · trivial
  · exact writable.names id on
  · obtain ⟨readable, short⟩ := writable.keys entry on
    exact ⟨readable, short, rfl⟩

theorem entry_mem_items {entry : Text × Text} (member : entry ∈ contents.entries) :
    some (keyStatement entry) ∈ contents.items := by
  rcases List.mem_append.mp member with default | inside
  · exact List.mem_append_left _ (List.mem_map_of_mem default)
  · obtain ⟨keydata, on, on'⟩ := List.mem_flatMap.mp inside
    refine List.mem_append_right _ (List.mem_cons_of_mem _ (List.mem_flatMap_of_mem on ?_))
    exact List.mem_cons_of_mem _ (List.mem_append_left _ (List.mem_map_of_mem on'))

theorem items_kept_iff :
    (∀ item ∈ contents.items, ItemKept item) ↔ ∀ entry ∈ contents.entries, Kept entry.2 := by
  constructor
  · exact fun kept entry member => kept _ (entry_mem_items member)
  · intro kept item member
    rcases mem_items member with rfl | ⟨id, on, rfl⟩ | ⟨entry, on, rfl⟩
    · trivial
    · trivial
    · exact kept entry on

end Contents

/-! ### What is read -/

theorem short_nil : Short [] :=
  ⟨by decide, List.not_mem_nil, List.not_mem_nil⟩

variable {item : Option Statement}

theorem Legible.short (legible : Legible item) : Short (line item) := by
  match item, legible with
  | none, _ => exact short_nil
  | some (.name _), legible => exact legible.2
  | some (.key _ _), legible => exact legible.2.1

theorem Legible.starts (legible : Legible item) : Starts (line item) := by
  match item, legible with
  | none, _ =>
    intro first head
    cases head
  | some (.name id), _ =>
    intro first head
    cases head
    exact Or.inr rfl
  | some (.key id value), legible =>
    obtain ⟨first, rest, whole, alnum⟩ := legible.1.starts
    obtain ⟨text, written⟩ := keyLine_eq id (value.getD [])
    intro first' head
    rw [show line (some (.key id value)) = keyLine (id, value.getD []) from rfl, written, whole]
      at head
    cases head
    exact Or.inl alnum

theorem Legible.weight (legible : Legible item) :
    Keyfile.weight (line item) = item.toList.length := by
  match item, legible with
  | none, _ => rfl
  | some (.name id), _ => rfl
  | some (.key id value), legible =>
    obtain ⟨text, written⟩ := keyLine_eq id (value.getD [])
    refine weight_of_ne_nil ?_
    rw [show line (some (.key id value)) = keyLine (id, value.getD []) from rfl, written]
    simp

theorem keyLine_ends {key value : Text} (kept : Kept value) {last : UInt8}
    (final : (keyLine (key, value)).getLast? = some last) : last ∉ lineBlanks ∧ last ≠ 0x5c := by
  unfold keyLine at final
  split at final
  next quoted =>
    obtain ⟨before, last', rfl⟩ : ∃ before last', value = before ++ [last'] :=
      (List.eq_nil_or_concat' value).resolve_left (List.ne_nil_of_mem quoted)
    rw [← List.cons_append, ← List.append_assoc, List.getLast?_concat, Option.some_inj] at final
    obtain ⟨unblank, slash⟩ := (kept quoted).2.1 last' List.getLast?_concat
    rw [← final]
    exact ⟨(mem_lineBlanks last').not.mpr unblank, slash⟩
  next =>
    rw [← List.cons_append, ← List.cons_append, ← List.append_assoc, List.getLast?_concat,
      Option.some_inj] at final
    rw [← final]
    decide

/-- A line whose value is kept is read as it is. -/
theorem Legible.readable (legible : Legible item) (kept : ItemKept item) :
    LineReadable (line item) := by
  obtain ⟨fits, plain⟩ := legible.short
  refine ⟨fits, plain, fun last final => ?_⟩
  match item, kept with
  | none, _ => cases final
  | some (.name id), _ =>
    rw [show line (some (.name id)) = 0x5b :: id ++ [0x5d] from rfl, List.getLast?_concat,
      Option.some_inj] at final
    rw [← final]
    decide
  | some (.key id value), kept => exact keyLine_ends kept final

theorem Legible.statement (legible : Legible item) (kept : ItemKept item) :
    Keyfile.statement (line item) = item := by
  match item, legible, kept with
  | none, _, _ => rfl
  | some (.name id), legible, _ => exact statement_nameLine legible.1
  | some (.key id value), legible, kept =>
    obtain ⟨value, rfl⟩ := Option.isSome_iff_exists.mp legible.2.2
    exact statement_keyLine legible.1 kept

variable {items : List (Option Statement)}

theorem filterMap_statement (legible : ∀ item ∈ items, Legible item)
    (kept : ∀ item ∈ items, ItemKept item) :
    (items.map line).filterMap statement = items.filterMap id := by
  rw [List.filterMap_map]
  exact List.filterMap_congr fun item member =>
    (legible item member).statement (kept item member)

theorem weights_items (legible : ∀ item ∈ items, Legible item) :
    weights (items.map line) = (items.filterMap id).length := by
  induction items with
  | nil => rfl
  | cons item rest inductionHypothesis =>
    obtain ⟨here, later⟩ := List.forall_mem_cons.mp legible
    have whole : weights ((item :: rest).map line) = weight (line item) + weights (rest.map line) :=
      rfl
    rw [whole, here.weight, inductionHypothesis later]
    cases item with
    | none => exact Nat.zero_add _
    | some statement => exact Nat.add_comm _ _

/-- A line that is not empty says one thing at most. -/
theorem length_statements_le (read : List Text) :
    (read.filterMap statement).length ≤ weights read := by
  induction read with
  | nil => exact Nat.le_refl _
  | cons first rest inductionHypothesis =>
    have whole : weights (first :: rest) = weight first + weights rest := rfl
    rw [whole]
    cases said : statement first with
    | none =>
      rw [List.filterMap_cons_none said]
      exact Nat.le_add_left_of_le inductionHypothesis
    | some statement =>
      have some_ : first ≠ [] := by
        rintro rfl
        cases said
      rw [List.filterMap_cons_some said, weight_of_ne_nil some_, List.length_cons, Nat.add_comm]
      exact Nat.add_le_add_left inductionHypothesis 1

theorem length_le_length_file (lines : List Text) : lines.length ≤ (file lines).length := by
  induction lines with
  | nil => exact Nat.le_refl _
  | cons line rest inductionHypothesis =>
    have split : file (line :: rest) = line ++ 0x0a :: file rest := by simp [file]
    rw [split, List.length_append, List.length_cons, List.length_cons]
    exact Nat.le_add_left_of_le (Nat.succ_le_succ inductionHypothesis)

/-- Where every value is kept, the statements that are read are those that were written. -/
theorem readLines_items (legible : ∀ item ∈ items, Legible item)
    (kept : ∀ item ∈ items, ItemKept item) :
    ∃ read, readLines (2 * (file (items.map line)).length + 1) [] (file (items.map line)) =
      some read ∧ read.filterMap statement = items.filterMap id := by
  have short := length_le_length_file (items.map line)
  obtain ⟨fuel, enough⟩ : ∃ fuel, 2 * (file (items.map line)).length + 1 =
      (items.map line).length + (fuel + 1) :=
    ⟨2 * (file (items.map line)).length - (items.map line).length, by omega⟩
  have readable : ∀ text ∈ items.map line, LineReadable text := by
    intro text member
    obtain ⟨item, on, rfl⟩ := List.mem_map.mp member
    exact (legible item on).readable (kept item on)
  have whole := readLines_file readable (fuel + 1) []
  rw [List.append_nil] at whole
  refine ⟨items.map line, ?_, filterMap_statement legible kept⟩
  rw [enough, whole]
  exact congrArg some (List.append_nil _)

theorem file_append (first last : List Text) : file (first ++ last) = file first ++ file last :=
  List.flatMap_append

/-- The first value that is not kept is read as another one, and no more is read than was
written. -/
theorem readLines_items_unkept {before after : List (Option Statement)} {key value : Text}
    (legible : ∀ item ∈ before ++ some (.key key (some value)) :: after, Legible item)
    (kept : ∀ item ∈ before, ItemKept item) (unkept : ¬ Kept value) {text : Text}
    (text_ : text = file ((before ++ some (.key key (some value)) :: after).map line)) :
    ∃ read other more, readLines (2 * text.length + 1) [] text = some read ∧
      read.filterMap statement = before.filterMap id ++ .key key other :: more ∧
      other.getD [] ≠ value ∧ (read.filterMap statement).length ≤
        ((before ++ some (.key key (some value)) :: after).filterMap id).length := by
  obtain ⟨legibleBefore, legibleRest⟩ := List.forall_mem_append.mp legible
  obtain ⟨legibleHere, legibleAfter⟩ := List.forall_mem_cons.mp legibleRest
  have nothing : weight [] = 0 := rfl
  obtain ⟨read, done⟩ : ∃ read, readLines (2 * text.length + 1) [] text = some read :=
    Option.isSome_iff_exists.mp (readLines_total (by omega))
  have split : text = file (before.map line) ++ file (keyLine (key, value) :: after.map line) := by
    rw [text_, List.map_append, List.map_cons, file_append]
    rfl
  -- the lines before are read as they are
  have readable : ∀ text ∈ before.map line, LineReadable text := by
    intro text member
    obtain ⟨item, on, rfl⟩ := List.mem_map.mp member
    exact (legibleBefore item on).readable (kept item on)
  have enough : (before.map line).length ≤ 2 * text.length + 1 := by
    have shorter := length_le_length_file (before.map line)
    rw [split, List.length_append]
    omega
  obtain ⟨fuel, enough⟩ := Nat.exists_eq_add_of_le enough
  have whole := done
  rw [enough, split, readLines_file readable] at whole
  obtain ⟨rest, onward, joined⟩ := Option.map_eq_some_iff.mp whole
  -- the next one is not
  have starts : ∀ text ∈ after.map line, Starts text := by
    intro text member
    obtain ⟨item, on, rfl⟩ := List.mem_map.mp member
    exact (legibleAfter item on).starts
  obtain ⟨first, more, other, rfl, said, apart⟩ :=
    readLines_unkept legibleHere.1 legibleHere.2.1 unkept starts onward
  refine ⟨read, other, more.filterMap statement, done, ?_, apart, ?_⟩
  · rw [← joined, List.filterMap_append, filterMap_statement legibleBefore kept,
      List.filterMap_cons_some said]
  · have short : ∀ text ∈ (before ++ some (.key key (some value)) :: after).map line,
        Short text := by
      intro text member
      obtain ⟨item, on, rfl⟩ := List.mem_map.mp member
      exact (legible item on).short
    have fewer := weights_readLines_le short (text_ ▸ done)
    rw [nothing, Nat.zero_add, weights_items legible] at fewer
    exact (length_statements_le read).trans fewer

end Keyfile

end CommonCpp
