/-
This file models `shell::parse` of a command line, and settles when it takes a line
apart into the arguments from which it has been put together.

The loop goes over a copy of the line, whether it is in an argument, and in which quote.
An argument ends at white space, or at its closing quote. The quote is never forgotten,
though: behind an argument in double quotes the next one without quotes does not end at
white space any more, but goes on to a double quote, or to the end of the line. And the
character behind an opening double quote is passed over unseen, so that nothing between
quotes is taken for a quote, and what is behind it.

The copy, the nodes of the arguments, and the array come from the pages of the shell. A
request that does not fit throws. The copy of an empty line is not written, and so the loop
has no outcome there; nor has a read or a write beyond the end of the copy or of the array,
or a loop that is longer than the fuel. The directory in which the shell runs is given by
the system, unless its name is too long for the buffer.
-/

import CommonCpp.StringTokens

namespace CommonCpp

open Bytes Ctype

namespace CommandLine

open StringPager (granted)

/-! ### The code -/

/-- The members of a `shell` that are set when it parses a line. -/
structure Shell where
  argv : List (Option Text)
  argc : UInt32
  argv0 : Option Text
  exedir : Option Text
  deriving DecidableEq

/-- The loop: the copy of the line, the place in it, the quote, whether it is in an argument, and
where the arguments listed so far begin. -/
structure Scan where
  text : Text
  cp : ℕ
  quote : UInt8
  active : Bool
  arglist : List ℕ
  argc : UInt32
  deriving DecidableEq

/-- `sizeof(args)`: the virtual table, `Next` and `item`. -/
def argsSize : ℕ := 24

/-- Behind the label `inactive`. -/
def inactive (scan : Scan) : Scan :=
  { scan with active := false, text := scan.text.set scan.cp 0, cp := scan.cp + 1 }

/-- Behind the label `argument`. -/
def argument (pagesize : ℕ) (scan : Scan) : Except String Scan :=
  if granted pagesize argsSize then
    .ok { scan with
      argc := scan.argc + 1
      active := true
      arglist := scan.arglist ++ [scan.cp]
      cp := scan.cp + 1 }
  else .error "Larger than pagesize"

/-- The end of a round, for a character that is no closing quote. -/
def onward (pagesize : ℕ) (scan : Scan) (char : UInt8) : Except String Scan :=
  if ¬ isspace char ∧ ¬ scan.active then argument pagesize scan
  else .ok { scan with cp := scan.cp + 1 }

/-- One round of the loop, at this character. -/
def round (pagesize : ℕ) (scan : Scan) (char : UInt8) : Option (Except String Scan) :=
  if isspace char ∧ scan.active ∧ scan.quote = 0 then some (.ok (inactive scan))
  else if char = 0x27 ∧ ¬ scan.active then some (argument pagesize { scan with quote := char })
  else if char = 0x22 ∧ ¬ scan.active then
    some (argument pagesize { scan with quote := char, cp := scan.cp + 1 })
  else if char = scan.quote ∧ scan.active then
    if scan.quote = 0x22 then some (.ok (inactive scan))
    else scan.text[scan.cp + 1]?.map fun next =>
      if isspace next then .ok (inactive { scan with cp := scan.cp + 1 })
      else onward pagesize scan char
  else some (onward pagesize scan char)

/-- The loop, with so many rounds at most. -/
def loop (pagesize : ℕ) : ℕ → Scan → Option (Except String Scan)
  | 0, _ => none
  | fuel + 1, scan =>
    scan.text[scan.cp]?.bind fun char =>
      if char = 0 then some (.ok scan)
      else (round pagesize scan char).bind fun
        | .error thrown => some (.error thrown)
        | .ok scan => loop pagesize fuel scan

/-- `collapse`: what is written to the array of the arguments. -/
def collapse (pagesize : ℕ) (scan : Scan) : Option (Except String (List (Option Text))) :=
  let argv := (scan.arglist.map fun item => some (string (scan.text.drop item))) ++ [none]
  if granted pagesize (8 * (scan.argc + 1).toNat) then
    if argv.length ≤ (scan.argc + 1).toNat then some (.ok argv) else none
  else some (.error "Larger than pagesize")

/-- What `String::add` leaves in the buffer `prefix`, which has 256 bytes. -/
def add (prefix_ s : Text) : Text := (prefix_ ++ string s).take 255

/-- Whether a program is named relative to the directory. -/
def relative (argv0 : Text) : Option Bool :=
  if argv0.headD 0 = 0x2f ∨ argv0.headD 0 = 0x5c then some false
  else argv0[1]?.map fun char => char ≠ 0x3a

/-- What `set0` puts in the buffer `prefix`, in this directory. -/
def path (directory : Option Text) : Option Text → Option Text
  | none => some []
  | some argv0 => (relative argv0).bind fun
    | true => directory.map fun directory => add (add directory [0x2f]) argv0
    | false => some (add [] argv0)

/-- `set0(argv0)`. -/
def set0 (pagesize : ℕ) (directory : Option Text) (shell : Shell) (argv0 : Option Text) :
    Option (Except String Shell) :=
  if shell.argv0 ≠ none then some (.ok shell)
  else (path directory argv0).bind fun prefix_ =>
    if granted pagesize (prefix_.length + 1) then
      (dup prefix_).map fun prefix_ =>
        let name := (prefix_.reverse.takeWhile fun char => char ≠ 0x2f).reverse
        let name := if name.take 3 = [0x6c, 0x74, 0x2d] then name.drop 3 else name
        .ok { shell with
          argv0 := some name
          exedir := some (if 0x2f ∈ prefix_ then
            (prefix_.reverse.dropWhile fun char => char ≠ 0x2f).tail.reverse else prefix_) }
    else some (.error "Larger than pagesize")

/-- Before the loop, with this copy of the line. -/
def Scan.start (copy : Text) : Scan :=
  ⟨copy ++ [0], 0, 0, false, [], 0⟩

/-- `parse(string)`. -/
def parse (pagesize fuel : ℕ) (directory : Option Text) (shell : Shell) (command : Text) :
    Option (Except String Shell) :=
  if granted pagesize (strlen command + 1) then
    ((dup (string command)).bind fun copy => loop pagesize fuel (.start copy)).bind fun
      | .error thrown => some (.error thrown)
      | .ok scan => (collapse pagesize scan).bind fun
        | .error thrown => some (.error thrown)
        | .ok argv =>
          set0 pagesize directory { shell with argv := argv, argc := scan.argc }
            (scan.arglist.head?.map fun item => scan.text.drop item)
  else some (.error "Larger than pagesize")

/-! ### Command lines -/

/-- An argument: it is written as it is, or between double quotes. -/
inductive Argument
  | plain (text : Text)
  | quoted (text : Text)
  deriving DecidableEq

def Argument.text : Argument → Text
  | .plain text => text
  | .quoted text => text

def Argument.written : Argument → Text
  | .plain text => text
  | .quoted text => 0x22 :: text ++ [0x22]

/-- What may be written as it is has neither white space nor quotes, and is not empty; what is
written between double quotes has none itself. -/
def Argument.Given : Argument → Prop
  | .plain text => text ≠ [] ∧ ∀ char ∈ text, char ≠ 0 ∧ ¬ isspace char ∧ char ≠ 0x27 ∧ char ≠ 0x22
  | .quoted text => ∀ char ∈ text, char ≠ 0 ∧ char ≠ 0x22

instance : (arg : Argument) → Decidable arg.Given
  | .plain text => inferInstanceAs (Decidable (text ≠ [] ∧
      ∀ char ∈ text, char ≠ 0 ∧ ¬ isspace char ∧ char ≠ 0x27 ∧ char ≠ 0x22))
  | .quoted text => inferInstanceAs (Decidable (∀ char ∈ text, char ≠ 0 ∧ char ≠ 0x22))

/-- The arguments, with a space between any two. -/
def line (args : List Argument) : Text :=
  [0x20].intercalate (args.map Argument.written)

/-- The line is taken apart into the arguments, which the array has with a null pointer behind them,
and `argc` is their number. -/
def Splits (pagesize : ℕ) (directory : Option Text) (shell : Shell) (args : List Argument) : Prop :=
  ∃ fuel shell', parse pagesize fuel directory shell (line args) = some (.ok shell') ∧
    shell'.argv = args.map (fun arg => some arg.text) ++ [none] ∧
    shell'.argc.toNat = args.length

def Argument.isQuoted : Argument → Bool
  | .plain _ => false
  | .quoted _ => true

/-- An argument without quotes is not behind one with quotes, unless it is the last; one with quotes
is not empty. -/
def Argument.Apart (behind : Bool) (rest : List Argument) : Argument → Prop
  | .plain _ => behind → rest = []
  | .quoted text => text ≠ []

instance (behind : Bool) (rest : List Argument) :
    (arg : Argument) → Decidable (arg.Apart behind rest)
  | .plain _ => inferInstanceAs (Decidable (behind → rest = []))
  | .quoted text => inferInstanceAs (Decidable (text ≠ []))

/-- Every argument ends where it should. -/
def Readable : Bool → List Argument → Prop
  | _, [] => True
  | behind, arg :: rest => arg.Apart behind rest ∧ Readable (behind || arg.isQuoted) rest

instance : (behind : Bool) → (args : List Argument) → Decidable (Readable behind args)
  | _, [] => inferInstanceAs (Decidable True)
  | behind, arg :: rest =>
    have := instDecidableReadable (behind || arg.isQuoted) rest
    inferInstanceAs (Decidable (_ ∧ _))

/-- The pages have room for the copy of the line, the nodes and the array of the arguments, and the
path of the program, which is known. -/
structure Room (pagesize : ℕ) (directory : Option Text) (shell : Shell) (args : List Argument) :
    Prop where
  copy : granted pagesize ((line args).length + 1)
  nodes : args ≠ [] → granted pagesize argsSize
  array : granted pagesize (8 * (args.length + 1))
  few : args.length + 1 < 2 ^ 32
  named : shell.argv0 = none → ∃ prefix_,
    path directory (args.head?.map fun arg => arg.text ++ [0]) = some prefix_ ∧
      granted pagesize (prefix_.length + 1)

/-! ### Runs of the loop -/

section Loop

variable {pagesize fuel : ℕ} {scan scan' scan'' : Scan}

/-- More fuel changes no outcome. -/
theorem loop_mono {outcome : Except String Scan} (more : ℕ)
    (ended : loop pagesize fuel scan = some outcome) :
    loop pagesize (fuel + more) scan = some outcome := by
  induction fuel generalizing scan with
  | zero => cases ended
  | succ fuel inductionHypothesis =>
    rw [Nat.succ_add, loop]
    rw [loop] at ended
    obtain ⟨char, here, ended⟩ := Option.bind_eq_some_iff.mp ended
    rw [here, Option.bind_some]
    by_cases null : char = 0
    · rwa [if_pos null] at ended ⊢
    · rw [if_neg null] at ended ⊢
      obtain ⟨result, rounded, ended⟩ := Option.bind_eq_some_iff.mp ended
      rw [rounded, Option.bind_some]
      cases result with
      | error thrown => exact ended
      | ok scan' => exact inductionHypothesis ended

theorem loop_unique {fuel' : ℕ} {outcome outcome' : Except String Scan}
    (ended : loop pagesize fuel scan = some outcome)
    (ended' : loop pagesize fuel' scan = some outcome') : outcome = outcome' := by
  have more := loop_mono fuel' ended
  have more' := loop_mono fuel ended'
  rw [Nat.add_comm fuel' fuel, more] at more'
  exact Option.some_inj.mp more'

theorem char_of_ahead {char : UInt8} {after : Text}
    (ahead : scan.text.drop scan.cp = char :: after) : scan.text[scan.cp]? = some char := by
  have first := congrArg (fun text => text[0]?) ahead
  rwa [List.getElem?_drop, Nat.add_zero] at first

/-- The loop goes on from one state to another. -/
def Reaches (pagesize : ℕ) (scan scan' : Scan) : Prop :=
  ∃ rounds, ∀ fuel, loop pagesize (fuel + rounds) scan = loop pagesize fuel scan'

namespace Reaches

theorem refl (pagesize : ℕ) (scan : Scan) : Reaches pagesize scan scan :=
  ⟨0, fun _ => rfl⟩

theorem trans (reaches : Reaches pagesize scan scan') (onward : Reaches pagesize scan' scan'') :
    Reaches pagesize scan scan'' := by
  obtain ⟨rounds, first⟩ := reaches
  obtain ⟨rounds', second⟩ := onward
  exact ⟨rounds' + rounds, fun fuel => by rw [← Nat.add_assoc, first, second]⟩

theorem of_round {char : UInt8} {after : Text} (ahead : scan.text.drop scan.cp = char :: after)
    (visible : char ≠ 0) (rounded : round pagesize scan char = some (.ok scan')) :
    Reaches pagesize scan scan' := by
  refine ⟨1, fun fuel => ?_⟩
  rw [loop, char_of_ahead ahead, Option.bind_some, if_neg visible, rounded, Option.bind_some]

/-- What the loop comes to is what it comes to from any state on the way. -/
theorem ended (reaches : Reaches pagesize scan scan') {outcome : Except String Scan}
    (ended : loop pagesize fuel scan = some outcome) :
    loop pagesize fuel scan' = some outcome := by
  obtain ⟨rounds, onward⟩ := reaches
  rw [← onward]
  exact loop_mono rounds ended

theorem ends (reaches : Reaches pagesize scan scan') {outcome : Except String Scan}
    (ended : loop pagesize fuel scan' = some outcome) :
    ∃ fuel, loop pagesize fuel scan = some outcome := by
  obtain ⟨rounds, onward⟩ := reaches
  exact ⟨_, (onward fuel).trans ended⟩

end Reaches

/-- The loop ends at the null. -/
theorem loop_null {after : Text} (ahead : scan.text.drop scan.cp = 0 :: after) :
    loop pagesize 1 scan = some (.ok scan) := by
  rw [loop, char_of_ahead ahead, Option.bind_some, if_pos rfl]

/-! ### What stays -/

/-- The text before the place and the arguments listed stay as they are, and a node is only made
where there is room. -/
structure Extends (pagesize : ℕ) (scan scan' : Scan) : Prop where
  later : scan.cp ≤ scan'.cp
  kept : scan'.text.take scan.cp = scan.text.take scan.cp
  listed : scan.arglist <+: scan'.arglist
  nodes : scan'.arglist = scan.arglist ∨ granted pagesize argsSize

namespace Extends

theorem refl (pagesize : ℕ) (scan : Scan) : Extends pagesize scan scan :=
  ⟨Nat.le_refl _, rfl, List.prefix_refl _, Or.inl rfl⟩

theorem trans (extends_ : Extends pagesize scan scan') (onward : Extends pagesize scan' scan'') :
    Extends pagesize scan scan'' := by
  refine ⟨Nat.le_trans extends_.later onward.later, ?_, extends_.listed.trans onward.listed, ?_⟩
  · have kept := congrArg (List.take scan.cp) onward.kept
    rw [List.take_take, List.take_take, Nat.min_eq_left extends_.later] at kept
    rw [kept, extends_.kept]
  · rcases onward.nodes with same | granted_
    · rw [same]
      exact extends_.nodes
    · exact Or.inr granted_

/-- What the text shows before the place it goes on to show. -/
theorem shows_ (extends_ : Extends pagesize scan scan') {item : ℕ} {s : Text}
    (shown : s <+: scan.text.drop item) (before : item + s.length ≤ scan.cp) :
    s <+: scan'.text.drop item := by
  have front (text : Text) : (text.drop item).take s.length =
      ((text.take scan.cp).drop item).take s.length := by
    rw [List.drop_take, List.take_take, Nat.min_eq_left (by omega)]
  rw [List.prefix_iff_eq_take] at shown ⊢
  rw [front, extends_.kept, ← front]
  exact shown

end Extends

theorem extends_inactive (scan : Scan) : Extends pagesize scan (inactive scan) := by
  refine ⟨Nat.le_succ _, ?_, List.prefix_refl _, Or.inl rfl⟩
  exact List.take_set_of_le (Nat.le_refl _)

/-- Passing characters changes nothing. -/
theorem extends_onward (scan : Scan) (quote : UInt8) (passed : ℕ) :
    Extends pagesize scan { scan with quote := quote, cp := scan.cp + passed } :=
  ⟨Nat.le_add_right _ _, rfl, List.prefix_refl _, Or.inl rfl⟩

theorem extends_argument (argued : argument pagesize scan = .ok scan') :
    Extends pagesize scan scan' := by
  unfold argument at argued
  split at argued
  next granted_ =>
    cases argued
    exact ⟨Nat.le_succ _, rfl, List.prefix_append _ _, Or.inr granted_⟩
  next => cases argued

theorem extends_passed {char : UInt8} (passed : onward pagesize scan char = .ok scan') :
    Extends pagesize scan scan' := by
  unfold onward at passed
  split at passed
  next => exact extends_argument passed
  next =>
    cases passed
    exact extends_onward scan scan.quote 1

theorem extends_round {char : UInt8} (rounded : round pagesize scan char = some (.ok scan')) :
    Extends pagesize scan scan' := by
  unfold round at rounded
  split at rounded
  next =>
    cases rounded
    exact extends_inactive scan
  next =>
  split at rounded
  next =>
    exact (extends_onward scan char 0).trans (extends_argument (Option.some_inj.mp rounded))
  next =>
  split at rounded
  next =>
    exact (extends_onward scan char 1).trans (extends_argument (Option.some_inj.mp rounded))
  next =>
  split at rounded
  next =>
    split at rounded
    next =>
      cases rounded
      exact extends_inactive scan
    next =>
      obtain ⟨next, _, rounded⟩ := Option.map_eq_some_iff.mp rounded
      split at rounded
      next =>
        cases rounded
        exact (extends_onward scan scan.quote 1).trans (extends_inactive _)
      next => exact extends_passed rounded
  next => exact extends_passed (Option.some_inj.mp rounded)

theorem extends_loop (ended : loop pagesize fuel scan = some (.ok scan')) :
    Extends pagesize scan scan' := by
  induction fuel generalizing scan with
  | zero => cases ended
  | succ fuel inductionHypothesis =>
    rw [loop] at ended
    obtain ⟨char, _, ended⟩ := Option.bind_eq_some_iff.mp ended
    split at ended
    next =>
      cases ended
      exact Extends.refl _ _
    next =>
      obtain ⟨result, rounded, ended⟩ := Option.bind_eq_some_iff.mp ended
      cases result with
      | error thrown => cases ended
      | ok between => exact (extends_round rounded).trans (inductionHypothesis ended)

/-! ### Arguments -/

/-- In an argument the loop passes what is neither the quote nor, without a quote, white space. -/
theorem reaches_passed {t after : Text} (active : scan.active = true)
    (ahead : scan.text.drop scan.cp = t ++ after)
    (passed : ∀ char ∈ t, char ≠ 0 ∧ char ≠ scan.quote ∧ (isspace char → scan.quote ≠ 0)) :
    Reaches pagesize scan { scan with cp := scan.cp + t.length } := by
  induction t generalizing scan with
  | nil => exact Reaches.refl _ _
  | cons char t inductionHypothesis =>
    obtain ⟨⟨visible, open_, within⟩, rest⟩ := List.forall_mem_cons.mp passed
    have rounded : round pagesize scan char = some (.ok { scan with cp := scan.cp + 1 }) := by
      have inside : ¬ (isspace char ∧ scan.active = true ∧ scan.quote = 0) := fun ends =>
        within ends.1 ends.2.2
      rw [round, if_neg inside]
      simp [onward, active, open_]
    have step := Reaches.of_round ahead visible rounded
    have ahead' : scan.text.drop (scan.cp + 1) = t ++ after := by
      rw [← List.drop_drop, ahead]
      rfl
    have onward : Reaches pagesize { scan with cp := scan.cp + 1 }
        { scan with cp := scan.cp + 1 + t.length } := inductionHypothesis active ahead' rest
    rw [List.length_cons, Nat.add_comm t.length, ← Nat.add_assoc]
    exact step.trans onward

/-- The state in which an argument that begins at a place is listed. -/
def Scan.listed (scan : Scan) (item cp : ℕ) (quote : UInt8) : Scan :=
  { text := scan.text
    cp := cp
    quote := quote
    active := true
    arglist := scan.arglist ++ [item]
    argc := scan.argc + 1 }

/-- An argument begins at a character that is neither white space nor a quote. -/
theorem reaches_plain {char : UInt8} {t after : Text} (nodes : granted pagesize argsSize)
    (idle : scan.active = false) (ahead : scan.text.drop scan.cp = char :: t ++ after)
    (visible : char ≠ 0) (plain : ¬ isspace char ∧ char ≠ 0x27 ∧ char ≠ 0x22)
    (passed : ∀ char ∈ t, char ≠ 0 ∧ char ≠ scan.quote ∧ (isspace char → scan.quote ≠ 0)) :
    Reaches pagesize scan
      (scan.listed scan.cp (scan.cp + (t.length + 1)) scan.quote) := by
  obtain ⟨black, noSingle, noDouble⟩ := plain
  have start : Reaches pagesize scan (scan.listed scan.cp (scan.cp + 1) scan.quote) := by
    refine Reaches.of_round ahead visible ?_
    simp [round, onward, idle, black, noSingle, noDouble, argument, nodes, Scan.listed]
  have ahead' : scan.text.drop (scan.cp + 1) = t ++ after := by
    rw [← List.drop_drop, ahead]
    rfl
  rw [Nat.add_comm t.length, ← Nat.add_assoc]
  exact start.trans (reaches_passed rfl ahead' passed)

/-- An argument begins behind a double quote, and its first character is passed unseen. -/
theorem reaches_quoted {char : UInt8} {t after : Text} (nodes : granted pagesize argsSize)
    (idle : scan.active = false)
    (ahead : scan.text.drop scan.cp = 0x22 :: char :: t ++ after)
    (passed : ∀ char ∈ t, char ≠ 0 ∧ char ≠ 0x22) :
    Reaches pagesize scan
      (scan.listed (scan.cp + 1) (scan.cp + (t.length + 2)) 0x22) := by
  have start : Reaches pagesize scan (scan.listed (scan.cp + 1) (scan.cp + 2) 0x22) := by
    refine Reaches.of_round ahead (by decide) ?_
    simp [round, idle, argument, nodes, Scan.listed]
  have ahead' : scan.text.drop (scan.cp + 2) = t ++ after := by
    rw [← List.drop_drop, ahead]
    rfl
  rw [Nat.add_comm t.length, ← Nat.add_assoc]
  have quoted : (0x22 : UInt8) ≠ 0 := by decide
  refine start.trans (reaches_passed rfl ahead' fun char member => ?_)
  exact ⟨(passed char member).1, (passed char member).2, fun _ => quoted⟩

/-- An argument ends at white space when there is no quote, and at its double quote. -/
theorem reaches_inactive {char : UInt8} {after : Text} (active : scan.active = true)
    (ahead : scan.text.drop scan.cp = char :: after) (visible : char ≠ 0)
    (ends : isspace char ∧ scan.quote = 0 ∨ char = 0x22 ∧ scan.quote = 0x22) :
    Reaches pagesize scan (inactive scan) := by
  refine Reaches.of_round ahead visible ?_
  rcases ends with ⟨space, unquoted⟩ | ⟨rfl, quoted⟩
  · simp [round, active, space, unquoted]
  · simp [round, active, quoted]

/-- White space between arguments is passed. -/
theorem reaches_space {after : Text} (idle : scan.active = false)
    (ahead : scan.text.drop scan.cp = 0x20 :: after) :
    Reaches pagesize scan { scan with cp := scan.cp + 1 } := by
  refine Reaches.of_round ahead (by decide) ?_
  simp [round, onward, idle, isspace]

/-! ### Lines -/

theorem line_cons (arg : Argument) (rest : List Argument) :
    line (arg :: rest) = arg.written ++ (if rest = [] then [] else 0x20 :: line rest) := by
  cases rest with
  | nil => simp [line]
  | cons next rest => simp [line, List.intercalate]

/-- A null that is put in the place of a character ends what is before it. -/
theorem drop_cut {text t after : Text} {place : ℕ} {char : UInt8}
    (ahead : text.drop place = t ++ char :: after) :
    (text.set (place + t.length) 0).drop place = (t ++ [0]) ++ after := by
  rw [List.drop_set, if_neg (by omega), ahead, Nat.add_sub_cancel_left,
    List.set_append_right _ _ le_rfl, Nat.sub_self, List.set_cons_zero, List.append_assoc,
    List.singleton_append]

/-- What is behind a text is what its length is passed to. -/
theorem drop_behind {text t after : Text} {place : ℕ} (ahead : text.drop place = t ++ after) :
    text.drop (place + t.length) = after := by
  rw [← List.drop_drop, ahead, List.drop_left]

/-- An argument between double quotes is read up to its closing quote, which becomes a null. -/
theorem reaches_closed {char : UInt8} {t after : Text} (nodes : granted pagesize argsSize)
    (idle : scan.active = false)
    (ahead : scan.text.drop scan.cp = 0x22 :: char :: t ++ 0x22 :: after)
    (passed : ∀ char ∈ t, char ≠ 0 ∧ char ≠ 0x22) :
    ∃ scan', Reaches pagesize scan (inactive scan') ∧
      scan' = scan.listed (scan.cp + 1) (scan.cp + 1 + (char :: t).length) 0x22 ∧
      (inactive scan').text.drop (scan.cp + 1) = (char :: t ++ [0]) ++ after := by
  have start := reaches_quoted nodes idle ahead passed
  have place : scan.cp + (t.length + 2) = scan.cp + 1 + (char :: t).length := by
    rw [List.length_cons]
    omega
  rw [place] at start
  have inside : scan.text.drop (scan.cp + 1) = (char :: t) ++ (0x22 :: after) := by
    rw [← List.drop_drop, ahead]
    rfl
  have ends : Reaches pagesize (scan.listed (scan.cp + 1) (scan.cp + 1 + (char :: t).length) 0x22)
      (inactive (scan.listed (scan.cp + 1) (scan.cp + 1 + (char :: t).length) 0x22)) :=
    reaches_inactive rfl (drop_behind inside) (by decide) (Or.inr ⟨rfl, rfl⟩)
  exact ⟨_, start.trans ends, rfl, drop_cut inside⟩

/-- The quote in which arguments are read behind others. -/
def quoteBehind (behind : Bool) : UInt8 :=
  if behind then 0x22 else 0

/-- The state behind an argument, which has been listed at a place, before the rest of the line. -/
structure Behind (scan : Scan) (arg : Argument) (behind : Bool) (rest : List Argument)
    (scan' : Scan) (item : ℕ) : Prop where
  arglist : scan'.arglist = scan.arglist ++ [item]
  argc : scan'.argc = scan.argc + 1
  shows_ : arg.text ++ [0] <+: scan'.text.drop item
  quote : scan'.quote = quoteBehind (behind || arg.isQuoted)
  ahead : scan'.text.drop scan'.cp = line rest ++ [0]
  idle : rest ≠ [] → scan'.active = false
  before : rest ≠ [] → item + arg.text.length + 1 ≤ scan'.cp

/-- The loop comes behind an argument without quotes. -/
theorem reads_plain {t : Text} {rest : List Argument} {behind : Bool}
    (nodes : granted pagesize argsSize) (idle : scan.active = false)
    (quote : scan.quote = quoteBehind behind) (given : (Argument.plain t).Given)
    (ahead : scan.text.drop scan.cp = line (.plain t :: rest) ++ [0])
    (apart : (Argument.plain t).Apart behind rest) :
    ∃ scan' item, Reaches pagesize scan scan' ∧ Behind scan (.plain t) behind rest scan' item := by
  obtain ⟨some', plain⟩ := given
  rw [line_cons] at ahead
  cases t with
  | nil => exact absurd rfl some'
  | cons char t =>
    obtain ⟨⟨visible, here⟩, later⟩ := List.forall_mem_cons.mp plain
    have start : Reaches pagesize scan
        (scan.listed scan.cp (scan.cp + (t.length + 1)) scan.quote) := by
      refine reaches_plain nodes idle (ahead.trans (List.append_assoc _ _ _)) visible here
        fun other member => ?_
      obtain ⟨visible, black, _, noDouble⟩ := later other member
      refine ⟨visible, ?_, fun space => absurd space black⟩
      rw [quote, quoteBehind]
      split
      · exact noDouble
      · exact visible
    by_cases last : rest = []
    · rw [if_pos last, List.append_nil] at ahead
      refine ⟨_, _, start, rfl, rfl, ?_, ?_, ?_, absurd last, absurd last⟩
      · exact (List.prefix_refl _).trans (ahead ▸ List.prefix_refl _)
      · rw [Argument.isQuoted, Bool.or_false]
        exact quote
      · rw [last]
        exact drop_behind ahead
    · rw [if_neg last, List.append_assoc] at ahead
      have unquoted : behind = false := Bool.eq_false_iff.mpr fun both => last (apart both)
      have open_ : scan.quote = 0 := by rw [quote, unquoted]; rfl
      have ends : Reaches pagesize (scan.listed scan.cp (scan.cp + (t.length + 1)) scan.quote)
          (inactive (scan.listed scan.cp (scan.cp + (t.length + 1)) scan.quote)) :=
        reaches_inactive rfl (drop_behind ahead) (by decide) (Or.inl ⟨by decide, open_⟩)
      have cut := drop_cut ahead
      refine ⟨_, _, start.trans ends, rfl, rfl, ?_, ?_, ?_, fun _ => rfl, fun _ => ?_⟩
      · exact ⟨_, cut.symm⟩
      · rw [Argument.isQuoted, Bool.or_false]
        exact quote
      · have onward := drop_behind cut
        rwa [List.length_append] at onward
      · exact Nat.le_refl _

theorem ahead_quoted {t : Text} {rest : List Argument}
    (ahead : scan.text.drop scan.cp = line (.quoted t :: rest) ++ [0]) :
    scan.text.drop scan.cp =
      0x22 :: t ++ 0x22 :: ((if rest = [] then [] else 0x20 :: line rest) ++ [0]) := by
  rw [line_cons] at ahead
  simpa [Argument.written] using ahead

/-- The loop comes behind an argument between double quotes. -/
theorem reads_quoted {t : Text} {rest : List Argument} {behind : Bool}
    (nodes : granted pagesize argsSize) (idle : scan.active = false)
    (given : (Argument.quoted t).Given)
    (ahead : scan.text.drop scan.cp = line (.quoted t :: rest) ++ [0])
    (apart : (Argument.quoted t).Apart behind rest) :
    ∃ scan' item, Reaches pagesize scan scan' ∧ Behind scan (.quoted t) behind rest scan' item := by
  cases t with
  | nil => exact absurd rfl apart
  | cons char t =>
    obtain ⟨_, reaches, rfl, cut⟩ :=
      reaches_closed nodes idle (ahead_quoted ahead) (List.forall_mem_cons.mp given).2
    have onward := drop_behind cut
    rw [List.length_append, List.length_singleton, ← Nat.add_assoc] at onward
    have quote : quoteBehind (behind || (Argument.quoted (char :: t)).isQuoted) = 0x22 := by
      rw [Argument.isQuoted, Bool.or_true]
      rfl
    by_cases last : rest = []
    · rw [if_pos last] at onward
      refine ⟨_, _, reaches, rfl, rfl, ⟨_, cut.symm⟩, quote.symm, ?_, absurd last, absurd last⟩
      rw [last]
      exact onward
    · rw [if_neg last] at onward
      refine ⟨_, _, reaches.trans (reaches_space rfl onward), rfl, rfl, ⟨_, cut.symm⟩, quote.symm,
        ?_, fun _ => rfl, fun _ => ?_⟩
      · rw [← List.drop_drop]
        exact congrArg (List.drop 1) onward
      · exact Nat.le_succ _

/-- The loop comes behind an argument that ends where it should. -/
theorem reads_argument {arg : Argument} {rest : List Argument} {behind : Bool}
    (nodes : granted pagesize argsSize) (idle : scan.active = false)
    (quote : scan.quote = quoteBehind behind) (given : arg.Given)
    (ahead : scan.text.drop scan.cp = line (arg :: rest) ++ [0]) (apart : arg.Apart behind rest) :
    ∃ scan' item, Reaches pagesize scan scan' ∧ Behind scan arg behind rest scan' item := by
  cases arg with
  | plain t => exact reads_plain nodes idle quote given ahead apart
  | quoted t => exact reads_quoted nodes idle given ahead apart

/-- The argument stays listed to the end of the loop. -/
theorem Behind.stays {arg : Argument} {rest : List Argument} {behind : Bool} {item : ℕ}
    (listed : Behind scan arg behind rest scan' item)
    (ended : loop pagesize fuel scan' = some (.ok scan'')) :
    arg.text ++ [0] <+: scan''.text.drop item := by
  by_cases last : rest = []
  · have ahead := listed.ahead
    rw [last] at ahead
    obtain rfl := Except.ok.inj (loop_unique (loop_null ahead) ended)
    exact listed.shows_
  · refine (extends_loop ended).shows_ listed.shows_ ?_
    rw [List.length_append, List.length_singleton, ← Nat.add_assoc]
    exact listed.before last

/-- A line whose arguments all end where they should is read as these arguments. -/
theorem loop_reads {args : List Argument} {behind : Bool}
    (nodes : args ≠ [] → granted pagesize argsSize) (idle : args ≠ [] → scan.active = false)
    (quote : scan.quote = quoteBehind behind) (given : ∀ arg ∈ args, arg.Given)
    (ahead : scan.text.drop scan.cp = line args ++ [0]) (readable : Readable behind args) :
    ∃ fuel final items, loop pagesize fuel scan = some (.ok final) ∧
      final.arglist = scan.arglist ++ items ∧
      final.argc = scan.argc + UInt32.ofNat args.length ∧
      List.Forall₂ (fun item arg => Argument.text arg ++ [0] <+: final.text.drop item)
        items args := by
  induction args generalizing scan behind with
  | nil => exact ⟨1, scan, [], loop_null ahead, (List.append_nil _).symm, by simp, .nil⟩
  | cons arg rest inductionHypothesis =>
    obtain ⟨apart, readable⟩ := readable
    obtain ⟨here, later⟩ := List.forall_mem_cons.mp given
    have room := nodes (List.cons_ne_nil arg rest)
    obtain ⟨scan', item, reaches, listed⟩ :=
      reads_argument room (idle (List.cons_ne_nil arg rest)) quote here ahead apart
    obtain ⟨fuel, final, items, ended, arglist, argc, shows_⟩ :=
      inductionHypothesis (fun _ => room) listed.idle listed.quote later listed.ahead readable
    obtain ⟨fuel', ended'⟩ := reaches.ends ended
    refine ⟨fuel', final, item :: items, ended', ?_, ?_, .cons (listed.stays ended) shows_⟩
    · rw [arglist, listed.arglist, List.append_assoc, List.singleton_append]
    · rw [argc, listed.argc, List.length_cons, UInt32.ofNat_add, UInt32.add_assoc,
        UInt32.add_comm 1]
      rfl

/-- The arguments that are listed from a state on. -/
def listedFrom (scan final : Scan) : List Text :=
  (final.arglist.drop scan.arglist.length).map fun item => string (final.text.drop item)

/-- An argument that has been listed begins with what the loop has passed of it. -/
theorem begins_with_passed {final : Scan} {item : ℕ} {passed : Text}
    (reaches : Reaches pagesize scan scan') (listed : scan'.arglist = scan.arglist ++ [item])
    (shows_ : passed <+: scan'.text.drop item) (before : item + passed.length ≤ scan'.cp)
    (noNull : 0 ∉ passed) (ended : loop pagesize fuel scan = some (.ok final)) :
    ∃ more, (listedFrom scan final).head? = some (passed ++ more) := by
  have extends_ := extends_loop (reaches.ended ended)
  obtain ⟨after, text⟩ := extends_.shows_ shows_ before
  obtain ⟨others, arglist⟩ := extends_.listed
  refine ⟨string after, ?_⟩
  rw [listedFrom, ← arglist, listed, List.append_assoc, List.drop_left, List.singleton_append,
    List.map_cons, List.head?_cons, ← text, string_append noNull]

/-- Behind a quote an argument without quotes keeps the space behind it, and what follows. -/
theorem plain_apart_of_ended {final : Scan} {t : Text} {rest : List Argument} {behind : Bool}
    (nodes : granted pagesize argsSize) (idle : scan.active = false)
    (quote : scan.quote = quoteBehind behind) (given : (Argument.plain t).Given)
    (ahead : scan.text.drop scan.cp = line (.plain t :: rest) ++ [0])
    (ended : loop pagesize fuel scan = some (.ok final))
    (first : (listedFrom scan final).head? = some t) : (Argument.plain t).Apart behind rest := by
  by_contra broken
  obtain ⟨after, more⟩ : behind = true ∧ rest ≠ [] := Classical.not_imp.mp broken
  rw [line_cons, if_neg more] at ahead
  obtain ⟨some', plain⟩ := given
  cases t with
  | nil => exact some' rfl
  | cons char t =>
    obtain ⟨⟨visible, here⟩, later⟩ := List.forall_mem_cons.mp plain
    have open_ : scan.quote = 0x22 := by rw [quote, after]; rfl
    have text : scan.text.drop scan.cp = char :: (t ++ [0x20]) ++ (line rest ++ [0]) := by
      simpa [Argument.written] using ahead
    have passed : ∀ other ∈ t ++ [0x20], other ≠ 0 ∧ other ≠ 0x22 := by
      intro other member
      rcases List.mem_append.mp member with inside | space
      · exact ⟨(later other inside).1, (later other inside).2.2.2⟩
      · rw [List.mem_singleton.mp space]
        decide
    have reaches := reaches_plain nodes idle text visible here fun other member => by
      rw [open_]
      exact ⟨(passed other member).1, (passed other member).2, fun _ => by decide⟩
    have noNull : 0 ∉ char :: (t ++ [0x20]) := by
      rw [List.mem_cons, not_or]
      exact ⟨visible.symm, fun null => (passed 0 null).1 rfl⟩
    obtain ⟨others, begins⟩ := begins_with_passed reaches rfl ⟨_, text.symm⟩ (Nat.le_refl _)
      noNull ended
    have same := congrArg List.length (Option.some_inj.mp (first.symm.trans begins))
    simp at same

/-- The quote that would end an empty argument is passed unseen. -/
theorem quoted_apart_of_ended {final : Scan} {t : Text} {rest : List Argument} {behind : Bool}
    (nodes : granted pagesize argsSize) (idle : scan.active = false)
    (ahead : scan.text.drop scan.cp = line (.quoted t :: rest) ++ [0])
    (ended : loop pagesize fuel scan = some (.ok final))
    (first : (listedFrom scan final).head? = some t) : (Argument.quoted t).Apart behind rest := by
  rintro rfl
  have text : scan.text.drop scan.cp = 0x22 :: 0x22 :: [] ++
      ((if rest = [] then [] else 0x20 :: line rest) ++ [0]) := ahead_quoted ahead
  have reaches := reaches_quoted nodes idle text fun _ member => absurd member List.not_mem_nil
  have begun : [0x22] <+: scan.text.drop (scan.cp + 1) := by
    rw [← List.drop_drop, text]
    exact ⟨_, rfl⟩
  obtain ⟨others, begins⟩ := begins_with_passed reaches rfl begun (Nat.le_refl _) (by decide)
    ended
  cases first.symm.trans begins

/-- An argument that does not end where it should is not read as it is. -/
theorem apart_of_ended {final : Scan} {arg : Argument} {rest : List Argument} {behind : Bool}
    (nodes : granted pagesize argsSize) (idle : scan.active = false)
    (quote : scan.quote = quoteBehind behind) (given : arg.Given)
    (ahead : scan.text.drop scan.cp = line (arg :: rest) ++ [0])
    (ended : loop pagesize fuel scan = some (.ok final))
    (first : (listedFrom scan final).head? = some arg.text) : arg.Apart behind rest := by
  cases arg with
  | plain t => exact plain_apart_of_ended nodes idle quote given ahead ended first
  | quoted t => exact quoted_apart_of_ended nodes idle ahead ended first

/-- A line is read as its arguments only if they all end where they should. -/
theorem readable_of_ended {final : Scan} {args : List Argument} {behind : Bool}
    (idle : args ≠ [] → scan.active = false) (quote : scan.quote = quoteBehind behind)
    (given : ∀ arg ∈ args, arg.Given) (ahead : scan.text.drop scan.cp = line args ++ [0])
    (ended : loop pagesize fuel scan = some (.ok final))
    (listed : listedFrom scan final = args.map Argument.text) : Readable behind args := by
  induction args generalizing scan behind with
  | nil => trivial
  | cons arg rest inductionHypothesis =>
    obtain ⟨here, later⟩ := List.forall_mem_cons.mp given
    have nodes : granted pagesize argsSize := by
      rcases (extends_loop ended).nodes with same | room
      · rw [listedFrom, same, List.drop_length] at listed
        cases listed
      · exact room
    have unread := idle (List.cons_ne_nil arg rest)
    have apart := apart_of_ended nodes unread quote here ahead ended (by rw [listed]; rfl)
    obtain ⟨scan', item, reaches, behind_⟩ := reads_argument nodes unread quote here ahead apart
    refine ⟨apart, inductionHypothesis behind_.idle behind_.quote later behind_.ahead
      (reaches.ended ended) ?_⟩
    have tail := congrArg (List.drop 1) listed
    rw [listedFrom, ← List.map_drop, List.drop_drop] at tail
    rw [listedFrom, behind_.arglist, List.length_append]
    exact tail

end Loop

/-! ### The array and the name -/

section Parse

variable {pagesize : ℕ} {directory : Option Text} {shell shell' : Shell} {scan : Scan}
  {args : List Argument}

/-- The array is allocated for the arguments and a null pointer, when these can be counted. -/
theorem collapse_eq_ok_iff (argc : scan.argc = UInt32.ofNat args.length)
    (listed : scan.arglist.map (fun item => string (scan.text.drop item)) =
      args.map Argument.text) :
    collapse pagesize scan = some (.ok (args.map (fun arg => some arg.text) ++ [none])) ↔
      granted pagesize (8 * (args.length + 1)) ∧ args.length + 1 < 2 ^ 32 := by
  have pointers : scan.arglist.map (fun item => some (string (scan.text.drop item))) =
      args.map fun arg => some arg.text := by
    have mapped := congrArg (List.map some) listed
    rwa [List.map_map, List.map_map] at mapped
  have size : (scan.argc + 1).toNat = (args.length + 1) % 2 ^ 32 := by
    rw [argc, UInt32.toNat_add, UInt32.toNat_ofNat', UInt32.toNat_one, Nat.mod_add_mod]
  have length : (args.map (fun arg => some (Argument.text arg)) ++ [none]).length =
      args.length + 1 := by
    simp
  rw [collapse, pointers, length, size]
  constructor
  · intro collapsed
    split at collapsed
    next room =>
      split at collapsed
      next fits =>
        have few : args.length + 1 < 2 ^ 32 := by omega
        rw [Nat.mod_eq_of_lt few] at room
        exact ⟨room, few⟩
      next => cases collapsed
    next => cases collapsed
  · rintro ⟨room, few⟩
    rw [Nat.mod_eq_of_lt few, if_pos room, if_pos (Nat.le_refl _)]

/-- What is written to the array. -/
theorem argv_of_collapse {argv : List (Option Text)}
    (collapsed : collapse pagesize scan = some (.ok argv)) :
    argv = (scan.arglist.map fun item => some (string (scan.text.drop item))) ++ [none] := by
  unfold collapse at collapsed
  dsimp only at collapsed
  split at collapsed
  next =>
    split at collapsed
    next => exact (Except.ok.inj (Option.some_inj.mp collapsed)).symm
    next => cases collapsed
  next => cases collapsed

/-- `set0` returns when the program is named, or its path is known and there is room for it, and
leaves the arguments as they are. -/
theorem set0_eq_ok_iff {argv0 : Option Text} :
    (∃ shell', set0 pagesize directory shell argv0 = some (.ok shell') ∧
        shell'.argv = shell.argv ∧ shell'.argc = shell.argc) ↔
      (shell.argv0 = none → ∃ prefix_, path directory argv0 = some prefix_ ∧ prefix_ ≠ [] ∧
        granted pagesize (prefix_.length + 1)) := by
  unfold set0
  by_cases named : shell.argv0 = none
  · rw [if_neg (not_not.mpr named)]
    constructor
    · rintro ⟨shell', returned, _⟩ _
      obtain ⟨prefix_, found, returned⟩ := Option.bind_eq_some_iff.mp returned
      split at returned
      next room =>
        obtain ⟨_, copied, _⟩ := Option.map_eq_some_iff.mp returned
        exact ⟨prefix_, found, (dup_eq_some_iff.mp copied).1, room⟩
      next => cases returned
    · intro known
      obtain ⟨prefix_, found, some_, room⟩ := known named
      rw [found, Option.bind_some, if_pos room, dup_eq_some_iff.mpr ⟨some_, rfl⟩, Option.map_some]
      exact ⟨_, rfl, rfl, rfl⟩
  · rw [if_pos named]
    exact iff_of_true ⟨shell, rfl, rfl, rfl⟩ fun unnamed => absurd unnamed named

theorem set0_keeps {argv0 : Option Text}
    (named : set0 pagesize directory shell argv0 = some (.ok shell')) :
    shell'.argv = shell.argv ∧ shell'.argc = shell.argc := by
  unfold set0 at named
  split at named
  next =>
    cases named
    exact ⟨rfl, rfl⟩
  next =>
    obtain ⟨prefix_, _, named⟩ := Option.bind_eq_some_iff.mp named
    split at named
    next =>
      obtain ⟨_, _, same⟩ := Option.map_eq_some_iff.mp named
      cases same
      exact ⟨rfl, rfl⟩
    next => cases named

/-- The path of a program depends on its name and the null behind it. -/
theorem path_of_prefix {t argv0 : Text} (some' : t ≠ []) (noNull : 0 ∉ t)
    (named : t ++ [0] <+: argv0) :
    path directory (some argv0) = path directory (some (t ++ [0])) := by
  obtain ⟨after, rfl⟩ := named
  have read : string (t ++ [0] ++ after) = string (t ++ [0]) := by
    rw [List.append_assoc, string_append noNull, string_append noNull]
    rfl
  have same : relative (t ++ [0] ++ after) = relative (t ++ [0]) := by
    cases t with
    | nil => exact absurd rfl some'
    | cons char t =>
      have second : (char :: t ++ [0] ++ after)[1]? = (char :: t ++ [0])[1]? :=
        List.getElem?_append_left (by simp)
      rw [relative, relative, second]
      rfl
  have added (front : Text) : add front (t ++ [0] ++ after) = add front (t ++ [0]) := by
    rw [add, add, read]
  simp only [path, same, added]

/-- The path of a program that has a name is not empty. -/
theorem path_ne_nil {t prefix_ : Text} (some' : t ≠ []) (noNull : 0 ∉ t)
    (found : path directory (some (t ++ [0])) = some prefix_) : prefix_ ≠ [] := by
  obtain ⟨way, _, found⟩ := Option.bind_eq_some_iff.mp found
  have named : string (t ++ [0]) ≠ [] := by
    rw [string_append noNull]
    exact List.append_ne_nil_of_left_ne_nil some' _
  have added : ∀ front : Text, add front (t ++ [0]) ≠ [] := by
    intro front none_
    rcases List.take_eq_nil_iff.mp none_ with zero | none_
    · cases zero
    · exact named (List.append_eq_nil_iff.mp none_).2
  cases way with
  | false =>
    cases found
    exact added []
  | true =>
    obtain ⟨directory, _, rfl⟩ := Option.map_eq_some_iff.mp found
    exact added _

theorem Argument.Given.noNull {arg : Argument} (given : arg.Given) : 0 ∉ arg.text := by
  cases arg with
  | plain t => exact fun member => (given.2 0 member).1 rfl
  | quoted t => exact fun member => (given 0 member).1 rfl

theorem zero_notMem_line (given : ∀ arg ∈ args, arg.Given) : 0 ∉ line args := by
  induction args with
  | nil => exact List.not_mem_nil
  | cons arg rest inductionHypothesis =>
    obtain ⟨here, later⟩ := List.forall_mem_cons.mp given
    have written : 0 ∉ arg.written := by
      have noNull := here.noNull
      cases arg with
      | plain t => exact noNull
      | quoted t => simpa [Argument.written, Argument.text] using noNull
    rw [line_cons, List.mem_append, not_or]
    refine ⟨written, ?_⟩
    split
    · exact List.not_mem_nil
    · rw [List.mem_cons, not_or]
      exact ⟨by decide, inductionHypothesis later⟩

theorem line_ne_nil (given : ∀ arg ∈ args, arg.Given) (some_ : args ≠ []) : line args ≠ [] := by
  obtain ⟨arg, rest, rfl⟩ := List.exists_cons_of_ne_nil some_
  have here := given arg List.mem_cons_self
  rw [line_cons]
  refine List.append_ne_nil_of_left_ne_nil ?_ _
  cases arg with
  | plain t => exact here.1
  | quoted t => exact List.cons_ne_nil _ _

theorem parse_eq_ok_iff {fuel : ℕ} {command : Text} :
    parse pagesize fuel directory shell command = some (.ok shell') ↔
      granted pagesize (strlen command + 1) ∧ string command ≠ [] ∧ ∃ scan argv,
        loop pagesize fuel (.start (string command)) = some (.ok scan) ∧
        collapse pagesize scan = some (.ok argv) ∧
        set0 pagesize directory { shell with argv := argv, argc := scan.argc }
          (scan.arglist.head?.map fun item => scan.text.drop item) = some (.ok shell') := by
  unfold parse
  constructor
  · intro parsed
    split at parsed
    next copy =>
      obtain ⟨result, looped, parsed⟩ := Option.bind_eq_some_iff.mp parsed
      obtain ⟨_, copied, looped⟩ := Option.bind_eq_some_iff.mp looped
      obtain ⟨some_, rfl⟩ := dup_eq_some_iff.mp copied
      cases result with
      | error thrown => cases parsed
      | ok scan =>
        obtain ⟨result, collapsed, parsed⟩ := Option.bind_eq_some_iff.mp parsed
        cases result with
        | error thrown => cases parsed
        | ok argv => exact ⟨copy, some_, scan, argv, looped, collapsed, parsed⟩
    next => cases parsed
  · rintro ⟨copy, some_, scan, argv, looped, collapsed, named⟩
    rw [if_pos copy, dup_eq_some_iff.mpr ⟨some_, rfl⟩, Option.bind_some, looped, Option.bind_some]
    dsimp only
    rw [collapsed, Option.bind_some]
    exact named

/-- The loop has listed the arguments; the first names the program. -/
structure Listed (directory : Option Text) (args : List Argument) (scan : Scan) : Prop where
  argc : scan.argc = UInt32.ofNat args.length
  listed : scan.arglist.map (fun item => string (scan.text.drop item)) = args.map Argument.text
  first : path directory (scan.arglist.head?.map fun item => scan.text.drop item) =
    path directory (args.head?.map fun arg => arg.text ++ [0])

theorem texts_of_shows {text : Text} {items : List ℕ} (given : ∀ arg ∈ args, arg.Given)
    (shows_ : List.Forall₂ (fun item arg => Argument.text arg ++ [0] <+: text.drop item)
      items args) :
    items.map (fun item => string (text.drop item)) = args.map Argument.text := by
  induction shows_ with
  | nil => rfl
  | cons begins _ inductionHypothesis =>
    obtain ⟨here, later⟩ := List.forall_mem_cons.mp given
    obtain ⟨after, text⟩ := begins
    rw [List.map_cons, List.map_cons, inductionHypothesis later, ← text, List.append_assoc,
      string_append here.noNull, List.singleton_append, string_cons_zero, List.append_nil]

theorem Argument.Given.text_ne_nil {arg : Argument} {rest : List Argument} {behind : Bool}
    (given : arg.Given) (apart : arg.Apart behind rest) : arg.text ≠ [] := by
  cases arg with
  | plain t => exact given.1
  | quoted t => exact apart

/-- The loop over a line whose arguments all end where they should lists them. -/
theorem exists_listed (directory : Option Text) (given : ∀ arg ∈ args, arg.Given)
    (readable : Readable false args) (nodes : args ≠ [] → granted pagesize argsSize) :
    ∃ fuel scan, loop pagesize fuel (.start (line args)) = some (.ok scan) ∧
      Listed directory args scan := by
  have ahead : (Scan.start (line args)).text.drop (Scan.start (line args)).cp = line args ++ [0] :=
    rfl
  obtain ⟨fuel, scan, items, looped, arglist, argc, shows_⟩ :=
    loop_reads nodes (fun _ => rfl) rfl given ahead readable
  obtain rfl : scan.arglist = items := arglist
  refine ⟨fuel, scan, looped, argc.trans (UInt32.zero_add _), texts_of_shows given shows_, ?_⟩
  cases args with
  | nil => rw [List.forall₂_nil_right_iff.mp shows_]; rfl
  | cons arg rest =>
    obtain ⟨item, items, begins, _, whole⟩ := List.forall₂_cons_right_iff.mp shows_
    have here := given arg List.mem_cons_self
    rw [whole]
    exact path_of_prefix (here.text_ne_nil readable.1) here.noNull begins

theorem strlen_line (given : ∀ arg ∈ args, arg.Given) :
    strlen (line args) = (line args).length :=
  congrArg List.length (string_eq_self (zero_notMem_line given))

/-- When the line is taken apart into its arguments, the loop has listed them. -/
theorem listed_of_splits (given : ∀ arg ∈ args, arg.Given)
    (splits : Splits pagesize directory shell args) :
    granted pagesize ((line args).length + 1) ∧ line args ≠ [] ∧ ∃ fuel scan shell',
      loop pagesize fuel (.start (line args)) = some (.ok scan) ∧
      scan.arglist.map (fun item => string (scan.text.drop item)) = args.map Argument.text ∧
      collapse pagesize scan = some (.ok (args.map (fun arg => some arg.text) ++ [none])) ∧
      set0 pagesize directory
        { shell with
          argv := args.map (fun arg => some arg.text) ++ [none]
          argc := scan.argc }
        (scan.arglist.head?.map fun item => scan.text.drop item) = some (.ok shell') := by
  obtain ⟨fuel, shell', parsed, argv, _⟩ := splits
  obtain ⟨copy, some_, scan, written, looped, collapsed, named⟩ := parse_eq_ok_iff.mp parsed
  rw [string_eq_self (zero_notMem_line given)] at some_ looped
  obtain rfl : written = args.map (fun arg => some arg.text) ++ [none] :=
    (set0_keeps named).1.symm.trans argv
  rw [strlen_line given] at copy
  refine ⟨copy, some_, fuel, scan, shell', looped, ?_, collapsed, named⟩
  have pointers := List.append_cancel_right (argv_of_collapse collapsed).symm
  refine List.map_injective_iff.mpr (Option.some_injective Text) ?_
  rwa [List.map_map, List.map_map]

theorem readable_of_splits (given : ∀ arg ∈ args, arg.Given)
    (splits : Splits pagesize directory shell args) : Readable false args := by
  obtain ⟨_, _, fuel, scan, _, looped, listed, _⟩ := listed_of_splits given splits
  exact readable_of_ended (fun _ => rfl) rfl given rfl looped listed

/-- On pages of a size for which they are sound, the line is taken apart into its arguments exactly
when there are any, each of them ends where it should, and the pages have room for what is
allocated. -/
theorem splits_iff (directory : Option Text) (shell : Shell) {args : List Argument}
    (given : ∀ arg ∈ args, arg.Given) :
    ∀ pagesize, Memalloc.Regular pagesize →
      (Splits pagesize directory shell args ↔
        args ≠ [] ∧ Readable false args ∧ Room pagesize directory shell args) := by
  intro pagesize _
  constructor
  · intro splits
    have readable := readable_of_splits given splits
    obtain ⟨copy, line_, fuel, scan, shell', looped, listed, collapsed, named⟩ :=
      listed_of_splits given splits
    have some_ : args ≠ [] := by
      rintro rfl
      exact line_ rfl
    have nodes : args ≠ [] → granted pagesize argsSize := by
      intro some'
      rcases (extends_loop looped).nodes with same | room
      · have empty : scan.arglist = [] := same
        rw [empty] at listed
        exact absurd (List.map_eq_nil_iff.mp listed.symm) some'
      · exact room
    obtain ⟨fuel', scan', looped', listed'⟩ := exists_listed directory given readable nodes
    obtain rfl := Except.ok.inj (loop_unique looped looped')
    obtain ⟨array, few⟩ := (collapse_eq_ok_iff listed'.argc listed).mp collapsed
    have known := set0_eq_ok_iff.mp ⟨shell', named, set0_keeps named⟩
    rw [listed'.first] at known
    refine ⟨some_, readable, copy, nodes, array, few, fun unnamed => ?_⟩
    obtain ⟨prefix_, found, _, room⟩ := known unnamed
    exact ⟨prefix_, found, room⟩
  · rintro ⟨some_, readable, copy, nodes, array, few, known⟩
    obtain ⟨fuel, scan, looped, listed⟩ := exists_listed directory given readable nodes
    have collapsed := (collapse_eq_ok_iff listed.argc listed.listed).mpr ⟨array, few⟩
    have written := line_ne_nil given some_
    have known_ : shell.argv0 = none → ∃ prefix_,
        path directory (args.head?.map fun arg => arg.text ++ [0]) = some prefix_ ∧
          prefix_ ≠ [] ∧ granted pagesize (prefix_.length + 1) := by
      intro unnamed
      obtain ⟨prefix_, found, room⟩ := known unnamed
      obtain ⟨arg, rest, rfl⟩ := List.exists_cons_of_ne_nil some_
      have here := given arg List.mem_cons_self
      exact ⟨prefix_, found, path_ne_nil (here.text_ne_nil readable.1) here.noNull found, room⟩
    rw [← listed.first] at known_
    rw [← strlen_line given] at copy
    obtain ⟨shell', named, argv, argc⟩ : ∃ shell', set0 pagesize directory
        { shell with
          argv := args.map (fun arg => some arg.text) ++ [none]
          argc := scan.argc }
        (scan.arglist.head?.map fun item => scan.text.drop item) = some (.ok shell') ∧
        shell'.argv = args.map (fun arg => some arg.text) ++ [none] ∧ shell'.argc = scan.argc :=
      set0_eq_ok_iff.mpr known_
    rw [← string_eq_self (zero_notMem_line given)] at written looped
    refine ⟨fuel, shell',
      parse_eq_ok_iff.mpr ⟨copy, written, scan, _, looped, collapsed, named⟩, argv, ?_⟩
    rw [argc, listed.argc]
    exact UInt32.toNat_ofNat_of_lt' (Nat.lt_of_succ_lt few)

/-- `ls "a b" "c"`. -/
theorem splits_iff_quoted :
    Splits 4096 (some [0x2f]) ⟨[], 0, none, none⟩
      [.plain [0x6c, 0x73], .quoted [0x61, 0x20, 0x62], .quoted [0x63]] := by
  exact (splits_iff _ _ (by decide +kernel) 4096 ⟨by decide, by decide, by decide⟩).mpr
    ⟨by decide, by decide, by decide, fun _ => by decide, by decide, by decide,
      fun _ => ⟨_, rfl, by decide⟩⟩

/-- `"a" b c` has two arguments, of which the second is `b c`; and `""` has the closing quote. -/
theorem quote_is_kept :
    (∃ shell, parse 4096 20 (some [0x2f]) ⟨[], 0, none, none⟩
        (line [.quoted [0x61], .plain [0x62], .plain [0x63]]) = some (.ok shell) ∧
        shell.argv = [some [0x61], some [0x62, 0x20, 0x63], none]) ∧
      (¬ Splits 4096 (some [0x2f]) ⟨[], 0, none, none⟩
        [.quoted [0x61], .plain [0x62], .plain [0x63]]) ∧
      ∃ shell, parse 4096 20 (some [0x2f]) ⟨[], 0, none, none⟩ (line [.quoted []]) =
        some (.ok shell) ∧ shell.argv = [some [0x22], none] := by
  refine ⟨⟨_, rfl, by decide⟩, fun splits => ?_, _, rfl, by decide⟩
  exact absurd (readable_of_splits (by decide +kernel) splits) (by decide)

end Parse

end CommandLine

end CommonCpp
