/-
This file shows that `shell::getargv` reads what is rendered: where uses of options are written as
arguments, each option is told the values that it was used with, in the order of the uses, and the
operands are left.

An argument is taken for a long option when it is a name, alone or with `=` behind it, and for the
first option of the table with such a name. So the use of another one is not read. Nor is that of an
empty name without a value attached to it, for `--` is the end, that of characters which begin with
a dash, or that of a character to which an empty value is attached.
-/

import CommonCpp.Shell

namespace CommonCpp

namespace Shell

variable {World Error : Type}

/-! ### Uses -/

/-- An `assign` that is called: with what option, which value, and what an error would name. -/
structure Call where
  index : ℕ
  value : Option Text
  name : Text

/-- The calls, one after the other. -/
def assignAll (assign : ℕ → Option Text → World → Except Error World) :
    List Call → World → Except (Stop Error) World
  | [], world => .ok world
  | call :: calls, world => do
    let world ← assigned assign call.name call.index call.value world
    assignAll assign calls world

/-- An option of the table, and its index. -/
structure Member where
  index : ℕ
  option : ShellOption

def Member.In (member : Member) (options : List ShellOption) : Prop :=
  options[member.index]? = some member.option

instance (member : Member) (options : List ShellOption) : Decidable (member.In options) :=
  inferInstanceAs (Decidable (_ = _))

/-- Where the value of an option is. -/
inductive Form
  | alone
  | attached (value : Text)
  | separate (value : Text)
  deriving DecidableEq

def Form.value : Form → Option Text
  | alone => none
  | attached value => some value
  | separate value => some value

/-- The argument behind, if the value is in it. -/
def Form.next : Form → List Text
  | alone => []
  | attached _ => []
  | separate value => [value]

/-- What is rendered together: a long option, or short ones, of which the last may have a value. -/
inductive Use
  | long (member : Member) (name : Text) (form : Form)
  | short (members : List Member) (last : Member) (form : Form)

namespace Use

/-- What the form puts behind a long name. -/
def behindLong : Form → Text
  | .alone => []
  | .attached value => 0x3d :: value
  | .separate _ => []

/-- What the form puts behind the characters. -/
def behindShort : Form → Text
  | .alone => []
  | .attached value => value
  | .separate _ => []

/-- The text of a short argument, without its dash. -/
def text (members : List Member) (last : Member) (form : Form) : Text :=
  members.map (fun member => member.option.shortOption) ++
    last.option.shortOption :: behindShort form

/-- The arguments. -/
def words : Use → List Text
  | .long _ name form => (Shell.long name ++ behindLong form) :: form.next
  | .short members last form => (0x2d :: text members last form) :: form.next

/-- A use of a short option. -/
def shortCall (member : Member) (value : Option Text) : Call :=
  ⟨member.index, value, Shell.short member.option.shortOption⟩

/-- The calls that it asks for. -/
def calls : Use → List Call
  | .long member name form => [⟨member.index, form.value, Shell.long name⟩]
  | .short members last form =>
    members.map (fun member => shortCall member none) ++ [shortCall last form.value]

end Use

/-- The option takes no value behind its character. -/
abbrev ShellOption.Plain (op : ShellOption) : Prop := op.triggerOption ∨ ¬ op.usesOption

/-- The text is taken for a long option with this name. -/
def Names (name opt : Text) : Prop := name = opt ∨ name ++ [0x3d] <+: opt

instance (name opt : Text) : Decidable (Names name opt) := inferInstanceAs (Decidable (_ ∨ _))

/-- The use is in a form that is accepted: a value is given where the option takes one, and no short
argument is taken for a long option. -/
def Use.Accepted (options : List ShellOption) : Use → Prop
  | .long member name form =>
    member.In options ∧ member.option.longOption = some name ∧
      (form = .alone ↔ ¬ member.option.usesOption)
  | .short members last form =>
    (∀ member ∈ members, member.In options ∧ member.option.shortOption ≠ 0 ∧
        member.option.Plain) ∧
      last.In options ∧ last.option.shortOption ≠ 0 ∧ (form = .alone ↔ last.option.Plain) ∧
      ∀ op ∈ options, ∀ name ∈ op.longOption, ¬ Names name (Use.text members last form)

instance (options : List ShellOption) : DecidablePred (Use.Accepted options)
  | .long _ _ _ => inferInstanceAs (Decidable (_ ∧ _))
  | .short _ _ _ => inferInstanceAs (Decidable (_ ∧ _))

/-- The use is not taken for another one. A long option is not the end, and no option before it has
a name for which its argument is taken; the characters of an argument do not begin with a dash, and
a value that is attached to one has a character. -/
def Use.Clear (options : List ShellOption) : Use → Prop
  | .long member name form =>
    name ++ Use.behindLong form ≠ [] ∧ ∀ op ∈ options.take member.index,
      ∀ name' ∈ op.longOption, ¬ Names name' (name ++ Use.behindLong form)
  | .short members last form =>
    (Use.text members last form).head? ≠ some 0x2d ∧ form ≠ .attached []

instance (options : List ShellOption) : DecidablePred (Use.Clear options)
  | .long _ _ _ => inferInstanceAs (Decidable (_ ∧ _))
  | .short _ _ _ => inferInstanceAs (Decidable (_ ∧ _))

/-- The names and the characters are distinct. -/
def Distinct (options : List ShellOption) : Prop :=
  options.Pairwise fun op op' =>
    (op.longOption = none ∨ op.longOption ≠ op'.longOption) ∧
      (op.shortOption = 0 ∨ op.shortOption ≠ op'.shortOption)

instance (options : List ShellOption) : Decidable (Distinct options) :=
  inferInstanceAs (Decidable (List.Pairwise _ _))

/-- The operands, with `--` before them or not. -/
def Ending (ending operands : List Text) : Prop :=
  ending = [0x2d, 0x2d] :: operands ∨
    ending = operands ∧ ∀ operand ∈ operands.head?, operand.head? ≠ some 0x2d

/-! ### The options of a table -/

theorem Member.In.split {member : Member} {options : List ShellOption}
    (listed : member.In options) :
    ∃ before after, options = before ++ member.option :: after ∧ before.length = member.index := by
  obtain ⟨inside, same⟩ := List.getElem?_eq_some_iff.mp listed
  refine ⟨options.take member.index, options.drop (member.index + 1), ?_, ?_⟩
  · rw [← same, ← List.drop_eq_getElem_cons inside, List.take_append_drop]
  · exact List.length_take_of_le inside.le

theorem shortOption_append {char : UInt8} {before : List ShellOption}
    (others : ∀ op ∈ before, op.shortOption ≠ char) (options : List ShellOption) (index : ℕ) :
    shortOption char (before ++ options) index =
      shortOption char options (index + before.length) := by
  induction before generalizing index with
  | nil => rfl
  | cons op before inductionHypothesis =>
    rw [List.cons_append, shortOption, if_neg (others op List.mem_cons_self),
      inductionHypothesis fun op' listed => others op' (List.mem_cons_of_mem _ listed),
      List.length_cons, Nat.add_right_comm, Nat.add_assoc]

theorem shortOption_member {member : Member} {options : List ShellOption}
    (distinct : Distinct options) (listed : member.In options)
    (char : member.option.shortOption ≠ 0) :
    shortOption member.option.shortOption options 0 = some (member.index, member.option) := by
  obtain ⟨before, after, rfl, index⟩ := listed.split
  have others : ∀ op ∈ before, op.shortOption ≠ member.option.shortOption := by
    intro op earlier same
    have apart := (List.pairwise_append.mp distinct).2.2 op earlier _ List.mem_cons_self
    exact apart.2.elim (fun zero => char (same ▸ zero)) fun other => other same
  rw [shortOption_append others, shortOption, if_pos rfl, Nat.zero_add, index]

/-! ### Long options -/

section Long

variable {argv rest : List Text} {argp : ℕ}

theorem argument_of_drop {value : Text} (next : argv.drop argp = value :: rest) :
    (argument argv argp : Except (Stop Error) (Option Text)) = .ok (some value) := by
  have inside : argp < argv.length := by
    by_contra behind
    rw [List.drop_eq_nil_of_le (not_lt.mp behind)] at next
    cases next
  have value_ : argv[argp]? = some value := by
    rw [← List.head?_drop, next]
    rfl
  rw [argument, if_pos inside.le, value_]

theorem longOption_other {op : ShellOption} {opt : Text}
    (other : ∀ name ∈ op.longOption, ¬ Names name opt) (options : List ShellOption) (index : ℕ) :
    (longOption argv argp opt (op :: options) index : Except (Stop Error) (Option Found)) =
      longOption argv argp opt options (index + 1) := by
  rw [longOption]
  split
  · rfl
  · rename_i name named
    have unnamed := other name named
    split
    · rename_i begins
      obtain ⟨behind, rfl⟩ := begins
      rw [List.drop_left]
      cases behind with
      | nil => exact absurd (.inl (List.append_nil name).symm) unnamed
      | cons next value =>
        refine if_neg fun equals => unnamed (.inr ⟨value, ?_⟩)
        rw [equals, List.append_assoc, List.singleton_append]
    · rfl

theorem longOption_append {before : List ShellOption} {opt : Text}
    (others : ∀ op ∈ before, ∀ name ∈ op.longOption, ¬ Names name opt)
    (options : List ShellOption) (index : ℕ) :
    (longOption argv argp opt (before ++ options) index : Except (Stop Error) (Option Found)) =
      longOption argv argp opt options (index + before.length) := by
  induction before generalizing index with
  | nil => rfl
  | cons op before inductionHypothesis =>
    rw [List.cons_append, longOption_other (others op List.mem_cons_self),
      inductionHypothesis fun op' listed => others op' (List.mem_cons_of_mem _ listed),
      List.length_cons, Nat.add_right_comm, Nat.add_assoc]

theorem longOption_eq_none {options : List ShellOption} {opt : Text}
    (others : ∀ op ∈ options, ∀ name ∈ op.longOption, ¬ Names name opt) (index : ℕ) :
    (longOption argv argp opt options index : Except (Stop Error) (Option Found)) = .ok none := by
  rw [← List.append_nil options, longOption_append others]
  rfl

/-- A form with a value is that of something that does not stand alone. -/
theorem uses_of_form {form : Form} {uses : Prop} (given : form = .alone ↔ ¬ uses)
    (value : form ≠ .alone) : uses :=
  not_not.mp (mt given.mpr value)

theorem longOption_first {op : ShellOption} {name : Text} (named : op.longOption = some name)
    {form : Form} (given : form = .alone ↔ ¬ op.usesOption)
    (next : argv.drop argp = form.next ++ rest) (options : List ShellOption) (index : ℕ) :
    (longOption argv argp (name ++ Use.behindLong form) (op :: options) index :
        Except (Stop Error) (Option Found)) =
      .ok (some ⟨index, op, name, form.value, argp + form.next.length⟩) := by
  rw [longOption, named]
  dsimp only
  rw [if_pos (List.prefix_append _ _), List.drop_left]
  cases form with
  | alone =>
    rw [Use.behindLong, if_neg (given.mp rfl)]
    rfl
  | attached value =>
    have uses : op.usesOption = true := uses_of_form given (Form.noConfusion ·)
    rw [Use.behindLong]
    dsimp only
    rw [if_pos rfl, if_pos uses]
    rfl
  | separate value =>
    have uses : op.usesOption = true := uses_of_form given (Form.noConfusion ·)
    rw [Use.behindLong, if_pos uses, argument_of_drop next]
    rfl

/-- The option whose name it is, is found. -/
theorem longOption_member {member : Member} {options : List ShellOption} {name : Text}
    (listed : member.In options) (named : member.option.longOption = some name) {form : Form}
    (given : form = .alone ↔ ¬ member.option.usesOption)
    (others : ∀ op ∈ options.take member.index, ∀ name' ∈ op.longOption,
      ¬ Names name' (name ++ Use.behindLong form))
    (next : argv.drop argp = form.next ++ rest) :
    (longOption argv argp (name ++ Use.behindLong form) options 0 :
        Except (Stop Error) (Option Found)) =
      .ok (some ⟨member.index, member.option, name, form.value, argp + form.next.length⟩) := by
  obtain ⟨before, after, rfl, index⟩ := listed.split
  rw [← index, List.take_left] at others
  rw [longOption_append others, Nat.zero_add, index, longOption_first named given next]

end Long

/-! ### One use -/

section Uses

variable {options : List ShellOption} {assign : ℕ → Option Text → World → Except Error World}
  {argv rest : List Text} {argp : ℕ}

theorem assignAll_append (calls calls' : List Call) (world : World) :
    assignAll assign (calls ++ calls') world =
      assignAll assign calls world >>= assignAll assign calls' := by
  induction calls generalizing world with
  | nil => rfl
  | cons call calls inductionHypothesis =>
    rw [List.cons_append, assignAll, assignAll, bind_assoc]
    exact congrArg _ (funext inductionHypothesis)

theorem assignAll_singleton (call : Call) (world : World) :
    assignAll assign [call] world = assigned assign call.name call.index call.value world :=
  bind_pure _

/-- The characters of options that take no value. -/
theorem shortOptions_members (distinct : Distinct options) {members : List Member}
    (plain : ∀ member ∈ members, member.In options ∧ member.option.shortOption ≠ 0 ∧
      member.option.Plain) (behind : Text) (world : World) :
    shortOptions options assign argv argp
        (members.map (fun member => member.option.shortOption) ++ behind) world =
      assignAll assign (members.map fun member => Use.shortCall member none) world >>=
        shortOptions options assign argv argp behind := by
  induction members generalizing world with
  | nil => rfl
  | cons member members inductionHypothesis =>
    obtain ⟨⟨listed, char, noValue⟩, later⟩ := List.forall_mem_cons.mp plain
    rw [List.map_cons, List.cons_append, shortOptions, shortOption_member distinct listed char]
    dsimp only
    rw [if_pos noValue, List.map_cons, assignAll, bind_assoc]
    exact congrArg _ (funext (inductionHypothesis later))

/-- The last character, with its value. -/
theorem shortOptions_last (distinct : Distinct options) {last : Member} (listed : last.In options)
    (char : last.option.shortOption ≠ 0) {form : Form} (given : form = .alone ↔ last.option.Plain)
    (filled : form ≠ .attached []) (next : argv.drop argp = form.next ++ rest) (world : World) :
    shortOptions options assign argv argp
        (last.option.shortOption :: Use.behindShort form) world =
      assignAll assign [Use.shortCall last form.value] world >>= fun world =>
        .ok (world, argp + form.next.length) := by
  rw [assignAll_singleton, shortOptions, shortOption_member distinct listed char]
  dsimp only
  cases form with
  | alone =>
    rw [if_pos (given.mp rfl)]
    rfl
  | attached value =>
    have uses : ¬ last.option.Plain := mt given.mpr (Form.noConfusion ·)
    have some_ : value ≠ [] := fun none_ => filled (none_ ▸ rfl)
    rw [if_neg uses, Use.behindShort, if_neg some_]
    rfl
  | separate value =>
    have uses : ¬ last.option.Plain := mt given.mpr (Form.noConfusion ·)
    rw [if_neg uses, Use.behindShort, if_pos rfl, argument_of_drop next]
    rfl

/-- What is done with the first argument of a use. -/
theorem option_use (distinct : Distinct options) {use : Use}
    (accepted : use.Accepted options) (clear : use.Clear options) {word : Text} {next : List Text}
    (words : use.words = word :: next) (behind : argv.drop argp = next ++ rest) (world : World) :
    option options assign argv argp word world =
      assignAll assign use.calls world >>= fun world => .ok (world, argp + next.length) := by
  cases use with
  | long member name form =>
    obtain ⟨listed, named, given⟩ := accepted
    obtain ⟨rfl, rfl⟩ := List.cons_eq_cons.mp words
    have opt : behindDashes (long name ++ Use.behindLong form) = name ++ Use.behindLong form := rfl
    rw [option, opt, longOption_member listed named given clear.2 behind]
    have complete : ¬ (member.option.usesOption = true ∧ form.value = none) := by
      rintro ⟨uses, none_⟩
      cases form with
      | alone => exact given.mp rfl uses
      | attached value => cases none_
      | separate value => cases none_
    show (if member.option.usesOption = true ∧ form.value = none then _ else _) = _
    rw [if_neg complete, Use.calls, assignAll_singleton]
    rfl
  | short members last form =>
    obtain ⟨plain, listed, char, given, unnamed⟩ := accepted
    obtain ⟨rfl, rfl⟩ := List.cons_eq_cons.mp words
    obtain ⟨dash, filled⟩ := clear
    have opt : behindDashes (0x2d :: Use.text members last form) = Use.text members last form :=
      if_neg dash
    have double : ¬ [0x2d, 0x2d] <+: 0x2d :: Use.text members last form := by
      rintro ⟨behind, whole⟩
      exact dash (congrArg List.head? (List.cons_eq_cons.mp whole).2.symm)
    rw [option, opt, longOption_eq_none unnamed]
    show (if [0x2d, 0x2d] <+: 0x2d :: Use.text members last form then _ else _) = _
    rw [if_neg double]
    show shortOptions options assign argv argp (Use.text members last form) world = _
    rw [Use.text, shortOptions_members distinct plain, Use.calls, assignAll_append, bind_assoc]
    exact congrArg _ (funext (shortOptions_last distinct listed char given filled behind))

/-! ### The whole -/

theorem words_spec {use : Use} (clear : use.Clear options) :
    ∃ word next, use.words = word :: next ∧ word.head? = some 0x2d ∧ word ≠ [0x2d, 0x2d] := by
  cases use with
  | long member name form =>
    refine ⟨_, _, rfl, rfl, fun same => clear.1 ?_⟩
    exact (List.cons_eq_cons.mp (List.cons_eq_cons.mp same).2).2
  | short members last form =>
    refine ⟨_, _, rfl, rfl, fun same => clear.1 ?_⟩
    exact congrArg List.head? (List.cons_eq_cons.mp same).2

theorem numeric_noNumeric (numericValue : ℤ) (opt : Text) :
    (numeric .noNumeric numericValue opt : Except (Stop Error) (Option ℤ)) = .ok none := by
  unfold numeric
  split
  · exact if_neg (by simp)
  · rfl

variable {fuel : ℕ}

/-- A turn of the loop at a use. -/
theorem loop_use (distinct : Distinct options) {use : Use} (accepted : use.Accepted options)
    (clear : use.Clear options) (here : argv.drop argp = use.words ++ rest) (state : State World) :
    loop options assign .noNumeric argv (fuel + 1) argp state =
      assignAll assign use.calls state.world >>= fun world =>
        loop options assign .noNumeric argv fuel (argp + use.words.length)
          { state with world := world } := by
  obtain ⟨word, next, words, dash, more⟩ := words_spec clear
  rw [words] at here ⊢
  have behind : argv.drop (argp + 1) = next ++ rest := by
    rw [← List.drop_drop, here]
    rfl
  rw [loop, argument_of_drop here]
  show (if word = [0x2d, 0x2d] then _ else _) = _
  rw [if_neg more, numeric_noNumeric]
  show (if word.head? ≠ some 0x2d then _ else _) = _
  rw [if_neg (not_not_intro dash), option_use distinct accepted clear words behind,
    bind_assoc, List.length_cons, Nat.add_comm next.length, ← Nat.add_assoc]
  rfl

/-- A turn of the loop behind the uses. -/
theorem loop_ending {ending operands : List Text} (ends : Ending ending operands)
    (within : argp ≤ argv.length) (here : argv.drop argp = ending) :
    ∃ argp', argv.drop argp' = operands ∧ ∀ state : State World,
      loop options assign .noNumeric argv (fuel + 1) argp state = .ok (state, argp') := by
  rcases ends with rfl | ⟨rfl, noDash⟩
  · refine ⟨argp + 1, ?_, fun state => ?_⟩
    · rw [← List.drop_drop, here]
      rfl
    · rw [loop, argument_of_drop here]
      rfl
  · refine ⟨argp, here, fun state => ?_⟩
    cases ending with
    | nil =>
      have null : argv[argp]? = none := List.getElem?_eq_none (List.drop_eq_nil_iff.mp here)
      rw [loop, argument, if_pos within, null]
      rfl
    | cons operand operands =>
      have plain : operand.head? ≠ some 0x2d := noDash operand rfl
      have more : operand ≠ [0x2d, 0x2d] := fun same => plain (same ▸ rfl)
      rw [loop, argument_of_drop here]
      show (if operand = [0x2d, 0x2d] then _ else _) = _
      rw [if_neg more, numeric_noNumeric]
      exact if_pos plain

/-- The loop from a use on: the calls of the uses that are left, and the end. -/
theorem loop_uses (distinct : Distinct options) {uses : List Use}
    (accepted : ∀ use ∈ uses, use.Accepted options) (clear : ∀ use ∈ uses, use.Clear options)
    {ending operands : List Text} (ends : Ending ending operands) (within : argp ≤ argv.length)
    (here : argv.drop argp = uses.flatMap Use.words ++ ending) (enough : uses.length < fuel) :
    ∃ argp', argv.drop argp' = operands ∧ ∀ state : State World,
      loop options assign .noNumeric argv fuel argp state =
        assignAll assign (uses.flatMap Use.calls) state.world >>= fun world =>
          .ok ({ state with world := world }, argp') := by
  induction uses generalizing argp fuel with
  | nil =>
    obtain ⟨fuel, rfl⟩ := Nat.exists_eq_succ_of_ne_zero enough.ne'
    exact loop_ending ends within here
  | cons use uses inductionHypothesis =>
    obtain ⟨fuel, rfl⟩ := Nat.exists_eq_succ_of_ne_zero (Nat.ne_zero_of_lt enough)
    obtain ⟨first, later⟩ := List.forall_mem_cons.mp accepted
    obtain ⟨firstClear, laterClear⟩ := List.forall_mem_cons.mp clear
    rw [List.flatMap_cons, List.append_assoc] at here
    have behind : argv.drop (argp + use.words.length) = uses.flatMap Use.words ++ ending := by
      rw [← List.drop_drop, here, List.drop_left]
    have within' : argp + use.words.length ≤ argv.length := by
      have length := congrArg List.length here
      rw [List.length_drop, List.length_append] at length
      omega
    obtain ⟨argp', operands_, runs⟩ := inductionHypothesis later laterClear within' behind
      (Nat.succ_lt_succ_iff.mp enough)
    refine ⟨argp', operands_, fun state => ?_⟩
    rw [loop_use distinct first firstClear here, List.flatMap_cons, assignAll_append,
      bind_assoc]
    exact congrArg _ (funext fun world => runs { state with world := world })

theorem length_le_words (uses : List Use) : uses.length ≤ (uses.flatMap Use.words).length := by
  induction uses with
  | nil => exact le_rfl
  | cons use uses inductionHypothesis =>
    have some_ : 1 ≤ use.words.length := by
      cases use with
      | long _ _ _ => exact Nat.succ_le_succ (Nat.zero_le _)
      | short _ _ _ => exact Nat.succ_le_succ (Nat.zero_le _)
    rw [List.flatMap_cons, List.length_append, List.length_cons]
    omega

end Uses

/-- What is rendered is read again, unless it is taken for something else: the options are told
their values in the order of the uses, up to the first that is refused, and the operands are left.
With any arguments there is a result, or the program ends with an error. -/
theorem getargv_rendered {options : List ShellOption}
    (assign : ℕ → Option Text → World → Except Error World) (distinct : Distinct options)
    {uses : List Use} (accepted : ∀ use ∈ uses, use.Accepted options)
    (clear : ∀ use ∈ uses, use.Clear options) {ending operands : List Text}
    (ends : Ending ending operands) (state : State World) :
    (getargv options assign .noNumeric (uses.flatMap Use.words ++ ending) state =
        assignAll assign (uses.flatMap Use.calls) state.world >>= fun world =>
          .ok ⟨{ state with world := world }, operands, operands.length⟩) ∧
      ∀ (mode : NumericMode) (argv : List Text),
        Ends (getargv options assign mode argv state) fun parsed =>
          parsed.argv <:+ argv ∧ parsed.argc = parsed.argv.length := by
  refine ⟨?_, fun mode argv => ends_getargv options assign mode argv state⟩
  have enough : uses.length < (uses.flatMap Use.words ++ ending).length + 1 := by
    have fewer := length_le_words uses
    rw [List.length_append]
    omega
  obtain ⟨argp, operands_, runs⟩ := loop_uses distinct accepted clear ends
    (Nat.zero_le _) rfl enough
  rw [getargv, runs state, bind_assoc]
  refine congrArg _ (funext fun world => ?_)
  show Except.ok _ = _
  rw [operands_]

/-- A table of options, with what they hold. -/
abbrev Table := List (ShellOption × Setting)

namespace Table

def options (table : Table) : List ShellOption := table.map Prod.fst

def settings (table : Table) : List Setting := table.map Prod.snd

def member (table : Table) (index : ℕ) : Member :=
  ⟨index, table.options[index]?.getD (.new 0 none false)⟩

end Table

/-- `-v`, `--ver`, which may be used more than once, and `-o`, `--out`, which takes a text. -/
def verboseOut : Table :=
  [flagopt 0x76 (some [0x76, 0x65, 0x72]) false, stringopt 0x6f (some [0x6f, 0x75, 0x74]) true none]

/-- The arguments `-vvo f --ver -- x`. -/
theorem getargv_rendered_verboseOut :
    getargv verboseOut.options assign .noNumeric
        [[0x2d, 0x76, 0x76, 0x6f], [0x66], [0x2d, 0x2d, 0x76, 0x65, 0x72], [0x2d, 0x2d], [0x78]]
        ⟨verboseOut.settings, 0⟩ =
      .ok ⟨⟨[.flagopt false 3, .stringopt true (some [0x66])], 0⟩, [[0x78]], 1⟩ :=
  let flag := verboseOut.member 0
  let uses := [Use.short [flag, flag] (verboseOut.member 1) (.separate [0x66]),
    .long flag [0x76, 0x65, 0x72] .alone]
  (getargv_rendered assign (show Distinct verboseOut.options by decide +kernel)
    (show ∀ use ∈ uses, use.Accepted verboseOut.options by decide +kernel)
    (show ∀ use ∈ uses, use.Clear verboseOut.options by decide +kernel) (.inl rfl)
    ⟨verboseOut.settings, 0⟩).1

/-- Where the reader has told the options what the uses ask for, and has left the operands. -/
def Told (table : Table) (uses : List Use) (operands : List Text) : Prop :=
  ∃ settings, assignAll assign (uses.flatMap Use.calls) table.settings = .ok settings ∧
    getargv table.options assign .noNumeric
        (uses.flatMap Use.words ++ [0x2d, 0x2d] :: operands) ⟨table.settings, 0⟩ =
      .ok ⟨⟨settings, 0⟩, operands, operands.length⟩

/-- A table of distinct options and uses in accepted forms that are not told. -/
def Untold (table : Table) (uses : List Use) : Prop :=
  Distinct table.options ∧ (∀ use ∈ uses, use.Accepted table.options) ∧ ¬ Told table uses []

theorem not_told {table : Table} {uses : List Use} {operands : List Text}
    (differ : (assignAll assign (uses.flatMap Use.calls) table.settings).toOption = none ∨
      (getargv table.options assign .noNumeric
          (uses.flatMap Use.words ++ [0x2d, 0x2d] :: operands) ⟨table.settings, 0⟩).toOption ≠
        (assignAll assign (uses.flatMap Use.calls) table.settings).toOption.map
          fun settings => ⟨⟨settings, 0⟩, operands, operands.length⟩) :
    ¬ Told table uses operands := by
  rintro ⟨settings, told, read⟩
  rw [told, read] at differ
  exact differ.elim nofun fun other => other rfl

/-- `--n`, which takes a number. -/
def aNumber : Table := [numericopt 0 (some [0x6e]) true 0]

/-- `--a` and `--a=b`. -/
def oneBehindOther : Table :=
  [flagopt 0 (some [0x61]) false, flagopt 0 (some [0x61, 0x3d, 0x62]) false]

/-- An option with an empty name, whose character is a dash. -/
def dashes : Table := [flagopt 0x2d (some []) false]

/-- `-o`, which takes a text. -/
def aText : Table := [stringopt 0x6f none true none]

/-- What is not told: a numeric option that is used twice; a name behind the `=` of another one; an
empty name; a character that is a dash; and a value without a character that is attached to one. -/
theorem not_all_told :
    Untold aNumber [.long (aNumber.member 0) [0x6e] (.attached [0x31]),
        .long (aNumber.member 0) [0x6e] (.attached [0x32])] ∧
      Untold oneBehindOther [.long (oneBehindOther.member 1) [0x61, 0x3d, 0x62] .alone] ∧
      Untold dashes [.long (dashes.member 0) [] .alone] ∧
      Untold dashes [.short [] (dashes.member 0) .alone] ∧
      Untold aText [.short [] (aText.member 0) (.attached [])] :=
  ⟨⟨by decide +kernel, by decide +kernel, not_told (by decide +kernel)⟩,
    ⟨by decide +kernel, by decide +kernel, not_told (by decide +kernel)⟩,
    ⟨by decide +kernel, by decide +kernel, not_told (by decide +kernel)⟩,
    ⟨by decide +kernel, by decide +kernel, not_told (by decide +kernel)⟩,
    ⟨by decide +kernel, by decide +kernel, not_told (by decide +kernel)⟩⟩

end Shell

end CommonCpp
