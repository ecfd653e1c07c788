/-
This file models how `shell::getargv` reads the arguments of a command, and shows that it comes to
an end with any of them.

The argument at `argp` is taken for a long option first, whether it begins with one dash or with
two, and then for the characters of short options. An option that takes a value finds it behind
`=`, in the rest of the argument, or in the next argument, which `argp` is moved past. What the
options do with the values is the affair of their `assign`, a virtual function; those of the classes
of the shell are given here as well.

A string is its bytes before the null. The arguments are followed by a null pointer.
-/

import CommonCpp.Ctype
import Mathlib.Data.List.Infix

namespace CommonCpp

namespace Shell

open Ctype

/-! ### Options -/

/-- The messages that end the program. -/
inductive Errmsg
  | noArgument
  | invArgument
  | badOption
  | optionUsed
  | badValue
  | numericSet
  deriving DecidableEq

def errmsg : Errmsg → String
  | .noArgument => "missing argument for option"
  | .invArgument => "option does not have argument"
  | .badOption => "unknown command option"
  | .optionUsed => "option already used"
  | .badValue => "invalid argument used"
  | .numericSet => "numeric value already set"

/-- An `Option`. It uses an option when the type of its value is not `NULL`. -/
structure ShellOption where
  shortOption : UInt8
  longOption : Option Text
  usesOption : Bool
  triggerOption : Bool
  deriving DecidableEq

/-- The constructor, which takes the dashes from the long name. -/
def ShellOption.new (shortopt : UInt8) (longopt : Option Text) (value : Bool) : ShellOption :=
  ⟨shortopt, longopt.map (List.dropWhile (· == 0x2d)), value, false⟩

/-- What the options of the shell hold. -/
inductive Setting
  | flagopt (single : Bool) (counter : ℕ)
  | groupopt
  | stringopt (used : Bool) (text : Option Text)
  | charopt (used : Bool) (code : UInt8)
  | numericopt (used : Bool) (number : ℤ)
  | counteropt (used : Bool) (number : ℤ)
  deriving DecidableEq

def flagopt (shortOption : UInt8) (longOption : Option Text) (singleUse : Bool) :
    ShellOption × Setting :=
  (.new shortOption longOption false, .flagopt singleUse 0)

def groupopt : ShellOption × Setting := (.new 0 none false, .groupopt)

def stringopt (shortOption : UInt8) (longOption : Option Text) (type : Bool)
    (defText : Option Text) : ShellOption × Setting :=
  (.new shortOption longOption type, .stringopt false defText)

def charopt (shortOption : UInt8) (longOption : Option Text) (type : Bool) (defaultCode : UInt8) :
    ShellOption × Setting :=
  (.new shortOption longOption type, .charopt false defaultCode)

def numericopt (shortOption : UInt8) (longOption : Option Text) (type : Bool) (defValue : ℤ) :
    ShellOption × Setting :=
  (.new shortOption longOption type, .numericopt false defValue)

def counteropt (shortOption : UInt8) (longOption : Option Text) (type : Bool) (defValue : ℤ) :
    ShellOption × Setting :=
  ({ ShellOption.new shortOption longOption type with triggerOption := true },
    .counteropt false defValue)

/-! ### Values -/

/-- The value of a digit to the base, if it is one. -/
def digitOf (base : ℕ) (char : UInt8) : Option ℕ :=
  let value := if isdigit char then char.toNat - 0x30
    else if 0x61 ≤ tolower char ∧ tolower char ≤ 0x7a then (tolower char).toNat - 0x61 + 10
    else base
  if value < base then some value else none

/-- The digits of a number, and what is behind them. -/
def digitsOf (base : ℕ) : Text → ℕ → ℕ × Text
  | [], value => (value, [])
  | char :: text, value =>
    match digitOf base char with
    | some digit => digitsOf base text (value * base + digit)
    | none => (value, char :: text)

/-- A number without a sign, whose base is told by how it begins. -/
def prefixed (text : Text) : Option (ℕ × Text) :=
  match text with
  | 0x30 :: mark :: digit :: rest =>
    if tolower mark = 0x78 ∧ (digitOf 16 digit).isSome then some (digitsOf 16 (digit :: rest) 0)
    else some (digitsOf 8 text 0)
  | 0x30 :: _ => some (digitsOf 8 text 0)
  | first :: _ => if isdigit first then some (digitsOf 10 text 0) else none
  | [] => none

/-- `strtol(value, &endptr, 0)`, and what `endptr` leads to. -/
def strtol0 (value : Text) : ℤ × Text :=
  let number := value.dropWhile isspace
  let sign := number.head? == some 0x2d
  let signed := sign || number.head? == some 0x2b
  match prefixed (if signed then number.tail else number) with
  | none => (0, value)
  | some (magnitude, endptr) =>
    (if sign then max (-2 ^ 63) (-magnitude) else min (2 ^ 63 - 1) magnitude, endptr)

/-- Why an option of the shell does not take a value: it says so, or it reads what is not there. -/
inductive Refusal
  | message (text : String)
  | undefined
  deriving DecidableEq

/-- The number of a value, all of which has to be read. -/
def number (value : Option Text) : Except Refusal ℤ :=
  match value with
  | none => .error .undefined
  | some text =>
    if (strtol0 text).2 ≠ [] then .error (.message (errmsg .badValue)) else .ok (strtol0 text).1

/-- The code of a value, which is its only character or a number. -/
def code (value : Option Text) : Except Refusal UInt8 :=
  match value with
  | none | some [] => .error .undefined
  | some [char] => .ok char
  | some text => do
    let number ← number text
    if number < 0 ∨ number > 255 then throw (.message (errmsg .badValue))
    return UInt8.ofNat number.toNat

/-- `assign`. -/
def Setting.assign (setting : Setting) (value : Option Text) : Except Refusal Setting :=
  match setting with
  | .flagopt single counter =>
    if single ∧ counter ≠ 0 then .error (.message (errmsg .optionUsed))
    else .ok (.flagopt single ((counter + 1) % 2 ^ 32))
  | .groupopt => .ok .groupopt
  | .stringopt used _ =>
    if used then .error (.message (errmsg .optionUsed)) else .ok (.stringopt true value)
  | .charopt used _ =>
    if used then .error (.message (errmsg .optionUsed)) else (code value).map (.charopt true)
  | .numericopt used _ =>
    if used then .error (.message (errmsg .optionUsed)) else (number value).map (.numericopt true)
  | .counteropt used count =>
    if value = none then .ok (.counteropt true (count + 1))
    else if used then .error (.message (errmsg .optionUsed))
    else (number value).map (.counteropt true)

/-- `assign` of the option with this index. -/
def assign (index : ℕ) (value : Option Text) (settings : List Setting) :
    Except Refusal (List Setting) :=
  match settings[index]? with
  | none => .error .undefined
  | some setting => (setting.assign value).map (settings.set index)

/-! ### Arguments -/

/-- `numeric_t`. -/
inductive NumericMode
  | noNumeric
  | numericPlus
  | numericDash
  | numericAll
  deriving DecidableEq

/-- Why there is no result: `errexit` of the reader itself, or with what an `assign` has returned,
each with what it names; or what the code does not provide for. -/
inductive Stop (Error : Type)
  | exit (name : Text) (message : String)
  | refused (name : Text) (error : Error)
  | outOfBounds
  | unfinished
  deriving DecidableEq

/-- A long option that is found: its index, its name, its value, and the next argument. -/
structure Found where
  index : ℕ
  option : ShellOption
  name : Text
  value : Option Text
  argp : ℕ

/-- What the options have been told, and the numeric value. -/
structure State (World : Type) where
  world : World
  numericValue : ℤ
  deriving DecidableEq

/-- What is left behind: `_argv` and `_argc` beside it. -/
structure Parsed (World : Type) extends State World where
  argv : List Text
  argc : ℕ
  deriving DecidableEq

/-- `--name`. -/
def long (name : Text) : Text := 0x2d :: 0x2d :: name

/-- `-c`. -/
def short (char : UInt8) : Text := [0x2d, char]

section Reading

variable {World Error : Type}

/-- `argv[argp]`, which is the null pointer behind the last argument. -/
def argument (argv : List Text) (argp : ℕ) : Except (Stop Error) (Option Text) :=
  if argp ≤ argv.length then .ok argv[argp]? else .error .outOfBounds

/-- The loop over the options for a long one. -/
def longOption (argv : List Text) (argp : ℕ) (opt : Text) :
    List ShellOption → ℕ → Except (Stop Error) (Option Found)
  | [], _ => .ok none
  | op :: options, index =>
    match op.longOption with
    | none => longOption argv argp opt options (index + 1)
    | some name =>
      if name <+: opt then
        match opt.drop name.length with
        | [] =>
          if op.usesOption then do
            let value ← argument argv argp
            return some ⟨index, op, name, value, argp + 1⟩
          else return some ⟨index, op, name, none, argp⟩
        | next :: value =>
          if next = 0x3d then
            if op.usesOption then return some ⟨index, op, name, some value, argp⟩
            else throw (.exit (long name) (errmsg .invArgument))
          else longOption argv argp opt options (index + 1)
      else longOption argv argp opt options (index + 1)

/-- The loop over the options for a short one. -/
def shortOption (char : UInt8) : List ShellOption → ℕ → Option (ℕ × ShellOption)
  | [], _ => none
  | op :: options, index =>
    if op.shortOption = char then some (index, op) else shortOption char options (index + 1)

/-- The number that an argument is in the numeric modes. -/
def numeric (mode : NumericMode) (numericValue : ℤ) (opt : Text) :
    Except (Stop Error) (Option ℤ) :=
  match opt with
  | sign :: digit :: rest =>
    if isdigit digit ∧ (sign = 0x2d ∧ (mode = .numericDash ∨ mode = .numericAll) ∨
        sign = 0x2b ∧ (mode = .numericPlus ∨ mode = .numericAll)) then
      if numericValue ≠ 0 then throw (.exit opt (errmsg .numericSet))
      else return some (atol (if sign = 0x2b then digit :: rest else opt))
    else return none
  | _ => return none

variable (options : List ShellOption) (assign : ℕ → Option Text → World → Except Error World)

/-- `assign`, and `errexit` where it returns an error. -/
def assigned (name : Text) (index : ℕ) (value : Option Text) (world : World) :
    Except (Stop Error) World :=
  (assign index value world).mapError (.refused name)

/-- The loop over the characters of an argument. -/
def shortOptions (argv : List Text) (argp : ℕ) :
    Text → World → Except (Stop Error) (World × ℕ)
  | [], world => .ok (world, argp)
  | char :: rest, world =>
    match shortOption char options 0 with
    | none => .error (.exit (short char) (errmsg .badOption))
    | some (index, op) =>
      if op.triggerOption ∨ ¬ op.usesOption then do
        let world ← assigned assign (short char) index none world
        shortOptions argv argp rest world
      else if rest = [] then do
        match ← argument argv argp with
        | none => throw (.exit (short char) (errmsg .noArgument))
        | some value =>
          let world ← assigned assign (short char) index (some value) world
          return (world, argp + 1)
      else do
        let world ← assigned assign (short char) index (some rest) world
        return (world, argp)

/-- The text behind one dash or two. -/
def behindDashes (arg : Text) : Text :=
  let opt := arg.tail
  if opt.head? = some 0x2d then opt.tail else opt

/-- What is done with an argument that begins with a dash, where `argp` is behind it. -/
def option (argv : List Text) (argp : ℕ) (arg : Text) (world : World) :
    Except (Stop Error) (World × ℕ) := do
  match ← longOption argv argp (behindDashes arg) options 0 with
  | some found =>
    if found.option.usesOption ∧ found.value = none then
      throw (.exit (long found.name) (errmsg .noArgument))
    else do
      let world ← assigned assign (long found.name) found.index found.value world
      return (world, found.argp)
  | none =>
    if [0x2d, 0x2d] <+: arg then throw (.exit (arg.takeWhile (· ≠ 0x3d)) (errmsg .badOption))
    else shortOptions options assign argv argp arg.tail world

/-- The loop over the arguments. It ends before or behind the argument at which it ends. -/
def loop (mode : NumericMode) (argv : List Text) :
    ℕ → ℕ → State World → Except (Stop Error) (State World × ℕ)
  | 0, _, _ => .error .unfinished
  | fuel + 1, argp, state => do
    match ← argument argv argp with
    | none => return (state, argp)
    | some arg =>
      if arg = [0x2d, 0x2d] then return (state, argp + 1)
      else do
        match ← numeric mode state.numericValue arg with
        | some value => loop mode argv fuel (argp + 1) { state with numericValue := value }
        | none =>
          if arg.head? ≠ some 0x2d then return (state, argp)
          else do
            let (world, argp) ← option options assign argv (argp + 1) arg state.world
            loop mode argv fuel argp { state with world := world }

/-- `getargv`. Each turn of its loop is at another argument. -/
def getargv (mode : NumericMode) (argv : List Text) (state : State World) :
    Except (Stop Error) (Parsed World) := do
  let (state, argp) ← loop options assign mode argv (argv.length + 1) 0 state
  return ⟨state, argv.drop argp, (argv.drop argp).length⟩

end Reading

/-! ### The end -/

section Ends

variable {World Error α β : Type}

/-- There is a result with the property, or the program ends with an error. -/
def Ends (result : Except (Stop Error) α) (property : α → Prop) : Prop :=
  match result with
  | .ok value => property value
  | .error (.exit _ _) => True
  | .error (.refused _ _) => True
  | .error .outOfBounds => False
  | .error .unfinished => False

theorem Ends.bind {result : Except (Stop Error) α} {next : α → Except (Stop Error) β}
    {property : α → Prop} {property' : β → Prop} (ends : Ends result property)
    (later : ∀ value, property value → Ends (next value) property') :
    Ends (result >>= next) property' := by
  match result, ends with
  | .ok value, holds => exact later value holds
  | .error (.exit _ _), _ => trivial
  | .error (.refused _ _), _ => trivial

theorem ends_argument (argv : List Text) {argp : ℕ} (within : argp ≤ argv.length) :
    Ends (argument argv argp : Except (Stop Error) (Option Text)) fun value =>
      value = argv[argp]? ∧ (value ≠ none → argp < argv.length) := by
  rw [argument, if_pos within]
  refine ⟨rfl, fun some_ => ?_⟩
  by_contra behind
  exact some_ (List.getElem?_eq_none (not_lt.mp behind))

/-- The next argument is behind the null only where the value that is not there is used. -/
def Found.Within (found : Found) (argv : List Text) (argp : ℕ) : Prop :=
  found.option.usesOption ∧ found.value = none ∨
    argp ≤ found.argp ∧ found.argp ≤ argv.length

theorem ends_longOption (argv : List Text) {argp : ℕ} (within : argp ≤ argv.length) (opt : Text)
    (options : List ShellOption) (index : ℕ) :
    Ends (longOption argv argp opt options index : Except (Stop Error) (Option Found)) fun found =>
      ∀ found_ ∈ found, found_.Within argv argp := by
  induction options generalizing index with
  | nil => exact fun _ none_ => absurd none_ nofun
  | cons op options inductionHypothesis =>
    rw [longOption]
    split
    · exact inductionHypothesis _
    · split
      · split
        · split
          · rename_i uses
            refine (ends_argument argv within).bind fun value read => ?_
            rintro found ⟨⟩
            by_cases null : value = none
            · exact .inl ⟨uses, null⟩
            · exact .inr ⟨Nat.le_succ _, read.2 null⟩
          · rintro found ⟨⟩
            exact .inr ⟨le_rfl, within⟩
        · split
          · split
            · rintro found ⟨⟩
              exact .inr ⟨le_rfl, within⟩
            · trivial
          · exact inductionHypothesis _
      · exact inductionHypothesis _

variable (options : List ShellOption) (assign : ℕ → Option Text → World → Except Error World)

theorem ends_assigned (name : Text) (index : ℕ) (value : Option Text) (world : World) :
    Ends (assigned assign name index value world) fun _ => True := by
  rw [assigned]
  cases assign index value world with
  | error error => trivial
  | ok world => trivial

theorem ends_shortOptions (argv : List Text) {argp : ℕ} (within : argp ≤ argv.length)
    (text : Text) (world : World) :
    Ends (shortOptions options assign argv argp text world) fun result =>
      argp ≤ result.2 ∧ result.2 ≤ argv.length := by
  induction text generalizing world with
  | nil => exact ⟨le_rfl, within⟩
  | cons char rest inductionHypothesis =>
    rw [shortOptions]
    split
    · trivial
    · split
      · exact (ends_assigned _ _ _ _ _).bind fun world _ => inductionHypothesis world
      · split
        · refine (ends_argument argv within).bind fun value read => ?_
          cases value with
          | none => trivial
          | some value =>
            have inside := read.2 (Option.some_ne_none value)
            exact (ends_assigned _ _ _ _ _).bind fun world _ => ⟨Nat.le_succ _, inside⟩
        · exact (ends_assigned _ _ _ _ _).bind fun world _ => ⟨le_rfl, within⟩

theorem ends_option (argv : List Text) {argp : ℕ} (within : argp ≤ argv.length) (arg : Text)
    (world : World) :
    Ends (option options assign argv argp arg world) fun result =>
      argp ≤ result.2 ∧ result.2 ≤ argv.length := by
  refine (ends_longOption argv within _ _ _).bind fun found inside => ?_
  cases found with
  | none =>
    dsimp only
    split
    · trivial
    · exact ends_shortOptions options assign argv within _ world
  | some found =>
    dsimp only
    split
    · trivial
    · rename_i used
      have behind := (inside found rfl).resolve_left used
      exact (ends_assigned _ _ _ _ _).bind fun world _ => behind

theorem ends_numeric (mode : NumericMode) (numericValue : ℤ) (opt : Text) :
    Ends (numeric mode numericValue opt : Except (Stop Error) (Option ℤ)) fun _ => True := by
  unfold numeric
  split
  · split
    · split
      · trivial
      · trivial
    · trivial
  · trivial

/-- Each turn of the loop leaves an argument behind, and no turn goes past the null. -/
theorem ends_loop (mode : NumericMode) (argv : List Text) {fuel argp : ℕ}
    (within : argp ≤ argv.length) (enough : argv.length < argp + fuel) (state : State World) :
    Ends (loop options assign mode argv fuel argp state) fun result =>
      result.2 ≤ argv.length := by
  induction fuel generalizing argp state with
  | zero => omega
  | succ fuel inductionHypothesis =>
    rw [loop]
    refine (ends_argument argv within).bind fun arg read => ?_
    cases arg with
    | none => exact within
    | some arg =>
      have inside := read.2 (Option.some_ne_none arg)
      dsimp only
      split
      · exact inside
      · refine (ends_numeric _ _ _).bind fun value _ => ?_
        cases value with
        | some value => exact inductionHypothesis inside (by omega) _
        | none =>
          dsimp only
          split
          · exact within
          · refine (ends_option options assign argv inside arg _).bind fun result behind => ?_
            exact inductionHypothesis behind.2 (by omega) _

/-- With any arguments and options the reader returns, or it ends the program with an error; it
reads no argument behind the null. -/
theorem ends_getargv (mode : NumericMode) (argv : List Text) (state : State World) :
    Ends (getargv options assign mode argv state) fun parsed =>
      parsed.argv <:+ argv ∧ parsed.argc = parsed.argv.length := by
  refine (ends_loop options assign mode argv (Nat.zero_le _) (by omega) state).bind
    fun result _ => ?_
  exact ⟨List.drop_suffix _ _, rfl⟩

end Ends

end Shell

end CommonCpp
