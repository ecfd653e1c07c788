/-
This file gives readers that take one symbol of a text after the other.

A step has no outcome where the reader is not defined. It returns with a verdict, or goes on to
the next symbol. These rules are proved: a reader that is given its text in pieces, and does
something between them that does not show, reads it as it does in one piece; what each step
keeps, a whole text keeps; and a text is read when every step of it is defined.
-/

import Mathlib.Tactic.Common

namespace Scanner

variable {State Symbol Verdict : Type}

/-- Where a step leads, if it is defined: to a verdict when it returns, and to a state. -/
abbrev Outcome (State Verdict : Type) : Type := Option (Option Verdict × State)

/-- The step goes on to the next symbol. -/
def next (state : State) : Outcome State Verdict := some (none, state)

/-- The step returns. -/
def stop (verdict : Verdict) (state : State) : Outcome State Verdict := some (some verdict, state)

/-- What follows a step, unless it returns. -/
def andThen (outcome : Outcome State Verdict) (follow : State → Outcome State Verdict) :
    Outcome State Verdict :=
  match outcome with
  | none => none
  | some (some verdict, state) => stop verdict state
  | some (none, state) => follow state

/-- A text is read symbol by symbol. -/
def scan (step : State → Symbol → Outcome State Verdict) : State → List Symbol →
    Outcome State Verdict
  | state, [] => next state
  | state, symbol :: text => andThen (step state symbol) fun state => scan step state text

/-- A text is read piece by piece, and something is done before each. -/
def feed (enter : State → State) (step : State → Symbol → Outcome State Verdict) :
    State → List (List Symbol) → Outcome State Verdict :=
  scan fun state piece => scan step (enter state) piece

/-! ### Pieces -/

theorem andThen_assoc (outcome : Outcome State Verdict)
    (first second : State → Outcome State Verdict) :
    andThen (andThen outcome first) second =
      andThen outcome fun state => andThen (first state) second := by
  match outcome with
  | none => rfl
  | some (some verdict, state) => rfl
  | some (none, state) => rfl

theorem scan_append (step : State → Symbol → Outcome State Verdict) (state : State)
    (first second : List Symbol) :
    scan step state (first ++ second) =
      andThen (scan step state first) fun state => scan step state second := by
  induction first generalizing state with
  | nil => rfl
  | cons symbol first inductionHypothesis =>
    have later : (fun state => scan step state (first ++ second)) = fun state =>
        andThen (scan step state first) fun state => scan step state second :=
      funext inductionHypothesis
    rw [List.cons_append, scan, later, ← andThen_assoc]
    rfl

section View

variable {View : Type} {view : State → View}

/-- What shows of an outcome. -/
def shown (view : State → View) (outcome : Outcome State Verdict) : Outcome View Verdict :=
  outcome.map fun (returned, state) => (returned, view state)

theorem shown_andThen {outcome other : Outcome State Verdict}
    {follow follow' : State → Outcome State Verdict} (same : shown view outcome = shown view other)
    (follows : ∀ {state state'}, view state = view state' →
      shown view (follow state) = shown view (follow' state')) :
    shown view (andThen outcome follow) = shown view (andThen other follow') := by
  match outcome, other with
  | none, none => rfl
  | none, some _ => cases same
  | some _, none => cases same
  | some (returned, state), some (returned', state') =>
    obtain ⟨rfl, viewed⟩ := Prod.mk.inj (Option.some.inj same)
    cases returned with
    | none => exact follows viewed
    | some verdict => exact same

/-- States that look the same read a text the same, when they read each symbol the same. -/
theorem shown_scan {step : State → Symbol → Outcome State Verdict}
    (respects : ∀ {state state'} symbol, view state = view state' →
      shown view (step state symbol) = shown view (step state' symbol))
    {state state' : State} (same : view state = view state') (text : List Symbol) :
    shown view (scan step state text) = shown view (scan step state' text) := by
  induction text generalizing state state' with
  | nil => exact congrArg (fun seen => some (none, seen)) same
  | cons symbol text inductionHypothesis =>
    exact shown_andThen (respects symbol same) inductionHypothesis

/-- It does not show how a text was cut into pieces. -/
theorem shown_feed {step : State → Symbol → Outcome State Verdict}
    (respects : ∀ {state state'} symbol, view state = view state' →
      shown view (step state symbol) = shown view (step state' symbol))
    {enter : State → State} (entered : ∀ state, view (enter state) = view state) (state : State)
    (pieces : List (List Symbol)) :
    shown view (feed enter step state pieces) = shown view (scan step state pieces.flatten) := by
  induction pieces generalizing state with
  | nil => rfl
  | cons piece pieces inductionHypothesis =>
    rw [List.flatten_cons, scan_append]
    refine shown_andThen (shown_scan respects (entered state) piece) fun {state state'} same => ?_
    calc shown view (feed enter step state pieces)
        = shown view (scan step state pieces.flatten) := inductionHypothesis state
      _ = shown view (scan step state' pieces.flatten) := shown_scan respects same _

end View

/-! ### What is kept -/

/-- What holds of an empty text, of a symbol that is returned from, and of a text with one more
symbol before it holds of what is read. -/
theorem scan_induction {step : State → Symbol → Outcome State Verdict}
    (holds : State → Option Verdict → State → Prop) (empty : ∀ state, holds state none state)
    (returns : ∀ {state symbol verdict target}, step state symbol = some (some verdict, target) →
      holds state (some verdict) target)
    (goesOn : ∀ {state symbol middle returned target}, step state symbol = some (none, middle) →
      holds middle returned target → holds state returned target)
    {text : List Symbol} {state target : State} {returned : Option Verdict}
    (scanned : scan step state text = some (returned, target)) : holds state returned target := by
  induction text generalizing state with
  | nil =>
    cases scanned
    exact empty _
  | cons symbol text inductionHypothesis =>
    rw [scan] at scanned
    match stepped : step state symbol with
    | none =>
      rw [stepped] at scanned
      cases scanned
    | some (some verdict, middle) =>
      rw [stepped] at scanned
      cases scanned
      exact returns stepped
    | some (none, middle) =>
      rw [stepped] at scanned
      exact goesOn stepped (inductionHypothesis scanned)

/-- A relation of each state to the next relates the first to the last. -/
theorem scan_relates {step : State → Symbol → Outcome State Verdict}
    (related : State → State → Prop)
    (refl : ∀ state, related state state)
    (trans : ∀ {first second third}, related first second → related second third →
      related first third)
    (steps : ∀ {state symbol returned target}, step state symbol = some (returned, target) →
      related state target)
    {text : List Symbol} {state target : State} {returned : Option Verdict}
    (scanned : scan step state text = some (returned, target)) : related state target :=
  scan_induction (fun state _ target => related state target) refl steps
    (fun stepped => trans (steps stepped)) scanned

/-- A text is returned from as a symbol is. -/
theorem scan_returned {step : State → Symbol → Outcome State Verdict}
    {allowed : Option Verdict → Prop} (goesOn : allowed none)
    (steps : ∀ {state symbol returned target}, step state symbol = some (returned, target) →
      allowed returned)
    {text : List Symbol} {state target : State} {returned : Option Verdict}
    (scanned : scan step state text = some (returned, target)) : allowed returned :=
  scan_induction (fun _ returned _ => allowed returned) (fun _ => goesOn) steps
    (fun _ later => later) scanned

/-- A text is read to its end, or to where the reader returns, when no step of it is one of those
that are not defined. -/
theorem scan_isSome_iff {step : State → Symbol → Outcome State Verdict} {kept : State → Prop}
    {leaves : State → Symbol → Prop}
    (undefined : ∀ {state} symbol, kept state → (step state symbol = none ↔ leaves state symbol))
    (steps : ∀ {state symbol returned target}, kept state →
      step state symbol = some (returned, target) → kept target)
    {state : State} (start : kept state) (text : List Symbol) :
    (scan step state text).isSome ↔
      ∀ {before symbol after target}, text = before ++ symbol :: after →
        scan step state before = some (none, target) → ¬ leaves target symbol := by
  induction text generalizing state with
  | nil =>
    refine ⟨fun _ _ _ _ _ split => ?_, fun _ => rfl⟩
    exact absurd split.symm (List.append_ne_nil_of_right_ne_nil _ (List.cons_ne_nil _ _))
  | cons symbol text inductionHypothesis =>
    have here := undefined symbol start
    cases stepped : step state symbol with
    | none =>
      have lost : scan step state (symbol :: text) = none := by rw [scan, stepped]; rfl
      rw [lost]
      exact ⟨fun found => absurd found Bool.false_ne_true,
        fun all => absurd (here.mp stepped) (@all [] _ _ _ rfl rfl)⟩
    | some outcome =>
      obtain ⟨returned, middle⟩ := outcome
      have stays : ¬ leaves state symbol := fun leaves => by
        rw [here.mpr leaves] at stepped
        cases stepped
      have first : ∀ {text : List Symbol}, scan step state (symbol :: text) =
          andThen (some (returned, middle)) fun state => scan step state text := by
        intro text
        rw [scan, stepped]
      rw [first]
      cases returned with
      | some verdict =>
        refine ⟨fun _ before symbol' after target split reached => ?_, fun _ => rfl⟩
        cases before with
        | nil =>
          obtain ⟨rfl, -⟩ := List.cons.inj split
          cases reached
          exact stays
        | cons char before =>
          obtain ⟨rfl, -⟩ := List.cons.inj split
          rw [first] at reached
          cases reached
      | none =>
        show (scan step middle text).isSome ↔ _
        rw [inductionHypothesis (steps start stepped)]
        refine ⟨fun all before symbol' after target split reached => ?_,
          fun all before symbol' after target split reached => ?_⟩
        · cases before with
          | nil =>
            obtain ⟨rfl, -⟩ := List.cons.inj split
            cases reached
            exact stays
          | cons char before =>
            obtain ⟨rfl, rest⟩ := List.cons.inj split
            rw [first] at reached
            exact all rest reached
        · have further : scan step state (symbol :: before) = some (none, target) := by
            rw [first]
            exact reached
          exact @all (symbol :: before) _ _ _ (by rw [split, List.cons_append]) further

end Scanner
