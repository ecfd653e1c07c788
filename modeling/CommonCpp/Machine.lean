/-
This file gives the finite runs of a machine that takes one labelled step at a
time, and the two rules every development over such a machine uses.

A machine refuses a step by having no outcome for it. A run keeps every move it
made, so that a property can be asked of each state it passed through and a
condition of each step it took. The first rule is invariance: what the initial
states satisfy and every step preserves holds wherever a run leads. The second
is exactness: when a condition on the steps keeps the invariant, and a step
that breaks the condition breaks the property at once, then a run has the
property throughout exactly when each of its steps meets the condition.
-/

import Mathlib.Tactic.Common

namespace Concurrency

/-- A machine: the states it may start in, and the state a labelled step leads to. A step the
machine refuses has no outcome. -/
structure Machine (State Action : Type) where
  Init : State → Prop
  step : State → Action → Option State

/-- One step of a run, with the states around it. -/
structure Move (State Action : Type) where
  source : State
  action : Action
  target : State

namespace Machine

variable {State Action : Type} {machine : Machine State Action}

/-- The runs of a machine: the moves made, the latest first, and the state they lead to. -/
inductive Run (machine : Machine State Action) : List (Move State Action) → State → Prop
  | start {state : State} (initial : machine.Init state) : Run machine [] state
  | next {moves : List (Move State Action)} {source target : State}
      (run : Run machine moves source) (action : Action)
      (stepped : machine.step source action = some target) :
      Run machine (⟨source, action, target⟩ :: moves) target

/-- A state is reachable when some run leads to it. -/
def Reachable (machine : Machine State Action) (state : State) : Prop :=
  ∃ moves, machine.Run moves state

/-- The states of a run all satisfy the property. -/
def Throughout (property : State → Prop) (moves : List (Move State Action)) (state : State) :
    Prop :=
  property state ∧ ∀ move ∈ moves, property move.source

/-- The steps of a run all satisfy the condition, which reads the state before the step and
the step's label. -/
def Meets (condition : State → Action → Prop) (moves : List (Move State Action)) : Prop :=
  ∀ move ∈ moves, condition move.source move.action

instance (condition : State → Action → Prop) [∀ state action, Decidable (condition state action)]
    (moves : List (Move State Action)) : Decidable (Meets condition moves) :=
  inferInstanceAs (Decidable (∀ move ∈ moves, _))

theorem throughout_cons {property : State → Prop} {moves : List (Move State Action)}
    {source target : State} {action : Action} :
    Throughout property (⟨source, action, target⟩ :: moves) target ↔
      property target ∧ Throughout property moves source := by
  simp only [Throughout, List.forall_mem_cons]

theorem meets_cons {condition : State → Action → Prop} {moves : List (Move State Action)}
    {move : Move State Action} :
    Meets condition (move :: moves) ↔
      condition move.source move.action ∧ Meets condition moves := by
  simp only [Meets, List.forall_mem_cons]

/-! ### Invariance -/

/-- What the initial states satisfy, and every step that meets the condition preserves, holds
where a run of such steps leads. -/
theorem Run.invariant_of_meets {invariant : State → Prop} {condition : State → Action → Prop}
    (initial : ∀ state, machine.Init state → invariant state)
    (preserved : ∀ source action target, invariant source → condition source action →
      machine.step source action = some target → invariant target)
    {moves : List (Move State Action)} {state : State} (run : machine.Run moves state)
    (meets : Meets condition moves) : invariant state := by
  induction run with
  | start init => exact initial _ init
  | next run action stepped inductionHypothesis =>
    obtain ⟨last, earlier⟩ := meets_cons.mp meets
    exact preserved _ _ _ (inductionHypothesis earlier) last stepped

/-- What the initial states satisfy and every step preserves holds in every reachable state. -/
theorem Reachable.invariant {invariant : State → Prop}
    (initial : ∀ state, machine.Init state → invariant state)
    (preserved : ∀ source action target, invariant source →
      machine.step source action = some target → invariant target)
    {state : State} (reachable : machine.Reachable state) : invariant state := by
  obtain ⟨moves, run⟩ := reachable
  have unconditional : Meets (fun _ _ => True) moves := fun _ _ => trivial
  exact run.invariant_of_meets initial
    (fun source action target holds _ stepped => preserved source action target holds stepped)
    unconditional

/-! ### Playing a schedule -/

/-- The state a list of steps leads to. -/
def play (machine : Machine State Action) (state : State) : List Action → Option State
  | [] => some state
  | action :: rest => (machine.step state action).bind fun next => machine.play next rest

/-- A run goes on with any step the machine accepts. -/
theorem Run.take {moves : List (Move State Action)} {source : State}
    (run : machine.Run moves source) (action : Action)
    (accepted : (machine.step source action).isSome) :
    machine.Run (⟨source, action, (machine.step source action).get accepted⟩ :: moves)
      ((machine.step source action).get accepted) :=
  run.next action (Option.some_get accepted).symm

/-- A schedule played from the end of a run extends the run. -/
theorem Run.play {actions : List Action} {moves : List (Move State Action)}
    {source target : State} (run : machine.Run moves source)
    (played : machine.play source actions = some target) :
    ∃ moves', machine.Run moves' target := by
  induction actions generalizing moves source with
  | nil =>
    cases played
    exact ⟨moves, run⟩
  | cons action rest inductionHypothesis =>
    obtain ⟨next, stepped, continued⟩ := Option.bind_eq_some_iff.mp played
    exact inductionHypothesis (run.next action stepped) continued

/-- A schedule played from an initial state leads to a reachable state. -/
theorem reachable_of_play {actions : List Action} {source target : State}
    (initial : machine.Init source) (played : machine.play source actions = some target) :
    machine.Reachable target :=
  (Run.start initial).play played

theorem reachable_get {actions : List Action} {source : State} (initial : machine.Init source)
    (played : (machine.play source actions).isSome) :
    machine.Reachable ((machine.play source actions).get played) :=
  reachable_of_play initial (Option.some_get played).symm

/-- The machine that refuses the steps outside a condition. -/
def restrict (machine : Machine State Action) (condition : State → Action → Prop)
    [∀ state action, Decidable (condition state action)] : Machine State Action where
  Init := machine.Init
  step state action := if condition state action then machine.step state action else none

theorem restrict_step {condition : State → Action → Prop}
    [∀ state action, Decidable (condition state action)] {source target : State}
    {action : Action} (stepped : (machine.restrict condition).step source action = some target) :
    condition source action ∧ machine.step source action = some target := by
  simp only [restrict] at stepped
  split at stepped
  next met => exact ⟨met, stepped⟩
  next => cases stepped

/-- The runs of the restricted machine are runs whose steps all meet the condition. -/
theorem Run.of_restrict {condition : State → Action → Prop}
    [∀ state action, Decidable (condition state action)] {moves : List (Move State Action)}
    {state : State} (run : (machine.restrict condition).Run moves state) :
    machine.Run moves state ∧ Meets condition moves := by
  induction run with
  | start initial => exact ⟨.start initial, fun move member => by cases member⟩
  | next run action stepped inductionHypothesis =>
    obtain ⟨earlier, meets⟩ := inductionHypothesis
    obtain ⟨met, stepped⟩ := restrict_step stepped
    exact ⟨earlier.next action stepped, meets_cons.mpr ⟨met, meets⟩⟩

/-- A run whose steps all meet the condition is a run of the restricted machine. -/
theorem Run.restrict {condition : State → Action → Prop}
    [∀ state action, Decidable (condition state action)] {moves : List (Move State Action)}
    {state : State} (run : machine.Run moves state) (meets : Meets condition moves) :
    (machine.restrict condition).Run moves state := by
  induction run with
  | start initial => exact .start initial
  | next run action stepped inductionHypothesis =>
    obtain ⟨met, earlier⟩ := meets_cons.mp meets
    exact (inductionHypothesis earlier).next action ((if_pos met).trans stepped)

/-- A run that has a property in each of its states begins with it. -/
theorem Run.initial_of_throughout {property : State → Prop} {moves : List (Move State Action)}
    {state : State} (run : machine.Run moves state) (throughout : Throughout property moves state) :
    ∃ start, machine.Init start ∧ property start := by
  induction run with
  | start initial => exact ⟨_, initial, throughout.1⟩
  | next run action stepped inductionHypothesis =>
    exact inductionHypothesis (throughout_cons.mp throughout).2

/-- A schedule that leads from each state of a family to the next can be repeated any number of
times. -/
theorem reachable_of_repeated {family : Nat → State} {actions : List Action}
    (initial : machine.Reachable (family 0))
    (played : ∀ count, machine.play (family count) actions = some (family (count + 1)))
    (count : Nat) : machine.Reachable (family count) := by
  induction count with
  | zero => exact initial
  | succ count inductionHypothesis =>
    obtain ⟨moves, run⟩ := inductionHypothesis
    exact run.play (played count)

theorem play_one (state : State) (action : Action) :
    machine.play state [action] = machine.step state action :=
  Option.bind_fun_some _

/-! ### Exactness -/

section Exact

variable (invariant : State → Prop) {property : State → Prop}
  {condition : State → Action → Prop} {sound : Move State Action → Prop}

/-- A run has the property in each of its states, and each of its moves is sound, exactly when
each of its steps meets the condition: provided the condition keeps an invariant that gives
both, and a step outside the condition spoils one of them at once. -/
theorem Run.sound_throughout_iff_meets
    (initial : ∀ state, machine.Init state → invariant state)
    (preserved : ∀ source action target, invariant source → condition source action →
      machine.step source action = some target →
        invariant target ∧ sound ⟨source, action, target⟩)
    (sufficient : ∀ state, invariant state → property state)
    (spoiled : ∀ source action target, invariant source → ¬ condition source action →
      machine.step source action = some target →
        property target → ¬ sound ⟨source, action, target⟩)
    {moves : List (Move State Action)} {state : State} (run : machine.Run moves state) :
    (Throughout property moves state ∧ ∀ move ∈ moves, sound move) ↔ Meets condition moves := by
  constructor
  · rintro ⟨throughout, sounds⟩
    induction run with
    | start _ =>
      intro move member
      cases member
    | @next moves source target run action stepped inductionHypothesis =>
      obtain ⟨atTarget, before⟩ := throughout_cons.mp throughout
      obtain ⟨lastSound, earlierSound⟩ := List.forall_mem_cons.mp sounds
      have earlier : Meets condition moves := inductionHypothesis before earlierSound
      have atSource : invariant source := run.invariant_of_meets initial
        (fun _ _ _ holds met step => (preserved _ _ _ holds met step).1) earlier
      refine meets_cons.mpr ⟨?_, earlier⟩
      by_contra broken
      exact spoiled _ _ _ atSource broken stepped atTarget lastSound
  · intro meets
    induction run with
    | start init =>
      refine ⟨⟨sufficient _ (initial _ init), fun move member => ?_⟩, fun move member => ?_⟩ <;>
        cases member
    | @next moves source target run action stepped inductionHypothesis =>
      obtain ⟨last, earlier⟩ := meets_cons.mp meets
      have atSource : invariant source := run.invariant_of_meets initial
        (fun _ _ _ holds met step => (preserved _ _ _ holds met step).1) earlier
      obtain ⟨atTarget, lastSound⟩ := preserved _ _ _ atSource last stepped
      obtain ⟨before, earlierSound⟩ := inductionHypothesis earlier
      exact ⟨throughout_cons.mpr ⟨sufficient _ atTarget, before⟩,
        List.forall_mem_cons.mpr ⟨lastSound, earlierSound⟩⟩

/-- The exactness rule for a property of states alone. -/
theorem Run.throughout_iff_meets
    (initial : ∀ state, machine.Init state → invariant state)
    (preserved : ∀ source action target, invariant source → condition source action →
      machine.step source action = some target → invariant target)
    (sufficient : ∀ state, invariant state → property state)
    (spoiled : ∀ source action target, invariant source → ¬ condition source action →
      machine.step source action = some target → ¬ property target)
    {moves : List (Move State Action)} {state : State} (run : machine.Run moves state) :
    Throughout property moves state ↔ Meets condition moves := by
  have both : (Throughout property moves state ∧ ∀ move ∈ moves, (fun _ => True) move) ↔
      Meets condition moves :=
    run.sound_throughout_iff_meets invariant initial
      (fun _ _ _ holds met stepped => ⟨preserved _ _ _ holds met stepped, trivial⟩) sufficient
      fun _ _ _ holds broken stepped atTarget =>
        absurd atTarget (spoiled _ _ _ holds broken stepped)
  simpa only [implies_true, and_true] using both

end Exact

end Machine

end Concurrency
