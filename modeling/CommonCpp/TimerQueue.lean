/-
This file models `TimerQueue` and its events, and shows what comes of an event that is armed.

An event is a timer that can be on the list of a queue. The queue's `expire` goes along the list,
lets each event that is due expire, and returns how long there is to wait for the next. What an
event does when it expires is its own code, which may arm it again or take it off the list that
`expire` goes along; here it is any function from a state to the calls that are made in it. These
are calls on any events that were constructed before; the code of an event neither constructs
another one nor calls `expire` again.

`Timer::get` drops what is not a whole millisecond from the difference of the parts of a second, so
it is a millisecond off at most. So an event is due a millisecond too early at most, and it is due
once for each time it was armed.

Each reading of the clock is counted, and the clock may be any that does not go back. What happens
to the events is kept in a trace, the latest first.
-/

import CommonCpp.DLinkedObject
import CommonCpp.Timer

namespace CommonCpp

open Concurrency Memory

namespace Timer

/-! ### What is left of a timer -/

/-- `Timer::inf`. -/
def inf : ℕ := 2 ^ 64 - 1

def clear : Timer := ⟨⟨0, 0⟩, false⟩

variable {build : Build}

/-- `get` at a reading of the clock. The difference is kept in a `timeout_t`. -/
def get (current : Reading build) (t : Timer) : ℕ :=
  let current := adj build current.time
  if current.sec > t.timer.sec then 0
  else if current.sec = t.timer.sec ∧ current.part > t.timer.part then 0
  else
    (((t.timer.sec - current.sec) * 1000 +
      (t.timer.part - current.part).tdiv build.millisecond) % 2 ^ 64).toNat

theorem adj_of_normalised {time : Time} (normal : Normalised build time) :
    adj build time = time := by
  obtain ⟨same, normal'⟩ : _ ∧ Normalised build (adj build time) := adj_carry normal.1
  exact (normal'.deadline_injective normal).mp same

/-- Normalised times are compared by their seconds, and by their parts of a second after that. -/
theorem deadline_lt_iff {first second : Time} (normal : Normalised build first)
    (normal' : Normalised build second) :
    deadline build first < deadline build second ↔
      first.sec < second.sec ∨ first.sec = second.sec ∧ first.part < second.part := by
  obtain ⟨firstNonneg, firstBelow⟩ := normal
  obtain ⟨secondNonneg, secondBelow⟩ := normal'
  rw [deadline, deadline]
  constructor
  · intro before
    by_contra neither
    obtain ⟨notLess, notSame⟩ := not_or.mp neither
    rcases (not_lt.mp notLess).eq_or_lt with same | more
    · exact notSame ⟨same.symm, by rw [same] at before; linarith⟩
    · nlinarith
  · rintro (less | ⟨same, less⟩)
    · nlinarith
    · rw [same]
      linarith

/-- What is left of a timer is less than a millisecond off. -/
theorem get_near (current : Reading build) {t : Timer} (normal : Normalised build t.timer)
    (ahead : deadline build current.time ≤ deadline build t.timer)
    (within : deadline build t.timer - deadline build current.time ≤ units build inf) :
    units build (get current t) - build.millisecond <
        deadline build t.timer - deadline build current.time ∧
      deadline build t.timer - deadline build current.time <
        units build (get current t) + build.millisecond := by
  have positive := millisecond_pos build
  have past := mt (deadline_lt_iff normal current.normalised).mpr ahead.not_gt
  obtain ⟨sameSec, samePart⟩ := not_or.mp past
  let seconds := t.timer.sec - current.time.sec
  let parts := t.timer.part - current.time.part
  have value : get current t =
      ((seconds * 1000 + parts.tdiv build.millisecond) % 2 ^ 64).toNat := by
    simp only [get, adj_of_normalised current.normalised]
    rw [if_neg sameSec, if_neg fun late => samePart ⟨late.1.symm, late.2⟩]
  have split := Int.mul_tdiv_add_tmod parts build.millisecond
  have above := Int.lt_tmod_of_pos parts positive
  have below := Int.tmod_lt_of_pos parts positive
  have whole : deadline build t.timer - deadline build current.time =
      (seconds * 1000 + parts.tdiv build.millisecond) * build.millisecond +
        parts.tmod build.millisecond := by
    rw [deadline, deadline, second_eq]
    linear_combination -split
  generalize seconds * 1000 + parts.tdiv build.millisecond = left at value whole
  have nonneg : 0 ≤ left := by
    by_contra negative
    nlinarith
  have small : left < 2 ^ 64 := by
    by_contra big
    have most : (inf : ℤ) = 2 ^ 64 - 1 := by decide
    rw [units, most] at within
    nlinarith
  have exactly : units build (get current t) = left * build.millisecond := by
    rw [units, value, Int.emod_eq_of_lt nonneg small, Int.toNat_of_nonneg nonneg]
  rw [exactly, whole]
  constructor <;> linarith

end Timer

namespace TimerQueue

/-! ### The code -/

/-- What happens in a run: the calls of a queue's `modify` and `update`, what an event's timer is
set to and by which reading of the clock, when it is cleared, and when the event expires. -/
inductive Entry (Event Queue : Type)
  | modify (tq : Queue)
  | update (tq : Queue)
  | armed (event : Event) (now : ℕ) (timeout : UInt64)
  | cleared (event : Event)
  | expired (event : Event) (now : ℕ)
  deriving DecidableEq

structure State (Event Queue : Type) where
  links : DLinkedObject.State Event Queue
  timers : Event → Timer
  /-- How often the clock was read. -/
  ticks : ℕ
  trace : List (Entry Event Queue)

/-- The calls that code outside makes on an event, and an event's own code when it expires. -/
inductive Call (Event Queue : Type)
  | attach (event : Event) (tq : Option Queue)
  | detach (event : Event)
  | arm (event : Event) (timeout : UInt64)
  | disarm (event : Event)
  | update (event : Event)

inductive Action (Event Queue : Type)
  | call (call : Call Event Queue)
  /-- A constructor, which puts the event on a queue if it is given one. -/
  | construct (event : Event) (tq : Option Queue) (timeout : UInt64)
  /-- `expire`, which goes on for as many turns as the fuel allows. -/
  | expire (tq : Queue) (fuel : ℕ)

section Code

variable {Event Queue : Type} [DecidableEq Event] [DecidableEq Queue] {build : Timer.Build}
  (clock : ℕ → Timer.Reading build)
  (expired : Event → State Event Queue → List (Call Event Queue))

omit [DecidableEq Event] [DecidableEq Queue] in
/-- The state with one more entry in its trace. -/
def note (state : State Event Queue) (entry : Entry Event Queue) : State Event Queue :=
  { state with trace := entry :: state.trace }

omit [DecidableEq Event] [DecidableEq Queue] in
/-- What is done between `modify` and `update` of a queue, or on its own without one. -/
def guarded (tq : Option Queue) (change : State Event Queue → State Event Queue)
    (state : State Event Queue) : State Event Queue :=
  match tq with
  | none => change state
  | some tq => note (change (note state (.modify tq))) (.update tq)

/-- `Timer::set` of a timeout. A clock that reads zero is read again by `operator+=`. -/
def set (state : State Event Queue) (event : Event) (timeout : UInt64) : State Event Queue :=
  let t := Timer.set build (clock state.ticks)
  let now := if t.isActive then state.ticks else state.ticks + 1
  { state with
    timers := Function.update state.timers event (Timer.add build (clock now) t timeout.toNat)
    ticks := now + 1
    trace := .armed event now timeout :: state.trace }

omit [DecidableEq Queue] in
def clear (state : State Event Queue) (event : Event) : State Event Queue :=
  { state with
    timers := Function.update state.timers event Timer.clear
    trace := .cleared event :: state.trace }

omit [DecidableEq Queue] in
/-- `Timer::update`, without its value. -/
def look (state : State Event Queue) (event : Event) : State Event Queue :=
  { state with
    timers := Function.update state.timers event { state.timers event with updated := false } }

def detach (state : State Event Queue) (event : Event) : State Event Queue :=
  match state.links.root event with
  | none => state
  | some tq =>
    guarded (some tq) (fun state =>
      let state := clear state event
      { state with links := DLinkedObject.delist state.links event }) state

def attach (state : State Event Queue) (event : Event) (tq : Option Queue) : State Event Queue :=
  if tq = state.links.root event then state
  else
    let state := detach state event
    match tq with
    | none => state
    | some tq =>
      guarded (some tq) (fun state =>
        look { state with links := DLinkedObject.enlistTail state.links event tq } event) state

def arm (state : State Event Queue) (event : Event) (timeout : UInt64) : State Event Queue :=
  guarded (state.links.root event) (fun state => set clock state event timeout) state

omit [DecidableEq Queue] in
def disarm (state : State Event Queue) (event : Event) : State Event Queue :=
  guarded (if (state.timers event).isActive then state.links.root event else none)
    (fun state => clear state event) state

omit [DecidableEq Queue] in
/-- `event::update`. -/
def update (state : State Event Queue) (event : Event) : State Event Queue :=
  let flag := (state.timers event).updated
  let state := look state event
  if flag ∧ state.links.root event ≠ none then guarded (state.links.root event) id state else state

def Call.run (state : State Event Queue) : Call Event Queue → State Event Queue
  | .attach event tq => TimerQueue.attach state event tq
  | .detach event => TimerQueue.detach state event
  | .arm event timeout => TimerQueue.arm clock state event timeout
  | .disarm event => TimerQueue.disarm state event
  | .update event => TimerQueue.update state event

omit [DecidableEq Event] [DecidableEq Queue] in
/-- `Timer::get` of an event, and the state after the clock was read. -/
def get (state : State Event Queue) (event : Event) : State Event Queue × ℕ :=
  ({ state with ticks := state.ticks + 1 },
    Timer.get (clock state.ticks) (state.timers event))

/-- `event::timeout`. -/
def timeout (state : State Event Queue) (event : Event) : State Event Queue × ℕ :=
  let now := state.ticks
  let (state, left) := get clock state event
  if (state.timers event).isActive ∧ left = 0 then
    let state := note (disarm state event) (.expired event now)
    let state := (expired event state).foldl (Call.run clock) state
    let (state, left) := get clock state event
    (look state event, left)
  else (state, left)

/-- `if(next && next < first) first = next`. -/
def earlier (first next : ℕ) : ℕ := if next ≠ 0 ∧ next < first then next else first

/-- `while(timer)`. The timer goes on along the list before the event's timeout is asked. -/
def expireLoop : ℕ → State Event Queue → Option Event → ℕ → Option (State Event Queue × ℕ)
  | _, state, none, first => some (state, first)
  | 0, _, some _, _ => none
  | turns + 1, state, some tp, first =>
    let timer := state.links.next tp
    let (state, next) := timeout clock expired state tp
    expireLoop turns state timer (earlier first next)

def expire (state : State Event Queue) (tq : Queue) (fuel : ℕ) :
    Option (State Event Queue × ℕ) :=
  expireLoop clock expired fuel state (state.links.head tq) Timer.inf

/-- The links of an object that was just constructed. -/
def fresh (links : DLinkedObject.State Event Queue) (event : Event) :
    DLinkedObject.State Event Queue :=
  { links with
    root := Function.update links.root event none
    next := Function.update links.next event none
    prev := Function.update links.prev event none }

/-- The constructors: `set` and, for a queue, `Timer::update` and `attach`. -/
def construct (state : State Event Queue) (event : Event) (tq : Option Queue)
    (timeout : UInt64) : State Event Queue :=
  let state := clear { state with links := fresh state.links event } event
  let state := set clock state event timeout
  match tq with
  | none => state
  | some tq => attach (look state event) event (some tq)

/-- The step of an action. An event is constructed where it is on no queue. -/
def step (state : State Event Queue) : Action Event Queue → Option (State Event Queue)
  | .call call => some (call.run clock state)
  | .construct event tq timeout =>
    if state.links.root event = none then some (construct clock state event tq timeout) else none
  | .expire tq fuel => (expire clock expired state tq fuel).map Prod.fst

/-- The runs of any events and any queues, from their constructors on. -/
def machine : Machine (State Event Queue) (Action Event Queue) where
  Init state := state = ⟨.unlinked, fun _ => Timer.clear, 0, []⟩
  step := step clock expired

end Code

section Runs

variable {Event Queue : Type} [DecidableEq Event] {build : Timer.Build}
  {clock : ℕ → Timer.Reading build} {state target : State Event Queue}

omit [DecidableEq Event] in
@[simp] theorem timers_note (state : State Event Queue) (entry : Entry Event Queue) :
    (note state entry).timers = state.timers := rfl

omit [DecidableEq Event] in
@[simp] theorem trace_note (state : State Event Queue) (entry : Entry Event Queue) :
    (note state entry).trace = entry :: state.trace := rfl

@[simp] theorem timers_clear (state : State Event Queue) (event : Event) :
    (clear state event).timers = Function.update state.timers event Timer.clear := rfl

@[simp] theorem trace_clear (state : State Event Queue) (event : Event) :
    (clear state event).trace = .cleared event :: state.trace := rfl

@[simp] theorem timers_look (state : State Event Queue) (event : Event) :
    (look state event).timers =
      Function.update state.timers event { state.timers event with updated := false } := rfl

theorem timers_disarm (state : State Event Queue) (event : Event) :
    (disarm state event).timers = Function.update state.timers event Timer.clear := by
  unfold disarm guarded
  split <;> rfl

/-- Which reading of the clock a timer is set by. -/
def reading (clock : ℕ → Timer.Reading build) (ticks : ℕ) : ℕ :=
  if (Timer.set build (clock ticks)).isActive then ticks else ticks + 1

theorem le_reading (clock : ℕ → Timer.Reading build) (ticks : ℕ) :
    ticks ≤ reading clock ticks := by
  unfold reading
  split
  · exact le_rfl
  · exact Nat.le_succ ticks

theorem set_eq (state : State Event Queue) (event : Event) (timeout : UInt64) :
    set clock state event timeout =
      { state with
        timers := Function.update state.timers event (Timer.add build
          (clock (reading clock state.ticks)) (Timer.set build (clock state.ticks)) timeout.toNat)
        ticks := reading clock state.ticks + 1
        trace := .armed event (reading clock state.ticks) timeout :: state.trace } := rfl

section Fired

variable [DecidableEq Queue] (clock)
  (expired : Event → State Event Queue → List (Call Event Queue))

/-- The state when an event is about to expire. -/
def expiring (state : State Event Queue) (event : Event) : State Event Queue :=
  note (disarm (get clock state event).1 event) (.expired event state.ticks)

/-- The state after an event has expired. -/
def fired (state : State Event Queue) (event : Event) : State Event Queue :=
  (expired event (expiring clock state event)).foldl (Call.run clock) (expiring clock state event)

theorem timeout_eq (state : State Event Queue) (event : Event) :
    timeout clock expired state event =
      if (state.timers event).isActive ∧ Timer.get (clock state.ticks) (state.timers event) = 0 then
        (look (get clock (fired clock expired state event) event).1 event,
          (get clock (fired clock expired state event) event).2)
      else get clock state event := rfl

/-- What the timeout of every event keeps, `expire` keeps. -/
theorem expireLoop_keeps {property : State Event Queue → Prop}
    (keeps : ∀ state event, property state → property (timeout clock expired state event).1)
    {turns : ℕ} {timer : Option Event} {first last : ℕ} (holds : property state)
    (ends : expireLoop clock expired turns state timer first = some (target, last)) :
    property target := by
  induction turns generalizing state timer first with
  | zero =>
    cases timer with
    | none =>
      cases ends
      exact holds
    | some _ => cases ends
  | succ turns inductionHypothesis =>
    cases timer with
    | none =>
      cases ends
      exact holds
    | some tp => exact inductionHypothesis (keeps state tp holds) ends

end Fired

/-! ### What happened to an event -/

/-- The event whose timer the entry is about. -/
def Entry.event : Entry Event Queue → Option Event
  | .modify _ => none
  | .update _ => none
  | .armed event _ _ => some event
  | .cleared event => some event
  | .expired event _ => some event

/-- What happened to an event, the latest first. -/
def history (event : Event) (trace : List (Entry Event Queue)) : List (Entry Event Queue) :=
  trace.filter fun entry => entry.event = some event

theorem history_cons (event : Event) (entry : Entry Event Queue)
    (trace : List (Entry Event Queue)) :
    history event (entry :: trace) =
      if entry.event = some event then entry :: history event trace else history event trace := by
  simp only [history, List.filter_cons, decide_eq_true_eq]

/-- The clock does not go back. -/
def Forward (clock : ℕ → Timer.Reading build) : Prop :=
  ∀ ⦃sooner later⦄, sooner ≤ later →
    Timer.deadline build (clock sooner).time ≤ Timer.deadline build (clock later).time

variable (clock) in
/-- An event that expires has been cleared, and it had been armed by an earlier reading of the clock
for a deadline that is less than a millisecond ahead. -/
def Due (event : Event) (now : ℕ) (before : List (Entry Event Queue)) : Prop :=
  ∃ set timeout older, before = .cleared event :: .armed event set timeout :: older ∧ set < now ∧
    Timer.deadline build (clock set).time + Timer.units build timeout.toNat <
      Timer.deadline build (clock now).time + build.millisecond

variable (clock) in
/-- The event was due whenever it expired. -/
def Sound (event : Event) (history : List (Entry Event Queue)) : Prop :=
  ∀ later now before, history = later ++ .expired event now :: before → Due clock event now before

omit [DecidableEq Event] in
theorem Sound.cons {event : Event} {history : List (Entry Event Queue)}
    (sound : Sound clock event history) {entry : Entry Event Queue}
    (due : ∀ now, entry = .expired event now → Due clock event now history) :
    Sound clock event (entry :: history) := by
  intro later now before split
  cases later with
  | nil =>
    obtain ⟨same, rest⟩ := List.cons.inj split
    subst rest
    exact due now same
  | cons _ later =>
    exact sound later now before (List.cons.inj split).2

variable (clock) in
/-- The timer of the event runs as it was last armed. -/
def Running (state : State Event Queue) (event : Event) : Prop :=
  ∃ set timeout older, history event state.trace = .armed event set timeout :: older ∧
    set < state.ticks ∧ Timer.Normalised build (state.timers event).timer ∧
    Timer.deadline build (state.timers event).timer =
      Timer.deadline build (clock set).time + Timer.units build timeout.toNat

theorem Running.of_same {event : Event} (running : Running clock state event)
    (timer : (target.timers event).timer = (state.timers event).timer)
    (histories : history event target.trace = history event state.trace)
    (ticks : state.ticks ≤ target.ticks) : Running clock target event := by
  obtain ⟨set, timeout, older, last, before, rest⟩ := running
  rw [Running, timer, histories]
  exact ⟨set, timeout, older, last, before.trans_le ticks, rest⟩

variable (clock) in
/-- Active timers run as they were last armed, and the events that expired were due. -/
structure Kept (state : State Event Queue) : Prop where
  running : ∀ event, (state.timers event).isActive = true → Running clock state event
  sound : ∀ event, Sound clock event (history event state.trace)

namespace Kept

/-- Nothing was done that is about the timers. -/
theorem of_same (kept : Kept clock state)
    (timers : ∀ event, (target.timers event).timer = (state.timers event).timer)
    (histories : ∀ event, history event target.trace = history event state.trace)
    (ticks : state.ticks ≤ target.ticks) : Kept clock target := by
  refine ⟨fun event active => ?_, fun event => ?_⟩
  · rw [Timer.isActive_iff, timers event, ← Timer.isActive_iff] at active
    exact (kept.running event active).of_same (timers event) (histories event) ticks
  · rw [histories event]
    exact kept.sound event

/-- Something was done to the timer of one event, and it was due if it expired. -/
theorem of_entry (kept : Kept clock state) {event : Event} {entry : Entry Event Queue}
    (about : entry.event = some event) (trace : target.trace = entry :: state.trace)
    (timers : ∀ other ≠ event, target.timers other = state.timers other)
    (ticks : state.ticks ≤ target.ticks)
    (running : (target.timers event).isActive = true → Running clock target event)
    (due : ∀ now, entry = .expired event now →
      Due clock event now (history event state.trace)) : Kept clock target := by
  have others : ∀ other ≠ event, history other target.trace = history other state.trace := by
    intro other apart
    rw [trace, history_cons, about, if_neg fun same => apart (Option.some.inj same).symm]
  refine ⟨fun other active => ?_, fun other => ?_⟩
  · by_cases same : other = event
    · subst same
      exact running active
    · rw [timers other same] at active
      exact (kept.running other active).of_same (congrArg Timer.timer (timers other same))
        (others other same) ticks
  · by_cases same : other = event
    · subst same
      rw [trace, history_cons, if_pos about]
      exact (kept.sound other).cons due
    · rw [others other same]
      exact kept.sound other

theorem note (kept : Kept clock state) {entry : Entry Event Queue} (other : entry.event = none) :
    Kept clock (note state entry) := by
  refine kept.of_same (fun _ => rfl) (fun event => ?_) le_rfl
  rw [TimerQueue.note, history_cons, other, if_neg (by simp)]

theorem guarded (kept : Kept clock state) {tq : Option Queue}
    {change : State Event Queue → State Event Queue}
    (changed : ∀ state, Kept clock state → Kept clock (change state)) :
    Kept clock (guarded tq change state) := by
  cases tq with
  | none => exact changed state kept
  | some tq => exact (changed _ (kept.note rfl)).note rfl

theorem look (kept : Kept clock state) (event : Event) : Kept clock (look state event) := by
  refine kept.of_same (fun other => ?_) (fun _ => rfl) le_rfl
  by_cases same : other = event
  · rw [same, timers_look, Function.update_self]
  · rw [timers_look, Function.update_of_ne same]

theorem relinked (kept : Kept clock state) (links : DLinkedObject.State Event Queue) :
    Kept clock { state with links } :=
  kept.of_same (fun _ => rfl) (fun _ => rfl) le_rfl

theorem clear (kept : Kept clock state) (event : Event) : Kept clock (clear state event) := by
  refine kept.of_entry rfl (trace_clear state event) (fun other apart => ?_) le_rfl
    (fun active => ?_) fun _ clears => nomatch clears
  · rw [timers_clear, Function.update_of_ne apart]
  · rw [timers_clear, Function.update_self] at active
    cases active

/-- A timer that was set runs from the reading it was set by. -/
theorem set (kept : Kept clock state) (event : Event) (timeout : UInt64) :
    Kept clock (set clock state event timeout) := by
  have normal := (clock state.ticks).normalised
  have later := le_reading clock state.ticks
  rw [set_eq]
  refine kept.of_entry rfl rfl (fun other apart => Function.update_of_ne apart _ _)
    (later.trans (Nat.le_succ _)) (fun _ => ?_) fun _ arms => nomatch arms
  let t := Timer.set build (clock state.ticks)
  obtain ⟨moved, normal'⟩ :=
    Timer.add_spec (t := t) (clock (reading clock state.ticks)) normal timeout.toNat
  refine ⟨reading clock state.ticks, timeout, history event state.trace, ?_, Nat.lt_succ_self _,
    ?_, ?_⟩
  · exact (history_cons _ _ _).trans (if_pos rfl)
  · simpa only [Function.update_self] using normal'
  · simp only [Function.update_self]
    rw [moved, add_left_inj, Timer.started, reading]
    split <;> rfl

section Calls

variable [DecidableEq Queue]

theorem detach (kept : Kept clock state) (event : Event) : Kept clock (detach state event) := by
  unfold TimerQueue.detach
  split
  · exact kept
  · exact kept.guarded fun state kept => (kept.clear event).relinked _

theorem attach (kept : Kept clock state) (event : Event) (tq : Option Queue) :
    Kept clock (attach state event tq) := by
  unfold TimerQueue.attach
  split
  · exact kept
  · split
    · exact kept.detach event
    · exact (kept.detach event).guarded fun state kept => (kept.relinked _).look event

theorem run (kept : Kept clock state) (call : Call Event Queue) :
    Kept clock (call.run clock state) := by
  cases call with
  | attach event tq => exact kept.attach event tq
  | detach event => exact kept.detach event
  | arm event timeout => exact kept.guarded fun state kept => kept.set event timeout
  | disarm event => exact kept.guarded fun state kept => kept.clear event
  | update event =>
    show Kept clock (if _ ∧ _ then _ else _)
    split
    · exact (kept.look event).guarded fun state kept => kept
    · exact kept.look event

theorem foldl (kept : Kept clock state) (calls : List (Call Event Queue)) :
    Kept clock (calls.foldl (Call.run clock) state) := by
  induction calls generalizing state with
  | nil => exact kept
  | cons call rest inductionHypothesis => exact inductionHypothesis (kept.run call)

omit [DecidableEq Queue] in
theorem get (kept : Kept clock state) (event : Event) : Kept clock (get clock state event).1 :=
  kept.of_same (fun _ => rfl) (fun _ => rfl) (Nat.le_succ _)

omit [DecidableEq Queue] in
/-- An active event of which nothing is left is less than a millisecond from its deadline. -/
theorem due (kept : Kept clock state)
    (forward : Forward clock) {event : Event}
    (active : (state.timers event).isActive = true)
    (spent : Timer.get (clock state.ticks) (state.timers event) = 0) :
    Due clock event state.ticks (.cleared event :: history event state.trace) := by
  obtain ⟨set, timeout, older, last, before, normal, deadline⟩ := kept.running event active
  have positive := Timer.millisecond_pos build
  have goesOn : Timer.deadline build (clock set).time ≤
      Timer.deadline build (clock state.ticks).time := forward before.le
  refine ⟨set, timeout, older, by rw [last], before, ?_⟩
  rw [← deadline]
  rcases le_or_gt (Timer.deadline build (clock state.ticks).time)
    (Timer.deadline build (state.timers event).timer) with ahead | past
  · have most : Timer.units build timeout.toNat ≤ Timer.units build Timer.inf := by
      have small : timeout.toNat ≤ Timer.inf := Nat.le_pred_of_lt timeout.toNat_lt
      exact Int.mul_le_mul_of_nonneg_right (by exact_mod_cast small) positive.le
    have near := (Timer.get_near (clock state.ticks) normal ahead (by linarith)).2
    rw [spent, Timer.units, Nat.cast_zero, zero_mul] at near
    linarith
  · linarith

omit [DecidableEq Queue] in
theorem history_disarm (state : State Event Queue) (event : Event) :
    history event (disarm state event).trace = .cleared event :: history event state.trace := by
  have cleared : ∀ state : State Event Queue,
      history event (TimerQueue.clear state event).trace =
        .cleared event :: history event state.trace :=
    fun state => (history_cons _ _ _).trans (if_pos rfl)
  unfold disarm TimerQueue.guarded
  split
  · exact cleared state
  · simp only [trace_note, history_cons, Entry.event, reduceCtorEq, if_false, cleared]

variable (expired : Event → State Event Queue → List (Call Event Queue))

/-- An event that expires has been cleared before its own code is called. -/
theorem fired (kept : Kept clock state)
    (forward : Forward clock) {event : Event}
    (active : (state.timers event).isActive = true)
    (spent : Timer.get (clock state.ticks) (state.timers event) = 0) :
    Kept clock (fired clock expired state event) := by
  have disarmed : Kept clock (disarm (TimerQueue.get clock state event).1 event) :=
    (kept.get event).guarded fun state kept => kept.clear event
  suffices about : Kept clock (expiring clock state event) from about.foldl _
  refine disarmed.of_entry rfl rfl (fun _ _ => rfl) le_rfl (fun active => ?_) fun now expires => ?_
  · rw [expiring, timers_note, timers_disarm, Function.update_self] at active
    cases active
  · obtain rfl : state.ticks = now := (Entry.expired.inj expires).2
    rw [history_disarm]
    exact kept.due forward active spent

theorem timeout (kept : Kept clock state)
    (forward : Forward clock) (event : Event) :
    Kept clock (timeout clock expired state event).1 := by
  rw [timeout_eq]
  split
  next met => exact ((kept.fired expired forward met.1 met.2).get event).look event
  next => exact kept.get event

theorem construct (kept : Kept clock state) (event : Event) (tq : Option Queue)
    (timeout : UInt64) : Kept clock (construct clock state event tq timeout) := by
  have set : Kept clock (TimerQueue.set clock (TimerQueue.clear
      { state with links := fresh state.links event } event) event timeout) :=
    ((kept.relinked _).clear event).set event timeout
  cases tq with
  | none => exact set
  | some tq => exact (set.look event).attach event (some tq)

theorem step (forward : Forward clock)
    (kept : Kept clock state) {action : Action Event Queue}
    (stepped : step clock expired state action = some target) : Kept clock target := by
  cases action with
  | call call =>
    cases stepped
    exact kept.run call
  | construct event tq timeout =>
    simp only [TimerQueue.step] at stepped
    split at stepped
    · cases stepped
      exact kept.construct event tq timeout
    · cases stepped
  | expire tq fuel =>
    obtain ⟨⟨_, last⟩, ends, rfl⟩ := Option.map_eq_some_iff.mp stepped
    exact expireLoop_keeps clock expired
      (fun _ event kept => kept.timeout expired forward event) kept ends

end Calls

end Kept

variable [DecidableEq Queue] {expired : Event → State Event Queue → List (Call Event Queue)}

theorem kept_of_reachable (forward : Forward clock)
    (reachable : (machine clock expired).Reachable state) : Kept clock state := by
  refine reachable.invariant ?_ fun source action target kept stepped =>
    kept.step expired forward stepped
  rintro state rfl
  refine ⟨fun _ active => (nomatch active), fun _ later now before split => ?_⟩
  exact absurd split (List.append_ne_nil_of_right_ne_nil later (List.cons_ne_nil _ _)).symm

/-- In any run, with any code for the events that expire, an event that expires had been armed, and
nothing was done to its timer after that until it was cleared to expire; and the deadline it had
been armed for was less than a millisecond ahead. -/
theorem due_of_expired (forward : Forward clock)
    (reachable : (machine clock expired).Reachable state) {event : Event} {now : ℕ}
    {later before : List (Entry Event Queue)}
    (expires : history event state.trace = later ++ .expired event now :: before) :
    Due clock event now before :=
  (kept_of_reachable forward reachable).sound event later now before expires

end Runs

/-- A clock that is a second later whenever it is read. -/
def seconds (now : ℕ) : Timer.Reading .timespec :=
  ⟨⟨now, 0⟩, Int.natCast_nonneg now, Timer.noTime.part_nonneg, Timer.noTime.part_lt⟩

theorem forward_seconds : Forward seconds := by
  intro sooner later before
  show (sooner : ℤ) * 1000000000 + 0 ≤ later * 1000000000 + 0
  omega

/-- The code of an event that makes no calls. -/
def quiet (_ : Bool) (_ : State Bool Unit) : List (Call Bool Unit) := []

/-- An event that was armed for two seconds expires at the first look after them. -/
theorem due_of_expired_once :
    ∃ state, (machine seconds quiet).Reachable state ∧
      history true state.trace = [.expired true 3, .cleared true, .armed true 1 2000] ∧
      Due seconds true 3 [(.cleared true : Entry Bool Unit), .armed true 1 2000] := by
  let played := (machine seconds quiet).play ⟨.unlinked, fun _ => Timer.clear, 0, []⟩
    [.call (.arm true 2000), .call (.attach true (some ())), .expire () 1, .expire () 1]
  have reachable := Machine.reachable_get rfl (show played.isSome by decide)
  have expires : history true (played.get (by decide)).trace =
      [] ++ [.expired true 3, .cleared true, .armed true 1 2000] := by decide
  exact ⟨_, reachable, expires, due_of_expired forward_seconds reachable expires⟩

end TimerQueue

end CommonCpp
