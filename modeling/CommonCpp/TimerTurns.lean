/-
This file shows what `TimerQueue::expire` does for the events that are on the list when it starts.

It goes along the list while the code of the events that expire may change it. The link to the next
event is read before an event has its turn, so the event may come off the list in its turn. When no
event takes another one off the list, the turns are those of the list as it was.

An event whose code makes calls on that event only finds its timer as it was when `expire` started,
and leaves it as it is when `expire` ends. The turns follow each other by the readings of the clock,
and what is returned is the least that was left of a timer at the last reading of its turn. A timer
of which nothing is left is not counted, also when its event armed it again so that it is due at
once.
-/

import CommonCpp.TimerQueue

namespace CommonCpp

open Concurrency Memory

namespace TimerQueue

section Turns

variable {Event Queue : Type} [DecidableEq Event] [DecidableEq Queue] {build : Timer.Build}
  {clock : ℕ → Timer.Reading build} {state target : State Event Queue}
  {expired : Event → State Event Queue → List (Call Event Queue)}

/-! ### The lists -/

omit [DecidableEq Event] [DecidableEq Queue] in
theorem links_guarded (tq : Option Queue) {change : State Event Queue → State Event Queue}
    (same : ∀ state, (change state).links = state.links) (state : State Event Queue) :
    (guarded tq change state).links = state.links := by
  cases tq with
  | none => exact same state
  | some tq => exact same _

omit [DecidableEq Queue] in
theorem links_arm (state : State Event Queue) (event : Event) (timeout : UInt64) :
    (arm clock state event timeout).links = state.links := by
  refine links_guarded _ (fun state => ?_) state
  rfl

omit [DecidableEq Queue] in
theorem links_disarm (state : State Event Queue) (event : Event) :
    (disarm state event).links = state.links := by
  refine links_guarded _ (fun state => ?_) state
  rfl

omit [DecidableEq Queue] in
theorem links_update (state : State Event Queue) (event : Event) :
    (update state event).links = state.links := by
  show (if _ ∧ _ then _ else _ : State Event Queue).links = _
  split
  · exact links_guarded _ (fun _ => rfl) _
  · rfl

theorem links_detach (state : State Event Queue) (event : Event) :
    (detach state event).links = DLinkedObject.delist state.links event := by
  unfold detach
  split
  next alone =>
    rw [DLinkedObject.delist, alone]
  next => rfl

variable (clock) in
/-- A call keeps what is so of the links. -/
def Call.Keeps (property : DLinkedObject.State Event Queue → Prop)
    (call : Call Event Queue) : Prop :=
  ∀ state, property state.links → property (call.run clock state).links

/-- What a call keeps it keeps by taking its event off a list and by putting it on one. -/
theorem Call.keeps {property : DLinkedObject.State Event Queue → Prop} {call : Call Event Queue}
    (takesOff : ∀ event, call = .detach event ∨ (∃ tq, call = .attach event tq) →
      ∀ links, property links → property (DLinkedObject.delist links event))
    (putsOn : ∀ event tq, call = .attach event (some tq) →
      ∀ links, property links → property (DLinkedObject.enlistTail links event tq)) :
    call.Keeps clock property := by
  intro state holds
  cases call with
  | attach event tq =>
    have off := takesOff event (.inr ⟨tq, rfl⟩) _ holds
    rw [← links_detach] at off
    show property (TimerQueue.attach state event tq).links
    unfold TimerQueue.attach
    split
    · exact holds
    · split
      · exact off
      next tq _ => exact putsOn event tq rfl _ off
  | detach event =>
    show property (TimerQueue.detach state event).links
    rw [links_detach]
    exact takesOff event (.inl rfl) _ holds
  | arm event timeout =>
    show property (TimerQueue.arm clock state event timeout).links
    rw [links_arm]
    exact holds
  | disarm event => exact (links_disarm state event).symm ▸ holds
  | update event => exact (links_update state event).symm ▸ holds

/-- What the calls of an event that expires keep, its timeout keeps. -/
theorem timeout_keeps {property : DLinkedObject.State Event Queue → Prop} {event : Event}
    (keeps : ∀ state, ∀ call ∈ expired event state, call.Keeps clock property)
    (holds : property state.links) : property (timeout clock expired state event).1.links := by
  rw [timeout_eq]
  split
  · have expiring : property (expiring clock state event).links := by
      show property (disarm (get clock state event).1 event).links
      rw [links_disarm]
      exact holds
    have folded : ∀ calls : List (Call Event Queue), (∀ call ∈ calls, call.Keeps clock property) →
        ∀ state : State Event Queue, property state.links →
          property (calls.foldl (Call.run clock) state).links := by
      intro calls
      induction calls with
      | nil => exact fun _ _ holds => holds
      | cons call calls inductionHypothesis =>
        intro keeps state holds
        obtain ⟨first, others⟩ := List.forall_mem_cons.mp keeps
        exact inductionHypothesis others _ (first state holds)
    exact folded _ (keeps _) _ expiring
  · exact holds

/-- The links hold lists. -/
def Listed (links : DLinkedObject.State Event Queue) : Prop :=
  ∃ lists, DLinkedObject.Lists links lists

theorem Call.keeps_listed (call : Call Event Queue) : call.Keeps clock Listed := by
  refine Call.keeps ?_ ?_
  · rintro event - links ⟨lists, holds⟩
    exact ⟨_, DLinkedObject.intended_step holds (.delist event) trivial rfl⟩
  · rintro event tq - links ⟨lists, holds⟩
    exact ⟨_, DLinkedObject.intended_step holds (.enlistTail event tq) trivial rfl⟩

omit [DecidableEq Queue] in
theorem Listed.fresh {links : DLinkedObject.State Event Queue} (listed : Listed links)
    {event : Event} (alone : links.root event = none) : Listed (fresh links event) := by
  obtain ⟨lists, holds⟩ := listed
  have outside : ∀ tq, ∀ other ∈ lists tq, other ≠ event := by
    rintro tq other member rfl
    rw [holds.rooted, alone] at member
    cases member
  refine ⟨lists, fun tq => ?_, fun tq => ?_, fun tq other => ?_, holds.once⟩
  · exact (holds.forwards tq).congr fun other member =>
      Function.update_of_ne (outside tq other member) _ _
  · exact (holds.backwards tq).congr fun other member =>
      Function.update_of_ne (outside tq other (List.mem_reverse.mp member)) _ _
  · rw [holds.rooted, TimerQueue.fresh, ← alone, Function.update_eq_self]

theorem listed_of_reachable (reachable : (machine clock expired).Reachable state) :
    Listed state.links := by
  let listed (state : State Event Queue) : Prop := Listed state.links
  suffices holds : listed state from holds
  refine reachable.invariant ?_ fun source action target listed stepped => ?_
  · rintro state rfl
    exact ⟨_, DLinkedObject.lists_unlinked⟩
  · cases action with
    | call call =>
      cases stepped
      exact call.keeps_listed source listed
    | construct event tq timeout =>
      obtain ⟨alone, stepped⟩ := Option.ite_none_right_eq_some.mp stepped
      cases stepped
      have fresh : Listed (TimerQueue.fresh source.links event) := listed.fresh alone
      cases tq with
      | none => exact fresh
      | some tq =>
        have keeps : (Call.attach event (some tq)).Keeps clock Listed := Call.keeps_listed _
        exact keeps _ fresh
    | expire tq fuel =>
      obtain ⟨⟨_, last⟩, ends, rfl⟩ := Option.map_eq_some_iff.mp stepped
      exact expireLoop_keeps clock expired
        (fun _ _ before => timeout_keeps (fun _ call _ => call.keeps_listed) before) listed ends

/-! ### Along the list -/

/-- The call leaves the list of the queue as it is, but for the given event, which may come off. -/
def Call.Stays (tq : Queue) (event : Event) : Call Event Queue → Prop
  | .attach other tq' => other = event ∧ tq' ≠ some tq
  | .detach other => other = event
  | _ => True

/-- The queue lists some events that were passed, and then these. -/
def Ahead (tq : Queue) (rest : List Event) (links : DLinkedObject.State Event Queue) : Prop :=
  ∃ lists passed, DLinkedObject.Lists links lists ∧ lists tq = passed ++ rest

omit [DecidableEq Queue] in
theorem erase_passed (passed : List Event) {rest : List Event} {event : Event}
    (outside : event ∉ rest) :
    (passed ++ rest).erase event = passed.erase event ++ rest := by
  by_cases member : event ∈ passed
  · exact List.erase_append_left rest member
  · rw [List.erase_append_right rest member, List.erase_of_not_mem outside,
      List.erase_of_not_mem member]

omit [DecidableEq Event] [DecidableEq Queue] in
theorem Ahead.of_cons {tq : Queue} {event : Event} {rest : List Event}
    {links : DLinkedObject.State Event Queue} (ahead : Ahead tq (event :: rest) links) :
    links.next event = rest.head? ∧ event ∉ rest ∧ Ahead tq rest links := by
  obtain ⟨lists, passed, holds, whole⟩ := ahead
  have path := holds.forwards tq
  have once := holds.once tq
  rw [whole] at path
  rw [whole, List.nodup_append] at once
  refine ⟨?_, (List.nodup_cons.mp once.2.1).1, lists, passed ++ [event], holds, ?_⟩
  · rw [path.next_eq, Option.or_none]
  · rw [whole, List.append_assoc]
    rfl

/-- An event that was passed may be taken off, and put on another list. -/
theorem Call.Stays.keeps {tq : Queue} {event : Event} {call : Call Event Queue}
    (stays : call.Stays tq event) {rest : List Event} (outside : event ∉ rest) :
    call.Keeps clock (Ahead tq rest) := by
  refine Call.keeps ?_ ?_
  · rintro other takesOff links ⟨lists, passed, holds, whole⟩
    obtain rfl : other = event := by
      rcases takesOff with rfl | ⟨_, rfl⟩
      · exact stays
      · exact stays.1
    refine ⟨_, passed.erase other,
      DLinkedObject.intended_step holds (.delist other) trivial rfl, ?_⟩
    rw [← erase_passed passed outside, ← whole]
    rfl
  · rintro other tq' rfl links ⟨lists, passed, holds, whole⟩
    obtain ⟨rfl, apart⟩ := stays
    refine ⟨_, passed.erase other,
      DLinkedObject.intended_step holds (.enlistTail other tq') trivial rfl, ?_⟩
    show Function.update (DLinkedObject.remove other lists) tq' _ tq = _
    rw [Function.update_of_ne fun same => apart (congrArg some same.symm), DLinkedObject.remove,
      whole, erase_passed passed outside]

variable (clock expired) in
/-- One turn of `expire`. -/
def turn (state : State Event Queue × ℕ) (event : Event) : State Event Queue × ℕ :=
  let (state, first) := state
  let (state, next) := timeout clock expired state event
  (state, earlier first next)

theorem expireLoop_succ (turns : ℕ) (state : State Event Queue) (tp : Event) (first : ℕ) :
    expireLoop clock expired (turns + 1) state (some tp) first =
      expireLoop clock expired turns (turn clock expired (state, first) tp).1 (state.links.next tp)
        (turn clock expired (state, first) tp).2 := rfl

/-- The list may change while `expire` goes along it: when no event takes another one off it, or is
put on it again, each event that was on the list has its turn. -/
theorem expireLoop_eq_foldl {tq : Queue}
    (stays : ∀ event state, ∀ call ∈ expired event state, call.Stays tq event)
    {rest : List Event} (ahead : Ahead tq rest state.links) {turns : ℕ}
    (enough : rest.length ≤ turns) (first : ℕ) :
    expireLoop clock expired turns state rest.head? first =
      some (rest.foldl (turn clock expired) (state, first)) := by
  induction rest generalizing state turns first with
  | nil => cases turns <;> rfl
  | cons event rest inductionHypothesis =>
    obtain ⟨turns, rfl⟩ : ∃ more, turns = more + 1 :=
      Nat.exists_eq_succ_of_ne_zero (Nat.ne_of_gt (Nat.lt_of_lt_of_le (Nat.succ_pos _) enough))
    obtain ⟨onward, outside, behind⟩ := ahead.of_cons
    have passed : Ahead tq rest (turn clock expired (state, first) event).1.links :=
      timeout_keeps (fun state call member => (stays event state call member).keeps outside) behind
    rw [List.head?_cons, expireLoop_succ, onward,
      inductionHypothesis passed (Nat.le_of_succ_le_succ enough), List.foldl_cons]

/-! ### The turns of `expire` -/

/-- The reading of the clock at which the event expires. -/
def Entry.expiredAt (event : Event) : Entry Event Queue → Option ℕ
  | .expired other now => if other = event then some now else none
  | _ => none

/-- The readings of the clock at which the event has expired, the latest first. -/
def expirations (event : Event) (trace : List (Entry Event Queue)) : List ℕ :=
  trace.filterMap (Entry.expiredAt event)

/-- From one state to the other nothing but the timer of the event was changed, and no event
expired. -/
structure Within (event : Event) (source target : State Event Queue) : Prop where
  timers : ∀ other, other ≠ event → target.timers other = source.timers other
  expirations : ∀ other, expirations other target.trace = expirations other source.trace
  ticks : source.ticks ≤ target.ticks

namespace Within

variable {event : Event}

omit [DecidableEq Queue]

theorem refl (state : State Event Queue) : Within event state state :=
  ⟨fun _ _ => rfl, fun _ => rfl, le_rfl⟩

theorem trans {middle : State Event Queue} (first : Within event state middle)
    (second : Within event middle target) : Within event state target :=
  ⟨fun other apart => (second.timers other apart).trans (first.timers other apart),
    fun other => (second.expirations other).trans (first.expirations other),
    first.ticks.trans second.ticks⟩

theorem note (state : State Event Queue) {entry : Entry Event Queue}
    (other : ∀ event, entry.expiredAt event = none) : Within event state (note state entry) :=
  ⟨fun _ _ => rfl, fun event => List.filterMap_cons_none (other event), le_rfl⟩

theorem guarded (tq : Option Queue) {change : State Event Queue → State Event Queue}
    (changes : ∀ state, Within event state (change state)) (state : State Event Queue) :
    Within event state (guarded tq change state) := by
  cases tq with
  | none => exact changes state
  | some tq => exact ((note state fun _ => rfl).trans (changes _)).trans (note _ fun _ => rfl)

theorem clear (state : State Event Queue) (event : Event) :
    Within event state (clear state event) := by
  refine ⟨fun other apart => ?_, fun other => List.filterMap_cons_none rfl, le_rfl⟩
  rw [timers_clear, Function.update_of_ne apart]

theorem look (state : State Event Queue) (event : Event) :
    Within event state (look state event) := by
  refine ⟨fun other apart => ?_, fun other => rfl, le_rfl⟩
  rw [timers_look, Function.update_of_ne apart]

theorem set (state : State Event Queue) (event : Event) (timeout : UInt64) :
    Within event state (set clock state event timeout) := by
  rw [set_eq]
  exact ⟨fun other apart => Function.update_of_ne apart _ _,
    fun other => List.filterMap_cons_none rfl,
    (le_reading clock state.ticks).trans (Nat.le_succ _)⟩

end Within

/-- The call is about the event, and does not put it on the queue. -/
def Call.Own (tq : Queue) (event : Event) : Call Event Queue → Prop
  | .attach other tq' => other = event ∧ tq' ≠ some tq
  | .detach other => other = event
  | .arm other _ => other = event
  | .disarm other => other = event
  | .update other => other = event

namespace Call.Own

variable {tq : Queue} {event : Event} {call : Call Event Queue}

omit [DecidableEq Event] [DecidableEq Queue] in
theorem stays (own : call.Own tq event) : call.Stays tq event := by
  cases call with
  | attach other tq' => exact own
  | detach other => exact own
  | _ => trivial

theorem within_detach (state : State Event Queue) (event : Event) :
    Within event state (TimerQueue.detach state event) := by
  unfold TimerQueue.detach
  split
  · exact .refl state
  · refine Within.guarded _ (fun state => ?_) state
    have clears := Within.clear state event
    exact ⟨clears.timers, clears.expirations, clears.ticks⟩

theorem within (own : call.Own tq event) (state : State Event Queue) :
    Within event state (call.run clock state) := by
  cases call with
  | attach other tq' =>
    obtain ⟨rfl, -⟩ := own
    show Within other state (TimerQueue.attach state other tq')
    unfold TimerQueue.attach
    split
    · exact .refl state
    · split
      · exact within_detach state other
      · refine (within_detach state other).trans (Within.guarded _ (fun state => ?_) _)
        exact ⟨(Within.look state other).timers, fun _ => rfl, le_rfl⟩
  | detach other =>
    obtain rfl : other = event := own
    exact within_detach state other
  | arm other timeout =>
    obtain rfl : other = event := own
    exact Within.guarded _ (fun state => Within.set state other timeout) state
  | disarm other =>
    obtain rfl : other = event := own
    exact Within.guarded _ (fun state => Within.clear state other) state
  | update other =>
    obtain rfl : other = event := own
    show Within other state (if _ ∧ _ then _ else _)
    split
    · exact (Within.look state other).trans (Within.guarded _ (fun state => .refl state) _)
    · exact Within.look state other

theorem foldl {calls : List (Call Event Queue)} (own : ∀ call ∈ calls, call.Own tq event)
    (state : State Event Queue) : Within event state (calls.foldl (Call.run clock) state) := by
  induction calls generalizing state with
  | nil => exact .refl state
  | cons call calls inductionHypothesis =>
    obtain ⟨first, others⟩ := List.forall_mem_cons.mp own
    exact (first.within state).trans (inductionHypothesis others _)

end Call.Own

/-- The turn of an event, with the reading of the clock it starts with and the one it ends with. -/
structure Turn (Event : Type) where
  event : Event
  looked : ℕ
  ended : ℕ

variable (clock) in
/-- What is left of the event's timer at the end of its turn. -/
def Turn.left (turn : Turn Event) (target : State Event Queue) : ℕ :=
  Timer.get (clock turn.ended) (target.timers turn.event)

/-- The turns follow each other, from one reading of the clock to another. -/
def Follow : List (Turn Event) → ℕ → ℕ → Prop
  | [], now, after => now = after
  | turn :: turns, now, after =>
    turn.looked = now ∧ now ≤ turn.ended ∧ Follow turns (turn.ended + 1) after

variable (clock) in
/-- The event had its turn: it expired if it was due, and what is left of its timer was found. An
event that did not expire has the timer it had, and the clock was read once. -/
structure Turned (turn : Turn Event) (source target : State Event Queue) (next : ℕ) : Prop where
  timers : ∀ other, other ≠ turn.event → target.timers other = source.timers other
  others : ∀ other, other ≠ turn.event →
    expirations other target.trace = expirations other source.trace
  fires : expirations turn.event target.trace =
    if (source.timers turn.event).isActive ∧
        Timer.get (clock turn.looked) (source.timers turn.event) = 0 then
      turn.looked :: expirations turn.event source.trace
    else expirations turn.event source.trace
  spared : expirations turn.event target.trace = expirations turn.event source.trace →
    target.timers turn.event = source.timers turn.event ∧ turn.ended = turn.looked
  left : next = turn.left clock target
  looked : turn.looked = source.ticks
  later : turn.looked ≤ turn.ended
  ended : target.ticks = turn.ended + 1

variable (clock) in
theorem turned {tq : Queue} {event : Event}
    (own : ∀ state, ∀ call ∈ expired event state, call.Own tq event) (state : State Event Queue) :
    ∃ ended, Turned clock ⟨event, state.ticks, ended⟩ state (timeout clock expired state event).1
      (timeout clock expired state event).2 := by
  rw [timeout_eq]
  split
  next met =>
    let start := expiring clock state event
    have disarms : Within event (get clock state event).1
        (disarm (get clock state event).1 event) :=
      Within.guarded _ (fun state => Within.clear state event) _
    have calls : Within event start (fired clock expired state event) :=
      Call.Own.foldl (own start) start
    have others : ∀ other, other ≠ event →
        expirations other (fired clock expired state event).trace =
          expirations other state.trace := by
      intro other apart
      refine (calls.expirations other).trans (Eq.trans ?_ (disarms.expirations other))
      exact List.filterMap_cons_none (if_neg apart.symm)
    have once : expirations event (fired clock expired state event).trace =
        state.ticks :: expirations event state.trace := by
      refine (calls.expirations event).trans
        (Eq.trans ?_ (congrArg (state.ticks :: ·) (disarms.expirations event)))
      exact List.filterMap_cons_some (if_pos rfl)
    refine ⟨(fired clock expired state event).ticks, fun other apart => ?_, others,
      ?_, fun same => absurd (once.symm.trans same) (List.cons_ne_self _ _), ?_, rfl,
      (Nat.le_succ _).trans (disarms.ticks.trans calls.ticks), rfl⟩
    · rw [timers_look, Function.update_of_ne apart]
      exact (calls.timers other apart).trans (disarms.timers other apart)
    · refine once.trans ?_
      rw [if_pos met]
    · rw [Turn.left, timers_look, Function.update_self]
      rfl
  next unmet =>
    refine ⟨state.ticks, fun _ _ => rfl, fun _ _ => rfl, ?_, fun _ => ⟨rfl, rfl⟩, rfl, rfl, le_rfl,
      rfl⟩
    rw [if_neg unmet]
    rfl

variable (clock) in
/-- Each of the events had its turn, one after the other. What is returned is the least that is left
of one of them at the end of its turn, and what is not left is not counted. -/
structure Passed (turns : List (Turn Event)) (source target : State Event Queue)
    (first last : ℕ) : Prop where
  timers : ∀ other ∉ turns.map Turn.event, target.timers other = source.timers other
  others : ∀ other ∉ turns.map Turn.event,
    expirations other target.trace = expirations other source.trace
  follow : Follow turns source.ticks target.ticks
  fires : ∀ turn ∈ turns,
    expirations turn.event target.trace =
      if (source.timers turn.event).isActive ∧
          Timer.get (clock turn.looked) (source.timers turn.event) = 0 then
        turn.looked :: expirations turn.event source.trace
      else expirations turn.event source.trace
  spared : ∀ turn ∈ turns,
    expirations turn.event target.trace = expirations turn.event source.trace →
      target.timers turn.event = source.timers turn.event ∧ turn.ended = turn.looked
  left : ∀ turn ∈ turns, turn.left clock target = 0 ∨ last ≤ turn.left clock target
  least : last = first ∨ ∃ turn ∈ turns, last = turn.left clock target ∧ last ≠ 0
  le : last ≤ first

theorem earlier_le (first next : ℕ) : earlier first next ≤ first := by
  unfold earlier
  split
  next less => exact less.2.le
  next => exact le_rfl

theorem earlier_le_next {next : ℕ} (some : next ≠ 0) (first : ℕ) : earlier first next ≤ next := by
  unfold earlier
  split
  next => exact le_rfl
  next not => exact le_of_not_gt fun less => not ⟨some, less⟩

theorem earlier_eq (first next : ℕ) :
    earlier first next = first ∨ earlier first next = next ∧ next ≠ 0 := by
  unfold earlier
  split
  next less => exact .inr ⟨rfl, less.1⟩
  next => exact .inl rfl

omit [DecidableEq Queue] in
/-- An event has its turn before the others, which leave it as it is then. -/
theorem Turned.cons {turn : Turn Event} {turns : List (Turn Event)} {middle : State Event Queue}
    {first next last : ℕ} (turned : Turned clock turn state middle next)
    (outside : turn.event ∉ turns.map Turn.event)
    (passed : Passed clock turns middle target (earlier first next) last) :
    Passed clock (turn :: turns) state target first last := by
  have apart : ∀ other ∈ turns, other.event ≠ turn.event := fun other member same =>
    outside (same ▸ List.mem_map_of_mem member)
  have timer := passed.timers turn.event outside
  have found : next = turn.left clock target := by
    rw [turned.left, Turn.left, Turn.left, timer]
  have counted := passed.others turn.event outside
  refine ⟨fun other absent => ?_, fun other absent => ?_, ?_, ?_, ?_, ?_, ?_,
    passed.le.trans (earlier_le first next)⟩
  · obtain ⟨notTurn, notRest⟩ := not_or.mp (mt List.mem_cons.mpr absent)
    exact (passed.timers other notRest).trans (turned.timers other notTurn)
  · obtain ⟨notTurn, notRest⟩ := not_or.mp (mt List.mem_cons.mpr absent)
    exact (passed.others other notRest).trans (turned.others other notTurn)
  · exact ⟨turned.looked, turned.looked ▸ turned.later, turned.ended ▸ passed.follow⟩
  · refine List.forall_mem_cons.mpr ⟨counted.trans turned.fires, fun other member => ?_⟩
    rw [passed.fires other member, turned.others _ (apart other member),
      turned.timers _ (apart other member)]
  · refine List.forall_mem_cons.mpr ⟨fun same => ?_, fun other member same => ?_⟩
    · rw [timer]
      exact turned.spared (counted.symm.trans same)
    · rw [← turned.timers _ (apart other member)]
      exact passed.spared other member (same.trans (turned.others _ (apart other member)).symm)
  · refine List.forall_mem_cons.mpr ⟨?_, passed.left⟩
    rw [← found, or_iff_not_imp_left]
    exact fun some => passed.le.trans (earlier_le_next some first)
  · rcases passed.least with same | ⟨other, member, least⟩
    · rcases earlier_eq first next with kept | ⟨taken, some⟩
      · exact .inl (same.trans kept)
      · have next := same.trans taken
        exact .inr ⟨turn, List.mem_cons_self, next.trans found, next.trans_ne some⟩
    · exact .inr ⟨other, List.mem_cons_of_mem turn member, least⟩

/-- The events take their turns, none of them twice. -/
theorem passed_foldl {tq : Queue}
    (own : ∀ event state, ∀ call ∈ expired event state, call.Own tq event) {events : List Event}
    (once : events.Nodup) (state : State Event Queue) (first : ℕ) :
    ∃ turns : List (Turn Event), turns.map Turn.event = events ∧
      Passed clock turns state (events.foldl (turn clock expired) (state, first)).1 first
        (events.foldl (turn clock expired) (state, first)).2 := by
  induction events generalizing state first with
  | nil =>
    refine ⟨[], rfl, fun _ _ => rfl, fun _ _ => rfl, rfl, ?_, ?_, ?_, .inl rfl, le_rfl⟩ <;>
      exact List.forall_mem_nil _
  | cons event rest inductionHypothesis =>
    obtain ⟨outside, onceRest⟩ := List.nodup_cons.mp once
    obtain ⟨ended, turned⟩ := turned clock (own event) state
    obtain ⟨turns, events, passed⟩ := inductionHypothesis onceRest
      (turn clock expired (state, first) event).1 (turn clock expired (state, first) event).2
    exact ⟨⟨event, state.ticks, ended⟩ :: turns, congrArg (event :: ·) events,
      turned.cons (events ▸ outside) passed⟩

/-- In every state of a run `expire` ends, when the code of each event makes calls on that event
only, and does not put it on the queue again. Each event that was on the list has one turn: it
expires once if it was active and due then, and not at all otherwise. What is returned is the least
that was left of a timer at the end of its turn, where something was left, and `inf` if nothing
was. -/
theorem expire_passed (reachable : (machine clock expired).Reachable state) {tq : Queue}
    (own : ∀ event state, ∀ call ∈ expired event state, call.Own tq event) :
    ∃ lists, DLinkedObject.Lists state.links lists ∧ ∀ fuel, (lists tq).length ≤ fuel →
      ∃ target last turns, expire clock expired state tq fuel = some (target, last) ∧
        turns.map Turn.event = lists tq ∧ Passed clock turns state target Timer.inf last := by
  obtain ⟨lists, holds⟩ := listed_of_reachable reachable
  obtain ⟨turns, events, passed⟩ := passed_foldl own (holds.once tq) state Timer.inf
  refine ⟨lists, holds, fun fuel enough => ⟨_, _, turns, ?_, events, passed⟩⟩
  have ahead : Ahead tq (lists tq) state.links := ⟨lists, [], holds, rfl⟩
  rw [expire, holds.head_eq]
  exact expireLoop_eq_foldl (fun event state call member => (own event state call member).stays)
    ahead enough Timer.inf

end Turns

/-- One event arms itself again when it expires, and another comes off its list. -/
def renews (event : Bool) (_ : State Bool Unit) : List (Call Bool Unit) :=
  if event then [.arm true 3000] else [.detach false]

/-- Both events are due: each expires once, and what is left for the first of them is returned. -/
theorem expire_passed_both :
    ∃ state, (machine seconds renews).Reachable state ∧
      (expire seconds renews state () 2).map Prod.snd = some 2000 ∧
      ∃ lists, DLinkedObject.Lists state.links lists ∧ ∀ fuel, (lists ()).length ≤ fuel →
        ∃ target last turns, expire seconds renews state () fuel = some (target, last) ∧
          turns.map Turn.event = lists () ∧ Passed seconds turns state target Timer.inf last := by
  let played := (machine seconds renews).play ⟨.unlinked, fun _ => Timer.clear, 0, []⟩
    [.construct true (some ()) 1000, .construct false (some ()) 0]
  have reachable := Machine.reachable_get rfl (show played.isSome by decide)
  refine ⟨_, reachable, by decide, expire_passed reachable ?_⟩
  intro event _ call member
  cases event with
  | true =>
    obtain rfl : call = .arm true 3000 := List.mem_singleton.mp member
    rfl
  | false =>
    obtain rfl : call = .detach false := List.mem_singleton.mp member
    rfl

end TimerQueue

end CommonCpp
