/-
This file models `Buffer`, the producer and consumer buffer, and the
`FixedBuffer` that keeps its objects in a ring of bytes, on the POSIX code path.

The base class counts the objects and waits; the derived class stores them. All
waits share one condition, and a completed call signals it once, so the thread
that wakes may be of the wrong kind: a consumer woken by a consumer finds nothing
and goes back to sleep, and the signal is lost on the producers. A run leaves
everybody asleep beside work exactly when that happens to the last thread awake.
What the buffer stores is not affected: the objects a `FixedBuffer` delivers are
those it accepted, in order and byte for byte, whatever the waits do, as long as a
`size_t` counts the bytes of all of them. The ring is as long as the product says
that the source makes of the two arguments, and that one wraps.

`size` and `used` are natural numbers, and a pointer into the ring of bytes is its
offset. A call returns true where the source returns the size of an object, and
false where it returns `Buffer::timeout`, or 0 in `peek`. What the callers were
given is kept beside the fields: each thread's own buffer, and the objects
accepted and delivered so far.
-/

import CommonCpp.Monitor
import CommonCpp.Ring

namespace CommonCpp

open Concurrency Concurrency.Monitor

namespace Buffer

/-! ### The code -/

/-- The virtual methods of a class derived from `Buffer`: how it takes an object, gives one and
shows one. -/
structure Derived (Store Object : Type) where
  onPost : Object → Store → Store
  onWait : Store → Object × Store
  onPeek : Store → Object

/-- The fields of a `Buffer`, with what the derived class keeps, the last object copied to each
caller, and the objects accepted and delivered. -/
structure Fields (Thread Store Object : Type) where
  size : Nat
  used : Nat
  store : Store
  buf : Thread → Option Object
  accepted : List Object
  delivered : List Object

inductive Call (Object : Type)
  | post (object : Object)
  | wait
  | peek
  deriving DecidableEq

/-- The calls that wait: a producer, with its object, and a consumer. -/
inductive Frame (Object : Type)
  | post (object : Object)
  | wait
  deriving DecidableEq

section Code

variable {Thread Store Object : Type} [DecidableEq Thread]

/-- `wait` from its loop test on. -/
def wait (derived : Derived Store Object) (self : Thread)
    (fields : Fields Thread Store Object) :
    Section (Fields Thread Store Object) Unit (Frame Object) :=
  if fields.used = 0 then ⟨fields, .none, .sleep .wait⟩
  else
    let (object, store) := derived.onWait fields.store
    ⟨{ fields with
        store := store
        used := fields.used - 1
        buf := Function.update fields.buf self (some object)
        delivered := fields.delivered ++ [object] },
      .signal (), .leave true⟩

/-- `post` from its loop test on. -/
def post (derived : Derived Store Object) (object : Object)
    (fields : Fields Thread Store Object) :
    Section (Fields Thread Store Object) Unit (Frame Object) :=
  if fields.used = fields.size then ⟨fields, .none, .sleep (.post object)⟩
  else
    ⟨{ fields with
        store := derived.onPost object fields.store
        used := fields.used + 1
        accepted := fields.accepted ++ [object] },
      .signal (), .leave true⟩

/-- `peek`, which does not wait. -/
def peek (derived : Derived Store Object) (self : Thread)
    (fields : Fields Thread Store Object) :
    Section (Fields Thread Store Object) Unit (Frame Object) :=
  if fields.used = 0 then ⟨fields, .none, .leave false⟩
  else
    ⟨{ fields with
        buf := Function.update fields.buf self (some (derived.onPeek fields.store)) },
      .none, .leave true⟩

/-- A suspended call from its loop test on. -/
def loop (derived : Derived Store Object) (self : Thread) (frame : Frame Object)
    (fields : Fields Thread Store Object) :
    Section (Fields Thread Store Object) Unit (Frame Object) :=
  match frame with
  | .post object => post derived object fields
  | .wait => wait derived self fields

/-- The calls of a `Buffer`. A wait that was signalled goes back to its loop test; one that timed
out returns `Buffer::timeout` at once. Waits expire or not as the flag says. -/
def monitor (Thread : Type) [DecidableEq Thread] (derived : Derived Store Object)
    (expiring : Bool) :
    Monitor Thread (Fields Thread Store Object) (Call Object) Unit (Frame Object) Unit where
  enter thread call fields :=
    match call with
    | .post object => post derived object fields
    | .wait => wait derived thread fields
    | .peek => peek derived thread fields
  resume thread frame flag fields :=
    if flag then loop derived thread frame fields else ⟨fields, .none, .leave false⟩
  call
    | .post object => .post object
    | .wait => .wait
  queue _ := ()
  timed _ := expiring
  spurious := true
  inside _ := false
  may _ _ := true
  book _ _ holds := holds

end Code

/-- The state of a `Buffer` and of the threads that use it. -/
abbrev State (Thread Store Object : Type) :=
  Monitor.State Thread (Fields Thread Store Object) (Frame Object) Unit

/-- The runs of a `Buffer` of the given capacity, from its constructor on. -/
def machine (Thread : Type) [DecidableEq Thread] [Fintype Thread] {Store Object : Type}
    (derived : Derived Store Object) (expiring : Bool) (capacity : Nat) (empty : Store → Prop) :
    Machine (State Thread Store Object) (Action Thread (Call Object)) :=
  (monitor Thread derived expiring).machine
    (fun fields => fields.size = capacity ∧ fields.used = 0 ∧ empty fields.store ∧
      fields.accepted = [] ∧ fields.delivered = []) ()

/-! ### A ring of fixed objects -/

/-- The fields of a `FixedBuffer`: its bytes, and the offsets of `head` and `tail` in them. -/
structure Fixed where
  bytes : Nat → UInt8
  head : Nat
  tail : Nat

section Fixed

variable {objsize : Nat}

/-- `memcpy` of an object out of the bytes. -/
def copyOut (bytes : Nat → UInt8) (offset objsize : Nat) : Vector UInt8 objsize :=
  Vector.ofFn fun index => bytes (offset + index)

/-- `memcpy` of an object into the bytes. -/
def copyIn (bytes : Nat → UInt8) (offset : Nat) (object : Vector UInt8 objsize) : Nat → UInt8 :=
  fun address =>
    if inside : offset ≤ address ∧ address < offset + objsize then
      object.get ⟨address - offset, by omega⟩
    else bytes address

/-- The `MAXBUF` of a `FixedBuffer`, whose product is a `size_t`: as many bytes are allocated. -/
def maxbuf (capacity objsize : Nat) : Nat := capacity * objsize % 2 ^ 64

/-- A pointer moved on by one object, and back to the start of the bytes at their end. -/
def moveOn (capacity objsize offset : Nat) : Nat :=
  if offset + objsize ≥ maxbuf capacity objsize then 0 else offset + objsize

/-- The methods of `FixedBuffer(capacity, objsize)`. -/
def fixedBuffer (capacity objsize : Nat) : Derived Fixed (Vector UInt8 objsize) where
  onWait store :=
    (copyOut store.bytes store.head objsize,
      { store with head := moveOn capacity objsize store.head })
  onPost object store :=
    { store with
      bytes := copyIn store.bytes store.tail object
      tail := moveOn capacity objsize store.tail }
  onPeek store := copyOut store.bytes store.head objsize

/-- The state of a `FixedBuffer` and of the threads that use it. -/
abbrev FixedState (Thread : Type) (objsize : Nat) := State Thread Fixed (Vector UInt8 objsize)

/-- The runs of `FixedBuffer(capacity, objsize)`. -/
def fixedMachine (Thread : Type) [DecidableEq Thread] [Fintype Thread] (expiring : Bool)
    (capacity objsize : Nat) :
    Machine (FixedState Thread objsize) (Action Thread (Call (Vector UInt8 objsize))) :=
  machine Thread (fixedBuffer capacity objsize) expiring capacity
    fun store => store.head = 0 ∧ store.tail = 0

end Fixed

/-! ### Sleeping beside work -/

section Sleep

variable {Thread Store Object : Type}

/-- The loop test of a suspended call lets it through. -/
def Ready (fields : Fields Thread Store Object) : Frame Object → Prop
  | .post _ => fields.used < fields.size
  | .wait => 0 < fields.used

instance (fields : Fields Thread Store Object) : (frame : Frame Object) →
    Decidable (Ready fields frame)
  | .post _ => inferInstanceAs (Decidable (fields.used < fields.size))
  | .wait => inferInstanceAs (Decidable (0 < fields.used))

/-- A producer's wait and a consumer's are of different kinds. -/
def Opposite : Frame Object → Frame Object → Prop
  | .post _, .wait => True
  | .wait, .post _ => True
  | _, _ => False

/-- The thread is outside the buffer, or asleep in it. -/
def Resting (state : State Thread Store Object) (thread : Thread) : Prop :=
  (state.threads thread).place = .idle ∨ ∃ frame, (state.threads thread).place = .asleep frame

/-- Every thread inside a call is asleep, and one of them could proceed. -/
def Stalled (state : State Thread Store Object) : Prop :=
  (∀ thread, Resting state thread) ∧
    ∃ thread frame, (state.threads thread).place = .asleep frame ∧ Ready state.fields frame

/-- A thread that wakes and cannot proceed is not the last one awake, unless no thread of the
other kind sleeps. -/
def WakesUsefully (state : State Thread Store Object) : Action Thread (Call Object) → Prop
  | .resume thread _ => ∀ frame, (state.threads thread).place = .woken frame →
      ¬ Ready state.fields frame → (∀ other, other ≠ thread → Resting state other) →
      ∀ other frame', (state.threads other).place = .asleep frame' → ¬ Opposite frame frame'
  | _ => True

variable [DecidableEq Thread] [Fintype Thread] {derived : Derived Store Object}
  {expiring : Bool} {capacity : Nat} {empty : Store → Prop}

/-- The count of objects stays within the capacity. -/
structure Bounded (capacity : Nat) (fields : Fields Thread Store Object) : Prop where
  size : fields.size = capacity
  used : fields.used ≤ capacity

omit [Fintype Thread] in
/-- A suspended call whose test fails sleeps on and changes nothing; one whose test lets it
through returns, and signals. -/
theorem loop_cases {fields : Fields Thread Store Object} (bounded : Bounded capacity fields)
    (self : Thread) (frame : Frame Object) :
    (¬ Ready fields frame ∧ loop derived self frame fields = ⟨fields, .none, .sleep frame⟩) ∨
      (Ready fields frame ∧ (loop derived self frame fields).wake = .signal () ∧
        (loop derived self frame fields).next = .leave true ∧
        Bounded capacity (loop derived self frame fields).fields) := by
  have size := bounded.size
  have used := bounded.used
  cases frame with
  | post object =>
    by_cases full : fields.used = fields.size
    · left
      refine ⟨by simp [Ready, full], by simp [loop, post, full]⟩
    · right
      have room : fields.used < fields.size := by omega
      have after : Bounded capacity (loop derived self (.post object) fields).fields := by
        constructor <;> simp [loop, post, full] <;> omega
      exact ⟨room, by simp [loop, post, full], by simp [loop, post, full], after⟩
  | wait =>
    by_cases none : fields.used = 0
    · left
      refine ⟨by simp [Ready, none], by simp [loop, wait, none]⟩
    · right
      have some : 0 < fields.used := Nat.pos_of_ne_zero none
      have after : Bounded capacity (loop derived self .wait fields).fields := by
        constructor <;> simp [loop, wait, none] <;> omega
      exact ⟨some, by simp [loop, wait, none], by simp [loop, wait, none], after⟩

omit [DecidableEq Thread] [Fintype Thread] in
/-- Where one kind of thread cannot proceed, the other can. -/
theorem ready_of_opposite {fields : Fields Thread Store Object} {frame frame' : Frame Object}
    (positive : 0 < capacity) (bounded : Bounded capacity fields) (blocked : ¬ Ready fields frame)
    (opposite : Opposite frame frame') : Ready fields frame' := by
  have size := bounded.size
  have used := bounded.used
  cases frame <;> cases frame' <;> simp only [Opposite, Ready] at opposite blocked ⊢ <;> omega

omit [DecidableEq Thread] [Fintype Thread] in
/-- Threads of which one can proceed and the other cannot are of different kinds. -/
theorem opposite_of_ready {fields : Fields Thread Store Object} {frame frame' : Frame Object}
    (blocked : ¬ Ready fields frame) (ready : Ready fields frame') : Opposite frame frame' := by
  cases frame <;> cases frame' <;> simp only [Opposite, Ready] at blocked ready ⊢ <;>
    exact absurd ready blocked

variable {source target : State Thread Store Object} {thread : Thread} {call : Call Object}
  {passage : Section (Fields Thread Store Object) Unit (Frame Object)}

/-- After a section that signals and returns, nobody sleeps or somebody has been woken. -/
theorem not_stalled_of_signal
    (ran : Ran (monitor Thread derived expiring) source thread call passage target)
    (signals : passage.wake = .signal ()) (leaves : passage.next = .leave true)
    (awake : ∀ frame, (source.threads thread).place ≠ .asleep frame) : ¬ Stalled target := by
  rintro ⟨resting, other, frame, asleep, _⟩
  have different : other ≠ thread := by
    intro same
    rw [same, ran.own, leaves] at asleep
    cases asleep
  obtain ⟨roused, frame', _, _, _, woken⟩ :=
    ran.exists_woken signals awake ⟨other, frame, ran.asleep_other different asleep, rfl⟩
  rcases resting roused with idle | ⟨frame'', still⟩
  · rw [woken] at idle
    cases idle
  · rw [woken] at still
    cases still

/-- A section that wakes nobody, lets nobody proceed who could not, and after which its own thread
could not proceed, can leave a buffer stalled only when the other threads were already at rest and
one of them could proceed. -/
theorem stalled_before_of_quiet
    (ran : Ran (monitor Thread derived expiring) source thread call passage target)
    (quiet : passage.wake = .none)
    (same : ∀ frame, Ready passage.fields frame → Ready source.fields frame)
    (own : ∀ frame, (target.threads thread).place = .asleep frame → ¬ Ready source.fields frame)
    (stalled : Stalled target) :
    (∀ other, other ≠ thread → Resting source other) ∧
      ∃ other frame, (source.threads other).place = .asleep frame ∧
        Ready source.fields frame := by
  obtain ⟨resting, other, frame, asleep, ready⟩ := stalled
  rw [ran.fields] at ready
  replace ready := same frame ready
  have different : other ≠ thread := by
    intro equal
    rw [equal] at asleep
    exact own frame asleep ready
  refine ⟨fun another apart => ?_, other, frame, ?_, ready⟩
  · have unmoved := ran.eq_other quiet apart
    simpa only [Resting, unmoved] using resting another
  · rw [← ran.eq_other quiet different]
    exact asleep

omit [Fintype Thread] in
/-- The section of a call that begins is the loop of the call, or a `peek`. -/
theorem enter_cases (thread : Thread) (call : Call Object)
    (fields : Fields Thread Store Object) :
    (∃ frame, (monitor Thread derived expiring).enter thread call fields =
        loop derived thread frame fields) ∨
      (monitor Thread derived expiring).enter thread call fields = peek derived thread fields := by
  cases call with
  | post object => exact Or.inl ⟨.post object, rfl⟩
  | wait => exact Or.inl ⟨.wait, rfl⟩
  | peek => exact Or.inr rfl

omit [Fintype Thread] in
theorem bounded_peek {fields : Fields Thread Store Object} (bounded : Bounded capacity fields)
    (self : Thread) : Bounded capacity (peek derived self fields).fields := by
  unfold peek
  split
  · exact bounded
  · exact ⟨bounded.size, bounded.used⟩

omit [Fintype Thread] in
/-- A `peek` lets nobody proceed who could not. -/
theorem ready_of_peek {fields : Fields Thread Store Object} {self : Thread} {frame : Frame Object}
    (ready : Ready (peek derived self fields).fields frame) : Ready fields frame := by
  unfold peek at ready
  split at ready
  · exact ready
  · cases frame <;> exact ready

omit [Fintype Thread] in
theorem peek_quiet (derived : Derived Store Object) (fields : Fields Thread Store Object)
    (self : Thread) :
    (peek derived self fields).wake = .none ∧
      ∃ result, (peek derived self fields).next = .leave result := by
  unfold peek
  split
  · exact ⟨rfl, false, rfl⟩
  · exact ⟨rfl, true, rfl⟩

theorem stalled_of_enter (bounded : Bounded capacity source.fields)
    (idle : (source.threads thread).place = .idle)
    (ran : Ran (monitor Thread derived expiring) source thread call
      ((monitor Thread derived expiring).enter thread call source.fields) target)
    (stalled : Stalled target) : Stalled source := by
  have awake : ∀ frame, (source.threads thread).place ≠ .asleep frame := by simp [idle]
  -- The thread was outside, so if the others were at rest then everybody was.
  suffices before : (∀ other, other ≠ thread → Resting source other) ∧
      ∃ other frame, (source.threads other).place = .asleep frame ∧
        Ready source.fields frame by
    refine ⟨fun other => ?_, before.2⟩
    by_cases same : other = thread
    · exact Or.inl (by rw [same]; exact idle)
    · exact before.1 other same
  rcases enter_cases thread call source.fields with ⟨frame, looped⟩ | peeked
  · rw [looped] at ran
    rcases loop_cases bounded thread frame with ⟨blocked, sleeps⟩ | ⟨_, signals, leaves, _⟩
    · rw [sleeps] at ran
      refine stalled_before_of_quiet ran rfl (fun _ ready => ready) ?_ stalled
      intro frame' asleep
      rw [ran.own] at asleep
      cases asleep
      exact blocked
    · exact absurd stalled (not_stalled_of_signal ran signals leaves awake)
  · rw [peeked] at ran
    obtain ⟨quiet, result, leaves⟩ := peek_quiet derived source.fields thread
    refine stalled_before_of_quiet ran quiet (fun _ => ready_of_peek) ?_ stalled
    intro frame' asleep
    rw [ran.own, leaves] at asleep
    cases asleep

omit [Fintype Thread] in
theorem bounded_loop {fields : Fields Thread Store Object} (bounded : Bounded capacity fields)
    (self : Thread) (frame : Frame Object) :
    Bounded capacity (loop derived self frame fields).fields := by
  rcases loop_cases bounded self frame with ⟨_, sleeps⟩ | ⟨_, _, _, after⟩
  · rw [sleeps]
    exact bounded
  · exact after

omit [Fintype Thread] in
theorem bounded_enter {fields : Fields Thread Store Object} (bounded : Bounded capacity fields)
    (thread : Thread) (call : Call Object) :
    Bounded capacity ((monitor Thread derived expiring).enter thread call fields).fields := by
  rcases enter_cases thread call fields with ⟨frame, looped⟩ | peeked
  · rw [looped]
    exact bounded_loop bounded thread frame
  · rw [peeked]
    exact bounded_peek bounded thread

omit [Fintype Thread] in
theorem bounded_resume {fields : Fields Thread Store Object} (bounded : Bounded capacity fields)
    (thread : Thread) (frame : Frame Object) (flag : Bool) :
    Bounded capacity
      ((monitor Thread derived expiring).resume thread frame flag fields).fields := by
  cases flag with
  | false => exact bounded
  | true => exact bounded_loop bounded thread frame

/-- The count of objects stays within the capacity in every step. -/
theorem bounded_step (action : Action Thread (Call Object))
    (bounded : Bounded capacity source.fields)
    (stepped : (monitor Thread derived expiring).step source action = some target) :
    Bounded capacity target.fields := by
  cases action with
  | enter thread call chosen =>
    obtain ⟨_, _, _, ran⟩ := step_enter stepped
    rw [ran.fields]
    exact bounded_enter bounded thread call
  | resume thread chosen =>
    obtain ⟨_, frame, flag, _, ran⟩ := step_resume stepped
    rw [ran.fields]
    exact bounded_resume bounded thread frame flag
  | spurious thread =>
    rw [(step_spurious stepped).fields]
    exact bounded
  | timeout thread =>
    rw [(step_timeout stepped).fields]
    exact bounded

omit [Fintype Thread] in
/-- A thread that leaves the condition without a signal is awake. -/
theorem not_stalled_of_stirred
    (stirred : Stirred (monitor Thread derived expiring) source thread target) :
    ¬ Stalled target := by
  rintro ⟨resting, _⟩
  obtain ⟨frame, _, ⟨_, after⟩ | ⟨_, after⟩⟩ := stirred.place <;>
    rcases resting thread with idle | ⟨frame', asleep⟩
  · simp [after] at idle
  · simp [after] at asleep
  · simp [after] at idle
  · simp [after] at asleep

/-- A thread that resumes, in a buffer without timeouts, runs the loop of its call. -/
theorem resumed_loop (timely : Timely (monitor Thread derived false) source)
    {chosen : Option Thread}
    (stepped : (monitor Thread derived false).step source (.resume thread chosen) =
      some target) :
    ∃ frame, (source.threads thread).place = .woken frame ∧
      Ran (monitor Thread derived false) source thread ((monitor Thread derived false).call frame)
        (loop derived thread frame source.fields) target := by
  obtain ⟨_, frame, flag, waitOver, ran⟩ := step_resume stepped
  cases flag with
  | false => exact absurd (timely thread frame waitOver) (by simp [monitor])
  | true => exact ⟨frame, waitOver, ran⟩

/-- What every step that wakes usefully preserves. -/
structure Lively (derived : Derived Store Object) (capacity : Nat)
    (state : State Thread Store Object) : Prop where
  bounded : Bounded capacity state.fields
  timely : Timely (monitor Thread derived false) state
  awake : ¬ Stalled state

theorem not_stalled_step (action : Action Thread (Call Object))
    (lively : Lively derived capacity source) (useful : WakesUsefully source action)
    (stepped : (monitor Thread derived false).step source action = some target) :
    ¬ Stalled target := by
  cases action with
  | enter thread call chosen =>
    obtain ⟨idle, _, _, ran⟩ := step_enter stepped
    exact fun stalled => lively.awake (stalled_of_enter lively.bounded idle ran stalled)
  | resume thread chosen =>
    obtain ⟨frame, woken, ran⟩ := resumed_loop lively.timely stepped
    rcases loop_cases lively.bounded thread frame with
      ⟨blocked, sleeps⟩ | ⟨_, signals, leaves, _⟩
    · intro stalled
      rw [sleeps] at ran
      obtain ⟨resting, other, frame', asleep, ready⟩ := stalled_before_of_quiet ran rfl
        (fun _ ready => ready)
        (fun frame' asleep => by rw [ran.own] at asleep; cases asleep; exact blocked) stalled
      exact useful frame woken blocked resting other frame' asleep
        (opposite_of_ready blocked ready)
    · exact not_stalled_of_signal ran signals leaves (by simp [woken])
  | spurious thread => exact not_stalled_of_stirred (step_spurious stepped)
  | timeout thread => exact not_stalled_of_stirred (step_timeout stepped)

/-- A thread that wakes for nothing, the last one awake, leaves the other kind asleep. -/
theorem stalled_of_not_wakesUsefully (positive : 0 < capacity)
    (action : Action Thread (Call Object)) (lively : Lively derived capacity source)
    (useless : ¬ WakesUsefully source action)
    (stepped : (monitor Thread derived false).step source action = some target) :
    Stalled target := by
  cases action with
  | resume thread chosen =>
    simp only [WakesUsefully] at useless
    push Not at useless
    obtain ⟨frame, woken, blocked, resting, other, frame', asleep, opposite⟩ := useless
    obtain ⟨frame'', woken', ran⟩ := resumed_loop lively.timely stepped
    obtain rfl : frame'' = frame := by
      rw [woken] at woken'
      cases woken'
      rfl
    rcases loop_cases lively.bounded thread frame'' with ⟨_, sleeps⟩ | ⟨ready, _⟩
    · rw [sleeps] at ran
      have different : other ≠ thread := by
        intro same
        rw [same, woken] at asleep
        cases asleep
      refine ⟨fun another => ?_, other, frame', ?_, ?_⟩
      · by_cases same : another = thread
        · refine Or.inr ⟨frame'', ?_⟩
          rw [same, ran.own]
          rfl
        · simpa only [Resting, ran.eq_other rfl same] using resting another same
      · rw [ran.eq_other rfl different]
        exact asleep
      · rw [ran.fields]
        exact ready_of_opposite positive lively.bounded blocked opposite
    · exact absurd ready blocked
  | _ => exact absurd trivial useless

/-- A run of a `Buffer` whose waits do not time out never has everybody asleep beside work exactly
when the last thread awake never wakes for nothing while a thread of the other kind sleeps. -/
theorem buffer_awake_iff (positive : 0 < capacity)
    {moves : List (Move (State Thread Store Object) (Action Thread (Call Object)))}
    {state : State Thread Store Object}
    (run : (machine Thread derived false capacity empty).Run moves state) :
    Machine.Throughout (fun state => ¬ Stalled state) moves state ↔
      Machine.Meets WakesUsefully moves := by
  refine run.throughout_iff_meets (Lively derived capacity) ?_ ?_ (fun _ lively => lively.awake) ?_
  · rintro state ⟨fields, ⟨size, used, _⟩, rfl⟩
    refine ⟨⟨size, by simp [State.initial, used]⟩, ?_, ?_⟩
    · intro thread frame expired
      cases expired
    · rintro ⟨_, thread, frame, asleep, _⟩
      cases asleep
  · intro source action target lively useful stepped
    refine ⟨bounded_step action lively.bounded stepped, ?_,
      not_stalled_step action lively useful stepped⟩
    exact preserved_of_sections (fun _ _ _ _ timely _ _ _ ran => timely.ran ran)
      (fun _ _ _ _ _ timely _ _ ran => timely.ran ran)
      (fun _ _ _ timely stirred => timely.stirred stirred) source action target lively.timely
      stepped
  · intro source action target lively useless stepped
    exact not_not_intro (stalled_of_not_wakesUsefully positive action lively useless stepped)

end Sleep

/-- A producer and a consumer pass one object through a buffer of one: the consumer sleeps, is
woken and proceeds. -/
theorem buffer_awake_iff_passed :
    ∃ moves, ∃ state : FixedState (Fin 2) 1, (fixedMachine (Fin 2) false 1 1).Run moves state ∧
      state.fields.buf 0 = some #v[7] ∧
      Machine.Throughout (fun state => ¬ Stalled state) moves state := by
  let start : FixedState (Fin 2) 1 :=
    .initial ⟨1, 0, ⟨fun _ => 0, 0, 0⟩, fun _ => none, [], []⟩ ()
  have initial : (fixedMachine (Fin 2) false 1 1).Init start :=
    ⟨_, ⟨rfl, rfl, ⟨rfl, rfl⟩, rfl, rfl⟩, rfl⟩
  have run := ((Machine.Run.start initial).take (.enter 0 .wait none) (by decide)).take
    (.enter 1 (.post #v[7]) (some 0)) (by decide)
  refine ⟨_, _, run.take (.resume 0 none) (by decide), by decide, ?_⟩
  rw [buffer_awake_iff (by decide) (run.take (.resume 0 none) (by decide))]
  refine Machine.meets_cons.mpr ⟨?_, Machine.meets_cons.mpr ⟨trivial,
    Machine.meets_cons.mpr ⟨trivial, by simp [Machine.Meets]⟩⟩⟩
  intro frame woken blocked
  obtain rfl : frame = .wait := by
    have frames : (.woken .wait : Place (Frame (Vector UInt8 1))) = .woken frame := woken
    cases frames
    rfl
  exact absurd (by decide) blocked

/-- Two consumers sleep; a producer posts, which wakes the first of them, and sleeps in its next
post; the first consumer takes the object and its signal wakes the second, which finds nothing. The
second consumer and the producer sleep, and the buffer is empty. -/
theorem buffer_stalls :
    ∃ moves, ∃ state : FixedState (Fin 3) 1, (fixedMachine (Fin 3) false 1 1).Run moves state ∧
      state.fields.used = 0 ∧ (state.threads 2).place = .asleep (.post #v[8]) ∧ Stalled state ∧
      ¬ Machine.Throughout (fun state => ¬ Stalled state) moves state := by
  let start : FixedState (Fin 3) 1 :=
    .initial ⟨1, 0, ⟨fun _ => 0, 0, 0⟩, fun _ => none, [], []⟩ ()
  have initial : (fixedMachine (Fin 3) false 1 1).Init start :=
    ⟨_, ⟨rfl, rfl, ⟨rfl, rfl⟩, rfl, rfl⟩, rfl⟩
  let played := (fixedMachine (Fin 3) false 1 1).play start
    [.enter 0 .wait none, .enter 1 .wait none, .enter 2 (.post #v[7]) (some 0),
      .enter 2 (.post #v[8]) none, .resume 0 (some 1), .resume 1 none]
  obtain ⟨moves, run⟩ : (fixedMachine (Fin 3) false 1 1).Reachable (played.get (by decide)) :=
    Machine.reachable_get initial _
  have asleep : ((played.get (by decide)).threads 2).place = .asleep (.post #v[8]) := by decide
  have stalled : Stalled (played.get (by decide)) := by
    refine ⟨fun thread => ?_, 2, .post #v[8], asleep, by decide⟩
    match thread with
    | 0 => exact Or.inl (by decide)
    | 1 => exact Or.inr ⟨.wait, by decide⟩
    | 2 => exact Or.inr ⟨.post #v[8], asleep⟩
  exact ⟨moves, _, run, by decide, asleep, stalled, fun throughout => throughout.1 stalled⟩

/-! ### First in, first out -/

section Fifo

variable {capacity objsize : Nat}

/-- The object at an index of the ring. -/
def cell (bytes : Nat → UInt8) (objsize index : Nat) : Vector UInt8 objsize :=
  copyOut bytes (index * objsize) objsize

/-- The bytes of different objects are apart. -/
theorem mul_add_not_inside {index other offset : Nat} (different : index ≠ other)
    (inside : offset < objsize) :
    ¬ (other * objsize ≤ index * objsize + offset ∧
      index * objsize + offset < other * objsize + objsize) := by
  rintro ⟨above, below⟩
  rcases Nat.lt_or_gt_of_ne different with before | after
  · have bound := Nat.mul_le_mul_right objsize (Nat.succ_le_of_lt before)
    rw [Nat.succ_mul] at bound
    omega
  · have bound := Nat.mul_le_mul_right objsize (Nat.succ_le_of_lt after)
    rw [Nat.succ_mul] at bound
    omega

/-- Copying an object into the ring replaces that object and no other. -/
theorem cell_copyIn (bytes : Nat → UInt8) (index : Nat) (object : Vector UInt8 objsize) :
    cell (copyIn bytes (index * objsize) object) objsize =
      Function.update (cell bytes objsize) index object := by
  funext other
  by_cases same : other = index
  · subst same
    rw [Function.update_self]
    refine Vector.ext fun offset inside => ?_
    have within : other * objsize ≤ other * objsize + offset ∧
        other * objsize + offset < other * objsize + objsize := by omega
    simp only [cell, copyOut, copyIn, Vector.getElem_ofFn, dif_pos within,
      Nat.add_sub_cancel_left]
    rfl
  · rw [Function.update_of_ne same]
    refine Vector.ext fun offset inside => ?_
    have outside := mul_add_not_inside same inside
    simp only [cell, copyOut, copyIn, Vector.getElem_ofFn, dif_neg outside]

/-- An object has bytes, and a `size_t` counts those of all of them. -/
structure Sized (capacity objsize : Nat) : Prop where
  positive : 0 < objsize
  fits : capacity * objsize < 2 ^ 64

theorem Sized.maxbuf (sized : Sized capacity objsize) :
    maxbuf capacity objsize = capacity * objsize :=
  Nat.mod_eq_of_lt sized.fits

/-- A pointer moves on from object to object. -/
theorem moveOn_mul (sized : Sized capacity objsize) (index : Nat) :
    moveOn capacity objsize (index * objsize) = Memory.advance capacity index * objsize := by
  have steps : index * objsize + objsize = (index + 1) * objsize := by rw [Nat.succ_mul]
  unfold moveOn Memory.advance
  rw [steps, sized.maxbuf]
  by_cases passed : index + 1 ≥ capacity
  · rw [if_pos (Nat.mul_le_mul_right objsize passed), if_pos passed, Nat.zero_mul]
  · have short : ¬ (index + 1) * objsize ≥ capacity * objsize := fun long =>
      passed (Nat.le_of_mul_le_mul_right long sized.positive)
    rw [if_neg short, if_neg passed]

/-- The ring holds what has been accepted and not yet delivered. -/
def Holding {Thread : Type} (capacity objsize : Nat)
    (fields : Fields Thread Fixed (Vector UInt8 objsize)) : Prop :=
  ∃ first < capacity, fields.store.head = first * objsize ∧
    fields.store.tail = (first + fields.used) % capacity * objsize ∧
    fields.accepted = fields.delivered ++
      Memory.window (cell fields.store.bytes objsize) capacity first fields.used

variable {Thread : Type} {fields : Fields Thread Fixed (Vector UInt8 objsize)}

/-- A post that finds room puts its object behind the others. -/
theorem Holding.post (sized : Sized capacity objsize) (holding : Holding capacity objsize fields)
    (room : fields.used < capacity) (object : Vector UInt8 objsize) :
    Holding capacity objsize
      { fields with
        store := (fixedBuffer capacity objsize).onPost object fields.store
        used := fields.used + 1
        accepted := fields.accepted ++ [object] } := by
  obtain ⟨first, inside, head, tail, accepted⟩ := holding
  have positive : 0 < capacity := by omega
  refine ⟨first, inside, head, ?_, ?_⟩
  · change moveOn capacity objsize fields.store.tail = _
    rw [tail, moveOn_mul sized, Memory.advance_eq_mod (Nat.mod_lt _ positive), Nat.mod_add_mod,
      Nat.add_assoc]
  · change fields.accepted ++ [object] = fields.delivered ++ Memory.window
      (cell (copyIn fields.store.bytes fields.store.tail object) objsize) capacity first
      (fields.used + 1)
    rw [tail, cell_copyIn, Memory.window_succ_last, Memory.window_update_last _ room,
      Function.update_self, accepted, List.append_assoc]

/-- The object at `head` is the next one to be delivered. -/
theorem Holding.front (holding : Holding capacity objsize fields) (some : 0 < fields.used) :
    fields.accepted[fields.delivered.length]? =
      .some (copyOut fields.store.bytes fields.store.head objsize) := by
  obtain ⟨first, inside, head, _, accepted⟩ := holding
  obtain ⟨rest, used⟩ := Nat.exists_eq_add_of_lt some
  rw [Nat.zero_add] at used
  rw [accepted, used, Memory.window_succ_first, Nat.mod_eq_of_lt inside, head,
    List.getElem?_append_right le_rfl, Nat.sub_self, List.getElem?_cons_zero]
  rfl

/-- A wait that finds an object delivers it. -/
theorem Holding.wait (sized : Sized capacity objsize) (holding : Holding capacity objsize fields)
    (some : 0 < fields.used) (buf : Thread → Option (Vector UInt8 objsize)) :
    Holding capacity objsize
      { fields with
        store := ((fixedBuffer capacity objsize).onWait fields.store).2
        used := fields.used - 1
        buf := buf
        delivered :=
          fields.delivered ++ [((fixedBuffer capacity objsize).onWait fields.store).1] } := by
  obtain ⟨first, inside, head, tail, accepted⟩ := holding
  obtain ⟨rest, used⟩ := Nat.exists_eq_add_of_lt some
  rw [Nat.zero_add] at used
  have onward : Memory.advance capacity first = (first + 1) % capacity :=
    Memory.advance_eq_mod inside
  refine ⟨(first + 1) % capacity, Nat.mod_lt _ (by omega), ?_, ?_, ?_⟩
  · change moveOn capacity objsize fields.store.head = _
    rw [head, moveOn_mul sized, onward]
  · change fields.store.tail = ((first + 1) % capacity + (fields.used - 1)) % capacity * objsize
    have shifted : first + 1 + (fields.used - 1) = first + fields.used := by omega
    rw [tail, Nat.mod_add_mod, shifted]
  · change fields.accepted = (fields.delivered ++
      [copyOut fields.store.bytes fields.store.head objsize]) ++ Memory.window
        (cell fields.store.bytes objsize) capacity ((first + 1) % capacity) (fields.used - 1)
    have front : copyOut fields.store.bytes fields.store.head objsize =
        cell fields.store.bytes objsize (first % capacity) := by
      rw [Nat.mod_eq_of_lt inside, head]
      rfl
    rw [accepted, used, Memory.window_succ_first, front, Nat.add_sub_cancel, List.append_assoc]
    rfl

/-- What every step of a `FixedBuffer` preserves. -/
structure Invariant (capacity : Nat) (fields : Fields Thread Fixed (Vector UInt8 objsize)) :
    Prop where
  bounded : Bounded capacity fields
  holding : Holding capacity objsize fields

variable [DecidableEq Thread]

theorem Invariant.loop (sized : Sized capacity objsize) (holds : Invariant capacity fields)
    (self : Thread) (frame : Frame (Vector UInt8 objsize)) :
    Invariant capacity (loop (fixedBuffer capacity objsize) self frame fields).fields := by
  refine ⟨bounded_loop holds.bounded self frame, ?_⟩
  have size := holds.bounded.size
  have used := holds.bounded.used
  cases frame with
  | post object =>
    by_cases full : fields.used = fields.size
    · simpa only [Buffer.loop, Buffer.post, full, if_true] using holds.holding
    · simp only [Buffer.loop, Buffer.post, full, if_false]
      exact holds.holding.post sized (by omega) object
  | wait =>
    by_cases none : fields.used = 0
    · simpa only [Buffer.loop, Buffer.wait, none, if_true] using holds.holding
    · simp only [Buffer.loop, Buffer.wait, none, if_false]
      exact holds.holding.wait sized (Nat.pos_of_ne_zero none) _

theorem Invariant.peek (holds : Invariant capacity fields) (self : Thread) :
    Invariant capacity (peek (fixedBuffer capacity objsize) self fields).fields := by
  unfold Buffer.peek
  split
  · exact holds
  · exact ⟨⟨holds.bounded.size, holds.bounded.used⟩, holds.holding⟩

/-- What a step does to the buffer, by the call it ends. A post is accepted, a wait delivers to its
caller, a peek shows its caller the next object to be delivered; anything else, a call that returns
`Buffer::timeout` among it, changes nothing. -/
def Served (before after : Fields Thread Fixed (Vector UInt8 objsize)) :
    Option (Thread × Call (Vector UInt8 objsize) × Bool) → Prop
  | some (_, .post object, true) =>
    after.accepted = before.accepted ++ [object] ∧ after.delivered = before.delivered
  | some (thread, .wait, true) => ∃ object, after.buf thread = some object ∧
      after.delivered = before.delivered ++ [object] ∧ after.accepted = before.accepted
  | some (thread, .peek, true) => ∃ object,
      before.accepted[before.delivered.length]? = some object ∧
      after = { before with buf := Function.update before.buf thread (some object) }
  | _ => after = before

theorem served_loop (self : Thread) (frame : Frame (Vector UInt8 objsize)) :
    Served fields (loop (fixedBuffer capacity objsize) self frame fields).fields
      ((loop (fixedBuffer capacity objsize) self frame fields).next.result.map fun result =>
        (self, (monitor Thread (fixedBuffer capacity objsize) true).call frame, result)) := by
  cases frame with
  | post object =>
    by_cases full : fields.used = fields.size
    · simp [loop, post, full, Next.result, Served]
    · simp [loop, post, full, Next.result, Served, monitor]
  | wait =>
    by_cases none : fields.used = 0
    · simp [loop, wait, none, Next.result, Served]
    · simp [loop, wait, none, Next.result, Served, monitor]

theorem served_peek (holds : Invariant capacity fields) (self : Thread) :
    Served fields (peek (fixedBuffer capacity objsize) self fields).fields
      ((peek (fixedBuffer capacity objsize) self fields).next.result.map fun result =>
        (self, .peek, result)) := by
  by_cases none : fields.used = 0
  · simp [peek, none, Next.result, Served]
  · have front := holds.holding.front (Nat.pos_of_ne_zero none)
    simp only [peek, none, if_false, Next.result, Option.map_some, Served]
    exact ⟨_, front, rfl⟩

variable [Fintype Thread] {source target : FixedState Thread objsize}

theorem invariant_step (sized : Sized capacity objsize)
    (action : Action Thread (Call (Vector UInt8 objsize)))
    (holds : Invariant capacity source.fields)
    (stepped : (monitor Thread (fixedBuffer capacity objsize) true).step source action =
      some target) : Invariant capacity target.fields := by
  cases action with
  | enter thread call chosen =>
    obtain ⟨_, _, _, ran⟩ := step_enter stepped
    rw [ran.fields]
    cases call with
    | post object => exact holds.loop sized thread (.post object)
    | wait => exact holds.loop sized thread .wait
    | peek => exact holds.peek thread
  | resume thread chosen =>
    obtain ⟨_, frame, flag, _, ran⟩ := step_resume stepped
    rw [ran.fields]
    cases flag with
    | false => exact holds
    | true => exact holds.loop sized thread frame
  | spurious thread =>
    rw [(step_spurious stepped).fields]
    exact holds
  | timeout thread =>
    rw [(step_timeout stepped).fields]
    exact holds

theorem invariant_reachable (positive : 0 < capacity) (sized : Sized capacity objsize)
    {state : FixedState Thread objsize}
    (reachable : (fixedMachine Thread true capacity objsize).Reachable state) :
    Invariant capacity state.fields := by
  obtain ⟨moves, run⟩ := reachable
  induction run with
  | start initial =>
    obtain ⟨fields, ⟨size, used, ⟨head, tail⟩, accepted, delivered⟩, rfl⟩ := initial
    refine ⟨⟨size, by simp [State.initial, used]⟩, 0, positive, ?_⟩
    simp [State.initial, used, head, tail, accepted, delivered]
  | next run action stepped inductionHypothesis =>
    exact invariant_step sized action inductionHypothesis stepped

theorem served_step (holds : Invariant capacity source.fields)
    (action : Action Thread (Call (Vector UInt8 objsize)))
    (stepped : (monitor Thread (fixedBuffer capacity objsize) true).step source action =
      some target) :
    Served source.fields target.fields
      ((monitor Thread (fixedBuffer capacity objsize) true).outcome source action) := by
  cases action with
  | enter thread call chosen =>
    obtain ⟨_, _, _, ran⟩ := step_enter stepped
    rw [ran.fields]
    cases call with
    | post object => exact served_loop thread (.post object)
    | wait => exact served_loop thread .wait
    | peek => exact served_peek holds thread
  | resume thread chosen =>
    obtain ⟨_, frame, flag, waitOver, ran⟩ := step_resume stepped
    rw [ran.fields, outcome_resume waitOver]
    cases flag with
    | false => cases frame <;> rfl
    | true => exact served_loop thread frame
  | spurious thread => exact (step_spurious stepped).fields
  | timeout thread => exact (step_timeout stepped).fields

/-- In every reachable state of a `FixedBuffer` whose bytes a `size_t` counts: the count stays
within the capacity; the objects delivered are a prefix of those accepted, with the counted ones in
between; `head` and `tail` point to objects inside the array; and every step serves the call it
ends. -/
theorem fixedBuffer_fifo (positive : 0 < capacity) (sized : 0 < objsize)
    (fits : capacity * objsize < 2 ^ 64) {state : FixedState Thread objsize}
    (reachable : (fixedMachine Thread true capacity objsize).Reachable state) :
    state.fields.size = capacity ∧ state.fields.used ≤ capacity ∧
      state.fields.delivered <+: state.fields.accepted ∧
      state.fields.delivered.length + state.fields.used = state.fields.accepted.length ∧
      state.fields.store.head + objsize ≤ maxbuf capacity objsize ∧
      state.fields.store.tail + objsize ≤ maxbuf capacity objsize ∧
      ∀ action target, (fixedMachine Thread true capacity objsize).step state action =
        some target →
        Served state.fields target.fields
          ((monitor Thread (fixedBuffer capacity objsize) true).outcome state action) := by
  have sized : Sized capacity objsize := ⟨sized, fits⟩
  have holds := invariant_reachable positive sized reachable
  obtain ⟨first, inside, head, tail, accepted⟩ := holds.holding
  have within : ∀ index, index < capacity →
      index * objsize + objsize ≤ maxbuf capacity objsize := by
    intro index below
    have bound := Nat.mul_le_mul_right objsize (Nat.succ_le_of_lt below)
    rwa [Nat.succ_mul, ← sized.maxbuf] at bound
  refine ⟨holds.bounded.size, holds.bounded.used, ?_, ?_, ?_, ?_,
    fun action _ stepped => served_step holds action stepped⟩
  · rw [accepted]
    exact List.prefix_append _ _
  · rw [accepted, List.length_append, Memory.length_window]
  · rw [head]
    exact within first inside
  · rw [tail]
    exact within _ (Nat.mod_lt _ positive)

end Fifo

/-- Three objects of two bytes go through a buffer of two, whose ring has wrapped by then; the
second has been delivered, and the third is left. -/
theorem fixedBuffer_fifo_wrapped :
    ∃ state : FixedState (Fin 2) 2, (fixedMachine (Fin 2) true 2 2).Reachable state ∧
      state.fields.accepted = [#v[1, 2], #v[3, 4], #v[5, 6]] ∧
      state.fields.buf 1 = some #v[3, 4] ∧ state.fields.store.tail = 2 ∧
      state.fields.delivered <+: state.fields.accepted ∧
      state.fields.delivered.length + state.fields.used = state.fields.accepted.length := by
  let start : FixedState (Fin 2) 2 :=
    .initial ⟨2, 0, ⟨fun _ => 0, 0, 0⟩, fun _ => none, [], []⟩ ()
  have initial : (fixedMachine (Fin 2) true 2 2).Init start :=
    ⟨_, ⟨rfl, rfl, ⟨rfl, rfl⟩, rfl, rfl⟩, rfl⟩
  let played := (fixedMachine (Fin 2) true 2 2).play start
    [.enter 0 (.post #v[1, 2]) none, .enter 0 (.post #v[3, 4]) none,
      .enter 0 (.post #v[5, 6]) none, .enter 1 .wait (some 0), .resume 0 none,
      .enter 1 .wait none]
  have reachable : (fixedMachine (Fin 2) true 2 2).Reachable (played.get (by decide)) :=
    Machine.reachable_get initial _
  have fifo := fixedBuffer_fifo (by decide) (by decide) (by decide) reachable
  exact ⟨_, reachable, by decide, by decide, by decide, fifo.2.2.1, fifo.2.2.2.1⟩

/-- Of 2 ^ 63 objects of two bytes the product is zero: every object is written to the start of a
ring without bytes, and the second of two is delivered before the first. -/
theorem fixedBuffer_not_fifo :
    ∃ state : FixedState (Fin 2) 2, (fixedMachine (Fin 2) true (2 ^ 63) 2).Reachable state ∧
      state.fields.accepted = [#v[1, 2], #v[3, 4]] ∧ state.fields.delivered = [#v[3, 4]] ∧
      ¬ state.fields.store.head + 2 ≤ maxbuf (2 ^ 63) 2 := by
  let start : FixedState (Fin 2) 2 :=
    .initial ⟨2 ^ 63, 0, ⟨fun _ => 0, 0, 0⟩, fun _ => none, [], []⟩ ()
  have initial : (fixedMachine (Fin 2) true (2 ^ 63) 2).Init start :=
    ⟨_, ⟨rfl, rfl, ⟨rfl, rfl⟩, rfl, rfl⟩, rfl⟩
  let played := (fixedMachine (Fin 2) true (2 ^ 63) 2).play start
    [.enter 0 (.post #v[1, 2]) none, .enter 0 (.post #v[3, 4]) none, .enter 1 .wait none]
  have reachable : (fixedMachine (Fin 2) true (2 ^ 63) 2).Reachable (played.get (by decide)) :=
    Machine.reachable_get initial _
  exact ⟨_, reachable, by decide, by decide, by decide⟩

end Buffer

end CommonCpp
