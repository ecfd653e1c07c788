/-
This file models `ConditionalLock`, the conditional access scheduler that keeps
one context per thread, and determines when its contexts belong to one thread.

A context counts how deep its thread is nested. A thread that asks for exclusive
access first takes its own count out of `sharing`, so that it waits for the
others only, and puts it back when it commits or shares again. Contexts are
never freed: one whose count has fallen to zero is a slot for the next thread
that has none.

A `modify` by a thread that holds nothing waits with the count of its context
still zero. The context then looks like a free slot, and `getContext` hands it
to another thread when it is the oldest one. This file proves that nothing else
goes wrong: a run keeps every context with one thread, at that thread's nesting
depth, exactly when no such slot is ever taken and no counter is raised past its
end.

The counters wrap like `unsigned`. The assertions of the source only end a run
early and are left out.
-/

import CommonCpp.ConditionalAccess
import CommonCpp.Registry

namespace CommonCpp

open Concurrency Concurrency.Monitor Counter

namespace ConditionalLock

open ConditionalAccess (Queue)

/-! ### The code -/

/-- A context: the thread it was last given to, and that thread's nesting depth. -/
structure Context (Thread : Type) where
  thread : Thread
  count : Nat
  deriving DecidableEq

/-- The fields of a `ConditionalLock`. A context is known by its address; `contexts` links the
addresses, the newest first, and `context` is what they point to. -/
structure Fields (Thread : Type) extends ConditionalAccess.Fields where
  contexts : List Nat
  context : Nat → Context Thread

inductive Call
  | modify
  | commit
  | access
  | release
  | exclusive
  | share
  deriving DecidableEq

/-- The calls that wait, with the context they wait on. -/
inductive Frame
  | modify (context : Nat)
  | access (context : Nat)
  | exclusive (context : Nat)
  deriving DecidableEq

/-- The context a suspended call keeps a pointer to. -/
def Frame.context : Frame → Nat
  | .modify context => context
  | .access context => context
  | .exclusive context => context

/-- The exclusive access a thread is in, if any: between `modify` and `commit`, or between
`exclusive` and `share`. -/
inductive Mode
  | none
  | modify
  | exclusive
  deriving DecidableEq

/-- What a thread holds: the accesses it has not released, and its exclusive access. -/
structure Holds where
  shared : Nat
  mode : Mode
  deriving DecidableEq

section Code

variable {Thread : Type} [DecidableEq Thread]

/-- The count of the context at an address. -/
def Fields.count (fields : Fields Thread) (context : Nat) : Nat :=
  (fields.context context).count

/-- The fields with another count in the context at an address. -/
def Fields.setCount (fields : Fields Thread) (context count : Nat) : Fields Thread :=
  { fields with
    context := Function.update fields.context context
      { fields.context context with count := count } }

/-- The context is in use by the thread. -/
def Fields.nests (fields : Fields Thread) (tid : Thread) (cp : Nat) : Bool :=
  fields.count cp ≠ 0 ∧ (fields.context cp).thread = tid

omit [DecidableEq Thread] in
/-- The context has no count. -/
def Fields.free (fields : Fields Thread) (cp : Nat) : Bool :=
  fields.count cp = 0

/-- `getContext`: the address of the calling thread's context, and the fields after the call. Its
loop returns the first context in use by the thread; when it runs out, the slot is the last free
context it saw. -/
def getContext (fields : Fields Thread) (tid : Thread) : Nat × Fields Thread :=
  match search (fields.nests tid) fields.free fields.contexts none with
  | .inl cp => (cp, fields)
  | .inr (some slot) =>
    (slot,
      { fields with
        context := Function.update fields.context slot
          { fields.context slot with thread := tid } })
  | .inr none =>
    let slot := fields.contexts.length
    (slot,
      { fields with
        contexts := slot :: fields.contexts
        context := Function.update fields.context slot ⟨tid, 0⟩ })

/-- `modify` from its loop test on. It returns without unlocking. -/
def modifyLoop (fields : Fields Thread) (context : Nat) : Section (Fields Thread) Queue Frame :=
  if fields.sharing ≠ 0 then
    ⟨{ fields with pending := raise fields.pending 1 }, .none, .sleep (.modify context)⟩
  else
    ⟨fields.setCount context (raise (fields.count context) 1), .none, .keep true⟩

def modify (fields : Fields Thread) (self : Thread) : Section (Fields Thread) Queue Frame :=
  let (context, fields) := getContext fields self
  modifyLoop { fields with sharing := lower fields.sharing (fields.count context) } context

/-- `commit`, entered with the mutex locked by `modify`. -/
def commit (fields : Fields Thread) (self : Thread) : Section (Fields Thread) Queue Frame :=
  let (context, fields) := getContext fields self
  let fields := fields.setCount context (lower (fields.count context) 1)
  if fields.count context ≠ 0 then
    ⟨{ fields with sharing := raise fields.sharing (fields.count context) }, .none, .leave true⟩
  else
    ⟨fields, (ConditionalAccess.commit fields.toFields).wake, .leave true⟩

def release (fields : Fields Thread) (self : Thread) : Section (Fields Thread) Queue Frame :=
  let (context, fields) := getContext fields self
  let fields := { fields with sharing := lower fields.sharing 1 }
  let fields := fields.setCount context (lower (fields.count context) 1)
  ⟨fields,
    if fields.pending ≠ 0 ∧ fields.sharing = 0 then .signal .cond
    else if fields.waiting ≠ 0 ∧ fields.pending = 0 then .broadcast .bcast
    else .none,
    .leave true⟩

/-- `access` from its loop test on. A nested access does not wait. -/
def accessLoop (fields : Fields Thread) (context : Nat) : Section (Fields Thread) Queue Frame :=
  if fields.count context < 2 ∧ fields.pending ≠ 0 then
    ⟨{ fields with waiting := raise fields.waiting 1 }, .none, .sleep (.access context)⟩
  else
    ⟨{ fields with sharing := raise fields.sharing 1 }, .none, .leave true⟩

def access (fields : Fields Thread) (self : Thread) : Section (Fields Thread) Queue Frame :=
  let (context, fields) := getContext fields self
  accessLoop (fields.setCount context (raise (fields.count context) 1)) context

/-- `exclusive` from its loop test on. It returns without unlocking. -/
def exclusiveLoop (fields : Fields Thread) (context : Nat) :
    Section (Fields Thread) Queue Frame :=
  if fields.sharing ≠ 0 then
    ⟨{ fields with pending := raise fields.pending 1 }, .none, .sleep (.exclusive context)⟩
  else
    ⟨fields, .none, .keep true⟩

def exclusive (fields : Fields Thread) (self : Thread) : Section (Fields Thread) Queue Frame :=
  let (context, fields) := getContext fields self
  exclusiveLoop { fields with sharing := lower fields.sharing (fields.count context) } context

/-- `share`, entered with the mutex locked by `exclusive`. -/
def share (fields : Fields Thread) (self : Thread) : Section (Fields Thread) Queue Frame :=
  let (context, fields) := getContext fields self
  ⟨{ fields with sharing := raise fields.sharing (fields.count context) }, .none, .leave true⟩

/-- The calls of `ConditionalLock`. A thread releases, commits and shares only what it holds, and
takes exclusive access only over a shared one. A wait that ends decrements the counter it
incremented and goes back to the loop test. -/
def monitor (Thread : Type) [DecidableEq Thread] :
    Monitor Thread (Fields Thread) Call Queue Frame Holds where
  enter thread call fields :=
    match call with
    | .modify => modify fields thread
    | .commit => commit fields thread
    | .access => access fields thread
    | .release => release fields thread
    | .exclusive => exclusive fields thread
    | .share => share fields thread
  resume _ frame _ fields :=
    match frame with
    | .modify context => modifyLoop { fields with pending := lower fields.pending 1 } context
    | .access context => accessLoop { fields with waiting := lower fields.waiting 1 } context
    | .exclusive context => exclusiveLoop { fields with pending := lower fields.pending 1 } context
  call
    | .modify _ => .modify
    | .access _ => .access
    | .exclusive _ => .exclusive
  queue
    | .modify _ => .cond
    | .access _ => .bcast
    | .exclusive _ => .cond
  timed _ := false
  spurious := true
  inside
    | .commit => true
    | .share => true
    | _ => false
  may holds
    | .commit => holds.mode = .modify
    | .share => holds.mode = .exclusive
    | .release => holds.shared ≠ 0
    | .exclusive => holds.shared ≠ 0
    | _ => true
  book call _ holds :=
    match call with
    | .modify => { holds with mode := .modify }
    | .commit => { holds with mode := .none }
    | .access => { holds with shared := holds.shared + 1 }
    | .release => { holds with shared := holds.shared - 1 }
    | .exclusive => { holds with mode := .exclusive }
    | .share => { holds with mode := .none }

end Code

/-- The state of a `ConditionalLock` and of the threads that use it. -/
abbrev State (Thread : Type) := Monitor.State Thread (Fields Thread) Frame Holds

/-- A newly constructed lock. -/
def Fresh {Thread : Type} (fields : Fields Thread) : Prop :=
  fields.toFields = ⟨0, 0, 0⟩ ∧ fields.contexts = []

/-- The runs of a `ConditionalLock` from its constructor on. -/
def machine (Thread : Type) [DecidableEq Thread] [Fintype Thread] :
    Machine (State Thread) (Action Thread Call) :=
  (monitor Thread).machine Fresh ⟨0, .none⟩

/-! ### Ownership -/

section Ownership

variable {Thread : Type}

theorem modifyLoop_of_unshared {fields : Fields Thread} (unshared : fields.sharing = 0)
    (context : Nat) :
    modifyLoop fields context =
      ⟨fields.setCount context (raise (fields.count context) 1), .none, .keep true⟩ := by
  simp [modifyLoop, unshared]

theorem modifyLoop_of_shared {fields : Fields Thread} (shared : fields.sharing ≠ 0)
    (context : Nat) :
    modifyLoop fields context =
      ⟨{ fields with pending := raise fields.pending 1 }, .none, .sleep (.modify context)⟩ := by
  simp [modifyLoop, shared]

theorem exclusiveLoop_of_unshared {fields : Fields Thread} (unshared : fields.sharing = 0)
    (context : Nat) : exclusiveLoop fields context = ⟨fields, .none, .keep true⟩ := by
  simp [exclusiveLoop, unshared]

theorem exclusiveLoop_of_shared {fields : Fields Thread} (shared : fields.sharing ≠ 0)
    (context : Nat) :
    exclusiveLoop fields context =
      ⟨{ fields with pending := raise fields.pending 1 }, .none, .sleep (.exclusive context)⟩ := by
  simp [exclusiveLoop, shared]

/-- The nesting depth of a thread: the accesses it has begun and not released, and one more
between `modify` and `commit`. -/
def depth : Option Frame → Holds → Nat
  | some (.access _), holds => holds.shared + 1
  | _, holds => holds.shared + if holds.mode = .modify then 1 else 0

/-- The part of a thread in `sharing`: its accesses, unless it waits for exclusive access or has
it. -/
def sharedWeight : Option Frame → Holds → Nat
  | some (.modify _), _ => 0
  | some (.exclusive _), _ => 0
  | _, holds => if holds.mode = .none then holds.shared else 0

/-- A thread that asks for exclusive access with `exclusive`, or has it so, has accesses. -/
def Upgrades : Option Frame → Holds → Prop
  | some (.exclusive _), holds => holds.shared ≠ 0
  | _, holds => holds.mode = .exclusive → holds.shared ≠ 0

/-- The nesting depth of a thread in a state. -/
def State.depth (state : State Thread) (thread : Thread) : Nat :=
  ConditionalLock.depth (state.threads thread).place.frame (state.threads thread).holds

/-- The context on which a thread is blocked inside a call, if it is. -/
def State.blockedOn (state : State Thread) (thread : Thread) : Option Nat :=
  (state.threads thread).place.frame.map Frame.context

/-- A context in use: it has a count, or its thread is blocked on it. -/
def State.InUse (state : State Thread) (context : Nat) : Prop :=
  context ∈ state.fields.contexts ∧
    (state.fields.count context ≠ 0 ∨
      state.blockedOn (state.fields.context context).thread = some context)

/-- A context in use belongs to one thread, which has no other, and its count is that thread's
nesting depth. A thread that holds anything has one. -/
structure Owned (state : State Thread) : Prop where
  blocked : ∀ thread context, state.blockedOn thread = some context →
    context ∈ state.fields.contexts ∧ (state.fields.context context).thread = thread
  counted : ∀ context, state.InUse context →
    state.fields.count context = state.depth (state.fields.context context).thread
  single : ∀ context context', state.InUse context → state.InUse context' →
    (state.fields.context context).thread = (state.fields.context context').thread →
    context = context'
  present : ∀ thread, state.depth thread ≠ 0 →
    ∃ context, state.InUse context ∧ (state.fields.context context).thread = thread

/-- The oldest of the contexts without a count: the slot `getContext` takes for a thread that has
no context. -/
def oldestFree (fields : Fields Thread) : Option Nat :=
  (fields.contexts.filter fields.free).getLast?

/-- A step takes no context from under a blocked call: when a thread that holds nothing begins a
`modify` or an `access`, no thread is blocked on the oldest context without a count. -/
def Undisturbed (state : State Thread) : Action Thread Call → Prop
  | .enter thread .modify _ | .enter thread .access _ =>
    (state.threads thread).holds.shared = 0 → ∀ context,
      oldestFree state.fields = some context → ∀ other, state.blockedOn other ≠ some context
  | _ => True

/-- A call that is let in finds room in the counters it raises: a `modify` in the count of its
context, an `access` in `sharing`. -/
def Room (state : State Thread) (thread : Thread) : Call → Prop
  | .modify =>
    state.fields.sharing =
        sharedWeight (state.threads thread).place.frame (state.threads thread).holds →
      (state.threads thread).holds.shared + 1 < 2 ^ 32
  | .access =>
    (state.threads thread).holds.shared ≠ 0 ∨ state.fields.pending = 0 →
      state.fields.sharing + 1 < 2 ^ 32
  | _ => True

instance (state : State Thread) (thread : Thread) :
    (call : Call) → Decidable (Room state thread call)
  | .modify | .access => inferInstanceAs (Decidable (_ → _))
  | .commit | .release | .exclusive | .share => inferInstanceAs (Decidable True)

/-- A step takes no context from under a blocked call, and raises no counter past its end. -/
def Safe [DecidableEq Thread] (state : State Thread) (action : Action Thread Call) : Prop :=
  Undisturbed state action ∧ (monitor Thread).Before Room state action

section GetContext

variable [DecidableEq Thread] {fields : Fields Thread} {tid : Thread}

theorem nests_iff {cp : Nat} : fields.nests tid cp = true ↔
    fields.count cp ≠ 0 ∧ (fields.context cp).thread = tid := by
  simp [Fields.nests]

theorem getContext_of_own {cp : Nat}
    (stopped : search (fields.nests tid) fields.free fields.contexts none = .inl cp) :
    getContext fields tid = (cp, fields) := by
  simp only [getContext, stopped]

theorem getContext_of_slot {slot : Nat}
    (none : ∀ cp ∈ fields.contexts, ¬ fields.nests tid cp = true)
    (oldest : oldestFree fields = some slot) :
    getContext fields tid =
      (slot,
        { fields with
          context := Function.update fields.context slot
            { fields.context slot with thread := tid } }) := by
  have ended := search_of_forall fields.free Option.none none
  rw [show (fields.contexts.filter fields.free).getLast? = some slot from oldest] at ended
  simp only [getContext, ended, Option.some_or]

theorem getContext_of_full
    (none : ∀ cp ∈ fields.contexts, ¬ fields.nests tid cp = true)
    (full : oldestFree fields = Option.none) :
    getContext fields tid =
      (fields.contexts.length,
        { fields with
          contexts := fields.contexts.length :: fields.contexts
          context := Function.update fields.context fields.contexts.length ⟨tid, 0⟩ }) := by
  have ended := search_of_forall fields.free Option.none none
  rw [show (fields.contexts.filter fields.free).getLast? = Option.none from full] at ended
  simp only [getContext, ended, Option.none_or]

omit [DecidableEq Thread] in
theorem oldestFree_spec {context : Nat} (oldest : oldestFree fields = some context) :
    context ∈ fields.contexts ∧ fields.count context = 0 := by
  have member := List.mem_of_getLast? oldest
  simpa [Fields.free] using member

end GetContext

/-! ### The context a section works on -/

/-- A section of a thread works on one context: the contexts are linked as in `contexts` and
stand as in `context`, the one the section works on has been given to the thread, and the rest
are as in the source. In the source the thread used no other, and no other thread used it. -/
structure Located (source : State Thread) (thread : Thread) (contexts : List Nat)
    (context : Nat → Context Thread) (chosen : Nat) : Prop where
  member : chosen ∈ contexts
  linked : ∀ other, other ≠ chosen → (other ∈ contexts ↔ other ∈ source.fields.contexts)
  bounded : ∀ other ∈ contexts, other < contexts.length
  rest : ∀ other, other ≠ chosen → context other = source.fields.context other
  given : (context chosen).thread = thread
  only : ∀ other, source.InUse other → (source.fields.context other).thread = thread →
    other = chosen
  ours : source.InUse chosen → (source.fields.context chosen).thread = thread

theorem Located.setCount {source : State Thread} {thread : Thread} {fields : Fields Thread}
    {chosen : Nat} (located : Located source thread fields.contexts fields.context chosen)
    (count : Nat) :
    Located source thread (fields.setCount chosen count).contexts
      (fields.setCount chosen count).context chosen := by
  refine ⟨located.member, located.linked, located.bounded, fun other different => ?_, ?_,
    located.only, located.ours⟩
  · rw [← located.rest other different]
    exact Function.update_of_ne different _ _
  · rw [← located.given]
    simp [Fields.setCount]

theorem Fields.count_setCount (fields : Fields Thread) (context count : Nat) :
    (fields.setCount context count).count context = count := by
  simp [Fields.setCount, Fields.count]

section Ran

variable [DecidableEq Thread] [Fintype Thread] {source target : State Thread} {thread : Thread}
  {call : Call} {passage : Section (Fields Thread) Queue Frame} {chosen : Nat}

theorem depth_other (ran : Ran (monitor Thread) source thread call passage target)
    {other : Thread} (different : other ≠ thread) :
    State.depth target other = State.depth source other := by
  unfold State.depth
  rw [ran.frame_other different, ran.holds_other different]

theorem blockedOn_other (ran : Ran (monitor Thread) source thread call passage target)
    {other : Thread} (different : other ≠ thread) :
    State.blockedOn target other = State.blockedOn source other := by
  unfold State.blockedOn
  rw [ran.frame_other different]

/-- A context other than the one worked on, in use afterwards, was in use by another thread. -/
theorem Located.inUse_before
    (located : Located source thread target.fields.contexts target.fields.context chosen)
    (ran : Ran (monitor Thread) source thread call passage target)
    (own : ∀ context, State.blockedOn target thread = some context → context = chosen)
    {context : Nat} (different : context ≠ chosen) (used : State.InUse target context) :
    State.InUse source context ∧ (source.fields.context context).thread ≠ thread := by
  obtain ⟨member, used⟩ := used
  rw [Fields.count, located.rest context different] at used
  rcases used with counted | blocked
  · have before : State.InUse source context :=
      ⟨(located.linked context different).mp member, Or.inl counted⟩
    exact ⟨before, fun same => different (located.only context before same)⟩
  · have foreign : (source.fields.context context).thread ≠ thread := by
      intro same
      rw [same] at blocked
      exact different (own context blocked)
    rw [blockedOn_other ran foreign] at blocked
    exact ⟨⟨(located.linked context different).mp member, Or.inr blocked⟩, foreign⟩

/-- A context another thread used is not the one worked on, and is in use afterwards. -/
theorem Located.inUse_after
    (located : Located source thread target.fields.contexts target.fields.context chosen)
    (ran : Ran (monitor Thread) source thread call passage target)
    {context : Nat} (used : State.InUse source context)
    (foreign : (source.fields.context context).thread ≠ thread) :
    context ≠ chosen ∧ State.InUse target context := by
  have different : context ≠ chosen := by
    rintro rfl
    exact foreign (located.ours used)
  refine ⟨different, (located.linked context different).mpr used.1, ?_⟩
  rw [Fields.count, located.rest context different]
  refine used.2.imp_right fun blocked => ?_
  rw [blockedOn_other ran foreign]
  exact blocked

/-- Ownership is kept by a section that leaves its context with the thread's nesting depth. -/
theorem Owned.ran (owned : Owned source)
    (ran : Ran (monitor Thread) source thread call passage target)
    (located : Located source thread target.fields.contexts target.fields.context chosen)
    (count : target.fields.count chosen = State.depth target thread)
    (own : ∀ context, State.blockedOn target thread = some context → context = chosen) :
    Owned target := by
  have split : ∀ context, State.InUse target context →
      context = chosen ∨ context ≠ chosen ∧ State.InUse source context ∧
        (source.fields.context context).thread ≠ thread ∧
        target.fields.context context = source.fields.context context := by
    intro context used
    by_cases same : context = chosen
    · exact Or.inl same
    · obtain ⟨before, foreign⟩ := located.inUse_before ran own same used
      exact Or.inr ⟨same, before, foreign, located.rest context same⟩
  refine ⟨?_, ?_, ?_, ?_⟩
  · intro other context blocked
    by_cases same : other = thread
    · subst same
      rw [own context blocked]
      exact ⟨located.member, located.given⟩
    · rw [blockedOn_other ran same] at blocked
      obtain ⟨member, mine⟩ := owned.blocked other context blocked
      obtain ⟨different, used⟩ := located.inUse_after ran
        ⟨member, Or.inr (by rw [mine]; exact blocked)⟩ (by rw [mine]; exact same)
      exact ⟨used.1, by rw [located.rest context different]; exact mine⟩
  · intro context used
    rcases split context used with rfl | ⟨_, before, foreign, same⟩
    · rw [located.given, count]
    · rw [Fields.count, same, depth_other ran foreign]
      exact owned.counted context before
  · intro context context' used used' equal
    rcases split context used with rfl | ⟨_, before, foreign, same⟩ <;>
      rcases split context' used' with rfl | ⟨_, before', foreign', same'⟩
    · rfl
    · rw [located.given, same'] at equal
      exact absurd equal.symm foreign'
    · rw [located.given, same] at equal
      exact absurd equal foreign
    · rw [same, same'] at equal
      exact owned.single context context' before before' equal
  · intro other deep
    by_cases same : other = thread
    · subst same
      exact ⟨chosen, ⟨located.member, Or.inl (by rw [count]; exact deep)⟩, located.given⟩
    · rw [depth_other ran same] at deep
      obtain ⟨context, used, mine⟩ := owned.present other deep
      obtain ⟨different, after⟩ := located.inUse_after ran used (by rw [mine]; exact same)
      exact ⟨context, after, by rw [located.rest context different]; exact mine⟩

end Ran

/-! ### The invariant -/

/-- What every undisturbed step of a `ConditionalLock` preserves. -/
structure Invariant [Fintype Thread] (state : State Thread) : Prop where
  owned : Owned state
  bounded : ∀ context ∈ state.fields.contexts, context < state.fields.contexts.length
  sharing : state.fields.sharing = tally sharedWeight state.threads
  owner : ∀ thread, (state.threads thread).holds.mode ≠ .none ↔ state.owner = some thread
  alone : state.owner ≠ none → state.fields.sharing = 0
  upgrades : ∀ thread,
    Upgrades (state.threads thread).place.frame (state.threads thread).holds
  few : state.fields.sharing < 2 ^ 32
  shallow : ∀ thread, State.depth state thread < 2 ^ 32

variable [DecidableEq Thread] [Fintype Thread]

theorem invariant_init {state : State Thread} (initial : (machine Thread).Init state) :
    Invariant state := by
  obtain ⟨fields, ⟨counters, empty⟩, rfl⟩ := initial
  have sharing : fields.sharing = 0 := by rw [counters]
  refine ⟨⟨?_, ?_, ?_, ?_⟩, ?_, ?_, ?_, ?_, ?_, ?_, ?_⟩ <;>
    simp [State.initial, State.blockedOn, State.InUse, State.depth, depth, tally, sharedWeight,
      Upgrades, empty, sharing]

/-- What `getContext` gives a thread: a context located for it, at its nesting depth. -/
structure Found (source : State Thread) (thread : Thread) (found : Nat × Fields Thread) :
    Prop where
  located : Located source thread found.2.contexts found.2.context found.1
  counters : found.2.toFields = source.fields.toFields
  count : found.2.count found.1 = State.depth source thread

variable {source target : State Thread} {thread : Thread} {fields : Fields Thread} {call : Call}
  {passage : Section (Fields Thread) Queue Frame} {context : Nat}

/-- `getContext` finds a thread's own context, or takes one that nobody uses when no thread is
blocked on the slot it picks. -/
theorem Invariant.found (holds : Invariant source)
    (idle : (source.threads thread).place = .idle)
    (vacant : State.depth source thread = 0 → ∀ context,
      oldestFree source.fields = some context →
      ∀ other, State.blockedOn source other ≠ some context) :
    Found source thread (getContext source.fields thread) := by
  have unblocked : State.blockedOn source thread = none := by simp [State.blockedOn, idle]
  by_cases own : ∃ cp ∈ source.fields.contexts, source.fields.nests thread cp = true
  · obtain ⟨cp, member, nests, stopped⟩ := search_of_exists source.fields.free none own
    obtain ⟨counted, mine⟩ := nests_iff.mp nests
    have used : State.InUse source cp := ⟨member, Or.inl counted⟩
    rw [getContext_of_own stopped]
    refine ⟨⟨member, fun _ _ => Iff.rfl, holds.bounded, fun _ _ => rfl, mine,
      fun other used' mine' => ?_, fun _ => mine⟩, rfl, ?_⟩
    · exact holds.owned.single other cp used' used (by rw [mine', mine])
    · rw [← mine]
      exact holds.owned.counted cp used
  · have unused : ∀ other, State.InUse source other →
        (source.fields.context other).thread ≠ thread := by
      rintro other ⟨member, counted | blocked⟩ mine
      · exact own ⟨other, member, nests_iff.mpr ⟨counted, mine⟩⟩
      · rw [mine, unblocked] at blocked
        cases blocked
    have shallow : State.depth source thread = 0 := by
      by_contra deep
      obtain ⟨other, used, mine⟩ := holds.owned.present thread deep
      exact unused other used mine
    have none : ∀ cp ∈ source.fields.contexts, ¬ source.fields.nests thread cp = true :=
      fun cp member nests => own ⟨cp, member, nests⟩
    cases oldest : oldestFree source.fields with
    | some slot =>
      obtain ⟨member, free⟩ := oldestFree_spec oldest
      rw [getContext_of_slot none oldest]
      refine ⟨⟨member, fun _ _ => Iff.rfl, holds.bounded,
        fun other different => Function.update_of_ne different _ _, ?_,
        fun other used mine => absurd mine (unused other used), fun used => ?_⟩, rfl, ?_⟩
      · simp
      · rcases used.2 with counted | blocked
        · exact absurd free counted
        · exact absurd blocked (vacant shallow slot oldest _)
      · simp only [Fields.count, Function.update_self]
        rw [shallow]
        exact free
    | none =>
      have absent : source.fields.contexts.length ∉ source.fields.contexts :=
        fun member => Nat.lt_irrefl _ (holds.bounded _ member)
      rw [getContext_of_full none oldest]
      refine ⟨⟨List.mem_cons_self, fun other different => ?_, fun other member => ?_,
        fun other different => Function.update_of_ne different _ _, ?_,
        fun other used mine => absurd mine (unused other used),
        fun used => absurd used.1 absent⟩, rfl, ?_⟩
      · simp [different]
      · rcases List.mem_cons.mp member with rfl | member
        · simp
        · have := holds.bounded other member
          simp only [List.length_cons]
          omega
      · simp
      · simp [Fields.count, shallow]

/-- A thread that is at some depth finds its own context whatever the others do. -/
theorem Invariant.found_of_deep (holds : Invariant source)
    (idle : (source.threads thread).place = .idle) (deep : State.depth source thread ≠ 0) :
    Found source thread (getContext source.fields thread) :=
  holds.found idle fun shallow => absurd shallow deep

omit [DecidableEq Thread] in
/-- A suspended call still works on the context it was given. -/
theorem Invariant.located_of_blocked (holds : Invariant source)
    (blocked : State.blockedOn source thread = some context) :
    Located source thread source.fields.contexts source.fields.context context := by
  obtain ⟨member, mine⟩ := holds.owned.blocked thread context blocked
  have used : State.InUse source context := ⟨member, Or.inr (by rw [mine]; exact blocked)⟩
  exact ⟨member, fun _ _ => Iff.rfl, holds.bounded, fun _ _ => rfl, mine,
    fun other used' mine' => holds.owned.single other context used' used (by rw [mine', mine]),
    fun _ => mine⟩

/-- A section keeps the invariant when it leaves its context at the thread's nesting depth,
balances `sharing` with the thread's part in it, and takes the mutex along only when nothing is
shared. -/
theorem Invariant.ran (holds : Invariant source)
    (ran : Ran (monitor Thread) source thread call passage target) (context : Nat)
    (located : Located source thread target.fields.contexts target.fields.context context)
    (count : target.fields.count context = State.depth target thread)
    (own : ∀ other, State.blockedOn target thread = some other → other = context)
    (balanced : target.fields.sharing +
        sharedWeight (source.threads thread).place.frame (source.threads thread).holds =
      source.fields.sharing +
        sharedWeight (target.threads thread).place.frame (target.threads thread).holds)
    (access : source.owner = none ∨ source.owner = some thread)
    (agreed : (target.threads thread).holds.mode ≠ .none ↔ target.owner = some thread)
    (alone : target.owner ≠ none → target.fields.sharing = 0)
    (upgrades : Upgrades (target.threads thread).place.frame (target.threads thread).holds)
    (few : target.fields.sharing < 2 ^ 32) (shallow : State.depth target thread < 2 ^ 32) :
    Invariant target := by
  refine ⟨holds.owned.ran ran located count own, located.bounded,
    ran.counted holds.sharing balanced,
    ran.owner_iff (fun holds => holds.mode ≠ .none) holds.owner access agreed, alone,
    fun other => ?_, few, fun other => ?_⟩
  · by_cases same : other = thread
    · rw [same]
      exact upgrades
    · rw [ran.frame_other same, ran.holds_other same]
      exact holds.upgrades other
  · by_cases same : other = thread
    · rw [same]
      exact shallow
    · rw [depth_other ran same]
      exact holds.shallow other

omit [DecidableEq Thread] in
/-- The accesses of a thread can be counted. -/
theorem Invariant.shared_lt (holds : Invariant source) (thread : Thread) :
    (source.threads thread).holds.shared < 2 ^ 32 := by
  refine Nat.lt_of_le_of_lt ?_ (holds.shallow thread)
  unfold State.depth depth
  split
  · exact Nat.le_succ _
  · exact Nat.le_add_right _ _

omit [DecidableEq Thread] in
theorem Invariant.mode_of_free (holds : Invariant source) (free : source.owner = none)
    (thread : Thread) : (source.threads thread).holds.mode = .none := by
  by_contra exclusive
  have mine := (holds.owner thread).mp exclusive
  rw [free] at mine
  cases mine

/-! ### What each section preserves -/

/-- The fields from which a section that asks for exclusive access tests `sharing`: the thread's
context holds its accesses, and `sharing` is without them. -/
structure Asking (source : State Thread) (thread : Thread) (fields : Fields Thread)
    (context : Nat) : Prop where
  located : Located source thread fields.contexts fields.context context
  count : fields.count context = (source.threads thread).holds.shared
  sharing : fields.sharing +
      sharedWeight (source.threads thread).place.frame (source.threads thread).holds =
    source.fields.sharing

/-- The fields from which a section that asks for a shared access tests `pending`: the access is
in the count of the thread's context, and not yet in `sharing`. -/
structure Entering (source : State Thread) (thread : Thread) (fields : Fields Thread)
    (context : Nat) : Prop where
  located : Located source thread fields.contexts fields.context context
  count : fields.count context = raise (source.threads thread).holds.shared 1
  sharing : fields.sharing = source.fields.sharing
  pending : fields.pending = source.fields.pending
  weight : sharedWeight (source.threads thread).place.frame (source.threads thread).holds =
    (source.threads thread).holds.shared

/-- Going to sleep to wait for exclusive access keeps the invariant. -/
theorem Invariant.sleep (holds : Invariant source) (free : source.owner = none)
    (asking : Asking source thread fields context) {frame : Frame}
    (waits : frame = .modify context ∨
      frame = .exclusive context ∧ (source.threads thread).holds.shared ≠ 0)
    (ran : Ran (monitor Thread) source thread call
      ⟨{ fields with pending := raise fields.pending 1 }, .none, .sleep frame⟩ target) :
    Invariant target := by
  have own := ran.own
  have owner := ran.owner
  have after := ran.fields
  have clear := holds.mode_of_free free thread
  simp only [settleLocal, settleOwner] at own owner
  have count := asking.count
  have sharing := asking.sharing
  refine holds.ran ran context ?_ ?_ ?_ ?_ (Or.inl free) ?_ ?_ ?_ ?_ ?_
  · rw [after]
    exact asking.located
  · rw [after]
    rcases waits with rfl | ⟨rfl, _⟩ <;>
      simp [State.depth, own, depth, clear, ← count, Fields.count]
  · rcases waits with rfl | ⟨rfl, _⟩ <;> simp [State.blockedOn, own, Frame.context]
  · rw [after, ← sharing]
    rcases waits with rfl | ⟨rfl, _⟩ <;> simp [own, sharedWeight]
  · simp [own, owner, clear]
  · simp [owner]
  · rcases waits with rfl | ⟨rfl, held⟩
    · simp [own, Upgrades, clear]
    · simpa [own, Upgrades] using held
  · rw [after]
    exact Nat.lt_of_le_of_lt (Nat.le.intro sharing) holds.few
  · have lt := holds.shared_lt thread
    rcases waits with rfl | ⟨rfl, _⟩ <;> simpa [State.depth, own, depth, clear] using lt

/-- A section of `modify` keeps the invariant. -/
theorem Invariant.modifyLoop (holds : Invariant source) (free : source.owner = none)
    (asking : Asking source thread fields context) (room : Room source thread .modify)
    (ran : Ran (monitor Thread) source thread .modify (modifyLoop fields context) target) :
    Invariant target := by
  by_cases shared : fields.sharing = 0
  · rw [modifyLoop_of_unshared shared] at ran
    have own := ran.own
    have owner := ran.owner
    have after := ran.fields
    simp only [settleLocal, settleOwner, monitor] at own owner
    have sharing := asking.sharing
    have deeper : (source.threads thread).holds.shared + 1 < 2 ^ 32 := by
      refine room ?_
      rw [← sharing, shared, Nat.zero_add]
    refine holds.ran ran context ?_ ?_ ?_ ?_ (Or.inl free) ?_ ?_ ?_ ?_ ?_
    · rw [after]
      exact asking.located.setCount _
    · rw [after, Fields.count_setCount, asking.count, raise_of_lt deeper]
      simp [State.depth, own, depth]
    · simp [State.blockedOn, own]
    · rw [after, ← sharing]
      simp [own, sharedWeight, Fields.setCount]
    · simp [own, owner]
    · simp [after, shared, Fields.setCount]
    · simp [own, Upgrades]
    · simp [after, shared, Fields.setCount]
    · simpa [State.depth, own, depth] using deeper
  · rw [modifyLoop_of_shared shared] at ran
    exact holds.sleep free asking (Or.inl rfl) ran

/-- A section of `exclusive` keeps the invariant. -/
theorem Invariant.exclusiveLoop (holds : Invariant source) (free : source.owner = none)
    (asking : Asking source thread fields context)
    (held : (source.threads thread).holds.shared ≠ 0)
    (ran : Ran (monitor Thread) source thread .exclusive (exclusiveLoop fields context) target) :
    Invariant target := by
  by_cases shared : fields.sharing = 0
  · rw [exclusiveLoop_of_unshared shared] at ran
    have own := ran.own
    have owner := ran.owner
    have after := ran.fields
    simp only [settleLocal, settleOwner, monitor] at own owner
    have sharing := asking.sharing
    have lt := holds.shared_lt thread
    refine holds.ran ran context ?_ ?_ ?_ ?_ (Or.inl free) ?_ ?_ ?_ ?_ ?_
    · rw [after]
      exact asking.located
    · rw [after, asking.count]
      simp [State.depth, own, depth]
    · simp [State.blockedOn, own]
    · rw [after, ← sharing]
      simp [own, sharedWeight]
    · simp [own, owner]
    · simp [after, shared]
    · simpa [own, Upgrades] using held
    · simp [after, shared]
    · simpa [State.depth, own, depth] using lt
  · rw [exclusiveLoop_of_shared shared] at ran
    exact holds.sleep free asking (Or.inr ⟨rfl, held⟩) ran

/-- A section of `access` keeps the invariant. -/
theorem Invariant.accessLoop (holds : Invariant source) (free : source.owner = none)
    (entering : Entering source thread fields context) (room : Room source thread .access)
    (ran : Ran (monitor Thread) source thread .access (accessLoop fields context) target) :
    Invariant target := by
  obtain ⟨located, count, sharing, pending, weight⟩ := entering
  have own := ran.own
  have owner := ran.owner
  have after := ran.fields
  have clear := holds.mode_of_free free thread
  have enough := le_tally sharedWeight source.threads thread
  rw [← holds.sharing, weight] at enough
  have deeper : (source.threads thread).holds.shared + 1 < 2 ^ 32 := by
    by_cases nothing : (source.threads thread).holds.shared = 0
    · omega
    · have full := room (Or.inl nothing)
      omega
  rw [raise_of_lt deeper] at count
  unfold ConditionalLock.accessLoop at own owner after
  split at own
  next waits =>
    rw [if_pos waits] at owner after
    simp only [settleLocal, settleOwner] at own owner
    refine holds.ran ran context ?_ ?_ ?_ ?_ (Or.inl free) ?_ ?_ ?_ ?_ ?_
    · rw [after]
      exact located
    · rw [after]
      simp [State.depth, own, depth, ← count, Fields.count]
    · simp [State.blockedOn, own, Frame.context]
    · rw [after, weight, ← sharing]
      simp [own, sharedWeight, clear]
    · simp [own, owner, clear]
    · simp [owner]
    · simp [own, Upgrades, clear]
    · rw [after]
      exact sharing.trans_lt holds.few
    · have shallow := waits.1
      rw [count] at shallow
      simp only [State.depth, own, depth, Place.frame_asleep]
      omega
  next enters =>
    rw [if_neg enters] at owner after
    simp only [settleLocal, settleOwner, monitor] at own owner
    have full : fields.sharing + 1 < 2 ^ 32 := by
      rw [sharing]
      refine room ?_
      rw [← pending]
      omega
    rw [raise_of_lt full] at after
    refine holds.ran ran context ?_ ?_ ?_ ?_ (Or.inl free) ?_ ?_ ?_ ?_ ?_
    · rw [after]
      exact located
    · rw [after]
      simp [State.depth, own, depth, clear, ← count, Fields.count]
    · simp [State.blockedOn, own]
    · rw [after, weight]
      simp [own, sharedWeight, clear, sharing]
      omega
    · simp [own, owner, clear]
    · simp [owner]
    · simp [own, Upgrades, clear]
    · rw [after]
      exact full
    · simp only [State.depth, own, depth, clear, Place.frame_idle, reduceCtorEq, if_false]
      omega

omit [DecidableEq Thread] [Fintype Thread] in
theorem depth_of_idle (idle : (source.threads thread).place = .idle) :
    State.depth source thread = (source.threads thread).holds.shared +
      if (source.threads thread).holds.mode = .modify then 1 else 0 := by
  simp [State.depth, idle, depth]

omit [DecidableEq Thread] in
/-- The accesses of an idle thread without exclusive access are part of `sharing`. -/
theorem Invariant.shared_le (holds : Invariant source)
    (idle : (source.threads thread).place = .idle)
    (clear : (source.threads thread).holds.mode = .none) :
    (source.threads thread).holds.shared ≤ source.fields.sharing := by
  have weighs := le_tally sharedWeight source.threads thread
  rw [← holds.sharing, idle] at weighs
  simpa [sharedWeight, clear] using weighs

/-- A thread that has found its context and takes its accesses out of `sharing` is ready to test
`sharing`. -/
theorem Invariant.asking (holds : Invariant source) (free : source.owner = none)
    (idle : (source.threads thread).place = .idle)
    (found : Found source thread (getContext source.fields thread)) :
    Asking source thread
      { (getContext source.fields thread).2 with
        sharing := lower (getContext source.fields thread).2.sharing
          ((getContext source.fields thread).2.count (getContext source.fields thread).1) }
      (getContext source.fields thread).1 := by
  have clear := holds.mode_of_free free thread
  have enough := holds.shared_le idle clear
  have count : (getContext source.fields thread).2.count (getContext source.fields thread).1 =
      (source.threads thread).holds.shared := by
    rw [found.count, depth_of_idle idle]
    simp [clear]
  have sharing : (getContext source.fields thread).2.sharing = source.fields.sharing := by
    rw [found.counters]
  refine ⟨found.located, count, ?_⟩
  rw [count, sharing, lower_of_le enough, idle]
  simp only [Place.frame_idle, sharedWeight, clear, if_true]
  omega

/-- A thread that has found its context and counts its access in it is ready to test `pending`. -/
theorem Invariant.entering (holds : Invariant source) (free : source.owner = none)
    (idle : (source.threads thread).place = .idle)
    (found : Found source thread (getContext source.fields thread)) :
    Entering source thread
      ((getContext source.fields thread).2.setCount (getContext source.fields thread).1
        (raise ((getContext source.fields thread).2.count (getContext source.fields thread).1) 1))
      (getContext source.fields thread).1 := by
  have clear := holds.mode_of_free free thread
  refine ⟨found.located.setCount _, ?_, ?_, ?_, ?_⟩
  · rw [Fields.count_setCount, found.count, depth_of_idle idle, clear]
    rfl
  · exact congrArg ConditionalAccess.Fields.sharing found.counters
  · exact congrArg ConditionalAccess.Fields.pending found.counters
  · simp [idle, sharedWeight, clear]

omit [DecidableEq Thread] in
/-- A suspended call works on a context that is in use by its thread, at that thread's depth. -/
theorem Invariant.suspended (holds : Invariant source) {frame : Frame} {flag : Bool}
    (waitOver : WaitOver (source.threads thread).place frame flag) :
    Located source thread source.fields.contexts source.fields.context frame.context ∧
      source.fields.count frame.context = depth (some frame) (source.threads thread).holds := by
  have blocked : State.blockedOn source thread = some frame.context := by
    simp [State.blockedOn, waitOver.frame_eq]
  have located := holds.located_of_blocked blocked
  have used : State.InUse source frame.context :=
    ⟨located.member, Or.inr (by rw [located.given]; exact blocked)⟩
  have count := holds.owned.counted _ used
  rw [located.given, State.depth, waitOver.frame_eq] at count
  exact ⟨located, count⟩

omit [DecidableEq Thread] in
/-- A wait for exclusive access that is over leaves its thread ready to test `sharing` again. -/
theorem Invariant.asking_again (holds : Invariant source) (free : source.owner = none)
    {frame : Frame} {flag : Bool} (waitOver : WaitOver (source.threads thread).place frame flag)
    (waits : frame = .modify context ∨ frame = .exclusive context) :
    Asking source thread
      { source.fields with
        toFields := { source.fields.toFields with pending := lower source.fields.pending 1 } }
      context := by
  have clear := holds.mode_of_free free thread
  obtain ⟨located, count⟩ := holds.suspended waitOver
  rcases waits with rfl | rfl
  · exact ⟨located, count.trans (by simp [depth, clear]),
      by simp [waitOver.frame_eq, sharedWeight]⟩
  · exact ⟨located, count.trans (by simp [depth, clear]),
      by simp [waitOver.frame_eq, sharedWeight]⟩

omit [DecidableEq Thread] in
/-- A wait for a shared access that is over leaves its thread ready to test `pending` again. -/
theorem Invariant.entering_again (holds : Invariant source) (free : source.owner = none)
    {flag : Bool} (waitOver : WaitOver (source.threads thread).place (.access context) flag) :
    Entering source thread
      { source.fields with
        toFields := { source.fields.toFields with waiting := lower source.fields.waiting 1 } }
      context := by
  have clear := holds.mode_of_free free thread
  obtain ⟨located, count⟩ := holds.suspended waitOver
  have shallow := holds.shallow thread
  rw [State.depth, waitOver.frame_eq] at shallow
  exact ⟨located, count.trans (raise_of_lt shallow).symm, rfl, rfl,
    by simp [waitOver.frame_eq, sharedWeight, clear]⟩

omit [Fintype Thread] in
/-- The fields after `commit` by a thread whose context is one deeper than its accesses. -/
theorem commit_of_count {shared : Nat}
    (count : (getContext fields thread).2.count (getContext fields thread).1 = shared + 1)
    (unshared : (getContext fields thread).2.sharing = 0) (few : shared < 2 ^ 32) :
    (commit fields thread).fields =
        { (getContext fields thread).2.setCount (getContext fields thread).1 shared with
          sharing := shared } ∧
      (commit fields thread).next = .leave true := by
  have raised : raise (getContext fields thread).2.sharing shared = shared := by
    rw [unshared, raise_of_lt (by omega), Nat.zero_add]
  simp only [commit, count, Fields.count_setCount, lower_of_le (Nat.le_add_left 1 shared),
    Nat.add_sub_cancel]
  by_cases none : shared = 0
  · subst none
    rw [if_neg (fun nonzero => nonzero rfl)]
    exact ⟨congrArg (fun sharing => { (getContext fields thread).2.setCount _ 0 with
      sharing := sharing }) unshared, rfl⟩
  · rw [if_pos none]
    exact ⟨congrArg (fun sharing => { (getContext fields thread).2.setCount _ shared with
      sharing := sharing }) raised, rfl⟩

/-- `commit` keeps the invariant: the accesses the thread had before `modify` are shared
again. -/
theorem Invariant.commit (holds : Invariant source)
    (idle : (source.threads thread).place = .idle) (mine : source.owner = some thread)
    (exclusive : (source.threads thread).holds.mode = .modify)
    (ran : Ran (monitor Thread) source thread .commit (commit source.fields thread) target) :
    Invariant target := by
  have deep : State.depth source thread = (source.threads thread).holds.shared + 1 := by
    rw [depth_of_idle idle, exclusive]
    rfl
  have found := holds.found_of_deep idle (by omega)
  have unshared := holds.alone (by simp [mine])
  have lt := holds.shared_lt thread
  have sharing : (getContext source.fields thread).2.sharing = 0 := by
    rw [found.counters, unshared]
  obtain ⟨fields, next⟩ := commit_of_count (found.count.trans deep) sharing lt
  have own := ran.own
  have owner := ran.owner
  have after := ran.fields
  rw [next] at own owner
  rw [fields] at after
  simp only [settleLocal, settleOwner, monitor] at own owner
  refine holds.ran ran (getContext source.fields thread).1 ?_ ?_ ?_ ?_ (Or.inr mine) ?_ ?_ ?_
    ?_ ?_
  · rw [after]
    exact found.located.setCount _
  · rw [after]
    exact (Fields.count_setCount _ _ _).trans (by simp [State.depth, own, depth])
  · simp [State.blockedOn, own]
  · rw [after, unshared, idle]
    simp [own, sharedWeight, exclusive]
  · simp [own, owner]
  · simp [owner]
  · simp [own, Upgrades]
  · rw [after]
    exact lt
  · simpa [State.depth, own, depth] using lt

/-- `release` keeps the invariant. -/
theorem Invariant.release (holds : Invariant source)
    (idle : (source.threads thread).place = .idle) (free : source.owner = none)
    (held : (source.threads thread).holds.shared ≠ 0)
    (ran : Ran (monitor Thread) source thread .release (release source.fields thread) target) :
    Invariant target := by
  have clear := holds.mode_of_free free thread
  have enough := holds.shared_le idle clear
  have deep : State.depth source thread = (source.threads thread).holds.shared := by
    rw [depth_of_idle idle]
    simp [clear]
  have found := holds.found_of_deep idle (by omega)
  have count := found.count
  have own := ran.own
  have owner := ran.owner
  have after := ran.fields
  rw [deep] at count
  simp only [ConditionalLock.release, settleLocal, settleOwner, monitor] at own owner after
  have sharing : (getContext source.fields thread).2.sharing = source.fields.sharing := by
    rw [found.counters]
  have lt := holds.shared_lt thread
  refine holds.ran ran (getContext source.fields thread).1 ?_ ?_ ?_ ?_ (Or.inl free) ?_ ?_ ?_
    ?_ ?_
  · rw [after]
    exact found.located.setCount _
  · rw [after, Fields.count_setCount]
    change lower ((getContext source.fields thread).2.count _) 1 = _
    rw [count, lower_of_le (by omega)]
    simp [State.depth, own, depth, clear]
  · simp [State.blockedOn, own]
  · rw [after, idle]
    change lower (getContext source.fields thread).2.sharing 1 + _ = _
    rw [sharing, lower_of_le (by omega)]
    simp only [own, Place.frame_idle, sharedWeight, clear, if_true]
    omega
  · simp [own, owner, clear]
  · simp [owner]
  · simp [own, Upgrades, clear]
  · rw [after]
    change lower (getContext source.fields thread).2.sharing 1 < _
    rw [sharing, lower_of_le (by omega)]
    exact Nat.lt_of_le_of_lt (Nat.sub_le _ _) holds.few
  · simp only [State.depth, own, depth, clear, Place.frame_idle, reduceCtorEq, if_false]
    omega

/-- `share` keeps the invariant: the accesses the thread had before `exclusive` are shared
again. -/
theorem Invariant.share (holds : Invariant source)
    (idle : (source.threads thread).place = .idle) (mine : source.owner = some thread)
    (exclusive : (source.threads thread).holds.mode = .exclusive)
    (ran : Ran (monitor Thread) source thread .share (share source.fields thread) target) :
    Invariant target := by
  have held := holds.upgrades thread
  rw [idle] at held
  have deep : State.depth source thread = (source.threads thread).holds.shared := by
    rw [depth_of_idle idle]
    simp [exclusive]
  have found := holds.found_of_deep idle (by rw [deep]; exact held exclusive)
  have count := found.count.trans deep
  have own := ran.own
  have owner := ran.owner
  have after := ran.fields
  simp only [ConditionalLock.share, settleLocal, settleOwner, monitor] at own owner after
  have unshared := holds.alone (by simp [mine])
  have lt := holds.shared_lt thread
  have sharing : (getContext source.fields thread).2.sharing = 0 := by
    rw [found.counters, unshared]
  rw [count, sharing, raise_of_lt (by omega), Nat.zero_add] at after
  refine holds.ran ran (getContext source.fields thread).1 ?_ ?_ ?_ ?_ (Or.inr mine) ?_ ?_ ?_
    ?_ ?_
  · rw [after]
    exact found.located
  · rw [after]
    exact count.trans (by simp [State.depth, own, depth])
  · simp [State.blockedOn, own]
  · rw [after, unshared, idle]
    simp [own, sharedWeight, exclusive]
  · simp [own, owner]
  · simp [owner]
  · simp [own, Upgrades]
  · rw [after]
    exact lt
  · simpa [State.depth, own, depth] using lt

/-- A sleeper that leaves its condition without a signal keeps the invariant. -/
theorem Invariant.stirred (holds : Invariant source)
    (stirred : Stirred (monitor Thread) source thread target) : Invariant target := by
  have depths : State.depth target = State.depth source := by
    funext other
    unfold State.depth
    rw [stirred.frame_eq, stirred.holds_eq]
  have blocks : State.blockedOn target = State.blockedOn source := by
    funext other
    unfold State.blockedOn
    rw [stirred.frame_eq]
  have uses : State.InUse target = State.InUse source := by
    funext context
    unfold State.InUse
    rw [stirred.fields, blocks]
  refine ⟨⟨?_, ?_, ?_, ?_⟩, ?_, ?_, ?_, ?_, ?_, ?_, ?_⟩
  · rw [blocks, stirred.fields]
    exact holds.owned.blocked
  · rw [uses, depths, stirred.fields]
    exact holds.owned.counted
  · rw [uses, stirred.fields]
    exact holds.owned.single
  · rw [uses, depths, stirred.fields]
    exact holds.owned.present
  · rw [stirred.fields]
    exact holds.bounded
  · rw [stirred.fields, stirred.tally_eq, holds.sharing]
  · intro other
    rw [stirred.holds_eq, stirred.owner]
    exact holds.owner other
  · rw [stirred.owner, stirred.fields]
    exact holds.alone
  · intro other
    rw [stirred.frame_eq, stirred.holds_eq]
    exact holds.upgrades other
  · rw [stirred.fields]
    exact holds.few
  · rw [depths]
    exact holds.shallow

omit [DecidableEq Thread] [Fintype Thread] in
theorem Undisturbed.vacant {chosen : Option Thread}
    (undisturbed : Undisturbed source (.enter thread call chosen))
    (begins : call = .modify ∨ call = .access)
    (idle : (source.threads thread).place = .idle) (shallow : State.depth source thread = 0)
    (context : Nat) (oldest : oldestFree source.fields = some context) (other : Thread) :
    State.blockedOn source other ≠ some context := by
  rw [depth_of_idle idle] at shallow
  have nothing : (source.threads thread).holds.shared = 0 := by omega
  rcases begins with rfl | rfl <;> exact undisturbed nothing context oldest other

theorem invariant_enter {chosen : Option Thread} (holds : Invariant source)
    (undisturbed : Undisturbed source (.enter thread call chosen))
    (room : Room source thread call) (idle : (source.threads thread).place = .idle)
    (allowed : (monitor Thread).may (source.threads thread).holds call = true)
    (owner : source.owner = (monitor Thread).mutexFor thread call)
    (ran : Ran (monitor Thread) source thread call
      ((monitor Thread).enter thread call source.fields) target) : Invariant target := by
  cases call with
  | modify =>
    have found := holds.found idle (undisturbed.vacant (Or.inl rfl) idle)
    exact holds.modifyLoop owner (holds.asking owner idle found) room ran
  | commit => exact holds.commit idle owner (by simpa [monitor] using allowed) ran
  | access =>
    have found := holds.found idle (undisturbed.vacant (Or.inr rfl) idle)
    exact holds.accessLoop owner (holds.entering owner idle found) room ran
  | release => exact holds.release idle owner (by simpa [monitor] using allowed) ran
  | exclusive =>
    have held : (source.threads thread).holds.shared ≠ 0 := by simpa [monitor] using allowed
    have found := holds.found_of_deep idle (by rw [depth_of_idle idle]; omega)
    exact holds.exclusiveLoop owner (holds.asking owner idle found) held ran
  | share => exact holds.share idle owner (by simpa [monitor] using allowed) ran

theorem invariant_resume {frame : Frame} {flag : Bool} (holds : Invariant source)
    (room : Room source thread ((monitor Thread).call frame)) (free : source.owner = none)
    (waitOver : WaitOver (source.threads thread).place frame flag)
    (ran : Ran (monitor Thread) source thread ((monitor Thread).call frame)
      ((monitor Thread).resume thread frame flag source.fields) target) : Invariant target := by
  have upgrades := holds.upgrades thread
  rw [waitOver.frame_eq] at upgrades
  cases frame with
  | modify context =>
    exact holds.modifyLoop free (holds.asking_again free waitOver (Or.inl rfl)) room ran
  | access context => exact holds.accessLoop free (holds.entering_again free waitOver) room ran
  | exclusive context =>
    exact holds.exclusiveLoop free (holds.asking_again free waitOver (Or.inr rfl)) upgrades ran

theorem invariant_step (source : State Thread) (action : Action Thread Call)
    (target : State Thread) (holds : Invariant source)
    (safe : Safe source action)
    (stepped : (machine Thread).step source action = some target) : Invariant target := by
  obtain ⟨undisturbed, room⟩ := safe
  cases action with
  | enter thread call chosen =>
    obtain ⟨idle, allowed, owner, ran⟩ := step_enter stepped
    exact invariant_enter holds undisturbed room idle allowed owner ran
  | resume thread chosen =>
    obtain ⟨free, frame, flag, waitOver, ran⟩ := step_resume stepped
    exact invariant_resume holds (room frame waitOver.frame_eq) free waitOver ran
  | spurious thread => exact holds.stirred (step_spurious stepped)
  | timeout thread => exact holds.stirred (step_timeout stepped)

/-! ### When contexts are consistent -/

/-- The contexts and `sharing` are consistent: contexts in use are owned, `sharing` is the sum of
the accesses of the threads that neither have exclusive access nor wait for it, a thread with
exclusive access excludes every access of another, and the contexts that `commit` and `release`
would find have a count. -/
structure Consistent (state : State Thread) : Prop where
  owned : Owned state
  sharing : state.fields.sharing =
    ∑ thread, sharedWeight (state.threads thread).place.frame (state.threads thread).holds
  excluded : ∀ thread, (state.threads thread).holds.mode ≠ .none → ∀ other, other ≠ thread →
    (state.threads other).holds.mode = .none ∧
      sharedWeight (state.threads other).place.frame (state.threads other).holds = 0
  counted : ∀ thread call, call = .commit ∨ call = .release →
    (state.threads thread).place = .idle →
    (monitor Thread).may (state.threads thread).holds call = true →
    (getContext state.fields thread).2.count (getContext state.fields thread).1 ≠ 0

theorem Invariant.consistent (holds : Invariant source) : Consistent source := by
  refine ⟨holds.owned, holds.sharing, fun thread exclusive other different => ⟨?_, ?_⟩, ?_⟩
  · by_contra exclusive'
    have mine := (holds.owner thread).mp exclusive
    rw [(holds.owner other).mp exclusive'] at mine
    exact different (Option.some_inj.mp mine)
  · have mine := (holds.owner thread).mp exclusive
    have unshared := holds.alone (by simp [mine])
    rw [holds.sharing, tally_eq_zero_iff] at unshared
    exact unshared other
  · intro thread call lowers idle allowed
    have deep : State.depth source thread ≠ 0 := by
      rw [depth_of_idle idle]
      rcases lowers with rfl | rfl <;> simp [monitor] at allowed <;> simp [allowed]
    rw [(holds.found_of_deep idle deep).count]
    exact deep

omit [DecidableEq Thread] [Fintype Thread] in
theorem thread_modifyLoop (fields : Fields Thread) (context other : Nat) :
    ((ConditionalLock.modifyLoop fields context).fields.context other).thread =
      (fields.context other).thread := by
  by_cases shared : fields.sharing = 0
  · rw [modifyLoop_of_unshared shared]
    simp only [Fields.setCount, Function.update_apply]
    split
    next same => rw [same]
    next => rfl
  · rw [modifyLoop_of_shared shared]

omit [DecidableEq Thread] [Fintype Thread] in
theorem context_accessLoop (fields : Fields Thread) (context : Nat) :
    (ConditionalLock.accessLoop fields context).fields.context = fields.context := by
  unfold ConditionalLock.accessLoop
  split <;> rfl

/-- A thread that begins a call on a context another thread is blocked on takes the context
away from it. -/
theorem not_owned_of_disturbed {chosen : Option Thread} (holds : Invariant source)
    (disturbed : ¬ Undisturbed source (.enter thread call chosen))
    (idle : (source.threads thread).place = .idle)
    (owner : source.owner = (monitor Thread).mutexFor thread call)
    (ran : Ran (monitor Thread) source thread call
      ((monitor Thread).enter thread call source.fields) target) : ¬ Owned target := by
  have begins : (call = .modify ∨ call = .access) ∧
      (source.threads thread).holds.shared = 0 ∧ ∃ context,
        oldestFree source.fields = some context ∧ ∃ other,
          State.blockedOn source other = some context := by
    cases call <;> simp [Undisturbed] at disturbed ⊢ <;> exact disturbed
  obtain ⟨begins, nothing, context, oldest, other, blocked⟩ := begins
  have free : source.owner = none := by
    rcases begins with rfl | rfl <;> exact owner
  have shallow : State.depth source thread = 0 := by
    rw [depth_of_idle idle, nothing, holds.mode_of_free free thread]
    rfl
  have none : ∀ cp ∈ source.fields.contexts, ¬ source.fields.nests thread cp = true := by
    intro cp member nests
    obtain ⟨counted, mine⟩ := nests_iff.mp nests
    have count := holds.owned.counted cp ⟨member, Or.inl counted⟩
    rw [mine, shallow] at count
    exact counted count
  have different : other ≠ thread := by
    rintro rfl
    simp [State.blockedOn, idle] at blocked
  have taken : (target.fields.context context).thread = thread := by
    rw [ran.fields]
    rcases begins with rfl | rfl
    · change ((modify source.fields thread).fields.context context).thread = thread
      rw [modify, getContext_of_slot none oldest, thread_modifyLoop]
      simp
    · change ((access source.fields thread).fields.context context).thread = thread
      rw [access, getContext_of_slot none oldest, context_accessLoop]
      simp [Fields.setCount]
  intro owned
  have still : State.blockedOn target other = some context := by
    rw [blockedOn_other ran different]
    exact blocked
  have mine := (owned.blocked other context still).2
  rw [taken] at mine
  exact different mine.symm

/-- A section that leaves its context at another count than the thread's nesting depth leaves the
thread without a context. -/
theorem Located.not_owned
    (located : Located source thread target.fields.contexts target.fields.context context)
    (ran : Ran (monitor Thread) source thread call passage target)
    (own : ∀ other, State.blockedOn target thread = some other → other = context)
    (deep : State.depth target thread ≠ 0)
    (wrapped : target.fields.count context ≠ State.depth target thread) : ¬ Owned target := by
  intro owned
  obtain ⟨other, used, mine⟩ := owned.present thread deep
  by_cases same : other = context
  · have count := owned.counted other used
    rw [mine, same] at count
    exact wrapped count
  · obtain ⟨_, foreign⟩ := located.inUse_before ran own same used
    rw [located.rest other same] at mine
    exact foreign mine

/-- A `modify` that is let in without room wraps the count of its context. -/
theorem Invariant.modifyLoop_full (asking : Asking source thread fields context)
    (full : ¬ Room source thread .modify)
    (ran : Ran (monitor Thread) source thread .modify (ConditionalLock.modifyLoop fields context)
      target) : ¬ Owned target := by
  obtain ⟨alone, full⟩ := Classical.not_imp.mp full
  have sharing := asking.sharing
  rw [modifyLoop_of_unshared (by omega)] at ran
  have own := ran.own
  have after := ran.fields
  simp only [settleLocal, monitor] at own
  have deep : State.depth target thread = (source.threads thread).holds.shared + 1 := by
    simp [State.depth, own, depth]
  have located : Located source thread target.fields.contexts target.fields.context context := by
    rw [after]
    exact asking.located.setCount _
  refine located.not_owned ran (by simp [State.blockedOn, own]) (by omega) ?_
  · rw [after, Fields.count_setCount, deep]
    have lt := raise_lt (fields.count context) 1
    omega

/-- An `access` that is let in without room wraps the count of its context or `sharing`. -/
theorem Invariant.accessLoop_full (holds : Invariant source) (free : source.owner = none)
    (entering : Entering source thread fields context) (full : ¬ Room source thread .access)
    (ran : Ran (monitor Thread) source thread .access (ConditionalLock.accessLoop fields context)
      target) : ¬ Consistent target := by
  obtain ⟨located, count, _, pending, weight⟩ := entering
  obtain ⟨enters, full⟩ := Classical.not_imp.mp full
  have few := holds.few
  have clear := holds.mode_of_free free thread
  have own := ran.own
  have after := ran.fields
  have linked : target.fields.contexts = fields.contexts ∧
      target.fields.context = fields.context := by
    rw [after]
    unfold ConditionalLock.accessLoop
    split <;> exact ⟨rfl, rfl⟩
  by_cases deeper : (source.threads thread).holds.shared + 1 < 2 ^ 32
  · rw [raise_of_lt deeper] at count
    have passes : ¬ (fields.count context < 2 ∧ fields.pending ≠ 0) := by
      rw [count, pending]
      omega
    rw [ConditionalLock.accessLoop, if_neg passes] at own after
    simp only [settleLocal, monitor] at own
    have shared : source.fields.sharing + 1 = tally sharedWeight target.threads :=
      ran.counted holds.sharing (by
        rw [weight]
        simp [own, sharedWeight, clear]
        omega)
    intro consistent
    have wrapped : target.fields.sharing = tally sharedWeight target.threads := consistent.sharing
    rw [← shared, after] at wrapped
    have lt := raise_lt fields.sharing 1
    change raise fields.sharing 1 = _ at wrapped
    omega
  · have deep : State.depth target thread = (source.threads thread).holds.shared + 1 ∧
        ∀ other, State.blockedOn target thread = some other → other = context := by
      unfold ConditionalLock.accessLoop at own
      split at own <;> simp only [settleLocal, monitor] at own <;>
        simp [State.depth, State.blockedOn, own, depth, clear, Frame.context]
    have lt := raise_lt (source.threads thread).holds.shared 1
    rw [← linked.1, ← linked.2] at located
    refine fun consistent => located.not_owned ran deep.2 (by omega) ?_ consistent.owned
    rw [Fields.count, linked.2, deep.1]
    exact fun equal => by rw [Fields.count] at count; omega

/-- A call that is let in without room leaves counters that are wrong. -/
theorem not_consistent_of_full_enter {chosen : Option Thread} (holds : Invariant source)
    (undisturbed : Undisturbed source (.enter thread call chosen))
    (full : ¬ Room source thread call) (idle : (source.threads thread).place = .idle)
    (owner : source.owner = (monitor Thread).mutexFor thread call)
    (ran : Ran (monitor Thread) source thread call
      ((monitor Thread).enter thread call source.fields) target) : ¬ Consistent target := by
  cases call with
  | modify =>
    have found := holds.found idle (undisturbed.vacant (Or.inl rfl) idle)
    exact fun consistent =>
      Invariant.modifyLoop_full (holds.asking owner idle found) full ran consistent.owned
  | access =>
    have found := holds.found idle (undisturbed.vacant (Or.inr rfl) idle)
    exact holds.accessLoop_full owner (holds.entering owner idle found) full ran
  | _ => exact absurd trivial full

theorem not_consistent_of_full_resume {frame : Frame} {flag : Bool} (holds : Invariant source)
    (full : ¬ Room source thread ((monitor Thread).call frame)) (free : source.owner = none)
    (waitOver : WaitOver (source.threads thread).place frame flag)
    (ran : Ran (monitor Thread) source thread ((monitor Thread).call frame)
      ((monitor Thread).resume thread frame flag source.fields) target) :
    ¬ Consistent target := by
  cases frame with
  | modify context =>
    have asking := holds.asking_again free waitOver (Or.inl rfl)
    exact fun consistent => Invariant.modifyLoop_full asking full ran consistent.owned
  | access context =>
    exact holds.accessLoop_full free (holds.entering_again free waitOver) full ran
  | exclusive context => exact absurd trivial full

/-- A run of a `ConditionalLock` is consistent in each of its states exactly when no step of it
takes a context from under a blocked call or raises a counter past its end. -/
theorem conditionalLock_consistent_iff {moves : List (Move (State Thread) (Action Thread Call))}
    {state : State Thread} (run : (machine Thread).Run moves state) :
    Machine.Throughout Consistent moves state ↔ Machine.Meets Safe moves := by
  refine run.throughout_iff_meets Invariant (fun _ => invariant_init) invariant_step
    (fun _ holds => holds.consistent) ?_
  intro source action target holds spoiled stepped
  cases action with
  | enter thread call chosen =>
    obtain ⟨idle, _, owner, ran⟩ := step_enter stepped
    by_cases undisturbed : Undisturbed source (.enter thread call chosen)
    · have full : ¬ Room source thread call := fun room => spoiled ⟨undisturbed, room⟩
      exact not_consistent_of_full_enter holds undisturbed full idle owner ran
    · exact fun consistent =>
        not_owned_of_disturbed holds undisturbed idle owner ran consistent.owned
  | resume thread chosen =>
    obtain ⟨free, frame, flag, waitOver, ran⟩ := step_resume stepped
    refine not_consistent_of_full_resume holds (fun room => spoiled ⟨trivial, ?_⟩) free waitOver ran
    intro other suspended
    rw [waitOver.frame_eq, Option.mem_some_iff] at suspended
    exact suspended ▸ room
  | spurious thread => exact absurd ⟨trivial, trivial⟩ spoiled
  | timeout thread => exact absurd ⟨trivial, trivial⟩ spoiled

end Ownership

/-- A modifier waits for a reader, and is let through by its release. -/
theorem conditionalLock_consistent_iff_handover :
    ∃ moves, ∃ state : State (Fin 2), (machine (Fin 2)).Run moves state ∧
      (state.threads 1).holds.mode = .modify ∧
      Machine.Throughout Consistent moves state := by
  let start : State (Fin 2) := .initial ⟨⟨0, 0, 0⟩, [], fun _ => ⟨0, 0⟩⟩ ⟨0, .none⟩
  have initial : (machine (Fin 2)).Init start := ⟨_, ⟨rfl, rfl⟩, rfl⟩
  have run := ((((Machine.Run.start initial).take (.enter 0 .access none) (by decide)).take
    (.enter 1 .modify none) (by decide)).take (.enter 0 .release (some 1)) (by decide)).take
    (.resume 1 none) (by decide)
  refine ⟨_, _, run, by decide,
    (conditionalLock_consistent_iff run).mpr fun move member => ⟨?_, ?_⟩⟩ <;> revert move
  · refine List.forall_mem_cons.mpr ⟨trivial, List.forall_mem_cons.mpr ⟨trivial,
      List.forall_mem_cons.mpr ⟨?_, List.forall_mem_cons.mpr ⟨?_, by simp⟩⟩⟩⟩ <;>
      · intro _ context oldest
        cases oldest
  · decide

/-- A reader holds the lock; two modifiers that hold nothing wait for it, one after the other; the
reader releases, and the first modifier is let through. The second modifier has taken over the
first one's context, and the `commit` of the first would lower a count of zero. -/
theorem conditionalLock_loses_context :
    ∃ moves, ∃ state : State (Fin 3), (machine (Fin 3)).Run moves state ∧
      (state.threads 1).holds.mode = .modify ∧
      (state.fields.context 1).thread = 2 ∧ state.fields.count 1 = 1 ∧
      (getContext state.fields 1).2.count (getContext state.fields 1).1 = 0 ∧
      ¬ Machine.Throughout Consistent moves state := by
  let start : State (Fin 3) := .initial ⟨⟨0, 0, 0⟩, [], fun _ => ⟨0, 0⟩⟩ ⟨0, .none⟩
  have initial : (machine (Fin 3)).Init start := ⟨_, ⟨rfl, rfl⟩, rfl⟩
  let played := (machine (Fin 3)).play start
    [.enter 0 .access none, .enter 1 .modify none, .enter 2 .modify none,
      .enter 0 .release (some 1), .resume 1 none]
  obtain ⟨moves, run⟩ : (machine (Fin 3)).Reachable (played.get (by decide)) :=
    Machine.reachable_get initial _
  refine ⟨moves, _, run, by decide, by decide, by decide, by decide, fun throughout => ?_⟩
  exact throughout.1.counted 1 .commit (Or.inl rfl) (by decide) (by decide) (by decide)

end ConditionalLock

end CommonCpp
