/-
This file models `ThreadQueue`, a worker thread that runs the data blocks other
threads post, and proves the order it runs them in and when it sleeps on work.

`post` copies the data into a new block, links the block behind `last` under the
mutex, and then posts the semaphore. The worker reads `first` without the mutex,
runs the block there, unlinks and frees it under the mutex, and when there is
another block waits on the semaphore before it goes on. Each access to `first`
outside the mutex is a step of its own, and so is each critical section.

The order is right whatever the interleaving: the blocks run are a prefix of the
blocks posted, and only run blocks are freed. The wait between two blocks is
not. The semaphore is made with a limit of zero, so that posting it wakes a
thread that is already waiting and is forgotten otherwise; two posts that are
both over before the worker waits leave it asleep beside the second block. The
worker never sleeps on work exactly when each wait between blocks begins while
some `post` has still to reach the semaphore.

A block stands for the bytes that were copied. The ticket of a block is its
number in the order of linking; the code neither has nor needs it. The queue is
not destroyed and its timer is not set during a run.
-/

import Mathlib.Data.Fintype.Option
import CommonCpp.Chain
import CommonCpp.Semaphore

namespace CommonCpp

open Concurrency Concurrency.Monitor Memory

namespace ThreadQueue

/-! ### The code -/

/-- A posted block: its number in the order of linking, and its content. -/
structure Block (Data : Type) where
  ticket : Nat
  data : Data
  deriving DecidableEq

/-- A block in memory. -/
structure Node (Data : Type) where
  next : Option Nat
  block : Block Data

/-- The fields of a `ThreadQueue`, with the memory its blocks are in. An address that is not
allocated holds nothing. -/
structure Fields (Data : Type) where
  memory : Nat → Option (Node Data)
  first : Option Nat
  last : Option Nat
  started : Bool

/-- Where the worker is in `run`. -/
inductive Worker
  /-- The thread has not been started. -/
  | unstarted
  /-- Before `started = true`. -/
  | launched
  /-- Before the timed `Semaphore::wait`, and inside it. -/
  | top
  | timed
  /-- After a wait that timed out, before the test of `first`. -/
  | timer
  /-- Before the test of `started`, and asleep for good when it failed. -/
  | starting
  | parked
  /-- Before the test of the inner loop. -/
  | loopTest
  /-- Before `runQueue`, and after it. -/
  | running
  | popping
  /-- Before the test of `first` that guards the untimed `Semaphore::wait`. -/
  | recheck
  /-- Before the untimed `Semaphore::wait`, and inside it. -/
  | demark
  | untimed
  deriving DecidableEq

/-- Where a thread is in `post`: its data is copied to a block that is not linked yet, or the
block is linked but the semaphore not posted. -/
inductive Posting (Data : Type)
  | idle
  | copied (address : Nat) (data : Data)
  | linked
  deriving DecidableEq

section Code

variable {Data : Type}

/-- The block `post` copies its data into, at an address the allocator has free. -/
def allocate (fields : Fields Data) (address : Nat) (data : Data) : Option (Fields Data) :=
  match fields.memory address with
  | some _ => none
  | none =>
    some { fields with
      memory := Function.update fields.memory address (some ⟨none, 0, data⟩) }

/-- The critical section of `post`: the block goes behind the last one, and takes its ticket. -/
def enqueue (fields : Fields Data) (address ticket : Nat) : Option (Fields Data) :=
  (fields.memory address).map fun node =>
    let memory := Function.update fields.memory address
      (some { node with block := { node.block with ticket := ticket } })
    let memory :=
      match fields.last with
      | some last =>
        Function.update memory last
          ((memory last).map fun node => { node with next := some address })
      | none => memory
    { memory := memory
      first := fields.first.or (some address)
      last := some address
      started := true }

/-- The block that `runQueue` is given. -/
def front (fields : Fields Data) : Option (Block Data) :=
  (fields.first.bind fields.memory).map Node.block

/-- The critical section of `run`: the first block is unlinked and freed. -/
def pop (fields : Fields Data) : Option (Fields Data × Block Data) :=
  fields.first.bind fun prev =>
    (fields.memory prev).map fun node =>
      ({ fields with
          first := node.next
          memory := Function.update fields.memory prev none
          last := if node.next = none then none else fields.last }, node.block)

end Code

/-- The queue's semaphore. Whoever posts it releases it without having waited. -/
def semaphore (Thread : Type) : Monitor Thread Semaphore.Fields Semaphore.Call Unit
    Semaphore.Frame Nat :=
  { Semaphore.monitor Thread with may := fun _ _ => true }

/-- The state of a queue: its fields, its semaphore, the worker and the posting threads, and the
blocks linked, run and freed so far. The worker uses the semaphore as `none`. -/
structure State (Poster Data : Type) where
  fields : Fields Data
  semaphore : Semaphore.State (Option Poster)
  worker : Worker
  posters : Poster → Posting Data
  posted : List (Block Data)
  ran : List (Block Data)
  freed : List (Block Data)

/-- A thread copies the data it posts, links the block, or posts the semaphore; the worker makes
its next step; the worker's wait ends spuriously or times out. -/
inductive Action (Poster Data : Type)
  | allocate (poster : Poster) (address : Nat) (data : Data)
  | enqueue (poster : Poster)
  | post (poster : Poster)
  | work
  | spurious
  | timeout

/-- Where the worker goes on when a wait has returned. -/
def Worker.returned : Semaphore.Call → Bool → Worker
  | .waitTimed, true => .starting
  | .waitTimed, false => .timer
  | _, _ => .loopTest

section Machine

variable {Poster Data : Type} [DecidableEq Poster] [Fintype Poster]

/-- The worker makes a step inside the semaphore. It stays inside until its call returns. -/
def wait (state : State Poster Data)
    (action : Monitor.Action (Option Poster) Semaphore.Call) (inside : Worker) :
    Option (State Poster Data) :=
  ((ThreadQueue.semaphore (Option Poster)).step state.semaphore action).map fun semaphore =>
    { state with
      semaphore := semaphore
      worker :=
        match (ThreadQueue.semaphore (Option Poster)).outcome state.semaphore action with
        | none => inside
        | some (_, call, result) => .returned call result }

/-- The next step of `run`. -/
def work (state : State Poster Data) : Option (State Poster Data) :=
  match state.worker with
  | .unstarted => none
  | .launched => some { state with fields := { state.fields with started := true }, worker := .top }
  | .top => wait state (.enter none .waitTimed none) .timed
  | .timed => wait state (.resume none none) .timed
  | .timer => some { state with worker := if state.fields.first = none then .top else .starting }
  | .starting => some { state with worker := if state.fields.started then .loopTest else .parked }
  | .parked => none
  | .loopTest => some { state with worker := if state.fields.first = none then .top else .running }
  | .running =>
    (front state.fields).map fun block =>
      { state with ran := state.ran ++ [block], worker := .popping }
  | .popping =>
    (pop state.fields).map fun (fields, block) =>
      { state with fields := fields, freed := state.freed ++ [block], worker := .recheck }
  | .recheck =>
    some { state with worker := if state.fields.first = none then .loopTest else .demark }
  | .demark => wait state (.enter none .wait none) .untimed
  | .untimed => wait state (.resume none none) .untimed

/-- One step of a queue and its threads. Linking the first block starts the worker. -/
def step (state : State Poster Data) : Action Poster Data → Option (State Poster Data)
  | .allocate poster address data =>
    match state.posters poster with
    | .idle =>
      (allocate state.fields address data).map fun fields =>
        { state with
          fields := fields
          posters := Function.update state.posters poster (.copied address data) }
    | _ => none
  | .enqueue poster =>
    match state.posters poster with
    | .copied address data =>
      (enqueue state.fields address state.posted.length).map fun fields =>
        { state with
          fields := fields
          worker := if state.fields.started then state.worker else .launched
          posters := Function.update state.posters poster .linked
          posted := state.posted ++ [⟨state.posted.length, data⟩] }
    | _ => none
  | .post poster =>
    match state.posters poster with
    | .linked =>
      ((ThreadQueue.semaphore (Option Poster)).step state.semaphore
          (.enter (some poster) .release none)).map fun semaphore =>
        { state with
          semaphore := semaphore
          posters := Function.update state.posters poster .idle }
    | _ => none
  | .work => work state
  | .spurious => wait state (.spurious none) state.worker
  | .timeout => wait state (.timeout none) state.worker

/-- A newly constructed queue. -/
def initial : State Poster Data where
  fields := ⟨fun _ => none, none, none, false⟩
  semaphore := .initial ⟨0, 0, 0⟩ 0
  worker := .unstarted
  posters _ := .idle
  posted := []
  ran := []
  freed := []

/-- The runs of a `ThreadQueue` from its constructor on. -/
def machine (Poster Data : Type) [DecidableEq Poster] [Fintype Poster] :
    Machine (State Poster Data) (Action Poster Data) where
  Init state := state = initial
  step := step

end Machine

/-! ### Order -/

section Order

variable {Poster Data : Type}

/-- The links of the blocks in memory. -/
def links (memory : Nat → Option (Node Data)) (address : Nat) : Option (Option Nat) :=
  (memory address).map Node.next

/-- The number of blocks run and not yet freed. -/
def Worker.ahead : Worker → Nat
  | .popping => 1
  | _ => 0

/-- The worker has found a block and not yet run and freed it, or found the next one. -/
def Worker.Busy : Worker → Prop
  | .running | .popping | .demark | .untimed => True
  | _ => False

/-- What every step of a queue preserves, for the addresses of the blocks that are linked. -/
structure Ordered (state : State Poster Data) (chain : List Nat) : Prop where
  chained : Chain (links state.fields.memory) state.fields.first chain
  distinct : chain.Nodup
  last : state.fields.last = chain.getLast?
  contents : chain.map (fun address => (state.fields.memory address).map Node.block) =
    (state.posted.drop state.freed.length).map some
  freed : state.freed <+: state.posted
  ran : state.ran = state.posted.take (state.freed.length + state.worker.ahead)
  tickets : state.posted.map Block.ticket = List.range state.posted.length
  copied : ∀ poster address data, state.posters poster = .copied address data →
    address ∉ chain ∧ ∃ ticket, state.fields.memory address = some ⟨none, ticket, data⟩
  apart : ∀ poster poster' address data data', state.posters poster = .copied address data →
    state.posters poster' = .copied address data' → poster = poster'
  busy : state.worker.Busy → state.fields.first ≠ none
  unstarted : state.fields.started = false → state.worker = .unstarted

variable {source : State Poster Data} {chain : List Nat}

/-- The worker goes from one place to another without touching the queue. -/
theorem Ordered.goTo (ordered : Ordered source chain) {worker : Worker}
    (ahead : worker.ahead = source.worker.ahead)
    (busy : worker.Busy → source.fields.first ≠ none)
    (started : source.worker = .unstarted → worker = .unstarted)
    (semaphore : Semaphore.State (Option Poster)) :
    Ordered { source with semaphore := semaphore, worker := worker } chain := by
  refine ⟨ordered.chained, ordered.distinct, ordered.last, ordered.contents, ordered.freed, ?_,
    ordered.tickets, ordered.copied, ordered.apart, busy,
    fun unstarted => started (ordered.unstarted unstarted)⟩
  rw [ahead]
  exact ordered.ran

/-- A block that is copied but not linked stays out of the queue. -/
theorem Ordered.allocate [DecidableEq Poster] (ordered : Ordered source chain) {poster : Poster}
    {address : Nat} {data : Data} {fields : Fields Data}
    (allocated : allocate source.fields address data = some fields) :
    Ordered
      { source with
        fields := fields
        posters := Function.update source.posters poster (.copied address data) } chain := by
  unfold ThreadQueue.allocate at allocated
  split at allocated
  next => cases allocated
  next unused =>
    cases allocated
    have outside : address ∉ chain := fun member =>
      ordered.chained.allocated member (by simp [links, unused])
    have elsewhere : ∀ other, other ≠ address →
        Function.update source.fields.memory address (some ⟨none, 0, data⟩) other =
          source.fields.memory other := fun other different => Function.update_of_ne different _ _
    have inside : ∀ other ∈ chain,
        Function.update source.fields.memory address (some ⟨none, 0, data⟩) other =
          source.fields.memory other :=
      fun other member => elsewhere other fun same => outside (same ▸ member)
    have others : ∀ other address' data', source.posters other = .copied address' data' →
        address' ≠ address := by
      rintro other address' data' copied rfl
      obtain ⟨ticket, found⟩ := (ordered.copied other address' data' copied).2
      rw [unused] at found
      cases found
    refine ⟨ordered.chained.congr fun other member => ?_, ordered.distinct, ordered.last, ?_,
      ordered.freed, ordered.ran, ordered.tickets, ?_, ?_, ordered.busy, ordered.unstarted⟩
    · simp only [links, inside other member]
    · rw [← ordered.contents]
      exact List.map_congr_left fun other member => by simp only [inside other member]
    · intro other address' data' copied
      by_cases same : other = poster
      · subst same
        simp only [Function.update_self, Posting.copied.injEq] at copied
        obtain ⟨rfl, rfl⟩ := copied
        exact ⟨outside, 0, Function.update_self _ _ _⟩
      · simp only [Function.update_of_ne same] at copied
        obtain ⟨absent, ticket, found⟩ := ordered.copied other address' data' copied
        have different := others other address' data' copied
        exact ⟨absent, ticket, (elsewhere address' different).trans found⟩
    · intro first second address' data₁ data₂ copied copied'
      by_cases same : first = poster <;> by_cases same' : second = poster
      · rw [same, same']
      · simp only [same, Function.update_self, Posting.copied.injEq] at copied
        simp only [Function.update_of_ne same'] at copied'
        exact absurd copied.1.symm (others second address' data₂ copied')
      · simp only [same', Function.update_self, Posting.copied.injEq] at copied'
        simp only [Function.update_of_ne same] at copied
        exact absurd copied'.1.symm (others first address' data₁ copied)
      · simp only [Function.update_of_ne same] at copied
        simp only [Function.update_of_ne same'] at copied'
        exact ordered.apart first second address' data₁ data₂ copied copied'

/-- There are as many blocks linked as posted and not freed. -/
theorem Ordered.length_eq (ordered : Ordered source chain) :
    chain.length + source.freed.length = source.posted.length := by
  have lengths := congrArg List.length ordered.contents
  have within := ordered.freed.length_le
  simp only [List.length_map, List.length_drop] at lengths
  omega

theorem Ordered.ahead_le (ordered : Ordered source chain) :
    source.freed.length + source.worker.ahead ≤ source.posted.length := by
  have lengths := ordered.length_eq
  cases worker : source.worker with
  | popping =>
    have busy := ordered.busy (by rw [worker]; trivial)
    rw [ordered.chained.head_eq] at busy
    cases chain with
    | nil => exact absurd rfl busy
    | cons address rest =>
      simp only [List.length_cons] at lengths
      simp only [Worker.ahead]
      omega
  | _ =>
    simp only [Worker.ahead]
    omega

/-- What linking a block does to the memory. -/
structure Linked (fields : Fields Data) (address : Nat) (block : Block Data)
    (fields' : Fields Data) : Prop where
  first : fields'.first = fields.first.or (some address)
  last : fields'.last = some address
  started : fields'.started = true
  node : fields'.memory address = some ⟨none, block⟩
  behind : ∀ last, fields.last = some last →
    fields'.memory last = (fields.memory last).map fun node => { node with next := some address }
  rest : ∀ other, other ≠ address → fields.last ≠ some other →
    fields'.memory other = fields.memory other

theorem linked_of_enqueue {fields fields' : Fields Data} {address ticket ticket' : Nat}
    {data : Data} (found : fields.memory address = some ⟨none, ticket', data⟩)
    (outside : fields.last ≠ some address)
    (enqueued : enqueue fields address ticket = some fields') :
    Linked fields address ⟨ticket, data⟩ fields' := by
  rw [ThreadQueue.enqueue, found, Option.map_some, Option.some_inj] at enqueued
  subst enqueued
  refine ⟨rfl, rfl, rfl, ?_, ?_, ?_⟩
  · cases last : fields.last with
    | none => simp
    | some other =>
      have different : address ≠ other := fun same => outside (same ▸ last)
      simp [Function.update_of_ne different]
  · intro other last
    have different : other ≠ address := fun same => outside (same ▸ last)
    simp [last, Function.update_of_ne different]
  · intro other different notLast
    cases last : fields.last with
    | none => simp [Function.update_of_ne different]
    | some other' =>
      have different' : other ≠ other' := fun same => notLast (same ▸ last)
      simp [Function.update_of_ne different, Function.update_of_ne different']

/-- Linking a block puts it at the end of the queue. -/
theorem Ordered.enqueue [DecidableEq Poster] (ordered : Ordered source chain) {poster : Poster}
    {address : Nat} {data : Data} {fields : Fields Data}
    (copied : source.posters poster = .copied address data)
    (enqueued : enqueue source.fields address source.posted.length = some fields) :
    Ordered
      { source with
        fields := fields
        worker := if source.fields.started then source.worker else .launched
        posters := Function.update source.posters poster .linked
        posted := source.posted ++ [⟨source.posted.length, data⟩] } (chain ++ [address]) := by
  obtain ⟨outside, ticket, found⟩ := ordered.copied poster address data copied
  have notLast : ∀ other, other ∉ chain → source.fields.last ≠ some other := by
    intro other absent
    rw [ordered.last]
    exact fun last => absent (List.mem_of_getLast? last)
  have linked := linked_of_enqueue found (notLast address outside) enqueued
  have ahead : (if source.fields.started then source.worker else .launched).ahead =
      source.worker.ahead := by
    cases started : source.fields.started with
    | true => rfl
    | false =>
      rw [ordered.unstarted started]
      rfl
  have blocks : ∀ other ∈ chain, (fields.memory other).map Node.block =
      (source.fields.memory other).map Node.block := by
    intro other member
    by_cases last : source.fields.last = some other
    · rw [linked.behind other last]
      cases source.fields.memory other <;> rfl
    · rw [linked.rest other (fun same => outside (same ▸ member)) last]
  have copiedBefore : ∀ other address' data',
      Function.update source.posters poster .linked other = .copied address' data' →
      other ≠ poster ∧ source.posters other = .copied address' data' := by
    intro other address' data' copied
    by_cases same : other = poster
    · simp [same] at copied
    · exact ⟨same, by rwa [Function.update_of_ne same] at copied⟩
  refine ⟨?_, ?_, ?_, ?_, ?_, ?_, ?_, ?_, ?_, ?_, ?_⟩
  · rw [linked.first]
    refine ordered.chained.append ordered.distinct ?_ ?_ (by simp [links, linked.node])
    · intro other member behind
      rw [← ordered.last] at behind
      simp only [links, linked.rest other (fun same => outside (same ▸ member)) behind]
    · intro other last
      have allocated := ordered.chained.allocated (List.mem_of_getLast? last)
      rw [← ordered.last] at last
      simp only [links, linked.behind other last]
      cases found : source.fields.memory other with
      | none => exact absurd (by simp [links, found]) allocated
      | some node => rfl
  · exact List.Nodup.append ordered.distinct (List.nodup_singleton address)
      (by simpa using outside)
  · simp [linked.last]
  · rw [List.map_append, List.drop_append_of_le_length ordered.freed.length_le, List.map_append,
      ← ordered.contents, List.map_congr_left blocks]
    simp [linked.node]
  · exact ordered.freed.trans (List.prefix_append _ _)
  · rw [ordered.ran, ahead, List.take_append_of_le_length ordered.ahead_le]
  · simp [ordered.tickets, List.range_succ]
  · intro other address' data' copied'
    obtain ⟨different, before⟩ := copiedBefore other address' data' copied'
    obtain ⟨absent, ticket', found'⟩ := ordered.copied other address' data' before
    have elsewhere : address' ≠ address := by
      rintro rfl
      exact different (ordered.apart other poster address' data' data before copied)
    exact ⟨by simp [absent, elsewhere], ticket',
      (linked.rest address' elsewhere (notLast address' absent)).trans found'⟩
  · intro first second address' data₁ data₂ copied₁ copied₂
    exact ordered.apart first second address' data₁ data₂
      (copiedBefore first address' data₁ copied₁).2 (copiedBefore second address' data₂ copied₂).2
  · rw [linked.first]
    cases source.fields.first <;> simp
  · simp [linked.started]

/-- The first block of the queue is the oldest one posted and not freed. -/
theorem Ordered.first_eq (ordered : Ordered source chain) {address : Nat} {node : Node Data}
    (first : source.fields.first = some address)
    (found : source.fields.memory address = some node) :
    ∃ rest, chain = address :: rest ∧ Chain (links source.fields.memory) node.next rest ∧
      source.posted[source.freed.length]? = some node.block ∧
      source.posted.take (source.freed.length + 1) = source.freed ++ [node.block] := by
  have chained := ordered.chained
  rw [first] at chained
  obtain ⟨link, rest, rfl, linked, tail⟩ := chained.uncons
  have contents := ordered.contents
  rw [List.map_cons, found, Option.map_some] at contents
  have oldest : source.posted[source.freed.length]? = some node.block := by
    have heads := congrArg List.head? contents
    rw [List.head?_map, List.head?_drop, List.head?_cons] at heads
    obtain ⟨block, equal, same⟩ := Option.map_eq_some_iff.mp heads.symm
    rw [equal, Option.some_inj.mp same]
  refine ⟨rest, rfl, ?_, oldest, ?_⟩
  · rw [links, found, Option.map_some, Option.some_inj] at linked
    rw [linked]
    exact tail
  · rw [List.take_add_one, oldest, ← List.prefix_iff_eq_take.mp ordered.freed]
    rfl

/-- Running the first block runs the oldest one not yet run. -/
theorem Ordered.run (ordered : Ordered source chain) {block : Block Data}
    (worker : source.worker = .running) (fronted : front source.fields = some block) :
    Ordered { source with ran := source.ran ++ [block], worker := .popping } chain := by
  obtain ⟨node, found, rfl⟩ := Option.map_eq_some_iff.mp fronted
  obtain ⟨address, first, found⟩ := Option.bind_eq_some_iff.mp found
  obtain ⟨rest, _, _, _, taken⟩ := ordered.first_eq first found
  have ran := ordered.ran
  rw [worker, show Worker.running.ahead = 0 from rfl, Nat.add_zero,
    ← List.prefix_iff_eq_take.mp ordered.freed] at ran
  refine ⟨ordered.chained, ordered.distinct, ordered.last, ordered.contents, ordered.freed, ?_,
    ordered.tickets, ordered.copied, ordered.apart,
    fun _ => by simp [first], fun unstarted => ?_⟩
  · rw [ran]
    exact taken.symm
  · have never := ordered.unstarted unstarted
    rw [worker] at never
    cases never

/-- Unlinking the first block frees the block that was run last. -/
theorem Ordered.pop (ordered : Ordered source chain) {fields : Fields Data} {block : Block Data}
    (worker : source.worker = .popping) (popped : pop source.fields = some (fields, block)) :
    ∃ rest, Ordered
      { source with fields := fields, freed := source.freed ++ [block], worker := .recheck }
      rest := by
  obtain ⟨address, first, popped⟩ := Option.bind_eq_some_iff.mp popped
  obtain ⟨node, found, equal⟩ := Option.map_eq_some_iff.mp popped
  obtain ⟨rfl, rfl⟩ := Prod.mk.inj equal
  obtain ⟨rest, rfl, tail, _, taken⟩ := ordered.first_eq first found
  obtain ⟨outside, distinct⟩ := List.nodup_cons.mp ordered.distinct
  have elsewhere : ∀ other, other ≠ address →
      Function.update source.fields.memory address none other = source.fields.memory other :=
    fun other different => Function.update_of_ne different _ _
  have inside : ∀ other ∈ rest,
      Function.update source.fields.memory address none other = source.fields.memory other :=
    fun other member => elsewhere other fun same => outside (same ▸ member)
  have count : (source.freed ++ [node.block]).length = source.freed.length + 1 := by simp
  refine ⟨rest, ?_, distinct, ?_, ?_, ?_, ?_, ordered.tickets, ?_, ordered.apart, ?_, ?_⟩
  · exact tail.congr fun other member => by simp only [links, inside other member]
  · have heads := tail.head_eq
    have last := ordered.last
    cases rest with
    | nil => simp [heads]
    | cons second rest' =>
      rw [List.getLast?_cons_cons] at last
      simp [heads, last]
  · have tails := congrArg List.tail ordered.contents
    rw [List.map_cons, List.tail_cons, ← List.map_tail, List.tail_drop] at tails
    rw [count, ← tails]
    exact List.map_congr_left fun other member => by simp only [inside other member]
  · rw [← taken]
    exact List.take_prefix _ _
  · rw [count, ordered.ran, worker]
    rfl
  · intro poster address' data copied
    obtain ⟨absent, ticket, found'⟩ := ordered.copied poster address' data copied
    rw [List.mem_cons, not_or] at absent
    exact ⟨absent.2, ticket, (elsewhere address' absent.1).trans found'⟩
  · exact fun busy => busy.elim
  · intro unstarted
    have never := ordered.unstarted unstarted
    rw [worker] at never
    cases never

variable [DecidableEq Poster] [Fintype Poster] {target : State Poster Data}

theorem Worker.ahead_returned (call : Semaphore.Call) (result : Bool) :
    (Worker.returned call result).ahead = 0 := by
  cases call <;> cases result <;> rfl

theorem Worker.not_busy_returned (call : Semaphore.Call) (result : Bool) :
    ¬ (Worker.returned call result).Busy := by
  cases call <;> cases result <;> exact id

/-- A step of the worker inside the semaphore leaves the queue alone. -/
theorem Ordered.wait (ordered : Ordered source chain)
    {action : Monitor.Action (Option Poster) Semaphore.Call} {inside : Worker}
    (waits : source.worker.ahead = 0) (started : source.worker ≠ .unstarted)
    (ahead : inside.ahead = 0) (busy : inside.Busy → source.worker.Busy)
    (waited : ThreadQueue.wait source action inside = some target) : Ordered target chain := by
  obtain ⟨semaphore, _, rfl⟩ := Option.map_eq_some_iff.mp waited
  refine ordered.goTo ?_ ?_ (fun unstarted => absurd unstarted started) semaphore
  · rw [waits]
    split
    · exact ahead
    · exact Worker.ahead_returned _ _
  · split
    · exact fun inside => ordered.busy (busy inside)
    · exact fun returned => absurd returned (Worker.not_busy_returned _ _)

/-- A wait of the worker that ends spuriously or by its timeout leaves the queue alone. -/
theorem Ordered.stir (ordered : Ordered source chain)
    {action : Monitor.Action (Option Poster) Semaphore.Call}
    (silent : (ThreadQueue.semaphore (Option Poster)).outcome source.semaphore action = none)
    (waited : ThreadQueue.wait source action source.worker = some target) :
    Ordered target chain := by
  obtain ⟨semaphore, _, rfl⟩ := Option.map_eq_some_iff.mp waited
  simp only [silent]
  exact ordered.goTo rfl ordered.busy id semaphore

/-- A step of the worker keeps the order. -/
theorem ordered_work (ordered : Ordered source chain) (worked : work source = some target) :
    ∃ chain', Ordered target chain' := by
  have goTo : ∀ worker : Worker, source.worker ≠ .unstarted → worker.ahead = source.worker.ahead →
      (worker.Busy → source.fields.first ≠ none) →
      Ordered { source with worker := worker } chain :=
    fun worker started ahead busy => ordered.goTo ahead busy
      (fun unstarted => absurd unstarted started) source.semaphore
  cases worker : source.worker with
  | unstarted | parked =>
    simp only [work, worker] at worked
    cases worked
  | launched =>
    simp only [work, worker] at worked
    cases worked
    exact ⟨chain, ordered.chained, ordered.distinct, ordered.last, ordered.contents,
      ordered.freed, by rw [ordered.ran, worker]; rfl, ordered.tickets, ordered.copied,
      ordered.apart, fun busy => busy.elim, fun unstarted => by cases unstarted⟩
  | top | timed =>
    simp only [work, worker] at worked
    exact ⟨chain, ordered.wait (by rw [worker]; rfl) (by simp [worker]) rfl
      (by simp [Worker.Busy]) worked⟩
  | demark | untimed =>
    simp only [work, worker] at worked
    exact ⟨chain, ordered.wait (by rw [worker]; rfl) (by simp [worker]) rfl
      (fun _ => by rw [worker]; trivial) worked⟩
  | running =>
    simp only [work, worker] at worked
    obtain ⟨block, fronted, rfl⟩ := Option.map_eq_some_iff.mp worked
    exact ⟨chain, ordered.run worker fronted⟩
  | popping =>
    simp only [work, worker] at worked
    obtain ⟨⟨fields, block⟩, popped, rfl⟩ := Option.map_eq_some_iff.mp worked
    exact ordered.pop worker popped
  | timer | starting =>
    simp only [work, worker] at worked
    cases worked
    refine ⟨chain, goTo _ (by simp [worker]) ?_ ?_⟩ <;> split <;>
      simp [worker, Worker.ahead, Worker.Busy]
  | loopTest | recheck =>
    simp only [work, worker] at worked
    cases worked
    by_cases empty : source.fields.first = none
    · refine ⟨chain, goTo _ (by simp [worker]) ?_ ?_⟩ <;>
        simp [worker, empty, Worker.ahead, Worker.Busy]
    · refine ⟨chain, goTo _ (by simp [worker]) ?_ ?_⟩ <;>
        simp [worker, empty, Worker.ahead, Worker.Busy]

theorem ordered_step (source : State Poster Data) (action : Action Poster Data)
    (target : State Poster Data) (holds : ∃ chain, Ordered source chain)
    (stepped : step source action = some target) : ∃ chain, Ordered target chain := by
  obtain ⟨chain, ordered⟩ := holds
  cases action with
  | allocate poster address data =>
    simp only [step] at stepped
    split at stepped
    next =>
      obtain ⟨fields, allocated, rfl⟩ := Option.map_eq_some_iff.mp stepped
      exact ⟨chain, ordered.allocate allocated⟩
    next => cases stepped
  | enqueue poster =>
    simp only [step] at stepped
    split at stepped
    next address data copied =>
      obtain ⟨fields, enqueued, rfl⟩ := Option.map_eq_some_iff.mp stepped
      exact ⟨_, ordered.enqueue copied enqueued⟩
    next => cases stepped
  | post poster =>
    simp only [step] at stepped
    split at stepped
    next =>
      obtain ⟨semaphore, _, rfl⟩ := Option.map_eq_some_iff.mp stepped
      have copied : ∀ other address data, Function.update source.posters poster .idle other =
          .copied address data → source.posters other = .copied address data := by
        intro other address data copied
        by_cases same : other = poster
        · simp [same] at copied
        · rwa [Function.update_of_ne same] at copied
      exact ⟨chain, ordered.chained, ordered.distinct, ordered.last, ordered.contents,
        ordered.freed, ordered.ran, ordered.tickets,
        fun other address data at_ =>
          ordered.copied other address data (copied other address data at_),
        fun first second address data data' at_ at' =>
          ordered.apart first second address data data' (copied first address data at_)
            (copied second address data' at'),
        ordered.busy, ordered.unstarted⟩
    next => cases stepped
  | work => exact ordered_work ordered stepped
  | spurious => exact ⟨chain, ordered.stir rfl stepped⟩
  | timeout => exact ⟨chain, ordered.stir rfl stepped⟩

theorem ordered_reachable {state : State Poster Data}
    (reachable : (machine Poster Data).Reachable state) : ∃ chain, Ordered state chain := by
  refine reachable.invariant ?_ ordered_step
  rintro state rfl
  exact ⟨[], rfl, List.nodup_nil, rfl, rfl, List.prefix_rfl, rfl, rfl,
    (fun _ _ _ copied => by cases copied), (fun _ _ _ _ _ copied => by cases copied),
    False.elim, fun _ => rfl⟩

/-- In every reachable state of a `ThreadQueue`: the blocks run are a prefix of the blocks posted,
in the order of linking and with the data posted; no block is run twice; only blocks that were run
have been freed, and `first` and `last` point to none that has; `last` is null exactly when `first`
is. -/
theorem threadQueue_order {state : State Poster Data}
    (reachable : (machine Poster Data).Reachable state) :
    state.ran <+: state.posted ∧
      state.posted.map Block.ticket = List.range state.posted.length ∧ state.ran.Nodup ∧
      state.freed <+: state.ran ∧
      (∀ address, state.fields.first = some address ∨ state.fields.last = some address →
        state.fields.memory address ≠ none) ∧
      (state.fields.last = none ↔ state.fields.first = none) := by
  obtain ⟨chain, ordered⟩ := ordered_reachable reachable
  have ran : state.ran <+: state.posted := by
    rw [ordered.ran]
    exact List.take_prefix _ _
  refine ⟨ran, ordered.tickets, ?_, ?_, ?_, ?_⟩
  · have distinct : (state.posted.map Block.ticket).Nodup := by
      rw [ordered.tickets]
      exact List.nodup_range
    exact distinct.of_map.sublist ran.sublist
  · have freed := List.prefix_iff_eq_take.mp ordered.freed
    rw [ordered.ran]
    nth_rewrite 1 [freed]
    exact List.take_prefix_take_left (Nat.le_add_right _ _)
  · intro address pointed unallocated
    have member : address ∈ chain := by
      rcases pointed with first | last
      · rw [ordered.chained.head_eq] at first
        exact List.mem_of_head? first
      · rw [ordered.last] at last
        exact List.mem_of_getLast? last
    exact ordered.chained.allocated member (by simp [links, unallocated])
  · rw [ordered.last, ordered.chained.head_eq, List.getLast?_eq_none_iff, List.head?_eq_none_iff]

end Order

/-- Two blocks are posted, the worker is woken and runs and frees the first one. The block that is
left is the second one. -/
theorem threadQueue_order_two :
    ∃ state : State (Fin 2) Nat, (machine (Fin 2) Nat).Reachable state ∧
      state.ran = [⟨0, 10⟩] ∧ state.posted = [⟨0, 10⟩, ⟨1, 20⟩] ∧ state.ran <+: state.posted ∧
      state.fields.first = some 9 ∧ state.fields.memory 9 ≠ none := by
  let played := (machine (Fin 2) Nat).play initial
    [.allocate 0 5 10, .allocate 1 9 20, .enqueue 0, .work, .work, .enqueue 1, .post 0, .post 1,
      .work, .work, .work, .work, .work]
  have reachable : (machine (Fin 2) Nat).Reachable (played.get (by decide)) :=
    Machine.reachable_get rfl _
  have order := threadQueue_order reachable
  exact ⟨_, reachable, by decide, by decide, order.1, by decide,
    order.2.2.2.2.1 9 (Or.inl (by decide))⟩

/-! ### Sleep -/

section Sleep

variable {Poster Data : Type} {source target : State Poster Data}

/-- The worker sleeps between two blocks: the queue is not empty, no `post` is under way, and the
worker is in the untimed wait of its loop and has not been woken. -/
def SleepsOnWork (state : State Poster Data) : Prop :=
  state.fields.first ≠ none ∧ (∀ poster, state.posters poster = .idle) ∧
    state.worker = .untimed ∧ (state.semaphore.threads none).place = .asleep .wait

/-- When the worker goes into the untimed wait of its loop, some `post` has begun and has not yet
posted the semaphore. -/
def AwaitsPost (state : State Poster Data) : Action Poster Data → Prop
  | .work => state.worker = .demark → ∃ poster, state.posters poster ≠ .idle
  | _ => True

instance [Fintype Poster] [DecidableEq Data] (state : State Poster Data) :
    (action : Action Poster Data) → Decidable (AwaitsPost state action)
  | .work => inferInstanceAs
    (Decidable (state.worker = .demark → ∃ poster, state.posters poster ≠ .idle))
  | .allocate _ _ _ => inferInstanceAs (Decidable True)
  | .enqueue _ => inferInstanceAs (Decidable True)
  | .post _ => inferInstanceAs (Decidable True)
  | .spurious => inferInstanceAs (Decidable True)
  | .timeout => inferInstanceAs (Decidable True)

/-- The semaphore has no slots, and counts the worker while the worker waits. -/
structure Slotless (semaphore : Semaphore.State (Option Poster)) : Prop where
  count : semaphore.fields.count = 0
  waits : (semaphore.threads none).place.frame ≠ none → semaphore.fields.waits ≠ 0

/-- What every step that awaits a post preserves: while the worker sleeps in the untimed wait, a
`post` is under way. -/
structure Awake (state : State Poster Data) : Prop where
  ordered : ∃ chain, Ordered state chain
  slotless : Slotless state.semaphore
  awaited : (state.semaphore.threads none).place = .asleep .wait →
    ∃ poster, state.posters poster ≠ .idle

theorem Awake.not_sleepsOnWork (awake : Awake source) : ¬ SleepsOnWork source := by
  rintro ⟨_, idle, _, asleep⟩
  obtain ⟨poster, active⟩ := awake.awaited asleep
  exact active (idle poster)

/-- A step that leaves the semaphore alone keeps the worker awake when no `post` ends. -/
theorem Awake.beside (awake : Awake source) (ordered : ∃ chain, Ordered target chain)
    (semaphore : target.semaphore = source.semaphore)
    (posters : ∀ poster, source.posters poster ≠ .idle → target.posters poster ≠ .idle) :
    Awake target := by
  refine ⟨ordered, by rw [semaphore]; exact awake.slotless, fun asleep => ?_⟩
  rw [semaphore] at asleep
  obtain ⟨poster, active⟩ := awake.awaited asleep
  exact ⟨poster, posters poster active⟩

variable [DecidableEq Poster] [Fintype Poster]
  {before after : Semaphore.State (Option Poster)} {call : Semaphore.Call}
  {frame : Semaphore.Frame} {flag : Bool} {chosen : Option (Option Poster)}

/-- A call of the worker on a semaphore without slots goes to sleep. -/
theorem Slotless.enter (slotless : Slotless before)
    (waits : call = .wait ∧ frame = .wait ∨ call = .waitTimed ∧ frame = .waitTimed)
    (stepped : (semaphore (Option Poster)).step before (.enter none call chosen) = some after) :
    Slotless after ∧ (after.threads none).place = .asleep frame ∧
      (semaphore (Option Poster)).outcome before (.enter none call chosen) = none := by
  obtain ⟨_, _, _, ran⟩ := step_enter stepped
  have entered : (semaphore (Option Poster)).enter none call before.fields =
      ⟨{ before.fields with waits := before.fields.waits + 1 }, .none, .sleep frame⟩ := by
    rcases waits with ⟨rfl, rfl⟩ | ⟨rfl, rfl⟩
    · change Semaphore.wait before.fields = _
      simp [Semaphore.wait, slotless.count]
    · change Semaphore.waitTimed before.fields true = _
      simp [Semaphore.waitTimed, slotless.count]
  rw [entered] at ran
  refine ⟨⟨?_, fun _ => ?_⟩, ?_, ?_⟩
  · rw [ran.fields]
    exact slotless.count
  · rw [ran.fields]
    exact Nat.succ_ne_zero _
  · rw [ran.own]
    rfl
  · simp only [outcome, entered, Next.result, Option.map_none]

/-- A wait of the worker that is over ends its call. -/
theorem Slotless.resume (slotless : Slotless before)
    (stepped : (semaphore (Option Poster)).step before (.resume none chosen) = some after) :
    Slotless after ∧ (after.threads none).place = .idle := by
  obtain ⟨_, frame, flag, _, ran⟩ := step_resume stepped
  have leaves : ∃ result, (semaphore (Option Poster)).resume none frame flag before.fields =
      ⟨{ before.fields with waits := before.fields.waits - 1 }, .none, .leave result⟩ := by
    change ∃ result, Semaphore.resume frame flag before.fields = _
    cases frame with
    | wait => exact ⟨true, by simp [Semaphore.resume, Semaphore.waitExit, slotless.count]⟩
    | waitTimed =>
      exact ⟨flag, by simp [Semaphore.resume, Semaphore.waitTimedExit, slotless.count]⟩
  obtain ⟨result, resumed⟩ := leaves
  rw [resumed] at ran
  have idle : (after.threads none).place = .idle := by
    rw [ran.own]
    rfl
  refine ⟨⟨?_, fun suspended => absurd (by rw [idle]; rfl) suspended⟩, idle⟩
  rw [ran.fields]
  exact slotless.count

/-- A post of a semaphore without slots leaves nobody asleep. -/
theorem Slotless.post (slotless : Slotless before) {poster : Poster}
    (stepped : (semaphore (Option Poster)).step before (.enter (some poster) .release chosen) =
      some after) :
    Slotless after ∧ ∀ frame, (after.threads none).place ≠ .asleep frame := by
  obtain ⟨_, _, _, ran⟩ := step_enter stepped
  have frames := ran.frame_other (Option.some_ne_none poster).symm
  have fields : ((semaphore (Option Poster)).enter (some poster) .release before.fields).fields =
      { before.fields with used := before.fields.used - 1 } := by
    change (Semaphore.release before.fields).fields = _
    simp only [Semaphore.release]
    split
    · rfl
    · rw [show before.fields.used - 1 = before.fields.used by omega]
  refine ⟨⟨?_, fun suspended => ?_⟩, fun frame asleep => ?_⟩
  · rw [ran.fields, fields]
    exact slotless.count
  · rw [frames] at suspended
    rw [ran.fields, fields]
    exact slotless.waits suspended
  · have sleeping := ran.asleep_other (Option.some_ne_none poster).symm asleep
    have waits := slotless.waits (by rw [sleeping]; simp)
    have broadcasts : ((semaphore (Option Poster)).enter (some poster) .release
        before.fields).wake = .broadcast () := by
      change (Semaphore.release before.fields).wake = _
      simp [Semaphore.release, waits, slotless.count]
    exact ran.not_asleep_of_broadcast broadcasts (Option.some_ne_none poster).symm asleep rfl

omit [DecidableEq Poster] [Fintype Poster] in
theorem Slotless.stir (slotless : Slotless before)
    (stirred : Stirred (semaphore (Option Poster)) before none after) : Slotless after := by
  refine ⟨by rw [stirred.fields]; exact slotless.count, fun suspended => ?_⟩
  rw [stirred.frame_eq] at suspended
  rw [stirred.fields]
  exact slotless.waits suspended

/-- A step of the worker leaves the semaphore alone, or is one of a wait. -/
theorem work_cases (worked : work source = some target) :
    (target.semaphore = source.semaphore ∧ target.posters = source.posters) ∨
      (source.worker = .top ∧ wait source (.enter none .waitTimed none) .timed = some target) ∨
      (∃ inside, wait source (.resume none none) inside = some target) ∨
      (source.worker = .demark ∧
        wait source (.enter none .wait none) .untimed = some target) := by
  cases worker : source.worker with
  | top => exact Or.inr (Or.inl ⟨rfl, by simpa only [work, worker] using worked⟩)
  | timed => exact Or.inr (Or.inr (Or.inl ⟨_, by simpa only [work, worker] using worked⟩))
  | demark => exact Or.inr (Or.inr (Or.inr ⟨rfl, by simpa only [work, worker] using worked⟩))
  | untimed => exact Or.inr (Or.inr (Or.inl ⟨_, by simpa only [work, worker] using worked⟩))
  | running | popping =>
    simp only [work, worker] at worked
    obtain ⟨_, _, rfl⟩ := Option.map_eq_some_iff.mp worked
    exact Or.inl ⟨rfl, rfl⟩
  | unstarted | parked =>
    simp only [work, worker] at worked
    cases worked
  | _ =>
    simp only [work, worker] at worked
    cases worked
    exact Or.inl ⟨rfl, rfl⟩

theorem awake_work (awake : Awake source) (awaits : AwaitsPost source .work)
    (worked : work source = some target) : Awake target := by
  obtain ⟨chain, ordered⟩ := awake.ordered
  have ordered := ordered_work ordered worked
  rcases work_cases worked with ⟨semaphore, posters⟩ | ⟨_, waited⟩ | ⟨_, waited⟩ |
    ⟨worker, waited⟩
  · exact awake.beside ordered semaphore fun poster active => by rw [posters]; exact active
  · obtain ⟨semaphore, stepped, rfl⟩ := Option.map_eq_some_iff.mp waited
    obtain ⟨slotless, asleep, _⟩ := awake.slotless.enter (Or.inr ⟨rfl, rfl⟩) stepped
    refine ⟨ordered, slotless, fun asleep' => ?_⟩
    rw [asleep] at asleep'
    cases asleep'
  · obtain ⟨semaphore, stepped, rfl⟩ := Option.map_eq_some_iff.mp waited
    obtain ⟨slotless, idle⟩ := awake.slotless.resume stepped
    refine ⟨ordered, slotless, fun asleep => ?_⟩
    rw [idle] at asleep
    cases asleep
  · obtain ⟨semaphore, stepped, rfl⟩ := Option.map_eq_some_iff.mp waited
    obtain ⟨slotless, _, _⟩ := awake.slotless.enter (Or.inl ⟨rfl, rfl⟩) stepped
    exact ⟨ordered, slotless, fun _ => awaits worker⟩

theorem awake_step (source : State Poster Data) (action : Action Poster Data)
    (target : State Poster Data) (awake : Awake source) (awaits : AwaitsPost source action)
    (stepped : step source action = some target) : Awake target := by
  have ordered := ordered_step source action target awake.ordered stepped
  have active : ∀ (poster : Poster) (place : Posting Data), place ≠ .idle →
      ∀ other, source.posters other ≠ .idle →
        Function.update source.posters poster place other ≠ .idle := by
    intro poster place under other active
    by_cases same : other = poster
    · rw [same, Function.update_self]
      exact under
    · rw [Function.update_of_ne same]
      exact active
  cases action with
  | allocate poster address data =>
    simp only [step] at stepped
    split at stepped
    next =>
      obtain ⟨fields, _, rfl⟩ := Option.map_eq_some_iff.mp stepped
      exact awake.beside ordered rfl (active poster _ (by simp))
    next => cases stepped
  | enqueue poster =>
    simp only [step] at stepped
    split at stepped
    next =>
      obtain ⟨fields, _, rfl⟩ := Option.map_eq_some_iff.mp stepped
      exact awake.beside ordered rfl (active poster _ (by simp))
    next => cases stepped
  | post poster =>
    simp only [step] at stepped
    split at stepped
    next =>
      obtain ⟨semaphore, posted, rfl⟩ := Option.map_eq_some_iff.mp stepped
      obtain ⟨slotless, awoken⟩ := awake.slotless.post posted
      exact ⟨ordered, slotless, fun asleep => absurd asleep (awoken _)⟩
    next => cases stepped
  | work => exact awake_work awake awaits stepped
  | spurious =>
    obtain ⟨semaphore, moved, rfl⟩ := Option.map_eq_some_iff.mp stepped
    have stirred := step_spurious moved
    exact ⟨ordered, awake.slotless.stir stirred,
      fun asleep => awake.awaited (stirred.asleep_before asleep)⟩
  | timeout =>
    obtain ⟨semaphore, moved, rfl⟩ := Option.map_eq_some_iff.mp stepped
    have stirred := step_timeout moved
    exact ⟨ordered, awake.slotless.stir stirred,
      fun asleep => awake.awaited (stirred.asleep_before asleep)⟩

/-- A wait that begins when every `post` is over leaves the worker asleep beside a block. -/
theorem sleepsOnWork_of_not_awaitsPost (action : Action Poster Data) (awake : Awake source)
    (forgets : ¬ AwaitsPost source action) (stepped : step source action = some target) :
    SleepsOnWork target := by
  have begins : action = .work ∧ source.worker = .demark ∧
      ∀ poster, source.posters poster = .idle := by
    cases action <;> simp [AwaitsPost] at forgets ⊢
    exact forgets
  obtain ⟨rfl, worker, idle⟩ := begins
  have waited : wait source (.enter none .wait none) .untimed = some target := by
    change work source = some target at stepped
    simpa only [work, worker] using stepped
  obtain ⟨chain, ordered⟩ := awake.ordered
  obtain ⟨semaphore, entered, rfl⟩ := Option.map_eq_some_iff.mp waited
  obtain ⟨_, asleep, silent⟩ := awake.slotless.enter (Or.inl ⟨rfl, rfl⟩) entered
  exact ⟨ordered.busy (by rw [worker]; trivial), idle, by simp only [silent], asleep⟩

/-- A run of a `ThreadQueue` never has its worker asleep beside a block, with every `post` over,
exactly when each untimed wait of the worker begins while some `post` is under way. -/
theorem threadQueue_awake_iff {moves : List (Move (State Poster Data) (Action Poster Data))}
    {state : State Poster Data} (run : (machine Poster Data).Run moves state) :
    Machine.Throughout (fun state => ¬ SleepsOnWork state) moves state ↔
      Machine.Meets AwaitsPost moves := by
  refine run.throughout_iff_meets Awake ?_ awake_step (fun _ awake => awake.not_sleepsOnWork) ?_
  · rintro state rfl
    refine ⟨ordered_reachable ⟨[], .start rfl⟩, ⟨rfl, fun suspended => absurd rfl suspended⟩,
      fun asleep => ?_⟩
    cases asleep
  · intro source action target awake forgets stepped
    exact not_not_intro (sleepsOnWork_of_not_awaitsPost action awake forgets stepped)

end Sleep

/-- Two blocks are posted. The worker runs the first one and waits, while the second thread has
still to post the semaphore. -/
theorem threadQueue_awake_iff_late :
    ∃ moves, ∃ state : State (Fin 2) Nat, (machine (Fin 2) Nat).Run moves state ∧
      state.fields.first = some 9 ∧ (state.semaphore.threads none).place = .asleep .wait ∧
      Machine.Throughout (fun state => ¬ SleepsOnWork state) moves state := by
  let played := ((machine (Fin 2) Nat).restrict AwaitsPost).play initial
    [.allocate 0 5 10, .allocate 1 9 20, .enqueue 0, .work, .work, .enqueue 1, .post 0, .work,
      .work, .work, .work, .work, .work, .work]
  obtain ⟨moves, restricted⟩ : ((machine (Fin 2) Nat).restrict AwaitsPost).Reachable
      (played.get (by decide)) := Machine.reachable_get rfl _
  obtain ⟨run, meets⟩ := restricted.of_restrict
  exact ⟨moves, _, run, by decide, by decide, (threadQueue_awake_iff run).mpr meets⟩

/-- Both posts are over before the worker has run the first block: it waits for a wake-up that has
been given away, beside the second block. -/
theorem threadQueue_sleeps_on_work :
    ∃ moves, ∃ state : State (Fin 2) Nat, (machine (Fin 2) Nat).Run moves state ∧
      SleepsOnWork state ∧
      ¬ Machine.Throughout (fun state => ¬ SleepsOnWork state) moves state := by
  let played := (machine (Fin 2) Nat).play initial
    [.allocate 0 5 10, .allocate 1 9 20, .enqueue 0, .work, .work, .enqueue 1, .post 0, .post 1,
      .work, .work, .work, .work, .work, .work, .work]
  obtain ⟨moves, run⟩ : (machine (Fin 2) Nat).Reachable (played.get (by decide)) :=
    Machine.reachable_get rfl _
  have sleeps : SleepsOnWork (played.get (by decide)) :=
    ⟨by decide, by decide, by decide, by decide⟩
  exact ⟨moves, _, run, sleeps, fun throughout => throughout.1 sleeps⟩

end ThreadQueue

end CommonCpp
