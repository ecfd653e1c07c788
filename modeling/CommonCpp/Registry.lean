/-
This file gives a registry of locks under keys, whose entries are counted and
recycled.

The registry has no lock of its own for a key until somebody asks for one. An
entry is then found in the bucket of the key, or an unused one is given the key,
or a new one is linked in, and its count says how many requests and holds depend
on it. The count is raised in the same critical section that finds the entry and
lowered only when a hold ends or a request is refused, so that an entry whose
count is zero is unused and may be given another key.

The locks are a parameter: an object on which a thread with a request acts step
by step until it is granted or refused, and on which a hold can be ended. From
what such an object says of its own holds, the registry's invariant follows: a
key has at most one entry in use, its count is exact, and its lock is held by
exactly the threads that hold the key.
-/

import CommonCpp.Counter
import CommonCpp.Monitor

namespace Concurrency

open Counter

/-! ### Searching a list of recycled entries -/

section Search

variable {Entry : Type}

/-- The walk over a list of entries: it stops at the first one wanted, and else remembers the
last one that is empty. -/
def search (wanted empty : Entry → Bool) : List Entry → Option Entry → Entry ⊕ Option Entry
  | [], slot => .inr slot
  | entry :: next, slot =>
    if wanted entry then .inl entry
    else search wanted empty next (if empty entry then some entry else slot)

variable {wanted : Entry → Bool} (empty : Entry → Bool)

/-- The walk stops at a wanted entry, if there is one. -/
theorem search_of_exists {list : List Entry} (slot : Option Entry)
    (exists_ : ∃ entry ∈ list, wanted entry = true) :
    ∃ entry ∈ list, wanted entry = true ∧ search wanted empty list slot = .inl entry := by
  induction list generalizing slot with
  | nil =>
    obtain ⟨entry, member, _⟩ := exists_
    cases member
  | cons entry next inductionHypothesis =>
    by_cases here : wanted entry = true
    · exact ⟨entry, List.mem_cons_self, here, by simp only [search, if_pos here]⟩
    · have later : ∃ entry ∈ next, wanted entry = true := by
        obtain ⟨found, member, stops⟩ := exists_
        rcases List.mem_cons.mp member with rfl | member
        · exact absurd stops here
        · exact ⟨found, member, stops⟩
      obtain ⟨found, member, stops, stopped⟩ :=
        inductionHypothesis (if empty entry then some entry else slot) later
      refine ⟨found, List.mem_cons_of_mem _ member, stops, ?_⟩
      simp only [search, if_neg here]
      exact stopped

/-- The walk runs out when no entry is wanted, and has found the last empty one. -/
theorem search_of_forall {list : List Entry} (slot : Option Entry)
    (none : ∀ entry ∈ list, ¬ wanted entry = true) :
    search wanted empty list slot = .inr ((list.filter empty).getLast?.or slot) := by
  induction list generalizing slot with
  | nil => rfl
  | cons entry next inductionHypothesis =>
    obtain ⟨here, later⟩ := List.forall_mem_cons.mp none
    simp only [search, if_neg here]
    rw [inductionHypothesis _ later]
    by_cases unused : empty entry = true
    · simp only [unused, if_true, List.filter_cons_of_pos, List.getLast?_cons]
      cases (next.filter empty).getLast? <;> rfl
    · rw [List.filter_cons_of_neg unused, if_neg unused]

end Search

/-! ### Tables of counted entries -/

/-- An entry: the key it was last given, and the number of claims on it. -/
structure Entry (Key : Type) where
  key : Key
  count : Nat

/-- A table: the lists of its buckets, the newest entry first, what the entries stand at, and how
many there are. Entries are known by their number. -/
structure Table (Key : Type) where
  list : Nat → List Nat
  entry : Nat → Entry Key
  size : Nat

namespace Table

variable {Key : Type}

/-- The table with another value at one entry. -/
def set (table : Table Key) (number : Nat) (entry : Entry Key) : Table Key :=
  { table with entry := Function.update table.entry number entry }

/-- The table with a new, unused entry at the head of a bucket. -/
def link (table : Table Key) (bucket : Nat) (key : Key) : Table Key :=
  { list := Function.update table.list bucket (table.size :: table.list bucket)
    entry := Function.update table.entry table.size ⟨key, 0⟩
    size := table.size + 1 }

/-- The entry is in use. -/
def Live (table : Table Key) (number : Nat) : Prop :=
  (table.entry number).count ≠ 0

variable [DecidableEq Key]

/-- The entry is in use for the key. -/
def serves (table : Table Key) (key : Key) (number : Nat) : Bool :=
  (table.entry number).count ≠ 0 ∧ (table.entry number).key = key

omit [DecidableEq Key] in
/-- The entry is unused. -/
def vacant (table : Table Key) (number : Nat) : Bool :=
  (table.entry number).count = 0

/-- Find the entry of a key in its bucket, or an unused one, or link a new one. -/
def locate (table : Table Key) (bucket : Nat) (key : Key) : Nat × Table Key :=
  match search (table.serves key) table.vacant (table.list bucket) none with
  | .inl number => (number, table)
  | .inr (some number) => (number, table)
  | .inr none => (table.size, table.link bucket key)

/-- Give the entry located for a key that key, and raise its count. -/
def claim (table : Table Key) (bucket : Nat) (key : Key) : Nat × Table Key :=
  let (number, table) := table.locate bucket key
  (number, table.set number ⟨key, raise (table.entry number).count 1⟩)

/-- Find the entry in use for a key. -/
def find (table : Table Key) (bucket : Nat) (key : Key) : Option Nat :=
  (table.list bucket).find? (table.serves key)

omit [DecidableEq Key] in
/-- Lower the count of an entry. -/
def drop (table : Table Key) (number : Nat) : Table Key :=
  table.set number
    { table.entry number with count := Counter.lower (table.entry number).count 1 }

/-- What every table keeps: an entry is in one list at most, those in use are in the bucket of
their key, and no key has two. -/
structure WellFormed (table : Table Key) (bucketOf : Key → Nat) : Prop where
  bounded : ∀ bucket, ∀ number ∈ table.list bucket, number < table.size
  apart : ∀ bucket bucket' number, number ∈ table.list bucket → number ∈ table.list bucket' →
    bucket = bucket'
  listed : ∀ number, table.Live number →
    number ∈ table.list (bucketOf (table.entry number).key)
  single : ∀ number number', table.Live number → table.Live number' →
    (table.entry number).key = (table.entry number').key → number = number'

variable {table : Table Key} {bucketOf : Key → Nat} {number : Nat} {key : Key}

theorem serves_iff : table.serves key number = true ↔
    table.Live number ∧ (table.entry number).key = key := by
  simp [serves, Live]

omit [DecidableEq Key] in
@[simp] theorem entry_set_self (table : Table Key) (number : Nat) (entry : Entry Key) :
    (table.set number entry).entry number = entry :=
  Function.update_self _ _ _

omit [DecidableEq Key] in
theorem entry_set_of_ne (table : Table Key) {number other : Nat} (entry : Entry Key)
    (different : other ≠ number) : (table.set number entry).entry other = table.entry other :=
  Function.update_of_ne different _ _

omit [DecidableEq Key] in
/-- The number of the next entry is not in use. -/
theorem WellFormed.not_live_size (formed : table.WellFormed bucketOf) :
    ¬ table.Live table.size :=
  fun live => Nat.lt_irrefl _ (formed.bounded _ _ (formed.listed _ live))

omit [DecidableEq Key] in
/-- Linking a new entry keeps a table well formed. -/
theorem WellFormed.link (formed : table.WellFormed bucketOf) (bucket : Nat) (key : Key) :
    (table.link bucket key).WellFormed bucketOf := by
  have members : ∀ bucket' number, number ∈ (table.link bucket key).list bucket' ↔
      (number = table.size ∧ bucket' = bucket) ∨ number ∈ table.list bucket' := by
    intro bucket' number
    by_cases same : bucket' = bucket
    · subst same
      simp [Table.link]
    · simp [Table.link, same]
  have entries : ∀ number, (table.link bucket key).Live number →
      table.Live number ∧ (table.link bucket key).entry number = table.entry number := by
    intro number live
    have different : number ≠ table.size := by
      rintro rfl
      simp [Live, Table.link] at live
    have same : (table.link bucket key).entry number = table.entry number :=
      Function.update_of_ne different _ _
    exact ⟨by rw [Live, ← same]; exact live, same⟩
  refine ⟨?_, ?_, ?_, ?_⟩
  · intro bucket' number member
    rcases (members bucket' number).mp member with ⟨rfl, _⟩ | member
    · exact Nat.lt_succ_self _
    · exact Nat.lt_succ_of_lt (formed.bounded bucket' number member)
  · intro first second number member member'
    have outside : ∀ bucket', table.size ∉ table.list bucket' :=
      fun bucket' inside => Nat.lt_irrefl _ (formed.bounded bucket' _ inside)
    rcases (members first number).mp member with ⟨new, at_⟩ | old <;>
      rcases (members second number).mp member' with ⟨new', at'⟩ | old'
    · rw [at_, at']
    · exact absurd (new ▸ old') (outside second)
    · exact absurd (new' ▸ old) (outside first)
    · exact formed.apart first second number old old'
  · intro number live
    obtain ⟨live, same⟩ := entries number live
    rw [same]
    exact (members _ _).mpr (Or.inr (formed.listed number live))
  · intro number number' live live' equal
    obtain ⟨live, same⟩ := entries number live
    obtain ⟨live', same'⟩ := entries number' live'
    rw [same, same'] at equal
    exact formed.single number number' live live' equal

omit [DecidableEq Key] in
/-- Giving a key to an entry of its bucket keeps a table well formed, unless another entry is in
use for the key. -/
theorem WellFormed.set (formed : table.WellFormed bucketOf) {count : Nat}
    (member : number ∈ table.list (bucketOf key))
    (only : ∀ other, table.Live other → (table.entry other).key = key → other = number) :
    (table.set number ⟨key, count⟩).WellFormed bucketOf := by
  have entries : ∀ other, other ≠ number → (table.set number ⟨key, count⟩).Live other →
      table.Live other ∧ (table.set number ⟨key, count⟩).entry other = table.entry other := by
    intro other different live
    have same := entry_set_of_ne table ⟨key, count⟩ different
    exact ⟨by rw [Live, ← same]; exact live, same⟩
  refine ⟨formed.bounded, formed.apart, ?_, ?_⟩
  · intro other live
    by_cases same : other = number
    · subst same
      rw [entry_set_self]
      exact member
    · obtain ⟨live, equal⟩ := entries other same live
      rw [equal]
      exact formed.listed other live
  · intro first second live live' equal
    by_cases same : first = number <;> by_cases same' : second = number
    · rw [same, same']
    · subst same
      obtain ⟨live', equal'⟩ := entries second same' live'
      rw [entry_set_self, equal'] at equal
      exact (only second live' equal.symm).symm
    · subst same'
      obtain ⟨live, equal'⟩ := entries first same live
      rw [entry_set_self, equal'] at equal
      exact only first live equal
    · obtain ⟨live, equal₁⟩ := entries first same live
      obtain ⟨live', equal₂⟩ := entries second same' live'
      rw [equal₁, equal₂] at equal
      exact formed.single first second live live' equal

/-- What a claim does. An entry that was in use keeps its key, and one that was not is given the
key only when no entry was in use for it. -/
structure Claimed (table : Table Key) (bucketOf : Key → Nat) (key : Key) (number : Nat)
    (after : Table Key) : Prop where
  formed : after.WellFormed bucketOf
  entry : after.entry number = ⟨key, raise (table.entry number).count 1⟩
  rest : ∀ other, other ≠ number → after.entry other = table.entry other
  kept : table.Live number → (table.entry number).key = key
  unserved : ¬ table.Live number →
    ∀ other, table.Live other → (table.entry other).key ≠ key

theorem WellFormed.claim (formed : table.WellFormed bucketOf) (key : Key) :
    Claimed table bucketOf key (table.claim (bucketOf key) key).1
      (table.claim (bucketOf key) key).2 := by
  by_cases served : ∃ number ∈ table.list (bucketOf key), table.serves key number = true
  · obtain ⟨number, member, serves, stopped⟩ := search_of_exists table.vacant none served
    obtain ⟨live, keyed⟩ := serves_iff.mp serves
    have located : table.locate (bucketOf key) key = (number, table) := by
      simp only [locate, stopped]
    simp only [Table.claim, located]
    refine ⟨formed.set member fun other live' keyed' =>
      formed.single other number live' live (keyed'.trans keyed.symm), entry_set_self _ _ _,
      fun other different => entry_set_of_ne table _ different, fun _ => keyed,
      fun dead => absurd live dead⟩
  · have none : ∀ number ∈ table.list (bucketOf key), ¬ table.serves key number = true :=
      fun number member serves => served ⟨number, member, serves⟩
    have unserved : ∀ other, table.Live other → (table.entry other).key ≠ key := by
      rintro other live rfl
      exact none other (formed.listed other live) (serves_iff.mpr ⟨live, rfl⟩)
    have ended := search_of_forall table.vacant Option.none none
    cases oldest : ((table.list (bucketOf key)).filter table.vacant).getLast? with
    | some number =>
      have member := List.mem_of_getLast? oldest
      simp only [List.mem_filter, vacant, decide_eq_true_eq] at member
      obtain ⟨member, unused⟩ := member
      rw [oldest, Option.some_or] at ended
      have located : table.locate (bucketOf key) key = (number, table) := by
        simp only [locate, ended]
      simp only [Table.claim, located]
      refine ⟨formed.set member fun other live keyed => absurd keyed (unserved other live),
        entry_set_self _ _ _, fun other different => entry_set_of_ne table _ different,
        fun live => absurd unused live, fun _ => unserved⟩
    | none =>
      rw [oldest, Option.none_or] at ended
      have located : table.locate (bucketOf key) key =
          (table.size, table.link (bucketOf key) key) := by
        simp only [locate, ended]
      have fresh := formed.not_live_size
      have unused : (table.entry table.size).count = 0 := by simpa [Live] using fresh
      have linked : (table.link (bucketOf key) key).entry table.size = ⟨key, 0⟩ :=
        Function.update_self _ _ _
      have rest : ∀ other, other ≠ table.size →
          (table.link (bucketOf key) key).entry other = table.entry other :=
        fun other different => Function.update_of_ne different _ _
      simp only [Table.claim, located]
      refine ⟨(formed.link (bucketOf key) key).set ?_ ?_, ?_, ?_, fun live => absurd live fresh,
        fun _ => unserved⟩
      · simp [Table.link]
      · intro other live keyed
        by_contra different
        rw [Live, rest other different] at live
        rw [rest other different] at keyed
        exact unserved other live keyed
      · rw [entry_set_self, linked, unused]
      · intro other different
        rw [entry_set_of_ne _ _ different, rest other different]

/-- The entry in use for a key is found. -/
theorem WellFormed.find (formed : table.WellFormed bucketOf) (live : table.Live number)
    (keyed : (table.entry number).key = key) :
    table.find (bucketOf key) key = some number := by
  have member : number ∈ table.list (bucketOf key) := by
    rw [← keyed]
    exact formed.listed number live
  have serves : table.serves key number = true := serves_iff.mpr ⟨live, keyed⟩
  obtain ⟨other, found⟩ : ∃ other, table.find (bucketOf key) key = some other :=
    Option.isSome_iff_exists.mp (List.find?_isSome.mpr ⟨number, member, serves⟩)
  have serves' := List.find?_some found
  obtain ⟨live', keyed'⟩ := serves_iff.mp serves'
  rw [found, formed.single other number live' live (keyed'.trans keyed.symm)]

omit [DecidableEq Key] in
/-- Lowering the count of an entry in use keeps a table well formed. -/
theorem WellFormed.drop (formed : table.WellFormed bucketOf) (live : table.Live number) :
    (table.drop number).WellFormed bucketOf :=
  formed.set (formed.listed number live) fun other live' keyed =>
    formed.single other number live' live keyed

end Table

/-! ### Locks -/

/-- What an act on a lock comes to: the request is still waiting, granted, or refused. -/
inductive Reply
  | waiting
  | granted
  | refused
  deriving DecidableEq

/-- A kind of lock. A thread acts on a lock until its request is granted or refused; a label
stands for the scheduler's choices. A hold can be ended. -/
structure Lock (Thread Inner Kind Request Label : Type) where
  /-- The kind of hold a request asks for. -/
  kind : Request → Kind
  act : Request → Thread → Label → Inner → Option (Inner × Reply)
  finish : Kind → Thread → Label → Inner → Option Inner
  /-- The holds of a thread. -/
  holds : Inner → Thread → Kind → Nat
  /-- The thread is inside a call on the lock. -/
  busy : Inner → Thread → Bool

/-- The holds of the lock and the threads inside a call on it, the given one among them, can be
counted. -/
def Lock.Room {Thread Inner Kind Request Label : Type} [DecidableEq Thread] [Fintype Thread]
    [Fintype Kind] (lock : Lock Thread Inner Kind Request Label) (thread : Thread)
    (inner : Inner) : Prop :=
  ∑ other, (∑ kind, lock.holds inner other kind +
    if other = thread ∨ lock.busy inner other = true then 1 else 0) < 2 ^ 32

/-- What a lock promises of its holds, from its making on, to threads that have room. A granted
request is one more hold of its kind, an ended hold is one less, and nothing else changes the
holds; a thread is inside a call while its request waits. -/
structure Lock.Lawful {Thread Inner Kind Request Label : Type} [DecidableEq Thread]
    [DecidableEq Kind] [Fintype Thread] [Fintype Kind]
    (lock : Lock Thread Inner Kind Request Label) (Fresh Good : Inner → Prop) : Prop where
  fresh : ∀ inner, Fresh inner → Good inner ∧
    (∀ thread kind, lock.holds inner thread kind = 0) ∧ ∀ thread, lock.busy inner thread = false
  act : ∀ request thread label inner inner' reply, Good inner → lock.Room thread inner →
    lock.act request thread label inner = some (inner', reply) →
    Good inner' ∧
      (∀ other kind, lock.holds inner' other kind = lock.holds inner other kind +
        if other = thread ∧ reply = .granted ∧ kind = lock.kind request then 1 else 0) ∧
      ∀ other, lock.busy inner' other = true →
        other = thread ∧ reply = .waiting ∨ other ≠ thread ∧ lock.busy inner other = true
  finish : ∀ kind thread label inner inner', Good inner → lock.holds inner thread kind ≠ 0 →
    lock.finish kind thread label inner = some inner' →
    Good inner' ∧
      (∀ other kind', lock.holds inner' other kind' +
        (if other = thread ∧ kind' = kind then 1 else 0) = lock.holds inner other kind') ∧
      ∀ other, lock.busy inner' other = true → lock.busy inner other = true

/-! ### The registry -/

namespace Registry

variable {Key Request Kind Thread Inner Label : Type}

/-- Where a thread is: outside the registry, acting on the lock of the entry it has claimed, or
refused and about to give up the claim. -/
inductive Place (Key Request : Type)
  | idle
  | asking (key : Key) (request : Request) (number : Nat)
  | refused (key : Key) (number : Nat)
  deriving DecidableEq

namespace Place

/-- The request is for the key, at the entry. -/
def Concerns (key : Key) (number : Nat) : Place Key Request → Prop
  | idle => False
  | asking key' _ number' => key' = key ∧ number' = number
  | refused key' number' => key' = key ∧ number' = number

/-- The claim of the request on an entry. -/
def weight (number : Nat) : Place Key Request → Nat
  | idle => 0
  | asking _ _ number' => if number' = number then 1 else 0
  | refused _ number' => if number' = number then 1 else 0

/-- The request is for the key. -/
def requests [DecidableEq Key] (key : Key) : Place Key Request → Nat
  | idle => 0
  | asking key' _ _ => if key' = key then 1 else 0
  | refused key' _ => if key' = key then 1 else 0

theorem Concerns.weight_eq {key : Key} {number : Nat} {place : Place Key Request}
    (concerns : place.Concerns key number) : place.weight number = 1 := by
  cases place with
  | idle => exact concerns.elim
  | asking key' request number' => simp [weight, concerns.2]
  | refused key' number' => simp [weight, concerns.2]

/-- A claim on the entry is a request for the key, when it is one for the key exactly if it
concerns the entry. -/
theorem weight_eq_requests [DecidableEq Key] {key : Key} {number : Nat}
    {place : Place Key Request}
    (agrees : ∀ key' number', place.Concerns key' number' → (number' = number ↔ key' = key)) :
    place.weight number = place.requests key := by
  cases place with
  | idle => rfl
  | asking key' request number' =>
    simp only [weight, requests, agrees key' number' ⟨rfl, rfl⟩]
  | refused key' number' => simp only [weight, requests, agrees key' number' ⟨rfl, rfl⟩]

end Place

/-- A thread: where it is, and the holds it has been granted on each key and not ended. -/
structure Local (Key Request Kind : Type) where
  place : Place Key Request
  held : Key → Kind → Nat

/-- A state: the table, the locks of its entries, and the threads. -/
structure State (Key Request Kind Thread Inner : Type) where
  table : Table Key
  locks : Nat → Inner
  threads : Thread → Local Key Request Kind

/-- A thread asks for a key, acts on the lock of its request, gives up the claim of a refused
request, or ends a hold. -/
inductive Action (Key Request Kind Thread Label : Type)
  | lock (thread : Thread) (key : Key) (request : Request)
  | act (thread : Thread) (label : Label)
  | drop (thread : Thread)
  | release (thread : Thread) (key : Key) (kind : Kind) (label : Label)

section Machine

variable [DecidableEq Key] [DecidableEq Kind] [DecidableEq Thread]

/-- The thread after an act on the lock of its request. -/
def Local.settle (thread : Local Key Request Kind) (key : Key) (kind : Kind) (number : Nat) :
    Reply → Local Key Request Kind
  | .waiting => thread
  | .granted =>
    ⟨.idle, fun key' kind' =>
      thread.held key' kind' + if key' = key ∧ kind' = kind then 1 else 0⟩
  | .refused => { thread with place := .refused key number }

/-- The thread after the end of a hold. -/
def Local.lose (thread : Local Key Request Kind) (key : Key) (kind : Kind) :
    Local Key Request Kind :=
  { thread with
    held := fun key' kind' =>
      thread.held key' kind' - if key' = key ∧ kind' = kind then 1 else 0 }

theorem Local.held_settle (thread : Local Key Request Kind) (key key' : Key) (kind kind' : Kind)
    (number : Nat) (reply : Reply) :
    (thread.settle key kind number reply).held key' kind' = thread.held key' kind' +
      if reply = .granted ∧ key' = key ∧ kind' = kind then 1 else 0 := by
  cases reply <;> simp [Local.settle]

theorem Local.weight_settle {thread : Local Key Request Kind} {key : Key} {request : Request}
    {number : Nat} (asking : thread.place = .asking key request number) (kind : Kind)
    (number' : Nat) (reply : Reply) :
    (thread.settle key kind number reply).place.weight number' +
        (if reply = .granted ∧ number' = number then 1 else 0) =
      thread.place.weight number' := by
  cases reply <;> simp [Local.settle, asking, Place.weight, eq_comm]

theorem Local.concerns_settle {thread : Local Key Request Kind} {key key' : Key}
    {request : Request} {number number' : Nat}
    (asking : thread.place = .asking key request number) {kind : Kind} {reply : Reply}
    (concerns : (thread.settle key kind number reply).place.Concerns key' number') :
    key = key' ∧ number = number' := by
  cases reply with
  | waiting =>
    simp only [Local.settle, asking] at concerns
    exact concerns
  | granted => exact concerns.elim
  | refused => exact concerns

/-- One step of the registry. Asking for the null key, and releasing it, does nothing. A thread
releases only what it holds. -/
def step (lock : Lock Thread Inner Kind Request Label) (bucketOf : Key → Nat) (null : Key)
    (state : State Key Request Kind Thread Inner) :
    Action Key Request Kind Thread Label → Option (State Key Request Kind Thread Inner)
  | .lock thread key request =>
    match (state.threads thread).place with
    | .idle =>
      if key = null then some state
      else
        let (number, table) := state.table.claim (bucketOf key) key
        some { state with
          table := table
          threads := Function.update state.threads thread
            { state.threads thread with place := .asking key request number } }
    | _ => none
  | .act thread label =>
    match (state.threads thread).place with
    | .asking key request number =>
      (lock.act request thread label (state.locks number)).map fun (inner, reply) =>
        { state with
          locks := Function.update state.locks number inner
          threads := Function.update state.threads thread
            ((state.threads thread).settle key (lock.kind request) number reply) }
    | _ => none
  | .drop thread =>
    match (state.threads thread).place with
    | .refused _ number =>
      some { state with
        table := state.table.drop number
        threads := Function.update state.threads thread
          { state.threads thread with place := .idle } }
    | _ => none
  | .release thread key kind label =>
    match (state.threads thread).place with
    | .idle =>
      if key = null then some state
      else if (state.threads thread).held key kind = 0 then none
      else
        match state.table.find (bucketOf key) key with
        | none => some state
        | some number =>
          (lock.finish kind thread label (state.locks number)).map fun inner =>
            { table := state.table.drop number
              locks := Function.update state.locks number inner
              threads := Function.update state.threads thread
                ((state.threads thread).lose key kind) }
    | _ => none

/-- A request finds room in the count of the entry that it claims. -/
def Room (bucketOf : Key → Nat) (state : State Key Request Kind Thread Inner) :
    Action Key Request Kind Thread Label → Prop
  | .lock _ key _ =>
    (state.table.entry (state.table.claim (bucketOf key) key).1).count + 1 < 2 ^ 32
  | _ => True

instance (bucketOf : Key → Nat) (state : State Key Request Kind Thread Inner) :
    (action : Action Key Request Kind Thread Label) → Decidable (Room bucketOf state action)
  | .lock .. => inferInstanceAs (Decidable (_ < _))
  | .act .. | .drop _ | .release .. => inferInstanceAs (Decidable True)

/-- What a step of the registry can do. -/
inductive Stepped (lock : Lock Thread Inner Kind Request Label) (bucketOf : Key → Nat)
    (source : State Key Request Kind Thread Inner) :
    Action Key Request Kind Thread Label → State Key Request Kind Thread Inner → Prop
  | nothing {action : Action Key Request Kind Thread Label} :
      Stepped lock bucketOf source action source
  | ask {thread : Thread} {key : Key} {request : Request}
      (idle : (source.threads thread).place = .idle) :
      Stepped lock bucketOf source (.lock thread key request)
        { source with
          table := (source.table.claim (bucketOf key) key).2
          threads := Function.update source.threads thread
            { source.threads thread with
              place := .asking key request (source.table.claim (bucketOf key) key).1 } }
  | act {thread : Thread} {label : Label} {key : Key} {request : Request} {number : Nat}
      {inner : Inner} {reply : Reply}
      (asking : (source.threads thread).place = .asking key request number)
      (acted : lock.act request thread label (source.locks number) = some (inner, reply)) :
      Stepped lock bucketOf source (.act thread label)
        { source with
          locks := Function.update source.locks number inner
          threads := Function.update source.threads thread
            ((source.threads thread).settle key (lock.kind request) number reply) }
  | drop {thread : Thread} {key : Key} {number : Nat}
      (refused : (source.threads thread).place = .refused key number) :
      Stepped lock bucketOf source (.drop thread)
        { source with
          table := source.table.drop number
          threads := Function.update source.threads thread
            { source.threads thread with place := .idle } }
  | release {thread : Thread} {label : Label} {key : Key} {kind : Kind} {number : Nat}
      {inner : Inner} (idle : (source.threads thread).place = .idle)
      (held : (source.threads thread).held key kind ≠ 0)
      (found : source.table.find (bucketOf key) key = some number)
      (finished : lock.finish kind thread label (source.locks number) = some inner) :
      Stepped lock bucketOf source (.release thread key kind label)
        { table := source.table.drop number
          locks := Function.update source.locks number inner
          threads := Function.update source.threads thread
            ((source.threads thread).lose key kind) }

theorem stepped_of_step {lock : Lock Thread Inner Kind Request Label} {bucketOf : Key → Nat}
    {null : Key} {source target : State Key Request Kind Thread Inner}
    {action : Action Key Request Kind Thread Label}
    (stepped : step lock bucketOf null source action = some target) :
    Stepped lock bucketOf source action target := by
  cases action with
  | lock thread key request =>
    simp only [step] at stepped
    split at stepped
    next idle =>
      split at stepped
      next =>
        cases stepped
        exact .nothing
      next =>
        cases stepped
        exact .ask idle
    next => cases stepped
  | act thread label =>
    simp only [step] at stepped
    split at stepped
    next key request number asking =>
      obtain ⟨⟨inner, reply⟩, acted, rfl⟩ := Option.map_eq_some_iff.mp stepped
      exact .act asking acted
    next => cases stepped
  | drop thread =>
    simp only [step] at stepped
    split at stepped
    next key number refused =>
      cases stepped
      exact .drop refused
    next => cases stepped
  | release thread key kind label =>
    simp only [step] at stepped
    split at stepped
    next idle =>
      split at stepped
      next =>
        cases stepped
        exact .nothing
      next =>
        split at stepped
        next => cases stepped
        next held =>
          split at stepped
          next =>
            cases stepped
            exact .nothing
          next number found =>
            obtain ⟨inner, finished, rfl⟩ := Option.map_eq_some_iff.mp stepped
            exact .release idle held found finished
    next => cases stepped

/-- The runs of a registry from an empty table on. An entry that is not linked yet stands for a
lock as its making will leave it. -/
def machine (lock : Lock Thread Inner Kind Request Label) (bucketOf : Key → Nat) (null : Key)
    (Fresh : Inner → Prop) :
    Machine (State Key Request Kind Thread Inner) (Action Key Request Kind Thread Label) where
  Init state := (∀ bucket, state.table.list bucket = []) ∧
    (∀ number, (state.table.entry number).count = 0) ∧ (∀ number, Fresh (state.locks number)) ∧
    ∀ thread, state.threads thread = ⟨.idle, fun _ _ => 0⟩
  step := step lock bucketOf null

end Machine

/-! ### The invariant -/

section Invariant

variable [Fintype Thread] [Fintype Kind]

/-- The claims of a thread on an entry: its holds of the lock there, and its request. -/
def claims (lock : Lock Thread Inner Kind Request Label)
    (state : State Key Request Kind Thread Inner) (number : Nat) (thread : Thread) : Nat :=
  ∑ kind, lock.holds (state.locks number) thread kind +
    (state.threads thread).place.weight number

/-- What every step of a registry preserves. -/
structure Invariant (lock : Lock Thread Inner Kind Request Label) (bucketOf : Key → Nat)
    (Good : Inner → Prop) (state : State Key Request Kind Thread Inner) : Prop where
  formed : state.table.WellFormed bucketOf
  good : ∀ number, Good (state.locks number)
  bounded : ∀ number, (state.table.entry number).count < 2 ^ 32
  count : ∀ number, (state.table.entry number).count = ∑ thread, claims lock state number thread
  busy : ∀ number thread, lock.busy (state.locks number) thread = true →
    ∃ key request, (state.threads thread).place = .asking key request number
  keyed : ∀ thread key number, (state.threads thread).place.Concerns key number →
    (state.table.entry number).key = key
  held : ∀ number, state.table.Live number → ∀ thread kind,
    (state.threads thread).held (state.table.entry number).key kind =
      lock.holds (state.locks number) thread kind
  served : ∀ thread key kind, (state.threads thread).held key kind ≠ 0 →
    ∃ number, state.table.Live number ∧ (state.table.entry number).key = key

variable [DecidableEq Key] [DecidableEq Kind] [DecidableEq Thread]
  {lock : Lock Thread Inner Kind Request Label} {bucketOf : Key → Nat} {null : Key}
  {Fresh Good : Inner → Prop} {source target : State Key Request Kind Thread Inner}
  {thread : Thread} {key : Key} {kind : Kind} {number : Nat}

omit [DecidableEq Key] in
theorem invariant_init (lawful : lock.Lawful Fresh Good)
    (empty : ∀ bucket, source.table.list bucket = [])
    (unused : ∀ number, (source.table.entry number).count = 0)
    (fresh : ∀ number, Fresh (source.locks number))
    (idle : ∀ thread, source.threads thread = ⟨.idle, fun _ _ => 0⟩) :
    Invariant lock bucketOf Good source := by
  have dead : ∀ number, ¬ source.table.Live number := fun number live => live (unused number)
  refine ⟨⟨?_, ?_, ?_, ?_⟩, ?_, ?_, ?_, ?_, ?_, ?_, ?_⟩
  · simp [empty]
  · simp [empty]
  · exact fun number live => absurd live (dead number)
  · exact fun number _ live => absurd live (dead number)
  · exact fun number => (lawful.fresh _ (fresh number)).1
  · simp [unused]
  · intro number
    simp [unused, claims, (lawful.fresh _ (fresh number)).2.1, idle, Place.weight]
  · intro number thread busy
    rw [(lawful.fresh _ (fresh number)).2.2 thread] at busy
    cases busy
  · intro thread key number concerns
    rw [idle thread] at concerns
    exact concerns.elim
  · exact fun number live => absurd live (dead number)
  · intro thread key kind held
    rw [idle thread] at held
    exact absurd rfl held

omit [DecidableEq Key] [DecidableEq Kind] [DecidableEq Thread] in
/-- An entry with a claim on it is in use. -/
theorem live_of_claims (thread : Thread)
    (count : (source.table.entry number).count = ∑ thread, claims lock source number thread)
    (claimed : claims lock source number thread ≠ 0) : source.table.Live number := by
  have le : claims lock source number thread ≤ ∑ other, claims lock source number other :=
    Finset.single_le_sum (f := claims lock source number) (fun _ _ => Nat.zero_le _)
      (Finset.mem_univ thread)
  unfold Table.Live
  omega

omit [Fintype Thread] [DecidableEq Key] [DecidableEq Kind] [DecidableEq Thread] in
theorem claims_ne_zero_of_holds (holds : lock.holds (source.locks number) thread kind ≠ 0) :
    claims lock source number thread ≠ 0 := by
  have le : lock.holds (source.locks number) thread kind ≤
      ∑ other, lock.holds (source.locks number) thread other :=
    Finset.single_le_sum (f := lock.holds (source.locks number) thread)
      (fun _ _ => Nat.zero_le _) (Finset.mem_univ kind)
  unfold claims
  omega

omit [DecidableEq Key] [DecidableEq Kind] [DecidableEq Thread] in
theorem Invariant.live_of_concerns (holds : Invariant lock bucketOf Good source)
    (concerns : (source.threads thread).place.Concerns key number) :
    source.table.Live number := by
  refine live_of_claims thread (holds.count number) ?_
  rw [claims, concerns.weight_eq]
  omega

omit [DecidableEq Key] [DecidableEq Kind] [DecidableEq Thread] in
/-- The lock of an entry that is not in use is held by nobody. -/
theorem Invariant.holds_of_dead (holds : Invariant lock bucketOf Good source)
    (dead : ¬ source.table.Live number) (thread : Thread) (kind : Kind) :
    lock.holds (source.locks number) thread kind = 0 := by
  by_contra held
  exact dead (live_of_claims thread (holds.count number) (claims_ne_zero_of_holds held))

omit [DecidableEq Key] [DecidableEq Kind] [DecidableEq Thread] in
/-- No thread is inside a call on the lock of an entry that is not in use. -/
theorem Invariant.busy_of_dead (holds : Invariant lock bucketOf Good source)
    (dead : ¬ source.table.Live number) (thread : Thread) :
    lock.busy (source.locks number) thread = false := by
  by_contra busy
  obtain ⟨key, request, asking⟩ := holds.busy number thread (by simpa using busy)
  have concerns : (source.threads thread).place.Concerns key number := by
    rw [asking]
    exact ⟨rfl, rfl⟩
  exact dead (holds.live_of_concerns concerns)

/-! ### What each step preserves -/

omit [DecidableEq Key] [DecidableEq Kind] in
/-- Claiming an entry for a request keeps the invariant. -/
theorem Invariant.ask (holds : Invariant lock bucketOf Good source) {request : Request}
    (idle : (source.threads thread).place = .idle)
    (claimed : Table.Claimed source.table bucketOf key number target.table)
    (room : (source.table.entry number).count + 1 < 2 ^ 32) (locks : target.locks = source.locks)
    (own : target.threads thread =
      { source.threads thread with place := .asking key request number })
    (others : ∀ other, other ≠ thread → target.threads other = source.threads other) :
    Invariant lock bucketOf Good target := by
  have helds : ∀ other, (target.threads other).held = (source.threads other).held := by
    intro other
    by_cases same : other = thread
    · rw [same, own]
    · rw [others other same]
  have live : target.table.Live number := by
    simp [Table.Live, claimed.entry, raise_of_lt room]
  refine ⟨claimed.formed, ?_, ?_, ?_, ?_, ?_, ?_, ?_⟩
  · rw [locks]
    exact holds.good
  · intro other
    by_cases same : other = number
    · rw [same, claimed.entry]
      exact raise_lt _ _
    · rw [claimed.rest other same]
      exact holds.bounded other
  · intro other
    have sum := Monitor.sum_add_of_others (claims lock source other) (claims lock target other)
      thread fun other' different => by simp only [claims, locks, others other' different]
    have count := holds.count other
    simp only [claims, locks, own, idle, Place.weight] at sum count ⊢
    by_cases same : other = number
    · subst same
      rw [claimed.entry, raise_of_lt room]
      simp only [if_true] at sum ⊢
      omega
    · rw [claimed.rest other same]
      simp only [Ne.symm same, if_false] at sum
      omega
  · intro other other' busy
    rw [locks] at busy
    obtain ⟨key', request', asking⟩ := holds.busy other other' busy
    have different : other' ≠ thread := by
      rintro rfl
      rw [idle] at asking
      cases asking
    exact ⟨key', request', by rw [others other' different]; exact asking⟩
  · intro other key' number' concerns
    by_cases same : other = thread
    · rw [same, own] at concerns
      obtain ⟨rfl, rfl⟩ := concerns
      rw [claimed.entry]
    · rw [others other same] at concerns
      have keyed := holds.keyed other key' number' concerns
      by_cases here : number' = number
      · subst here
        rw [claimed.entry, ← keyed, claimed.kept (holds.live_of_concerns concerns)]
      · rw [claimed.rest number' here]
        exact keyed
  · intro number' live' other kind
    rw [helds, locks]
    by_cases here : number' = number
    · subst here
      rw [claimed.entry]
      by_cases before : source.table.Live number'
      · rw [← claimed.kept before]
        exact holds.held number' before other kind
      · rw [holds.holds_of_dead before]
        by_contra held
        obtain ⟨number, live, keyed⟩ := holds.served other key kind held
        exact claimed.unserved before number live keyed
    · rw [Table.Live, claimed.rest number' here] at live'
      rw [claimed.rest number' here]
      exact holds.held number' live' other kind
  · intro other key' kind held
    rw [helds] at held
    obtain ⟨number', live', keyed⟩ := holds.served other key' kind held
    by_cases here : number' = number
    · subst here
      exact ⟨number', live, by rw [claimed.entry, ← keyed, claimed.kept live']⟩
    · exact ⟨number', by rw [Table.Live, claimed.rest number' here]; exact live',
        by rw [claimed.rest number' here]; exact keyed⟩

section Act

variable {request : Request} {label : Label} {inner : Inner} {reply : Reply}

omit [Fintype Thread] in
/-- An act on the lock of a request leaves the claims as they are: where a request is granted, its
hold takes the place of the claim. -/
theorem claims_act (asking : (source.threads thread).place = .asking key request number)
    (changed : ∀ other kind, lock.holds inner other kind =
      lock.holds (source.locks number) other kind +
        if other = thread ∧ reply = .granted ∧ kind = lock.kind request then 1 else 0)
    (locks : target.locks = Function.update source.locks number inner)
    (own : (target.threads thread).place =
      ((source.threads thread).settle key (lock.kind request) number reply).place)
    (others : ∀ other, other ≠ thread → target.threads other = source.threads other)
    (number' : Nat) (other : Thread) :
    claims lock target number' other = claims lock source number' other := by
  unfold claims
  by_cases same : other = thread
  · subst same
    rw [own, ← Local.weight_settle asking (lock.kind request) number' reply, locks]
    by_cases at_ : number' = number
    · subst at_
      rw [Function.update_self, Finset.sum_congr rfl fun kind _ => changed other kind,
        Finset.sum_add_distrib]
      by_cases granted : reply = .granted
      · simp [granted]
        omega
      · simp [granted]
    · simp [at_]
  · rw [others other same, locks]
    by_cases at_ : number' = number
    · subst at_
      rw [Function.update_self, Finset.sum_congr rfl fun kind _ => changed other kind]
      simp [same]
    · rw [Function.update_of_ne at_]

/-- An act on the lock of a request keeps the agreement between what the threads hold and what the
locks say. -/
theorem held_act (holds : Invariant lock bucketOf Good source) (live : source.table.Live number)
    (keyed : (source.table.entry number).key = key)
    (changed : ∀ other kind, lock.holds inner other kind =
      lock.holds (source.locks number) other kind +
        if other = thread ∧ reply = .granted ∧ kind = lock.kind request then 1 else 0)
    (locks : target.locks = Function.update source.locks number inner)
    (own : target.threads thread =
      (source.threads thread).settle key (lock.kind request) number reply)
    (others : ∀ other, other ≠ thread → target.threads other = source.threads other)
    {number' : Nat} (live' : source.table.Live number') (other : Thread) (kind : Kind) :
    (target.threads other).held (source.table.entry number').key kind =
      lock.holds (target.locks number') other kind := by
  have before := holds.held number' live' other kind
  rw [locks]
  by_cases at_ : number' = number
  · subst at_
    rw [Function.update_self, changed other kind, ← before]
    by_cases same : other = thread
    · subst same
      rw [own, Local.held_settle, keyed]
      simp
    · rw [others other same]
      simp [same]
  · rw [Function.update_of_ne at_, ← before]
    by_cases same : other = thread
    · subst same
      have unrelated : (source.table.entry number').key ≠ key := fun equal =>
        at_ (holds.formed.single number' number live' live (equal.trans keyed.symm))
      rw [own, Local.held_settle]
      simp [unrelated]
    · rw [others other same]

/-- After an act on the lock of a request the threads inside a call are still asking: the acting
one where it waits, and the others where they were. -/
theorem busy_act (holds : Invariant lock bucketOf Good source)
    (asking : (source.threads thread).place = .asking key request number)
    (inside : ∀ other, lock.busy inner other = true → other = thread ∧ reply = .waiting ∨
      other ≠ thread ∧ lock.busy (source.locks number) other = true)
    (locks : target.locks = Function.update source.locks number inner)
    (own : target.threads thread =
      (source.threads thread).settle key (lock.kind request) number reply)
    (others : ∀ other, other ≠ thread → target.threads other = source.threads other)
    {number' : Nat} {other : Thread} (busy : lock.busy (target.locks number') other = true) :
    ∃ key' request', (target.threads other).place = .asking key' request' number' := by
  rw [locks] at busy
  by_cases same : other = thread
  · subst same
    by_cases at_ : number' = number
    · subst at_
      rw [Function.update_self] at busy
      rcases inside other busy with ⟨_, waiting⟩ | ⟨different, _⟩
      · exact ⟨key, request, by rw [own, waiting]; exact asking⟩
      · exact absurd rfl different
    · rw [Function.update_of_ne at_] at busy
      obtain ⟨key', request', asking'⟩ := holds.busy number' other busy
      rw [asking] at asking'
      cases asking'
      exact absurd rfl at_
  · rw [others other same]
    by_cases at_ : number' = number
    · subst at_
      rw [Function.update_self] at busy
      rcases inside other busy with ⟨equal, _⟩ | ⟨_, before⟩
      · exact absurd equal same
      · exact holds.busy number' other before
    · rw [Function.update_of_ne at_] at busy
      exact holds.busy number' other busy

omit [DecidableEq Key] [DecidableEq Kind] in
/-- A request that acts on the lock of an entry finds room there: the entry counts it. -/
theorem Invariant.room (holds : Invariant lock bucketOf Good source)
    (asking : (source.threads thread).place = .asking key request number) :
    lock.Room thread (source.locks number) := by
  have bounded := holds.bounded number
  rw [holds.count number] at bounded
  refine Nat.lt_of_le_of_lt (Finset.sum_le_sum fun other _ => ?_) bounded
  unfold claims
  split
  next inside =>
    have asks : ∃ key request, (source.threads other).place = .asking key request number := by
      rcases inside with rfl | busy
      · exact ⟨key, request, asking⟩
      · exact holds.busy number other busy
    obtain ⟨key', request', asking'⟩ := asks
    simp [asking', Place.weight]
  next => exact Nat.add_le_add_left (Nat.zero_le _) _

/-- An act on the lock of a request keeps the invariant: a granted request becomes a hold of its
key. -/
theorem Invariant.act (lawful : lock.Lawful Fresh Good)
    (holds : Invariant lock bucketOf Good source)
    (asking : (source.threads thread).place = .asking key request number)
    (acted : lock.act request thread label (source.locks number) = some (inner, reply))
    (table : target.table = source.table)
    (locks : target.locks = Function.update source.locks number inner)
    (own : target.threads thread =
      (source.threads thread).settle key (lock.kind request) number reply)
    (others : ∀ other, other ≠ thread → target.threads other = source.threads other) :
    Invariant lock bucketOf Good target := by
  obtain ⟨good, changed, inside⟩ :=
    lawful.act _ _ _ _ _ _ (holds.good number) (holds.room asking) acted
  have concerned : (source.threads thread).place.Concerns key number := by
    rw [asking]
    exact ⟨rfl, rfl⟩
  have live := holds.live_of_concerns concerned
  have keyed := holds.keyed thread key number concerned
  have here : target.locks number = inner := by rw [locks, Function.update_self]
  have elsewhere : ∀ number', number' ≠ number → target.locks number' = source.locks number' :=
    fun number' different => by rw [locks, Function.update_of_ne different]
  have balanced : ∀ number' other,
      claims lock target number' other = claims lock source number' other :=
    claims_act asking changed locks (congrArg Local.place own) others
  refine ⟨by rw [table]; exact holds.formed, ?_, ?_, ?_, ?_, ?_, ?_, ?_⟩
  · intro number'
    by_cases at_ : number' = number
    · rw [at_, here]
      exact good
    · rw [elsewhere number' at_]
      exact holds.good number'
  · rw [table]
    exact holds.bounded
  · intro number'
    rw [table, holds.count number']
    exact (Finset.sum_congr rfl fun other _ => balanced number' other).symm
  · exact fun number' other busy => busy_act holds asking inside locks own others busy
  · intro other key' number' concerns
    rw [table]
    by_cases same : other = thread
    · subst same
      rw [own] at concerns
      obtain ⟨rfl, rfl⟩ := Local.concerns_settle asking concerns
      exact keyed
    · rw [others other same] at concerns
      exact holds.keyed other key' number' concerns
  · intro number' live' other kind
    rw [table] at live' ⊢
    exact held_act holds live keyed changed locks own others live' other kind
  · intro other key' kind held
    rw [table]
    by_cases same : other = thread
    · subst same
      rw [own, Local.held_settle] at held
      by_cases gained : reply = .granted ∧ key' = key ∧ kind = lock.kind request
      · exact ⟨number, live, by rw [keyed, gained.2.1]⟩
      · rw [if_neg gained] at held
        exact holds.served other key' kind held
    · rw [others other same] at held
      exact holds.served other key' kind held

end Act

omit [DecidableEq Key] [DecidableEq Kind] in
/-- Lowering the count of an entry keeps the invariant when one claim on it has ended. -/
theorem Invariant.lower (holds : Invariant lock bucketOf Good source) (thread : Thread)
    (live : source.table.Live number) (table : target.table = source.table.drop number)
    (good : ∀ number, Good (target.locks number))
    (ended : ∀ number' other, claims lock target number' other +
      (if other = thread ∧ number' = number then 1 else 0) = claims lock source number' other)
    (busy : ∀ number thread, lock.busy (target.locks number) thread = true →
      ∃ key request, (target.threads thread).place = .asking key request number)
    (concerns : ∀ other key number', (target.threads other).place.Concerns key number' →
      (source.threads other).place.Concerns key number')
    (held : ∀ number', source.table.Live number' → ∀ other kind,
      (target.threads other).held (source.table.entry number').key kind =
        lock.holds (target.locks number') other kind)
    (served : ∀ other key kind, (target.threads other).held key kind ≠ 0 →
      (source.threads other).held key kind ≠ 0) :
    Invariant lock bucketOf Good target := by
  have keys : ∀ number', (target.table.entry number').key =
      (source.table.entry number').key := by
    intro number'
    rw [table]
    by_cases at_ : number' = number
    · rw [at_, Table.drop, Table.entry_set_self]
    · rw [Table.drop, Table.entry_set_of_ne _ _ at_]
  have count : ∀ number', (target.table.entry number').count =
      ∑ other, claims lock target number' other := by
    intro number'
    have before := holds.count number'
    rw [← Finset.sum_congr rfl fun other _ => ended number' other,
      Finset.sum_add_distrib] at before
    rw [table]
    by_cases at_ : number' = number
    · subst at_
      simp only [and_true, Finset.sum_ite_eq', Finset.mem_univ, if_true] at before
      rw [Table.drop, Table.entry_set_self, before]
      exact lower_of_le (Nat.le_add_left 1 _)
    · simp only [at_, and_false, if_false, Finset.sum_const_zero, Nat.add_zero] at before
      rw [Table.drop, Table.entry_set_of_ne _ _ at_, before]
  have alive : ∀ number', target.table.Live number' → source.table.Live number' := by
    intro number' live'
    by_cases at_ : number' = number
    · rw [at_]
      exact live
    · rw [table, Table.drop, Table.Live, Table.entry_set_of_ne _ _ at_] at live'
      exact live'
  have bounded : ∀ number', (target.table.entry number').count < 2 ^ 32 := by
    intro number'
    rw [table]
    by_cases at_ : number' = number
    · have positive : 1 ≤ (source.table.entry number).count := Nat.one_le_iff_ne_zero.mpr live
      rw [at_, Table.drop, Table.entry_set_self, lower_of_le positive]
      exact Nat.lt_of_le_of_lt (Nat.sub_le _ _) (holds.bounded number)
    · rw [Table.drop, Table.entry_set_of_ne _ _ at_]
      exact holds.bounded number'
  refine ⟨by rw [table]; exact holds.formed.drop live, good, bounded, count, busy, ?_, ?_, ?_⟩
  · intro other key number' concerned
    rw [keys]
    exact holds.keyed other key number' (concerns other key number' concerned)
  · intro number' live' other kind
    rw [keys]
    exact held number' (alive number' live') other kind
  · intro other key kind held'
    obtain ⟨number', live', rfl⟩ := holds.served other key kind (served other key kind held')
    rw [held number' live' other kind] at held'
    exact ⟨number', live_of_claims other (count number') (claims_ne_zero_of_holds held'),
      keys number'⟩

omit [DecidableEq Key] [DecidableEq Kind] in
/-- Giving up the claim of a refused request keeps the invariant. -/
theorem Invariant.drop (holds : Invariant lock bucketOf Good source)
    (refused : (source.threads thread).place = .refused key number)
    (table : target.table = source.table.drop number) (locks : target.locks = source.locks)
    (own : target.threads thread = { source.threads thread with place := .idle })
    (others : ∀ other, other ≠ thread → target.threads other = source.threads other) :
    Invariant lock bucketOf Good target := by
  have concerned : (source.threads thread).place.Concerns key number := by
    rw [refused]
    exact ⟨rfl, rfl⟩
  have helds : ∀ other, (target.threads other).held = (source.threads other).held := by
    intro other
    by_cases same : other = thread
    · rw [same, own]
    · rw [others other same]
  refine holds.lower thread (holds.live_of_concerns concerned) table ?_ ?_ ?_ ?_ ?_ ?_
  · rw [locks]
    exact holds.good
  · intro number' other
    unfold claims
    rw [locks]
    by_cases same : other = thread
    · subst same
      simp only [own, refused, Place.weight, true_and, eq_comm]
      omega
    · rw [others other same]
      simp [same]
  · intro number' other busy
    rw [locks] at busy
    obtain ⟨key', request, asking⟩ := holds.busy number' other busy
    have different : other ≠ thread := by
      rintro rfl
      rw [refused] at asking
      cases asking
    exact ⟨key', request, by rw [others other different]; exact asking⟩
  · intro other key' number' concerns
    by_cases same : other = thread
    · rw [same, own] at concerns
      exact concerns.elim
    · rwa [others other same] at concerns
  · intro number' live other kind
    rw [helds, locks]
    exact holds.held number' live other kind
  · intro other key' kind held
    rwa [helds] at held

/-- The end of a hold keeps the agreement between what the threads hold and what the locks say. -/
theorem held_release (holds : Invariant lock bucketOf Good source) {inner : Inner}
    (live : source.table.Live number) (keyed : (source.table.entry number).key = key)
    (changed : ∀ other kind', lock.holds inner other kind' +
      (if other = thread ∧ kind' = kind then 1 else 0) =
        lock.holds (source.locks number) other kind')
    (locks : target.locks = Function.update source.locks number inner)
    (own : target.threads thread = (source.threads thread).lose key kind)
    (others : ∀ other, other ≠ thread → target.threads other = source.threads other)
    {number' : Nat} (live' : source.table.Live number') (other : Thread) (kind' : Kind) :
    (target.threads other).held (source.table.entry number').key kind' =
      lock.holds (target.locks number') other kind' := by
  have before := holds.held number' live' other kind'
  rw [locks]
  by_cases at_ : number' = number
  · subst at_
    have step := changed other kind'
    rw [Function.update_self]
    by_cases same : other = thread
    · subst same
      rw [own, keyed]
      rw [keyed] at before
      simp only [Local.lose, true_and] at step ⊢
      omega
    · rw [others other same, before]
      simpa [same] using step.symm
  · rw [Function.update_of_ne at_, ← before]
    by_cases same : other = thread
    · subst same
      have unrelated : (source.table.entry number').key ≠ key := fun equal =>
        at_ (holds.formed.single number' number live' live (equal.trans keyed.symm))
      rw [own]
      simp [Local.lose, unrelated]
    · rw [others other same]

/-- Ending a hold keeps the invariant. -/
theorem Invariant.release (lawful : lock.Lawful Fresh Good)
    (holds : Invariant lock bucketOf Good source) {label : Label} {inner : Inner}
    (idle : (source.threads thread).place = .idle)
    (live : source.table.Live number) (keyed : (source.table.entry number).key = key)
    (held : (source.threads thread).held key kind ≠ 0)
    (finished : lock.finish kind thread label (source.locks number) = some inner)
    (table : target.table = source.table.drop number)
    (locks : target.locks = Function.update source.locks number inner)
    (own : target.threads thread = (source.threads thread).lose key kind)
    (others : ∀ other, other ≠ thread → target.threads other = source.threads other) :
    Invariant lock bucketOf Good target := by
  have staked : lock.holds (source.locks number) thread kind ≠ 0 := by
    rw [← holds.held number live thread kind, keyed]
    exact held
  obtain ⟨good, changed, inside⟩ :=
    lawful.finish _ _ _ _ _ (holds.good number) staked finished
  have here : target.locks number = inner := by rw [locks, Function.update_self]
  have elsewhere : ∀ number', number' ≠ number → target.locks number' = source.locks number' :=
    fun number' different => by rw [locks, Function.update_of_ne different]
  have places : ∀ other, (target.threads other).place = (source.threads other).place := by
    intro other
    by_cases same : other = thread
    · rw [same, own]
      rfl
    · rw [others other same]
  refine holds.lower thread live table ?_ ?_ ?_ ?_ ?_ ?_
  · intro number'
    by_cases at_ : number' = number
    · rw [at_, here]
      exact good
    · rw [elsewhere number' at_]
      exact holds.good number'
  · intro number' other
    unfold claims
    rw [places]
    by_cases at_ : number' = number
    · subst at_
      rw [here, ← Finset.sum_congr rfl fun kind _ => changed other kind,
        Finset.sum_add_distrib]
      by_cases same : other = thread
      · simp [same]
        omega
      · simp [same]
    · rw [elsewhere number' at_]
      simp [at_]
  · intro number' other busy
    have before : lock.busy (source.locks number') other = true := by
      by_cases at_ : number' = number
      · rw [at_, here] at busy
        rw [at_]
        exact inside other busy
      · rwa [elsewhere number' at_] at busy
    rw [places]
    exact holds.busy number' other before
  · intro other key' number' concerns
    rwa [places] at concerns
  · intro number' live' other kind'
    exact held_release holds live keyed changed locks own others live' other kind'
  · intro other key' kind' held'
    by_cases same : other = thread
    · subst same
      rw [own] at held'
      simp only [Local.lose] at held'
      omega
    · rwa [others other same] at held'

theorem invariant_step (lawful : lock.Lawful Fresh Good)
    (source : State Key Request Kind Thread Inner)
    (action : Action Key Request Kind Thread Label)
    (target : State Key Request Kind Thread Inner)
    (holds : Invariant lock bucketOf Good source) (room : Room bucketOf source action)
    (stepped : step lock bucketOf null source action = some target) :
    Invariant lock bucketOf Good target := by
  have others : ∀ (thread : Thread) (local_ : Local Key Request Kind) (other : Thread),
      other ≠ thread →
      Function.update source.threads thread local_ other = source.threads other :=
    fun _ _ _ different => Function.update_of_ne different _ _
  cases stepped_of_step stepped with
  | nothing => exact holds
  | ask idle =>
    exact holds.ask idle (holds.formed.claim _) room rfl (Function.update_self _ _ _) (others _ _)
  | act asking acted =>
    exact holds.act lawful asking acted rfl rfl (Function.update_self _ _ _) (others _ _)
  | drop refused =>
    exact holds.drop refused rfl rfl (Function.update_self _ _ _) (others _ _)
  | release idle held found finished =>
    obtain ⟨number, live, keyed⟩ := holds.served _ _ _ held
    rw [holds.formed.find live keyed] at found
    cases found
    exact holds.release lawful idle live keyed held finished rfl rfl
      (Function.update_self _ _ _) (others _ _)

/-- The invariant holds wherever a run of a registry leads whose requests find room. -/
theorem invariant_run (lawful : lock.Lawful Fresh Good)
    {moves : List (Move (State Key Request Kind Thread Inner)
      (Action Key Request Kind Thread Label))}
    (run : (machine lock bucketOf null Fresh).Run moves source)
    (room : Machine.Meets (Room bucketOf) moves) : Invariant lock bucketOf Good source := by
  refine run.invariant_of_meets (fun state initial => ?_) (invariant_step lawful) room
  obtain ⟨empty, unused, fresh, idle⟩ := initial
  exact invariant_init lawful empty unused fresh idle

/-- An entry is given another key only when it is not in use. -/
theorem not_live_of_rekeyed (holds : Invariant lock bucketOf Good source)
    {action : Action Key Request Kind Thread Label}
    (stepped : step lock bucketOf null source action = some target)
    (rekeyed : (target.table.entry number).key ≠ (source.table.entry number).key) :
    ¬ source.table.Live number := by
  have dropped : ∀ number', ((source.table.drop number').entry number).key =
      (source.table.entry number).key := by
    intro number'
    by_cases at_ : number = number'
    · rw [at_, Table.drop, Table.entry_set_self]
    · rw [Table.drop, Table.entry_set_of_ne _ _ at_]
  cases stepped_of_step stepped with
  | nothing => exact absurd rfl rekeyed
  | @ask thread key request idle =>
    have claimed := holds.formed.claim key
    intro live
    by_cases at_ : number = (source.table.claim (bucketOf key) key).1
    · subst at_
      refine rekeyed ?_
      rw [claimed.kept live]
      exact congrArg Entry.key claimed.entry
    · exact rekeyed (congrArg Entry.key (claimed.rest number at_))
  | act asking acted => exact absurd rfl rekeyed
  | drop refused => exact absurd (dropped _) rekeyed
  | release idle held found finished => exact absurd (dropped _) rekeyed

/-- The registry is exact: a bucket has at most one entry in use for a key; the count of an entry
in use is the number of holds of its key and of requests for it; a request depends on an entry in
use for its key, so that two keys never meet at one entry; and the lock of an entry in use is held
as its key is. -/
structure Exact (lock : Lock Thread Inner Kind Request Label)
    (state : State Key Request Kind Thread Inner) : Prop where
  single : ∀ bucket, ∀ number ∈ state.table.list bucket, ∀ number' ∈ state.table.list bucket,
    state.table.Live number → state.table.Live number' →
    (state.table.entry number).key = (state.table.entry number').key → number = number'
  count : ∀ number, state.table.Live number → (state.table.entry number).count =
    ∑ thread, (∑ kind, (state.threads thread).held (state.table.entry number).key kind +
      (state.threads thread).place.requests (state.table.entry number).key)
  keyed : ∀ thread key number, (state.threads thread).place.Concerns key number →
    state.table.Live number ∧ (state.table.entry number).key = key
  apart : ∀ thread thread' key key' number,
    (state.threads thread).place.Concerns key number →
    (state.threads thread').place.Concerns key' number → key = key'
  held : ∀ number, state.table.Live number → ∀ thread kind,
    lock.holds (state.locks number) thread kind =
      (state.threads thread).held (state.table.entry number).key kind
  unheld : ∀ number, ¬ state.table.Live number → ∀ thread,
    (∀ kind, lock.holds (state.locks number) thread kind = 0) ∧
      lock.busy (state.locks number) thread = false

omit [DecidableEq Kind] [DecidableEq Thread] in
theorem Invariant.exact (holds : Invariant lock bucketOf Good source) : Exact lock source := by
  refine ⟨?_, ?_, ?_, ?_, ?_, ?_⟩
  · intro bucket number _ number' _
    exact holds.formed.single number number'
  · intro number live
    rw [holds.count number]
    refine Finset.sum_congr rfl fun thread _ => ?_
    have agrees : ∀ key' number', (source.threads thread).place.Concerns key' number' →
        (number' = number ↔ key' = (source.table.entry number).key) := by
      intro key' number' concerns
      have keyed := holds.keyed thread key' number' concerns
      constructor
      · rintro rfl
        exact keyed.symm
      · rintro rfl
        exact holds.formed.single number' number (holds.live_of_concerns concerns) live keyed
    rw [claims, Place.weight_eq_requests agrees]
    congr 1
    exact Finset.sum_congr rfl fun kind _ => (holds.held number live thread kind).symm
  · intro thread key number concerns
    exact ⟨holds.live_of_concerns concerns, holds.keyed thread key number concerns⟩
  · intro thread thread' key key' number concerns concerns'
    rw [← holds.keyed thread key number concerns, holds.keyed thread' key' number concerns']
  · exact fun number live thread kind => (holds.held number live thread kind).symm
  · exact fun number dead thread =>
      ⟨holds.holds_of_dead dead thread, holds.busy_of_dead dead thread⟩

end Invariant

end Registry

end Concurrency
