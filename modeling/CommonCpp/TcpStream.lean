/-
This file models the buffers of `tcpstream` between its callers and its socket, and finds when no
byte is lost on the way.

A stream that was opened with a size has an area for bytes that are still to be written, and one
for bytes that were read and not yet taken; one that was opened without is not buffered. `overflow`
writes what is in the first area and keeps what the socket did not take. So what was accepted is
what was sent and what is still to be sent. But closing writes once only, and drops what is left
after it.

`sync`, which every flush of the output calls, also drops the bytes that were read and not yet
taken. And a look at the next byte takes it from the socket when the stream is not buffered.

What the socket answers is part of a call. When the buffers are deleted the pointers into them stay,
and a call that would use them has no outcome here.
-/

import CommonCpp.Machine

namespace CommonCpp

open Concurrency

namespace TcpStream

/-! ### The code -/

/-- The pointers of a get area or a put area, with the bytes between them: those from `gptr` to
`egptr`, or those from `pbase` to `pptr`. They are stale when the buffer was deleted. -/
inductive Area
  | unset
  | holds (bytes : List UInt8)
  | stale
  deriving DecidableEq

structure State where
  bufsize : ℕ
  /-- Whether `gbuf` and `pbuf` are buffers. -/
  allocated : Bool
  get : Area
  put : Area
  failbit : Bool
  /-- What the callers put, and what was written to the socket, since the stream was opened. -/
  accepted : List UInt8
  sent : List UInt8
  /-- What was read from the socket, and what the callers took, since the stream was opened. -/
  received : List UInt8
  delivered : List UInt8
  deriving DecidableEq

/-- What `_write` answers: how many bytes it took, or nothing after an error. -/
abbrev Written := Option ℕ

/-- What `_wait` and `_read` answer: nothing after an error. -/
structure Read where
  ready : Bool
  bytes : Option (List UInt8)
  deriving DecidableEq

inductive Action
  | open (size : ℕ) (connected : Bool) (written : Written)
  | sputc (c : UInt8) (written : Written)
  | sgetc (read : Read)
  | sbumpc (read : Read)
  | sync (written : Written)
  | close (written : Written)

def Area.freed : Area → Area
  | holds _ => stale
  | area => area

/-- `delete[]` of both buffers. -/
def delete (state : State) : State :=
  if state.allocated then
    { state with allocated := false, get := state.get.freed, put := state.put.freed }
  else state

def reset (state : State) : State :=
  if state.bufsize = 0 then state else { delete state with bufsize := 0, failbit := false }

/-- What `overflow` does last: the bytes that are left are at the front, and the byte behind. -/
def rebuffer (state : State) (pending : List UInt8) : Option UInt8 → State × Bool
  | none => ({ state with put := .holds pending }, false)
  | some c =>
    ({ state with put := .holds (pending ++ [c]), accepted := state.accepted ++ [c] }, true)

/-- `overflow` of a byte or of `EOF`, and whether it returns something else than `EOF`. -/
def overflow (state : State) (c : Option UInt8) (written : Written) : Option (State × Bool) :=
  if state.bufsize = 1 then
    match c, written with
    | none, _ => some (state, false)
    | some _, none => some (reset state, false)
    | some _, some 0 => some (state, false)
    | some c, some 1 =>
      some ({ state with sent := state.sent ++ [c], accepted := state.accepted ++ [c] }, true)
    | some _, some (_ + 2) => none
  else
    match state.put with
    | .unset => some (state, false)
    | .stale => none
    | .holds [] => some (rebuffer state [] c)
    | .holds pending =>
      match written with
      | none => some (reset state, false)
      | some 0 => some (state, false)
      | some (rlen + 1) =>
        if rlen + 1 ≤ pending.length then
          some (rebuffer { state with sent := state.sent ++ pending.take (rlen + 1) }
            (pending.drop (rlen + 1)) c)
        else none

/-- `sputc` of the stream buffer, which calls `overflow` when there is no room. -/
def sputc (state : State) (c : UInt8) (written : Written) : Option (State × Bool) :=
  match state.put with
  | .stale => none
  | .unset => overflow state (some c) written
  | .holds pending =>
    if pending.length < state.bufsize then some (rebuffer state pending (some c))
    else overflow state (some c) written

def underflow (state : State) (read : Read) : Option (State × Option UInt8) :=
  if state.bufsize = 1 then
    if read.ready then
      match read.bytes with
      | none => some (reset state, none)
      | some [] => some (state, none)
      | some [ch] => some ({ state with received := state.received ++ [ch] }, some ch)
      | some (_ :: _ :: _) => none
    else some ({ state with failbit := true }, none)
  else
    match state.get with
    | .unset => some (state, none)
    | .stale => none
    | .holds (ch :: _) => some (state, some ch)
    | .holds [] =>
      if read.ready then
        match read.bytes with
        | none => some (reset state, none)
        | some [] => some ({ state with failbit := true }, none)
        | some (ch :: rest) =>
          if rest.length + 1 ≤ state.bufsize then
            some ({ state with
              get := .holds (ch :: rest), received := state.received ++ ch :: rest }, some ch)
          else none
      else some ({ state with failbit := true }, none)

/-- `gbump(1)`. -/
def Area.bump : Area → Area
  | holds bytes => holds bytes.tail
  | area => area

/-- `uflow` takes the byte that `underflow` found. -/
def uflow (state : State) (read : Read) : Option (State × Option UInt8) :=
  (underflow state read).map fun
    | (state, none) => (state, none)
    | (state, some ret) =>
      let get := if state.bufsize = 1 then state.get else state.get.bump
      ({ state with get, delivered := state.delivered ++ [ret] }, some ret)

/-- `sgetc` of the stream buffer, a look at the next byte. -/
def sgetc (state : State) (read : Read) : Option (State × Option UInt8) :=
  match state.get with
  | .stale => none
  | .holds (ch :: _) => some (state, some ch)
  | _ => underflow state read

/-- `sbumpc` of the stream buffer, which takes the next byte. -/
def sbumpc (state : State) (read : Read) : Option (State × Option UInt8) :=
  match state.get with
  | .stale => none
  | .holds (ch :: rest) =>
    some ({ state with get := .holds rest, delivered := state.delivered ++ [ch] }, some ch)
  | _ => uflow state read

/-- `setg` with the end of a buffer, which may be the null pointer. -/
def setgEnd (state : State) : State :=
  { state with get := if state.bufsize = 0 then .unset else .holds [] }

def sync (state : State) (written : Written) : Option State :=
  if state.bufsize = 0 then some state
  else (overflow state none written).map fun result => setgEnd result.1

def close (state : State) (written : Written) : Option State :=
  if state.bufsize = 0 then some state
  else
    (sync state written).map fun state => { delete state with bufsize := 0, failbit := false }

/-- `StreamBuffer::allocate`, with nothing transferred yet. -/
def allocate (state : State) (size : ℕ) : State :=
  let state :=
    { delete state with accepted := [], sent := [], received := [], delivered := [] }
  if size < 2 then { state with bufsize := 1 }
  else
    { state with
      bufsize := size, allocated := true, get := .holds [], put := .holds [], failbit := false }

def openTo (state : State) (size : ℕ) (connected : Bool) (written : Written) : Option State :=
  (if state.bufsize = 0 then some state else close state written).map fun state =>
    if connected then allocate state size else state

def step (state : State) : Action → Option State
  | .open size connected written => openTo state size connected written
  | .sputc c written => (sputc state c written).map Prod.fst
  | .sgetc read => (sgetc state read).map Prod.fst
  | .sbumpc read => (sbumpc state read).map Prod.fst
  | .sync written => sync state written
  | .close written => close state written

/-- The runs of a stream from its constructor on. -/
def machine : Machine State Action where
  Init state := state = ⟨0, false, .unset, .unset, false, [], [], [], []⟩
  step := step

/-! ### What a call does -/

variable {state target : State}

/-- The bytes that the area holds. -/
def Area.bytes : Area → List UInt8
  | holds bytes => bytes
  | _ => []

theorem Area.bytes_of_not_holds {area : Area} (not : ∀ bytes, area ≠ .holds bytes) :
    area.bytes = [] := by
  cases area with
  | holds bytes => exact absurd rfl (not bytes)
  | _ => rfl

theorem bufsize_reset (state : State) : (reset state).bufsize = 0 := by
  unfold reset
  split
  next closed => exact closed
  next => rfl

theorem sent_delete (state : State) :
    (delete state).sent = state.sent ∧ (delete state).accepted = state.accepted := by
  unfold delete
  split <;> exact ⟨rfl, rfl⟩

theorem sent_reset (state : State) :
    (reset state).sent = state.sent ∧ (reset state).accepted = state.accepted := by
  unfold reset
  split
  · exact ⟨rfl, rfl⟩
  · exact sent_delete state

/-- What `overflow` does: nothing, because there is nothing to write or the socket takes nothing;
or it ends the connection after an error; or it writes a byte, or some of the bytes of a buffer. -/
theorem overflow_cases {c : Option UInt8} {written : Written} {put : Bool}
    (overflows : overflow state c written = some (target, put)) :
    (target = state ∧ (state.bufsize = 1 ∨ state.put.bytes = [] ∨ written = some 0)) ∨
      (target = reset state ∧ written = none ∧ (c = none → state.put.bytes ≠ [])) ∨
      (state.bufsize = 1 ∧ ∃ ch, c = some ch ∧ target =
        { state with sent := state.sent ++ [ch], accepted := state.accepted ++ [ch] }) ∨
      (state.bufsize ≠ 1 ∧ ∃ pending, ∃ rlen ≤ pending.length, state.put = .holds pending ∧
        (pending ≠ [] → 0 < rlen ∧ written = some rlen) ∧
        rebuffer { state with sent := state.sent ++ pending.take rlen } (pending.drop rlen) c =
          (target, put)) := by
  unfold overflow at overflows
  split at overflows
  next single =>
    split at overflows <;> cases overflows
    · exact .inl ⟨rfl, .inl single⟩
    · exact .inr (.inl ⟨rfl, rfl, fun nothing => nomatch nothing⟩)
    · exact .inl ⟨rfl, .inl single⟩
    · exact .inr (.inr (.inl ⟨single, _, rfl, rfl⟩))
  next notSingle =>
    split at overflows
    next unset =>
      cases overflows
      exact .inl ⟨rfl, .inr (.inl (by rw [unset]; rfl))⟩
    · cases overflows
    next keeps =>
      refine .inr (.inr (.inr
        ⟨notSingle, [], 0, Nat.le_refl 0, keeps, fun not => absurd rfl not, ?_⟩))
      rw [List.take_nil, List.append_nil, List.drop_nil]
      exact Option.some.inj overflows
    next pending notNil keeps =>
      split at overflows
      · cases overflows
        exact .inr (.inl ⟨rfl, rfl, fun _ => by rw [keeps]; exact notNil⟩)
      · cases overflows
        exact .inl ⟨rfl, .inr (.inr rfl)⟩
      next rlen =>
        split at overflows
        next enough =>
          exact .inr (.inr (.inr ⟨notSingle, pending, rlen + 1, enough, keeps,
            fun _ => ⟨Nat.succ_pos rlen, rfl⟩, Option.some.inj overflows⟩))
        next => cases overflows

/-- What `underflow` does when it finds a byte. -/
theorem found_of_underflow {read : Read} {ret : UInt8}
    (underflows : underflow state read = some (target, some ret)) :
    (state.bufsize = 1 ∧ read.ready = true ∧ read.bytes = some [ret] ∧
        target = { state with received := state.received ++ [ret] }) ∨
      (state.bufsize ≠ 1 ∧ ∃ rest, state.get = .holds (ret :: rest) ∧ target = state) ∨
      (state.bufsize ≠ 1 ∧ ∃ rest, state.get = .holds [] ∧ rest.length + 1 ≤ state.bufsize ∧
        target = { state with
          get := .holds (ret :: rest), received := state.received ++ ret :: rest }) := by
  unfold underflow at underflows
  split at underflows
  next single =>
    split at underflows
    next ready =>
      split at underflows <;> cases underflows
      next answer => exact .inl ⟨single, ready, answer, rfl⟩
    next => cases underflows
  next notSingle =>
    split at underflows
    · cases underflows
    · cases underflows
    next rest get =>
      cases underflows
      exact .inr (.inl ⟨notSingle, rest, get, rfl⟩)
    next get =>
      split at underflows
      · split at underflows
        · cases underflows
        · cases underflows
        next rest _ =>
          split at underflows
          next room =>
            cases underflows
            exact .inr (.inr ⟨notSingle, rest, get, room, rfl⟩)
          next => cases underflows
      · cases underflows

/-- What `underflow` does when it finds none. -/
theorem nothing_of_underflow {read : Read}
    (underflows : underflow state read = some (target, none)) :
    target = reset state ∨ target = state ∨ target = { state with failbit := true } := by
  unfold underflow at underflows
  split at underflows
  · split at underflows
    · split at underflows <;> cases underflows
      · exact .inl rfl
      · exact .inr (.inl rfl)
    · cases underflows
      exact .inr (.inr rfl)
  · split at underflows
    · cases underflows
      exact .inr (.inl rfl)
    · cases underflows
    · cases underflows
    · split at underflows
      · split at underflows
        · cases underflows
          exact .inl rfl
        · cases underflows
          exact .inr (.inr rfl)
        · split at underflows <;> cases underflows
      · cases underflows
        exact .inr (.inr rfl)

/-- What `sbumpc` does when it takes a byte. -/
theorem taken_of_sbumpc {read : Read} {ret : UInt8}
    (takes : sbumpc state read = some (target, some ret)) :
    (state.bufsize = 1 ∧ target = { state with
        received := state.received ++ [ret], delivered := state.delivered ++ [ret] }) ∨
      (∃ rest, state.get = .holds (ret :: rest) ∧
        target = { state with get := .holds rest, delivered := state.delivered ++ [ret] }) ∨
      (state.bufsize ≠ 1 ∧ ∃ rest, state.get = .holds [] ∧ rest.length + 1 ≤ state.bufsize ∧
        target = { state with
          get := .holds rest, received := state.received ++ ret :: rest
          delivered := state.delivered ++ [ret] }) := by
  unfold sbumpc at takes
  split at takes
  · cases takes
  next rest get =>
    cases takes
    exact .inr (.inl ⟨_, get, rfl⟩)
  · obtain ⟨⟨middle, found⟩, underflows, takes⟩ := Option.map_eq_some_iff.mp takes
    cases found with
    | none => cases takes
    | some ret =>
      cases takes
      rcases found_of_underflow underflows with
        ⟨single, -, -, rfl⟩ | ⟨notSingle, rest, get, rfl⟩ | ⟨notSingle, rest, get, room, rfl⟩
      · exact .inl ⟨single, by rw [if_pos single]⟩
      · exact .inr (.inl ⟨rest, get, by rw [if_neg notSingle, get]; rfl⟩)
      · exact .inr (.inr ⟨notSingle, rest, get, room, by rw [if_neg notSingle]; rfl⟩)

/-- What `sbumpc` does when there is none. -/
theorem nothing_of_sbumpc {read : Read} (takes : sbumpc state read = some (target, none)) :
    target = reset state ∨ target = state ∨ target = { state with failbit := true } := by
  unfold sbumpc at takes
  split at takes
  · cases takes
  · cases takes
  · obtain ⟨⟨middle, found⟩, underflows, takes⟩ := Option.map_eq_some_iff.mp takes
    cases found with
    | none =>
      cases takes
      exact nothing_of_underflow underflows
    | some _ => cases takes

/-! ### What a stream holds -/

/-- What is so of the areas of a stream that is closed or not buffered, and of one that is. -/
inductive Holds (state : State) : Prop
  | unbuffered (bufsize : state.bufsize ≤ 1) (allocated : state.allocated = false)
      (get : state.get.bytes = []) (put : ∀ pending, state.put ≠ .holds pending)
      (first : state.sent <+: state.accepted)
      (sent : state.bufsize = 1 → state.sent = state.accepted)
  | buffered (pending unread : List UInt8) (bufsize : 2 ≤ state.bufsize)
      (allocated : state.allocated = true) (get : state.get = .holds unread)
      (put : state.put = .holds pending) (sent : state.sent ++ pending = state.accepted)
      (room : pending.length ≤ state.bufsize) (unreadRoom : unread.length ≤ state.bufsize)

namespace Holds

theorem single (holds : Holds state) (bufsize : state.bufsize ≤ 1) :
    state.allocated = false ∧ state.get.bytes = [] ∧ state.put.bytes = [] := by
  cases holds with
  | unbuffered _ allocated get put => exact ⟨allocated, get, Area.bytes_of_not_holds put⟩
  | buffered _ _ buffered => omega

/-- The bytes that were sent are the first of those that were accepted. -/
theorem sentFirst (holds : Holds state) : state.sent <+: state.accepted := by
  cases holds with
  | unbuffered _ _ _ _ first => exact first
  | buffered pending _ _ _ _ _ sent => exact ⟨pending, sent⟩

/-- A stream whose buffers are deleted. -/
theorem dropped (holds : Holds state) :
    Holds { delete state with bufsize := 0, failbit := false } := by
  have sent := holds.sentFirst
  unfold delete
  cases holds with
  | unbuffered _ allocated get put _ =>
    rw [allocated]
    exact .unbuffered (Nat.zero_le 1) allocated get put sent fun single => nomatch single
  | buffered _ _ _ allocated get put =>
    rw [if_pos allocated, get, put]
    exact .unbuffered (Nat.zero_le 1) rfl rfl (fun _ equal => nomatch equal) sent
      fun single => nomatch single

theorem reset (holds : Holds state) : Holds (reset state) := by
  unfold TcpStream.reset
  split
  · exact holds
  · exact holds.dropped

/-- Bytes that leave room for one more are kept, and the one more behind them. -/
theorem rebuffer {pending unread : List UInt8} {c : Option UInt8} {put : Bool}
    (rebuffers : rebuffer state pending c = (target, put)) (bufsize : 2 ≤ state.bufsize)
    (allocated : state.allocated = true) (get : state.get = .holds unread)
    (sent : state.sent ++ pending = state.accepted) (room : pending.length < state.bufsize)
    (unreadRoom : unread.length ≤ state.bufsize) : Holds target := by
  cases c with
  | none =>
    cases rebuffers
    exact .buffered pending unread bufsize allocated get rfl sent (Nat.le_of_lt room) unreadRoom
  | some c =>
    cases rebuffers
    refine .buffered (pending ++ [c]) unread bufsize allocated get rfl ?_ ?_ unreadRoom
    · show state.sent ++ (pending ++ [c]) = state.accepted ++ [c]
      rw [← List.append_assoc, sent]
    · rw [List.length_append]
      exact room

theorem overflow (holds : Holds state) {c : Option UInt8} {written : Written} {put : Bool}
    (overflows : overflow state c written = some (target, put)) : Holds target := by
  rcases overflow_cases overflows with
    ⟨rfl, -⟩ | ⟨rfl, -⟩ | ⟨single, ch, -, rfl⟩ | ⟨-, pending, rlen, enough, keeps, some, rebuffers⟩
  · exact holds
  · exact holds.reset
  · cases holds with
    | unbuffered bufsize allocated get put _ sent =>
      have same := congrArg (· ++ [ch]) (sent single)
      exact .unbuffered bufsize allocated get put (same ▸ List.prefix_rfl) fun _ => same
    | buffered _ _ buffered => omega
  · cases holds with
    | unbuffered _ _ _ put => exact absurd keeps (put pending)
    | buffered pending' unread bufsize allocated get put sent _ unreadRoom =>
      obtain rfl : pending' = pending := Area.holds.inj (put.symm.trans keeps)
      refine rebuffer rebuffers bufsize allocated get ?_ ?_ unreadRoom
      · show state.sent ++ pending'.take rlen ++ pending'.drop rlen = state.accepted
        rw [List.append_assoc, List.take_append_drop, sent]
      · show (pending'.drop rlen).length < state.bufsize
        rw [List.length_drop]
        cases pending' with
        | nil =>
          rw [List.length_nil]
          omega
        | cons first rest =>
          have positive := (some (List.cons_ne_nil first rest)).1
          omega

theorem sputc (holds : Holds state) {c : UInt8} {written : Written} {put : Bool}
    (puts : sputc state c written = some (target, put)) : Holds target := by
  unfold TcpStream.sputc at puts
  split at puts
  · cases puts
  · exact holds.overflow puts
  next pending keeps =>
    split at puts
    next room =>
      cases holds with
      | unbuffered _ _ _ put => exact absurd keeps (put pending)
      | buffered pending' unread bufsize allocated get put sent _ unreadRoom =>
        obtain rfl : pending' = pending := Area.holds.inj (put.symm.trans keeps)
        exact rebuffer (Option.some.inj puts) bufsize allocated get sent room unreadRoom
    next => exact holds.overflow puts

/-- What was received does not matter to the put area. -/
theorem received (holds : Holds state) (received delivered : List UInt8) (failbit : Bool) :
    Holds { state with received, delivered, failbit } := by
  cases holds with
  | unbuffered bufsize allocated get put first sent =>
    exact .unbuffered bufsize allocated get put first sent
  | buffered pending unread bufsize allocated get put sent room unreadRoom =>
    exact .buffered pending unread bufsize allocated get put sent room unreadRoom

theorem of_nothing (holds : Holds state) (ends : target = TcpStream.reset state ∨ target = state ∨
    target = { state with failbit := true }) : Holds target := by
  rcases ends with rfl | rfl | rfl
  · exact holds.reset
  · exact holds
  · exact holds.received _ _ _

/-- The get area of a buffered stream holds other bytes. -/
theorem refilled (holds : Holds state) {bytes : List UInt8} (buffered : 2 ≤ state.bufsize)
    (room : bytes.length ≤ state.bufsize) : Holds { state with get := .holds bytes } := by
  cases holds with
  | unbuffered bufsize => omega
  | buffered pending unread bufsize allocated _ put sent putRoom _ =>
    exact .buffered pending bytes bufsize allocated rfl put sent putRoom room

/-- The bytes behind the first unread one are unread. -/
theorem bump (holds : Holds state) {ch : UInt8} {rest : List UInt8}
    (get : state.get = .holds (ch :: rest)) : Holds { state with get := .holds rest } := by
  cases holds with
  | unbuffered _ _ empty => rw [get] at empty; cases empty
  | buffered pending unread bufsize allocated same put sent putRoom unreadRoom =>
    obtain rfl : unread = ch :: rest := Area.holds.inj (same.symm.trans get)
    exact .buffered pending rest bufsize allocated rfl put sent putRoom
      (Nat.le_of_succ_le unreadRoom)

theorem sgetc (holds : Holds state) {read : Read} {found : Option UInt8}
    (gets : sgetc state read = some (target, found)) : Holds target := by
  unfold TcpStream.sgetc at gets
  split at gets
  · cases gets
  · cases gets
    exact holds
  · cases found with
    | none => exact holds.of_nothing (nothing_of_underflow gets)
    | some ret =>
      rcases found_of_underflow gets with
        ⟨-, -, -, rfl⟩ | ⟨-, _, -, rfl⟩ | ⟨notSingle, rest, -, room, rfl⟩
      · exact holds.received _ _ _
      · exact holds
      · have refilled : Holds { state with get := .holds (ret :: rest) } :=
          holds.refilled (by omega) room
        exact refilled.received _ _ _

theorem sbumpc (holds : Holds state) {read : Read} {found : Option UInt8}
    (takes : sbumpc state read = some (target, found)) : Holds target := by
  cases found with
  | none => exact holds.of_nothing (nothing_of_sbumpc takes)
  | some ret =>
    rcases taken_of_sbumpc takes with ⟨-, rfl⟩ | ⟨rest, get, rfl⟩ | ⟨notSingle, rest, -, room, rfl⟩
    · exact holds.received _ _ _
    · exact (holds.bump get).received _ _ _
    · have refilled : Holds { state with get := .holds rest } :=
        holds.refilled (by omega) (by omega)
      exact refilled.received _ _ _

theorem setgEnd (holds : Holds state) : Holds (setgEnd state) := by
  unfold TcpStream.setgEnd
  cases holds with
  | unbuffered bufsize allocated get put first sent =>
    refine .unbuffered bufsize allocated ?_ put first sent
    show Area.bytes (if state.bufsize = 0 then .unset else .holds []) = []
    split <;> rfl
  | buffered pending unread bufsize allocated get put sent room unreadRoom =>
    rw [if_neg (by omega)]
    exact .buffered pending [] bufsize allocated rfl put sent room (Nat.zero_le _)

theorem sync (holds : Holds state) {written : Written}
    (syncs : sync state written = some target) : Holds target := by
  unfold TcpStream.sync at syncs
  split at syncs
  · cases syncs
    exact holds
  · obtain ⟨⟨middle, put⟩, overflows, rfl⟩ := Option.map_eq_some_iff.mp syncs
    exact (holds.overflow overflows).setgEnd

theorem close (holds : Holds state) {written : Written}
    (closes : close state written = some target) : Holds target ∧ target.bufsize = 0 := by
  unfold TcpStream.close at closes
  split at closes
  next closed =>
    cases closes
    exact ⟨holds, closed⟩
  next =>
    obtain ⟨middle, syncs, rfl⟩ := Option.map_eq_some_iff.mp closes
    exact ⟨(holds.sync syncs).dropped, rfl⟩

/-- A stream that is opened has been closed first, and nothing is unread in it. -/
theorem openTo (holds : Holds state) {size : ℕ} {connected : Bool} {written : Written}
    (opens : openTo state size connected written = some target) :
    Holds target ∧ (target.bufsize = 0 ∨
      target.get.bytes = [] ∧ target.delivered = [] ∧ target.received = []) := by
  obtain ⟨middle, closes, rfl⟩ := Option.map_eq_some_iff.mp opens
  obtain ⟨held, closed⟩ : Holds middle ∧ middle.bufsize = 0 := by
    split at closes
    next zero =>
      cases closes
      exact ⟨holds, zero⟩
    next => exact holds.close closes
  split
  · obtain ⟨allocated, get, -⟩ := held.single (by omega)
    have kept : delete middle = middle := if_neg (by rw [allocated]; exact Bool.false_ne_true)
    unfold allocate
    rw [kept]
    cases held with
    | unbuffered _ _ _ put =>
      split
      · exact ⟨.unbuffered (Nat.le_refl 1) allocated get put List.prefix_rfl fun _ => rfl,
          .inr ⟨get, rfl, rfl⟩⟩
      next large =>
        exact ⟨.buffered [] [] (Nat.le_of_not_lt large) rfl rfl rfl rfl (Nat.zero_le _)
          (Nat.zero_le _), .inr ⟨rfl, rfl, rfl⟩⟩
    | buffered _ _ buffered => omega
  · exact ⟨held, .inl closed⟩

theorem step (holds : Holds state) {action : Action}
    (stepped : step state action = some target) : Holds target := by
  cases action with
  | «open» size connected written => exact (holds.openTo stepped).1
  | sputc c written =>
    obtain ⟨⟨_, put⟩, puts, rfl⟩ := Option.map_eq_some_iff.mp stepped
    exact holds.sputc puts
  | sgetc read =>
    obtain ⟨⟨_, found⟩, gets, rfl⟩ := Option.map_eq_some_iff.mp stepped
    exact holds.sgetc gets
  | sbumpc read =>
    obtain ⟨⟨_, found⟩, takes, rfl⟩ := Option.map_eq_some_iff.mp stepped
    exact holds.sbumpc takes
  | sync written => exact holds.sync stepped
  | close written => exact (holds.close stepped).1

theorem init (initial : machine.Init state) : Holds state := by
  cases initial
  exact .unbuffered (Nat.zero_le 1) rfl rfl (fun _ equal => nomatch equal) List.prefix_rfl
    fun _ => rfl

end Holds

theorem holds_of_reachable (reachable : machine.Reachable state) : Holds state :=
  reachable.invariant (fun _ => .init) fun _ _ _ holds stepped => holds.step stepped

/-! ### What was put -/

/-- Without a byte to put, `overflow` sends as much as the socket takes. -/
theorem sent_of_overflow (holds : Holds state) {written : Written} {put : Bool}
    (overflows : overflow state none written = some (target, put)) :
    target.accepted = state.accepted ∧ ∃ count,
      target.sent = state.sent ++ state.put.bytes.take count ∧
      (state.put.bytes.length ≤ count ↔
        state.put.bytes = [] ∨ written = some state.put.bytes.length) := by
  rcases overflow_cases overflows with
    ⟨rfl, why⟩ | ⟨rfl, rfl, waits⟩ | ⟨_, _, some, _⟩ |
    ⟨-, pending, rlen, enough, keeps, took, sends⟩
  · refine ⟨rfl, 0, (List.append_nil _).symm, ?_⟩
    rw [Nat.le_zero, List.length_eq_zero_iff]
    refine ⟨.inl, fun all => all.elim id fun whole => ?_⟩
    rcases why with single | nothing | rfl
    · exact (holds.single (Nat.le_of_eq single)).2.2
    · exact nothing
    · exact List.length_eq_zero_iff.mp (Option.some.inj whole).symm
  · refine ⟨(sent_reset state).2, 0, (sent_reset state).1.trans (List.append_nil _).symm, ?_⟩
    rw [Nat.le_zero, List.length_eq_zero_iff]
    exact ⟨.inl, fun all => all.elim id fun whole => nomatch whole⟩
  · cases some
  · cases sends
    rw [keeps]
    refine ⟨rfl, rlen, rfl, ?_⟩
    show pending.length ≤ rlen ↔ pending = [] ∨ written = Option.some pending.length
    by_cases nothing : pending = []
    · rw [nothing]
      exact iff_of_true (Nat.zero_le _) (.inl rfl)
    · rw [(took nothing).2, or_iff_right nothing, Option.some.injEq]
      exact ⟨Nat.le_antisymm enough, fun same => Nat.le_of_eq same.symm⟩

/-- A stream that is closed has sent all it accepted exactly when nothing was pending, or the last
write took all of it. -/
theorem sent_of_close (holds : Holds state) (isOpen : state.bufsize ≠ 0) {written : Written}
    (whole : state.sent ++ state.put.bytes = state.accepted)
    (closes : close state written = some target) :
    target.accepted = state.accepted ∧ (target.sent = target.accepted ↔
      state.put.bytes = [] ∨ written = some state.put.bytes.length) := by
  unfold close at closes
  rw [if_neg isOpen] at closes
  obtain ⟨middle, syncs, rfl⟩ := Option.map_eq_some_iff.mp closes
  unfold sync at syncs
  rw [if_neg isOpen] at syncs
  obtain ⟨⟨last, put⟩, overflows, rfl⟩ := Option.map_eq_some_iff.mp syncs
  obtain ⟨accepted, count, sent, all⟩ := sent_of_overflow holds overflows
  obtain ⟨keptSent, keptAccepted⟩ := sent_delete (setgEnd last)
  refine ⟨keptAccepted.trans accepted, ?_⟩
  show (delete (setgEnd last)).sent = (delete (setgEnd last)).accepted ↔ _
  rw [keptSent, keptAccepted, ← all]
  show last.sent = last.accepted ↔ _
  rw [sent, accepted, ← whole, List.append_cancel_left_eq]
  constructor
  · intro same
    rw [← same, List.length_take]
    exact Nat.min_le_left _ _
  · exact List.take_of_length_le

/-- In every state of a run what was sent is the first of what was accepted; what is still to be
sent from an open stream is the rest, and the buffer has room for it. Closing the stream sends the
rest exactly when the socket takes all of it in one write. -/
theorem sent_of_reachable (reachable : machine.Reachable state) :
    state.sent <+: state.accepted ∧ (state.bufsize ≠ 0 →
      state.sent ++ state.put.bytes = state.accepted ∧
      state.put.bytes.length ≤ state.bufsize ∧
      ∀ written target, close state written = some target →
        target.accepted = state.accepted ∧ (target.sent = target.accepted ↔
          state.put.bytes = [] ∨ written = some state.put.bytes.length)) := by
  have holds := holds_of_reachable reachable
  refine ⟨holds.sentFirst, fun isOpen => ?_⟩
  obtain ⟨whole, room⟩ : state.sent ++ state.put.bytes = state.accepted ∧
      state.put.bytes.length ≤ state.bufsize := by
    cases holds with
    | unbuffered bufsize _ _ put _ sent =>
      rw [Area.bytes_of_not_holds put, List.append_nil]
      exact ⟨sent (by omega), Nat.zero_le _⟩
    | buffered pending unread _ _ _ put sent room =>
      rw [put]
      exact ⟨sent, room⟩
  exact ⟨whole, room, fun written target closes => sent_of_close holds isOpen whole closes⟩

/-- Two of three bytes were sent, and the third is still to be sent. -/
theorem sent_of_reachable_three :
    ∃ state, machine.Reachable state ∧ state.sent = [1, 2] ∧ state.put.bytes = [3] ∧
      state.sent ++ state.put.bytes = state.accepted ∧
      ∀ target, close state (some 0) = some target → target.sent ≠ target.accepted := by
  let played := machine.play ⟨0, false, .unset, .unset, false, [], [], [], []⟩
    [.open 4 true none, .sputc 1 none, .sputc 2 none, .sputc 3 none, .sync (some 2)]
  have reachable := Machine.reachable_get rfl (show played.isSome by decide)
  obtain ⟨whole, -, closes⟩ := (sent_of_reachable reachable).2 (by decide)
  refine ⟨_, reachable, by decide, by decide, whole, fun target closed => ?_⟩
  rw [ne_eq, (closes _ target closed).2]
  decide

/-! ### What was received -/

/-- What was taken from an open stream, and then what is unread, is what it received. -/
def Undisturbed (state : State) : Prop :=
  state.bufsize ≠ 0 → state.delivered ++ state.get.bytes = state.received

/-- The output is flushed when nothing is unread, or when that closes the stream because the write
fails; and the stream is buffered when the next byte is looked at, if there is one. -/
def Gentle (state : State) : Action → Prop
  | .sync written => state.get.bytes = [] ∨ state.put.bytes ≠ [] ∧ written = none
  | .sgetc read => state.bufsize = 1 → read.ready = true → ∀ ch, read.bytes ≠ some [ch]
  | _ => True

theorem undisturbed_of_closed (closed : state.bufsize = 0) : Undisturbed state :=
  fun isOpen => absurd closed isOpen

namespace Undisturbed

theorem of_nothing (undisturbed : Undisturbed state) (ends : target = reset state ∨
    target = state ∨ target = { state with failbit := true }) : Undisturbed target := by
  rcases ends with rfl | rfl | rfl
  · exact undisturbed_of_closed (bufsize_reset state)
  · exact undisturbed
  · exact undisturbed

/-- Writing ends the connection or leaves the get area as it is. -/
theorem of_rebuffer (undisturbed : Undisturbed state) {pending sent : List UInt8}
    {c : Option UInt8} {put : Bool}
    (rebuffers : rebuffer { state with sent } pending c = (target, put)) : Undisturbed target := by
  cases c with
  | none =>
    cases rebuffers
    exact undisturbed
  | some c =>
    cases rebuffers
    exact undisturbed

theorem sputc (undisturbed : Undisturbed state) {c : UInt8} {written : Written} {put : Bool}
    (puts : sputc state c written = some (target, put)) : Undisturbed target := by
  have overflowed : overflow state (some c) written = some (target, put) →
      Undisturbed target := by
    intro overflows
    rcases overflow_cases overflows with
      ⟨rfl, -⟩ | ⟨rfl, -⟩ | ⟨-, _, -, rfl⟩ | ⟨-, _, _, -, -, -, rebuffers⟩
    · exact undisturbed
    · exact undisturbed_of_closed (bufsize_reset state)
    · exact undisturbed
    · exact undisturbed.of_rebuffer rebuffers
  unfold TcpStream.sputc at puts
  split at puts
  · cases puts
  · exact overflowed puts
  · split at puts
    · cases puts
      exact undisturbed
    · exact overflowed puts

/-- Bytes that are read into a buffer with nothing unread are unread. -/
theorem refill (undisturbed : Undisturbed state) (get : state.get = .holds [])
    (bytes : List UInt8) :
    Undisturbed { state with get := .holds bytes, received := state.received ++ bytes } := by
  intro isOpen
  have whole := undisturbed isOpen
  rw [get] at whole
  show state.delivered ++ bytes = state.received ++ bytes
  rw [← whole]
  exact congrArg (· ++ bytes) (List.append_nil _).symm

theorem sbumpc (undisturbed : Undisturbed state) (holds : Holds state) {read : Read}
    {found : Option UInt8} (takes : sbumpc state read = some (target, found)) :
    Undisturbed target := by
  cases found with
  | none => exact undisturbed.of_nothing (nothing_of_sbumpc takes)
  | some ret =>
    rcases taken_of_sbumpc takes with ⟨single, rfl⟩ | ⟨rest, get, rfl⟩ | ⟨-, rest, get, -, rfl⟩
    · intro isOpen
      have whole := undisturbed isOpen
      have empty := (holds.single (Nat.le_of_eq single)).2.1
      rw [empty, List.append_nil] at whole
      show state.delivered ++ [ret] ++ state.get.bytes = state.received ++ [ret]
      rw [empty, List.append_nil, whole]
    · intro isOpen
      have whole := undisturbed isOpen
      rw [get] at whole
      show state.delivered ++ [ret] ++ rest = state.received
      rw [List.append_assoc]
      exact whole
    · intro isOpen
      have whole := undisturbed.refill get (ret :: rest) isOpen
      show state.delivered ++ [ret] ++ rest = state.received ++ ret :: rest
      rw [List.append_assoc]
      exact whole

/-- A byte that is looked at is lost when the stream is not buffered. -/
theorem sgetc_iff (undisturbed : Undisturbed state) (holds : Holds state) {read : Read}
    {found : Option UInt8} (gets : sgetc state read = some (target, found)) :
    Undisturbed target ↔ Gentle state (.sgetc read) := by
  unfold sgetc at gets
  split at gets
  · cases gets
  next ch rest get =>
    cases gets
    refine iff_of_true undisturbed fun single => ?_
    have empty := (holds.single (Nat.le_of_eq single)).2.1
    rw [get] at empty
    cases empty
  · cases found with
    | none =>
      refine iff_of_true (undisturbed.of_nothing (nothing_of_underflow gets)) ?_
      intro single ready ch answer
      rw [underflow, if_pos single, if_pos ready, answer] at gets
      cases gets
    | some ret =>
      rcases found_of_underflow gets with
        ⟨single, ready, answer, rfl⟩ | ⟨notSingle, _, -, rfl⟩ | ⟨notSingle, rest, get, -, rfl⟩
      · refine iff_of_false (fun still => ?_) fun gentle => gentle single ready ret answer
        have isOpen : state.bufsize ≠ 0 := by omega
        have longer : state.received = state.received ++ [ret] :=
          (undisturbed isOpen).symm.trans (still isOpen)
        exact absurd longer (by simp)
      · exact iff_of_true undisturbed fun single => absurd single notSingle
      · exact iff_of_true (undisturbed.refill get (ret :: rest))
          fun single => absurd single notSingle

/-- The bytes that are unread are lost when the output is flushed. -/
theorem sync_iff (undisturbed : Undisturbed state) (holds : Holds state) {written : Written}
    (syncs : sync state written = some target) :
    Undisturbed target ↔ Gentle state (.sync written) := by
  unfold sync at syncs
  split at syncs
  next closed =>
    cases syncs
    exact iff_of_true undisturbed (.inl (holds.single (by omega)).2.1)
  next isOpen =>
    obtain ⟨⟨middle, put⟩, overflows, rfl⟩ := Option.map_eq_some_iff.mp syncs
    -- What is flushed while the connection stays open was taken before if nothing was unread.
    have flushed : middle.bufsize = state.bufsize → middle.delivered = state.delivered →
        middle.received = state.received → ¬ (state.put.bytes ≠ [] ∧ written = none) →
        (Undisturbed (setgEnd middle) ↔ Gentle state (.sync written)) := by
      intro bufsize delivered received alive
      have stillOpen : middle.bufsize ≠ 0 := bufsize ▸ isOpen
      have rewound : (setgEnd middle).get = .holds [] := if_neg stillOpen
      have whole := undisturbed isOpen
      rw [Gentle, or_iff_left alive]
      constructor
      · intro still
        have after : middle.delivered ++ (setgEnd middle).get.bytes = middle.received :=
          still stillOpen
        rw [rewound, delivered, received, ← whole] at after
        exact (List.append_cancel_left after).symm
      · intro nothing _
        show middle.delivered ++ (setgEnd middle).get.bytes = middle.received
        rw [rewound, delivered, received, ← whole, nothing]
        rfl
    rcases overflow_cases overflows with
      ⟨rfl, why⟩ | ⟨rfl, failed, waits⟩ | ⟨_, _, some, _⟩ | ⟨-, pending, _, -, keeps, took, sends⟩
    · refine flushed rfl rfl rfl fun alive => ?_
      rcases why with single | nothing | took
      · exact alive.1 (holds.single (Nat.le_of_eq single)).2.2
      · exact alive.1 nothing
      · rw [alive.2] at took
        cases took
    · exact iff_of_true (undisturbed_of_closed (bufsize_reset state)) (.inr ⟨waits rfl, failed⟩)
    · cases some
    · cases sends
      refine flushed rfl rfl rfl fun alive => ?_
      rw [keeps] at alive
      have took := (took alive.1).2
      rw [alive.2] at took
      cases took

end Undisturbed

/-- In a run every open stream has its callers take, or leaves unread, all it received, exactly when
the output is never flushed while something is unread, unless that closes the stream, and a stream
that is not buffered is not asked to look at a byte without taking it. -/
theorem undisturbed_iff_gentle {moves : List (Move State Action)} {state : State}
    (run : machine.Run moves state) :
    Machine.Throughout Undisturbed moves state ↔ Machine.Meets Gentle moves := by
  refine run.throughout_iff_meets (fun state => Holds state ∧ Undisturbed state) ?_ ?_
    (fun _ both => both.2) ?_
  · intro state initial
    refine ⟨.init initial, undisturbed_of_closed ?_⟩
    cases initial
    rfl
  · rintro source action target ⟨holds, undisturbed⟩ gentle stepped
    refine ⟨holds.step stepped, ?_⟩
    cases action with
    | «open» size connected written =>
      intro isOpen
      rcases (holds.openTo stepped).2 with closed | ⟨get, delivered, received⟩
      · exact absurd closed isOpen
      · rw [get, delivered, received]
        rfl
    | sputc c written =>
      obtain ⟨⟨_, put⟩, puts, rfl⟩ := Option.map_eq_some_iff.mp stepped
      exact undisturbed.sputc puts
    | sgetc read =>
      obtain ⟨⟨_, found⟩, gets, rfl⟩ := Option.map_eq_some_iff.mp stepped
      exact (undisturbed.sgetc_iff holds gets).mpr gentle
    | sbumpc read =>
      obtain ⟨⟨_, found⟩, takes, rfl⟩ := Option.map_eq_some_iff.mp stepped
      exact undisturbed.sbumpc holds takes
    | sync written => exact (undisturbed.sync_iff holds stepped).mpr gentle
    | close written => exact undisturbed_of_closed (holds.close stepped).2
  · rintro source action target ⟨holds, undisturbed⟩ rough stepped
    cases action with
    | sgetc read =>
      obtain ⟨⟨_, found⟩, gets, rfl⟩ := Option.map_eq_some_iff.mp stepped
      exact mt (undisturbed.sgetc_iff holds gets).mp rough
    | sync written => exact mt (undisturbed.sync_iff holds stepped).mp rough
    | _ => exact absurd trivial rough

/-- Of the two bytes that were received one is taken, and the other is lost by a flush. -/
theorem undisturbed_iff_gentle_flushed :
    ∃ moves, ∃ state, machine.Run moves state ∧ state.received = [1, 2] ∧
      state.delivered = [1] ∧ state.get.bytes = [] ∧
      (Machine.Throughout Undisturbed moves state ↔ Machine.Meets Gentle moves) := by
  have start : machine.Run [] _ := .start rfl
  have run := ((start.take (.open 4 true none) (by decide)).take (.sbumpc ⟨true, some [1, 2]⟩)
    (by decide)).take (.sync none) (by decide)
  exact ⟨_, _, run, by decide, by decide, by decide, undisturbed_iff_gentle run⟩

end TcpStream

end CommonCpp
