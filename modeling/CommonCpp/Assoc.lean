/-
This file models `Assoc`, a table of 97 hash chains that associates pointers with ids,
and shows that it is a map of ids in which the case of the letters of ASCII does not count.

An entry is put in front of the chain of its id, so that it hides the earlier entries
with the same id; nothing is taken out but by `clear`, which drops all chains. The hash
is that of `MapTable`: it takes the low five bits of each character, and so does not
see the case that `stricmp` ignores.

The memory of the entries and of their ids comes from `getMemory`, which a derived
class gives; it is taken to succeed, with memory that is not in use. What is in the
memory for an id before it is written is part of the call. `String::set` writes nothing
into a single byte: the id that is empty is left as it is found there.
-/

import CommonCpp.Bytes
import CommonCpp.Links
import CommonCpp.MapTable

namespace CommonCpp

open Memory

namespace Assoc

/-! ### The code -/

/-- `KEYDATA_INDEX_SIZE`. -/
def indexSize : Nat := 97

def getIndex (id : List UInt8) : Nat :=
  (MapTable.key id).toNat % indexSize

/-- The table, and the fields of the entries that have been made, in the order of their making. -/
structure Table (Data : Type) where
  count : Nat
  id : Nat → List UInt8
  next : Nat → Option Nat
  data : Nat → Option Data
  entries : Nat → Option Nat

variable {Data : Type}

def clear (table : Table Data) : Table Data :=
  { table with entries := fun _ => none }

/-- `String::set(str, size, s)`, where the memory at `str` has this text. -/
def set (str : List UInt8) (size : Nat) (s : List UInt8) : List UInt8 :=
  if size < 2 then str else s.take (size - 1)

/-- `setPointer(id, data)`, where the memory for the id has this text. -/
def setPointer (str : List UInt8) (table : Table Data) (id : List UInt8) (data : Option Data) :
    Table Data :=
  let idx := getIndex id
  let e := table.count
  let size := id.length + 1
  { count := table.count + 1
    id := Function.update table.id e (set str size id)
    data := Function.update table.data e data
    next := Function.update table.next e (table.entries idx)
    entries := Function.update table.entries idx (some e) }

/-- `getPointer(id)`. It has no outcome when the chain has no end. -/
def getPointer (table : Table Data) (id : List UInt8) : Option (Option Data) :=
  (walk table.next (fun e => MapTable.sameId (table.id e) id) table.count none
    (table.entries (getIndex id))).map fun (_, e) => e.bind table.data

/-! ### Calls -/

inductive Action (Data : Type)
  | setPointer (str : List UInt8) (id : List UInt8) (data : Option Data)
  | clear

/-- The id of a call is not empty. -/
def Action.Named : Action Data → Prop
  | .setPointer _ id _ => id ≠ []
  | .clear => True

def perform (table : Table Data) : Action Data → Table Data
  | .setPointer str id data => setPointer str table id data
  | .clear => clear table

/-- The table after these calls on a new one, the latest first. -/
def after (table : Table Data) : List (Action Data) → Table Data
  | [] => clear table
  | action :: earlier => perform (after table earlier) action

/-- What has been set since the last `clear`, the latest first. -/
def since : List (Action Data) → List (List UInt8 × Option Data)
  | [] => []
  | .setPointer _ id data :: earlier => (id, data) :: since earlier
  | .clear :: _ => []

/-- The pointer that was set last for the id, in any case of its letters. -/
def latest (id : List UInt8) (actions : List (Action Data)) : Option Data :=
  ((since actions).find? fun pair => MapTable.sameId pair.1 id).bind Prod.snd

/-! ### The hash -/

/-- Ids that are the same but for the case of their letters are on the same chain. -/
theorem getIndex_of_sameId {id id' : List UInt8} (same : MapTable.sameId id id') :
    getIndex id = getIndex id' := by
  unfold getIndex
  rw [← MapTable.key_lower id, ← MapTable.key_lower id', of_decide_eq_true same]

/-- `set` leaves the text that is in the memory after its bytes were written there. -/
theorem string_set (str : List UInt8) (size : Nat) (s : List UInt8) :
    Bytes.string (Bytes.set str 0 size s) = set (Bytes.string str) size (Bytes.string s) := by
  unfold Bytes.set set
  split
  · rfl
  next =>
    have least : (if Bytes.strlen s ≥ size then size - 1 else Bytes.strlen s) =
        min (size - 1) (Bytes.strlen s) := by
      split <;> omega
    have copied : s.take (min (size - 1) (Bytes.strlen s)) = (Bytes.string s).take (size - 1) := by
      rw [Bytes.take_eq_of_le (Nat.min_le_right _ _), Bytes.strlen, ← List.take_take,
        List.take_length]
    have noNull : 0 ∉ (Bytes.string s).take (size - 1) := fun member =>
      Bytes.zero_notMem_string s (List.mem_of_mem_take member)
    rw [least, Bytes.string_set_zero, Bytes.move, List.take_zero, List.nil_append, copied,
      Bytes.string_append noNull, Nat.zero_add]
    exact List.take_left' List.length_take

/-- There is room for the whole id. -/
theorem set_eq {str id : List UInt8} (named : id ≠ []) : set str (id.length + 1) id = id := by
  have some' : 0 < id.length := List.length_pos_iff.mpr named
  have long : ¬ id.length + 1 < 2 := by omega
  rw [set, if_neg long, Nat.add_sub_cancel, List.take_length]

/-! ### The chains -/

/-- Each chain has what has been set for the ids of its bucket, the latest first. -/
structure Holds (table : Table Data) (chains : Nat → List Nat)
    (sets : List (List UInt8 × Option Data)) : Prop where
  path : ∀ index, Path table.next (table.entries index) (chains index) none
  held : ∀ index, (chains index).map (fun e => (table.id e, table.data e)) =
    sets.filter fun pair => getIndex pair.1 = index
  bounded : ∀ index, ∀ e ∈ chains index, e < table.count

namespace Holds

variable {table : Table Data} {chains : Nat → List Nat}
  {sets : List (List UInt8 × Option Data)}

theorem clear (table : Table Data) : Holds (clear table) (fun _ => []) [] :=
  ⟨fun _ => rfl, fun _ => rfl, fun _ _ member => absurd member List.not_mem_nil⟩

/-- The new entry is on no chain. -/
theorem ne_of_mem (holds : Holds table chains sets) {index e : Nat} (member : e ∈ chains index) :
    e ≠ table.count :=
  Nat.ne_of_lt (holds.bounded index e member)

/-- The entries on the chains keep their ids and pointers. -/
theorem held_setPointer (holds : Holds table chains sets) (str id : List UInt8)
    (data : Option Data) (index : Nat) :
    (chains index).map (fun e =>
        ((Assoc.setPointer str table id data).id e, (Assoc.setPointer str table id data).data e)) =
      sets.filter fun pair => getIndex pair.1 = index := by
  rw [← holds.held index]
  refine List.map_congr_left fun e member => ?_
  simp only [Assoc.setPointer, Function.update_of_ne (holds.ne_of_mem member)]

/-- A call that sets a pointer puts it in front. -/
theorem setPointer (holds : Holds table chains sets) (str : List UInt8) {id : List UInt8}
    (named : id ≠ []) (data : Option Data) :
    Holds (setPointer str table id data)
      (Function.update chains (getIndex id) (table.count :: chains (getIndex id)))
      ((id, data) :: sets) := by
  refine ⟨fun index => ?_, fun index => ?_, fun index e member => ?_⟩
  · by_cases same : index = getIndex id
    · subst same
      simp only [Assoc.setPointer, Function.update_self]
      exact (holds.path (getIndex id)).push fun member => holds.ne_of_mem member rfl
    · simp only [Assoc.setPointer, Function.update_of_ne same]
      exact (holds.path index).congr fun e member =>
        Function.update_of_ne (holds.ne_of_mem member) _ _
  · by_cases same : index = getIndex id
    · subst same
      rw [Function.update_self, List.map_cons, holds.held_setPointer,
        List.filter_cons_of_pos (by simp)]
      simp only [Assoc.setPointer, Function.update_self, set_eq named]
    · rw [Function.update_of_ne same, holds.held_setPointer, List.filter_cons_of_neg]
      simpa using fun here => same here.symm
  · by_cases same : index = getIndex id
    · rw [same, Function.update_self] at member
      rcases List.mem_cons.mp member with rfl | earlier
      · exact Nat.lt_succ_self _
      · exact Nat.lt_succ_of_lt (holds.bounded _ _ earlier)
    · rw [Function.update_of_ne same] at member
      exact Nat.lt_succ_of_lt (holds.bounded _ _ member)

/-- A lookup finds what was set last. -/
theorem getPointer (holds : Holds table chains sets) (id : List UInt8) :
    getPointer table id =
      some ((sets.find? fun pair => MapTable.sameId pair.1 id).bind Prod.snd) := by
  have path := holds.path (getIndex id)
  have enough : (chains (getIndex id)).length ≤ table.count :=
    length_le_of_lt path.nodup (holds.bounded (getIndex id))
  have walked := walk_find (fun e => MapTable.sameId (table.id e) id) path enough
  -- the chain has all that is set for the id, for it is the chain of every spelling of it
  have onChain : (sets.filter fun pair => getIndex pair.1 = getIndex id).find?
      (fun pair => MapTable.sameId pair.1 id) =
      sets.find? fun pair => MapTable.sameId pair.1 id := by
    rw [List.find?_filter]
    congr 1
    funext pair
    cases same : MapTable.sameId pair.1 id with
    | false => simp
    | true => simp [getIndex_of_sameId same]
  have found : ((chains (getIndex id)).find? fun e => MapTable.sameId (table.id e) id).bind
      table.data = (sets.find? fun pair => MapTable.sameId pair.1 id).bind Prod.snd := by
    rw [← onChain, ← holds.held, List.find?_map, Option.bind_map]
    rfl
  have mapped := congrArg (Option.map fun e => Option.bind e table.data) walked
  rw [Option.map_map, Option.map_some, found] at mapped
  exact mapped

end Holds

/-- After calls with ids that are not empty the chains have what has been set since `clear`. -/
theorem exists_holds (table : Table Data) {actions : List (Action Data)}
    (named : ∀ action ∈ actions, action.Named) :
    ∃ chains, Holds (after table actions) chains (since actions) := by
  induction actions with
  | nil => exact ⟨_, Holds.clear table⟩
  | cons action earlier inductionHypothesis =>
    obtain ⟨here, before⟩ := List.forall_mem_cons.mp named
    obtain ⟨chains, holds⟩ := inductionHypothesis before
    cases action with
    | setPointer str id data => exact ⟨_, holds.setPointer str here data⟩
    | clear => exact ⟨_, Holds.clear _⟩

/-- After any calls with ids that are not empty, a lookup gives the pointer that was set last for
the id, in any case of its letters, since the last `clear`, and null when there is none. -/
theorem getPointer_eq_latest (table : Table Data) {actions : List (Action Data)}
    (named : ∀ action ∈ actions, action.Named) (id : List UInt8) :
    getPointer (after table actions) id = some (latest id actions) := by
  obtain ⟨chains, holds⟩ := exists_holds table named
  exact holds.getPointer id

/-- The pointer of an id is set again in other letters, and then that of an id on the same chain. -/
theorem getPointer_eq_latest_capital :
    getIndex [0x40] = getIndex [0x61, 0x42] ∧
      getPointer (after ⟨0, fun _ => [], fun _ => none, fun _ => none, fun _ => none⟩
        [.setPointer [] [0x40] (some 3), .setPointer [] [0x61, 0x42] (some 2),
          .setPointer [] [0x41, 0x62] (some 1), .clear]) [0x61, 0x62] = some (some 2) := by
  refine ⟨by decide, ?_⟩
  rw [getPointer_eq_latest _ (by simp [Action.Named])]
  decide

end Assoc

end CommonCpp
