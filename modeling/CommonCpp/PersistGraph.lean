/-
This file shows that a graph of objects is what is read back from what was written of it.

Wherever one engine writes a pointer and the other reads it both know the same, and so they do
after it. A pointer is followed at most once for each object, and this bounds how deep they go.

A name is written with a length of 32 bits, and a buffer is one byte longer than the length. A name
of a class must be shorter than that.
-/

import Mathlib.Logic.Relation
import CommonCpp.PersistTables

namespace CommonCpp

namespace Persist

open Numbering PersistEngine Reading

variable {Value : Type}

/-! ### Graphs -/

/-- The reader asks for what was written of the object and for nothing else, and gives the fields
the values they had. It has read into these members before. A pointer that it does not read is
null in the object, as it is in one that was made. -/
inductive Consumes (object : PersistObject Value) :
    Reader Value → List Item → List Nat → Prop
  | done {members : List Nat} (rest : ∀ member, member ∉ members → object.members member = none) :
    Consumes object (.done object.value) [] members
  | binary {data : List UInt8} {next : List UInt8 → Reader Value} {items : List Item}
      {members : List Nat} (after : Consumes object (next data) items members) :
    Consumes object (.binary data.length next) (data.map Item.byte ++ items) members
  | pointer {member : Nat} {next : Bool → Reader Value} {items : List Item} {members : List Nat}
      (after : Consumes object (next (object.members member).isSome) items (member :: members)) :
    Consumes object (.pointer member next) (.pointer member :: items) members

/-- The class of the object is registered, an object that is made of it has no pointers, and its
`read` consumes what its `write` wrote. -/
structure Registered (types : Types Value) (object : PersistObject Value) : Prop where
  created : ∃ created : PersistObject Value,
    types object.type.getPersistenceID = some (some created) ∧ created.type = object.type ∧
    (∀ member, created.members member = none) ∧
    Consumes object (object.type.read created.value) object.items []
  visible : 0 ∉ object.type.getPersistenceID

/-- Objects of registered classes, whose pointers are null or lead to one of them. -/
structure PersistGraph (types : Types Value) where
  objects : List (PersistObject Value)
  few : objects.length < 2 ^ 32 - 1
  inside : ∀ object ∈ objects, ∀ member target, object.members member = some target →
    target < objects.length
  registered : ∀ object ∈ objects, Registered types object

/-- The object has a pointer to the target. -/
def PointsTo (objects : List (PersistObject Value)) (object target : Nat) : Prop :=
  ∃ contents, objects[object]? = some contents ∧ ∃ member, contents.members member = some target

/-- The object can be reached from one of the pointers. -/
def Reachable (objects : List (PersistObject Value)) (roots : List Pointer) (object : Nat) : Prop :=
  ∃ root, some root ∈ roots ∧ Relation.ReflTransGen (PointsTo objects) root object

/-- The pointer is null, or it leads to an object that can be reached from the roots. -/
def Pointer.Within (objects : List (PersistObject Value)) (roots : List Pointer)
    (pointer : Pointer) : Prop :=
  ∀ object, pointer = some object → Reachable objects roots object

/-- The pointers and the memory after the reading are a copy of what is reachable from the roots:
each object is at one place, with its class, its fields, and its pointers to the places of
the objects they led to, and two pointers are the same if they were. Nothing else was made, and what
was in the memory before is unchanged. -/
structure Isomorphic (objects : List (PersistObject Value)) (roots : List Pointer)
    (before : List (PersistObject Value)) (pointers : List Pointer)
    (memory : List (PersistObject Value)) (place : Nat → Nat) : Prop where
  renamed : pointers = roots.map (Option.map place)
  shared : ∀ pointer pointer' : Pointer, pointer.Within objects roots →
    pointer'.Within objects roots → (pointer.map place = pointer'.map place ↔ pointer = pointer')
  copied : ∀ object, Reachable objects roots object → ∃ contents, objects[object]? = some contents ∧
    before.length ≤ place object ∧ memory[place object]? = some (contents.redirect place)
  onto : ∀ address, before.length ≤ address → address < memory.length →
    ∃ object, Reachable objects roots object ∧ place object = address
  kept : ∀ address < before.length, memory[address]? = before[address]?

/-! ### One pointer -/

section Graph

variable {types : Types Value} (graph : PersistGraph types) (others : Nat)

/-- Where both engines know the one, the pointer is written as this data; from there the pointer to
the copy is read, and both engines know the other. The pointer that is read into must be null,
unless it is not followed. -/
structure Restores (fuel : Nat) (known known' : Known graph.objects) (pointer : Pointer)
    (data : List UInt8) : Prop where
  grown : known.visited <+: known'.visited
  here : ∀ object, pointer = some object → object ∈ known'.visited
  reached : ∀ target ∈ known'.visited, target ∉ known.visited →
    ∃ root, pointer = some root ∧ Relation.ReflTransGen (PointsTo graph.objects) root target
  written : ∀ output, (known.writes output).write graph.objects fuel pointer =
    .ok (known'.writes (output ++ data))
  read : ∀ current memory rest,
    (∀ object, pointer = some object → object ∉ known.visited → current = none) →
    memory.length = others + known.visited.length →
    ∃ memory', Reading.read types fuel current ⟨known.reads others (data ++ rest), memory⟩ =
        .ok (pointer.map (known'.place others), ⟨known'.reads others rest, memory'⟩) ∧
      Extends others (fun _ => False) known known' memory memory'

variable {graph others}

section Equations

variable {state : Reading Value} {engine engine' : PersistEngine} {id : Nat} {name : Text}
  {created : PersistObject Value}

theorem read_null (fuel : Nat) (current : Pointer)
    (number : state.engine.readNumber = .ok (NullObject, engine)) :
    state.read types (fuel + 1) current = .ok (none, { state with engine := engine }) := by
  rw [Reading.read, number, ok_bind]
  rfl

theorem read_known (fuel : Nat) (current : Pointer) {known : Nat}
    (number : state.engine.readNumber = .ok (id, engine)) (notNull : id ≠ NullObject)
    (there : engine.archiveVector[id]? = some known) :
    state.read types (fuel + 1) current = .ok (some known, { state with engine := engine }) := by
  rw [Reading.read, number, ok_bind]
  simp only [notNull, ↓reduceIte, there]
  rfl

theorem read_new (fuel : Nat) (number : state.engine.readNumber = .ok (id, engine))
    (notNull : id ≠ NullObject) (fresh : engine.archiveVector[id]? = none)
    (className : engine.readClass = .ok (name, engine'))
    (registered : types name = some (some created)) :
    state.read types (fuel + 1) none =
      (readObject (Reading.read types fuel) state.memory.length
        ⟨engine', state.memory ++ [created]⟩ >>= fun state' =>
          .ok (some state.memory.length, state')) := by
  rw [Reading.read, number, ok_bind]
  simp only [notNull, ↓reduceIte, fresh, className, ok_bind, registered]
  rfl

end Equations

/-- The number of an object that is known is that of a place in the table. -/
theorem idxOf_lt {known : Known graph.objects} {object : Nat} (member : object ∈ known.visited) :
    known.visited.idxOf object < 2 ^ 32 - 1 :=
  Nat.lt_of_lt_of_le (List.idxOf_lt_length_of_mem member)
    (Nat.le_of_lt (Nat.lt_of_le_of_lt known.length_le graph.few))

theorem restores_null (fuel : Nat) (known : Known graph.objects) :
    Restores graph others (fuel + 1) known known none (bytes NullObject) where
  grown := List.prefix_rfl
  here _ points := nomatch points
  reached _ member fresh := absurd member fresh
  written _ := by rw [write, Known.writes, writeNumber_writing]; rfl
  read current memory rest _ length := by
    refine ⟨memory, ?_, Extends.refl length⟩
    exact read_null fuel current (readNumber_reading _ _ _ (by decide) rest)

theorem restores_known (fuel : Nat) {known : Known graph.objects} {object : Nat}
    (member : object ∈ known.visited) :
    Restores graph others (fuel + 1) known known (some object)
      (bytes (known.visited.idxOf object)) where
  grown := List.prefix_rfl
  here target points := Option.some.inj points ▸ member
  reached _ visited fresh := absurd visited fresh
  written output := by
    have there : (known.writes output).archiveMap.lookup object =
        some (known.visited.idxOf object) := lookup_numbered member
    rw [write, there]
    exact writeNumber_writing _ _ _ _
  read current memory rest _ length := by
    have small : known.visited.idxOf object < 2 ^ 32 - 1 := idxOf_lt member
    have there : (known.reads others rest).archiveVector[known.visited.idxOf object]? =
        some (known.place others object) := by
      show (List.range' others known.visited.length)[known.visited.idxOf object]? = _
      rw [List.getElem?_range' (List.idxOf_lt_length_of_mem member), Nat.one_mul]
      rfl
    refine ⟨memory, ?_, Extends.refl length⟩
    exact read_known fuel current (readNumber_reading _ _ _ (by omega) rest)
      (Nat.ne_of_lt small) there

/-! ### The items of an object -/

/-- The object while it is being read: these of its members have been. -/
structure Draft (others : Nat) (known : Known graph.objects) (contents : PersistObject Value)
    (members : List Nat) (draft : PersistObject Value) : Prop where
  type : draft.type = contents.type
  read : ∀ member ∈ members,
    draft.members member = (contents.members member).map (known.place others)
  unread : ∀ member, member ∉ members → draft.members member = none
  inside : ∀ member ∈ members, ∀ target, contents.members member = some target →
    target ∈ known.visited

/-- As `Restores`, for what is written of an object and read by this reader. At the end the
object is at its place. -/
structure RestoresItems (graph : PersistGraph types) (others fuel object : Nat)
    (contents : PersistObject Value) (reader : Reader Value) (items : List Item)
    (members : List Nat) (known known' : Known graph.objects) (data : List UInt8) : Prop where
  grown : known.visited <+: known'.visited
  closed : ∀ member target, contents.members member = some target → target ∈ known'.visited
  reached : ∀ target ∈ known'.visited, target ∉ known.visited →
    Relation.ReflTransGen (PointsTo graph.objects) object target
  written : ∀ output,
    writeItems (write graph.objects fuel) contents.members items (known.writes output) =
      .ok (known'.writes (output ++ data))
  read : ∀ memory rest draft, memory.length = others + known.visited.length →
    memory[known.place others object]? = some draft →
    Draft others known contents members draft →
    ∃ memory', readItems (Reading.read types fuel) (known.place others object) reader
          ⟨known.reads others (data ++ rest), memory⟩ = .ok ⟨known'.reads others rest, memory'⟩ ∧
      Extends others (fun address => address = known.place others object) known known'
        memory memory' ∧
      memory'[known.place others object]? = some (contents.redirect (known'.place others))

/-- A change of the object that is being read is none of the others. -/
theorem extends_change {known : Known graph.objects} {memory : List (PersistObject Value)}
    (length : memory.length = others + known.visited.length) (object : Nat)
    (turn : PersistObject Value → PersistObject Value) :
    Extends others (fun address => address = object) known known memory
      (memory.modify object turn) where
  length := by rw [List.length_modify, length]
  kept _ _ free := List.getElem?_modify_ne turn memory (Ne.symm free)
  copied _ member fresh := absurd member fresh

theorem items_done {fuel object : Nat} {contents : PersistObject Value} {members : List Nat}
    (rest : ∀ member, member ∉ members → contents.members member = none)
    {known : Known graph.objects}
    (inside : ∀ member ∈ members, ∀ target, contents.members member = some target →
      target ∈ known.visited) :
    RestoresItems graph others fuel object contents (.done contents.value) [] members known known
      [] where
  grown := List.prefix_rfl
  closed member target points := by
    by_cases listed : member ∈ members
    · exact inside member listed target points
    · exact nomatch (rest member listed).symm.trans points
  reached _ member fresh := absurd member fresh
  written output := by rw [List.append_nil]; rfl
  read memory after draft length there state := by
    refine ⟨_, rfl, extends_change length _ _, ?_⟩
    rw [List.getElem?_modify_eq, there]
    have same : draft.members = fun member =>
        (contents.members member).map (known.place others) := by
      funext member
      by_cases listed : member ∈ members
      · exact state.read member listed
      · rw [state.unread member listed, rest member listed, Option.map_none]
    show some (PersistObject.mk draft.type contents.value draft.members) = _
    rw [state.type, same]
    rfl

theorem writeItems_bytes (step : Pointer → PersistEngine → Except Stop PersistEngine)
    (members : Nat → Pointer) (data : List UInt8) (items : List Item)
    (known : Known graph.objects) (output : List UInt8) :
    writeItems step members (data.map Item.byte ++ items) (known.writes output) =
      writeItems step members items (known.writes (output ++ data)) := by
  induction data generalizing output with
  | nil => rw [List.append_nil]; rfl
  | cons byte data inductionHypothesis =>
    show writeItems step members (data.map Item.byte ++ items) (known.writes (output ++ [byte])) = _
    rw [inductionHypothesis, List.append_assoc, List.singleton_append]

theorem items_binary {fuel object : Nat} {contents : PersistObject Value} {bytes : List UInt8}
    {next : List UInt8 → Reader Value} {items : List Item} {members : List Nat}
    {known known' : Known graph.objects} {data : List UInt8}
    (after : RestoresItems graph others fuel object contents (next bytes) items members known known'
      data) :
    RestoresItems graph others fuel object contents (.binary bytes.length next)
      (bytes.map Item.byte ++ items) members known known' (bytes ++ data) where
  grown := after.grown
  closed := after.closed
  reached := after.reached
  written output := by
    rw [writeItems_bytes, after.written, List.append_assoc]
  read memory rest draft length there state := by
    obtain ⟨memory', result, extended, finished⟩ := after.read memory rest draft length there state
    refine ⟨memory', ?_, extended, finished⟩
    rw [readItems, List.append_assoc]
    show ((known.reads others (bytes ++ (data ++ rest))).readBinary bytes.length >>= fun got =>
      readItems (Reading.read types fuel) (known.place others object) (next got.1)
        ⟨got.2, memory⟩) = _
    rw [Known.reads, readBinary_reading, ok_bind]
    exact result

theorem Draft.update {known known' : Known graph.objects} {contents draft : PersistObject Value}
    {members : List Nat} (state : Draft others known contents members draft)
    (grown : known.visited <+: known'.visited) (member : Nat)
    (here : ∀ target, contents.members member = some target → target ∈ known'.visited) :
    Draft others known' contents (member :: members) { draft with
      members := Function.update draft.members member
        ((contents.members member).map (known'.place others)) } where
  type := state.type
  read other listed := by
    by_cases same : other = member
    · rw [same]
      exact Function.update_self _ _ _
    · have before : other ∈ members := (List.mem_cons.mp listed).resolve_left same
      show Function.update draft.members member _ other = _
      rw [Function.update_of_ne same, state.read other before]
      exact (Known.map_place_of_begins grown (state.inside other before)).symm
  unread other unlisted := by
    have different : other ≠ member := fun same => unlisted (same ▸ List.mem_cons_self)
    show Function.update draft.members member _ other = none
    rw [Function.update_of_ne different]
    exact state.unread other fun listed => unlisted (List.mem_cons_of_mem member listed)
  inside other listed target points := by
    by_cases same : other = member
    · exact here target (same ▸ points)
    · have before : other ∈ members := (List.mem_cons.mp listed).resolve_left same
      exact grown.subset (state.inside other before target points)

/-- The pointer is read into the draft, which may only be changed where it is. -/
theorem items_pointer {fuel object member : Nat} {contents : PersistObject Value}
    {next : Bool → Reader Value} {items : List Item} {members : List Nat}
    {known known' known'' : Known graph.objects} {data data' : List UInt8}
    (there : graph.objects[object]? = some contents) (visited : object ∈ known.visited)
    (first : Restores graph others fuel known known' (contents.members member) data)
    (after : RestoresItems graph others fuel object contents
      (next (contents.members member).isSome) items (member :: members) known' known'' data') :
    RestoresItems graph others fuel object contents (.pointer member next)
      (.pointer member :: items) members known known'' (data ++ data') where
  grown := first.grown.trans after.grown
  closed := after.closed
  reached target listed fresh := by
    by_cases before : target ∈ known'.visited
    · obtain ⟨root, points, path⟩ := first.reached target before fresh
      exact Relation.ReflTransGen.head ⟨contents, there, member, points⟩ path
    · exact after.reached target listed before
  written output := by
    rw [writeItems, first.written, ok_bind, after.written, List.append_assoc]
  read memory rest draft length here state := by
    have same : known'.place others object = known.place others object :=
      Known.place_of_begins first.grown visited
    have inside : known.place others object < memory.length := length ▸ Known.place_lt visited
    have empty : ∀ target, contents.members member = some target → target ∉ known.visited →
        draft.members member = none := fun target points fresh =>
      state.unread member fun listed => fresh (state.inside member listed target points)
    obtain ⟨memory₁, result₁, extended₁⟩ :=
      first.read (draft.members member) memory (data' ++ rest) empty length
    have here₁ : memory₁[known.place others object]? = some draft := by
      rw [extended₁.kept _ inside not_false, here]
    have changed := extends_change extended₁.length (known.place others object) fun current =>
      { current with
        members := Function.update current.members member
          ((contents.members member).map (known'.place others)) }
    obtain ⟨memory₂, result₂, extended₂, finished⟩ := after.read _ rest _ changed.length
      (by rw [same, List.getElem?_modify_eq, here₁]; rfl)
      (state.update first.grown member first.here)
    rw [same] at result₂ extended₂ finished
    have current : Reading.member ⟨known.reads others (data ++ data' ++ rest), memory⟩
        (known.place others object) member = draft.members member := by
      show (memory[known.place others object]?).bind _ = _
      rw [here]
      rfl
    have below : ∀ address, address = known.place others object → address < memory.length :=
      fun address taken => taken ▸ inside
    have longer : memory.length ≤ memory₁.length := by
      rw [length, extended₁.length]
      exact Nat.add_le_add_left first.grown.length_le others
    refine ⟨memory₂, ?_, ?_, finished⟩
    · have asked : ((contents.members member).map (known'.place others)).isSome =
          (contents.members member).isSome := Option.isSome_map
      rw [readItems, current, List.append_assoc, result₁, ok_bind]
      rw [← asked] at result₂
      exact result₂
    · refine Extends.trans length below first.grown after.grown
        (extended₁.weaken fun _ taken => taken.elim) ?_
      exact Extends.trans extended₁.length
        (fun address taken => Nat.lt_of_lt_of_le (below address taken) longer) List.prefix_rfl
        after.grown changed extended₂

/-- What is written of an object is read, if so is each pointer to an object of the graph. -/
theorem items_restored {fuel object : Nat} {contents : PersistObject Value}
    (pointers : ∀ (known : Known graph.objects) (pointer : Pointer),
      (∀ target, pointer = some target → target < graph.objects.length) →
      graph.objects.length < fuel + known.visited.length →
      ∃ known' data, Restores graph others fuel known known' pointer data)
    (there : graph.objects[object]? = some contents) {reader : Reader Value} {items : List Item}
    {members : List Nat} (consumes : Consumes contents reader items members)
    (known : Known graph.objects) (visited : object ∈ known.visited)
    (enough : graph.objects.length < fuel + known.visited.length)
    (inside : ∀ member ∈ members, ∀ target, contents.members member = some target →
      target ∈ known.visited) :
    ∃ known' data,
      RestoresItems graph others fuel object contents reader items members known known' data := by
  induction consumes generalizing known with
  | done rest => exact ⟨known, [], items_done rest inside⟩
  | binary _ inductionHypothesis =>
    obtain ⟨known', data, after⟩ := inductionHypothesis known visited enough inside
    exact ⟨known', _, items_binary after⟩
  | @pointer member next items members _ inductionHypothesis =>
    have valid : ∀ target, contents.members member = some target → target < graph.objects.length :=
      graph.inside contents (List.mem_of_getElem? there) member
    obtain ⟨known', data, first⟩ := pointers known (contents.members member) valid enough
    have more : graph.objects.length < fuel + known'.visited.length :=
      Nat.lt_of_lt_of_le enough (Nat.add_le_add_left first.grown.length_le fuel)
    have read : ∀ other ∈ member :: members, ∀ target, contents.members other = some target →
        target ∈ known'.visited := by
      intro other listed target points
      rcases List.mem_cons.mp listed with same | before
      · exact first.here target (same ▸ points)
      · exact first.grown.subset (inside other before target points)
    obtain ⟨known'', data', after⟩ :=
      inductionHypothesis known' (first.grown.subset visited) more read
    exact ⟨known'', _, items_pointer there visited first after⟩

/-! ### An object -/

theorem write_new {memory : List (PersistObject Value)} (fuel : Nat) {object : Nat}
    {contents : PersistObject Value} {engine : PersistEngine}
    (fresh : engine.archiveMap.lookup object = none) (there : memory[object]? = some contents) :
    engine.write memory (fuel + 1) (some object) =
      (PersistEngine.writeNumber { engine with
          archiveMap := engine.archiveMap ++ [(object, engine.archiveMap.length % 2 ^ 32)] }
        (engine.archiveMap.length % 2 ^ 32) >>= fun engine =>
      engine.writeClass contents.type.getPersistenceID >>= fun engine =>
      engine.writeString objectStart >>= fun engine =>
      writeItems (write memory fuel) contents.members contents.items engine >>= fun engine =>
      engine.writeString objectEnd) := by
  rw [write, fresh]
  simp only [there]

theorem readObject_eq
    {step : Pointer → Reading Value → Except Stop (Pointer × Reading Value)} {object : Nat}
    {state state' : Reading Value} {engine engine' : PersistEngine} {contents : PersistObject Value}
    (start : PersistEngine.readString { state.engine with
      archiveVector := state.engine.archiveVector ++ [object] } = .ok (objectStart, engine))
    (there : state.memory[object]? = some contents)
    (items : readItems step object (contents.type.read contents.value) ⟨engine, state.memory⟩ =
      .ok state')
    (finish : state'.engine.readString = .ok (objectEnd, engine')) :
    readObject step object state = .ok { state' with engine := engine' } := by
  rw [readObject, start, ok_bind]
  simp only [ne_eq, not_true_eq_false, ↓reduceIte, there]
  show (readItems step object (contents.type.read contents.value) ⟨engine, state.memory⟩ >>= _) = _
  rw [items, ok_bind, finish, ok_bind]
  rfl

/-- What both know once the number and the class of an object have been written and read. -/
def Known.add {objects : List (PersistObject Value)} (known : Known objects) {object : Nat}
    (inside : object < objects.length) (fresh : object ∉ known.visited) (classes : List Text)
    (fewer : classes.length ≤ known.classes.length + 1) : Known objects where
  visited := known.visited ++ [object]
  classes := classes
  distinct := List.Nodup.append known.distinct (List.nodup_singleton object)
    (List.disjoint_singleton.mpr fresh)
  inside target member := by
    rcases List.mem_append.mp member with before | new
    · exact known.inside target before
    · exact List.mem_singleton.mp new ▸ inside
  fewer := by
    rw [List.length_append, List.length_singleton]
    exact Nat.le_trans fewer (Nat.succ_le_succ known.fewer)

/-- The object takes the next place in the memory, which is the number that was written. -/
theorem place_add {known : Known graph.objects} {object : Nat}
    (inside : object < graph.objects.length) (fresh : object ∉ known.visited) {classes : List Text}
    (fewer : classes.length ≤ known.classes.length + 1) :
    (known.add inside fresh classes fewer).place others object =
      others + known.visited.length :=
  congrArg (others + ·) (idxOf_concat_self fresh)

/-- An object that was made is a draft of the one that was written. -/
theorem draft_created {known : Known graph.objects} {contents created : PersistObject Value}
    (type : created.type = contents.type) (empty : ∀ member, created.members member = none) :
    Draft others known contents [] created :=
  ⟨type, fun _ listed => absurd listed List.not_mem_nil, fun member _ => empty member,
    fun _ listed => absurd listed List.not_mem_nil⟩

section Object

variable {known : Known graph.objects} {object : Nat} (inside : object < graph.objects.length)
  (fresh : object ∉ known.visited) {classes : List Text}
  (fewer : classes.length ≤ known.classes.length + 1)

theorem mem_add : object ∈ (known.add inside fresh classes fewer).visited :=
  List.mem_append_right _ (List.mem_singleton_self object)

theorem eq_of_mem_add {target : Nat}
    (member : target ∈ (known.add inside fresh classes fewer).visited)
    (unknown : target ∉ known.visited) : target = object :=
  List.mem_singleton.mp ((List.mem_append.mp member).resolve_left unknown)

theorem length_add :
    (known.add inside fresh classes fewer).visited.length = known.visited.length + 1 :=
  List.length_append

/-- What is written of an object that is new, where this is its class and this are its items. -/
def objectData (known : Known graph.objects) (classData data : List UInt8) : List UInt8 :=
  bytes known.visited.length ++ (classData ++ (written objectStart ++
    (data ++ written objectEnd)))

theorem object_written {fuel : Nat} {contents : PersistObject Value} {known' : Known graph.objects}
    {classData data : List UInt8} (there : graph.objects[object]? = some contents)
    (few : known.visited.length < 2 ^ 32 - 1)
    (writesClass : ∀ visited output,
      (writing visited known.classes output).writeClass contents.type.getPersistenceID =
        .ok (writing visited classes (output ++ classData)))
    (items : ∀ output, writeItems (write graph.objects fuel) contents.members contents.items
        ((known.add inside fresh classes fewer).writes output) =
      .ok (known'.writes (output ++ data))) (output : List UInt8) :
    (known.writes output).write graph.objects (fuel + 1) (some object) =
      .ok (known'.writes (output ++ objectData known classData data)) := by
  have count : (numbered known.visited).length % 2 ^ 32 = known.visited.length := by
    rw [length_numbered, Nat.mod_eq_of_lt (by omega)]
  rw [write_new fuel (lookup_numbered_of_notMem fresh) there]
  simp only [Known.writes, writing, count, ← numbered_concat]
  show ((writing (known.visited ++ [object]) known.classes output).writeNumber
    known.visited.length >>= _) = _
  rw [writeNumber_writing, ok_bind, writesClass, ok_bind,
    writeString_writing _ _ (by decide), ok_bind]
  show (writeItems _ _ _ ((known.add inside fresh classes fewer).writes _) >>= _) = _
  rw [items, ok_bind, Known.writes, writeString_writing _ _ (by decide), objectData]
  simp only [List.append_assoc]
  rfl

/-- The object is read into the one that was made of its class, which is the last in the memory. -/
theorem object_read {fuel : Nat} {contents created : PersistObject Value}
    {known' : Known graph.objects} {data rest : List UInt8}
    {memory memory' : List (PersistObject Value)}
    (type : created.type = contents.type) (length : memory.length = others + known.visited.length)
    (items : readItems (Reading.read types fuel) memory.length (contents.type.read created.value)
        ⟨(known.add inside fresh classes fewer).reads others (data ++ (written objectEnd ++ rest)),
          memory ++ [created]⟩ =
      .ok ⟨known'.reads others (written objectEnd ++ rest), memory'⟩) :
    readObject (Reading.read types fuel) memory.length
        ⟨reading others known.visited classes
          (written objectStart ++ (data ++ (written objectEnd ++ rest))), memory ++ [created]⟩ =
      .ok ⟨known'.reads others rest, memory'⟩ := by
  have vector : List.range' others known.visited.length ++ [memory.length] =
      List.range' others (known.visited ++ [object]).length := by
    rw [List.length_append, List.length_singleton, List.range'_concat, Nat.one_mul, length]
  have start : ∀ input, PersistEngine.readString
      { reading others known.visited classes (written objectStart ++ input) with
        archiveVector := List.range' others known.visited.length ++ [memory.length] } =
      .ok (objectStart, (known.add inside fresh classes fewer).reads others input) := by
    intro input
    rw [vector]
    exact readString_reading others (known.visited ++ [object]) classes (by decide) (by decide)
      input
  have last : (memory ++ [created])[memory.length]? = some created := List.getElem?_concat_length
  rw [← type] at items
  refine @readObject_eq Value _ _ ⟨_, memory ++ [created]⟩ ⟨_, memory'⟩ _ _ created (start _)
    last items ?_
  exact readString_reading others known'.visited known'.classes (by decide) (by decide) rest

/-- The memory has the object at its place, and the ones that its items led to. -/
theorem extends_object {contents created : PersistObject Value} {known' : Known graph.objects}
    {memory memory' : List (PersistObject Value)}
    (there : graph.objects[object]? = some contents)
    (length : memory.length = others + known.visited.length)
    (grown : (known.add inside fresh classes fewer).visited <+: known'.visited)
    (closed : ∀ member target, contents.members member = some target → target ∈ known'.visited)
    (extended : Extends others (fun address => address = memory.length)
      (known.add inside fresh classes fewer) known' (memory ++ [created]) memory')
    (finished : memory'[memory.length]? = some (contents.redirect (known'.place others))) :
    Extends others (fun _ => False) known known' memory memory' where
  length := extended.length
  kept address before _ := by
    have longer : address < (memory ++ [created]).length :=
      Nat.lt_of_lt_of_le before (List.prefix_append memory [created]).length_le
    rw [extended.kept address longer (Nat.ne_of_lt before), List.getElem?_append_left before]
  copied target listed unknown := by
    by_cases first : target ∈ (known.add inside fresh classes fewer).visited
    · have place : known'.place others object = memory.length := by
        rw [Known.place_of_begins grown (mem_add inside fresh fewer), place_add inside fresh fewer,
          length]
      rw [eq_of_mem_add inside fresh fewer first unknown]
      exact ⟨contents, there, place ▸ finished, closed⟩
    · exact extended.copied target listed first

end Object

/-- An object that is new is written with its class and its items, and what is made in its place is
read. -/
theorem restores_new {fuel : Nat}
    (pointers : ∀ (known : Known graph.objects) (pointer : Pointer),
      (∀ target, pointer = some target → target < graph.objects.length) →
      graph.objects.length < fuel + known.visited.length →
      ∃ known' data, Restores graph others fuel known known' pointer data)
    {known : Known graph.objects} {object : Nat} (inside : object < graph.objects.length)
    {contents : PersistObject Value} (there : graph.objects[object]? = some contents)
    (short : contents.type.getPersistenceID.length < 2 ^ 32 - 1) (fresh : object ∉ known.visited)
    (enough : graph.objects.length < fuel + 1 + known.visited.length) :
    ∃ known' data, Restores graph others (fuel + 1) known known' (some object) data := by
  obtain ⟨⟨created, registered, type, empty, consumes⟩, visible⟩ :=
    graph.registered contents (List.mem_of_getElem? there)
  have few : known.visited.length < 2 ^ 32 - 1 := Nat.lt_of_le_of_lt known.length_le graph.few
  obtain ⟨classes, classData, fewer, writesClass, readsClass⟩ :=
    class_restored short visible (Nat.lt_of_le_of_lt known.fewer (by omega))
  let known₀ := known.add inside fresh classes fewer
  have member : object ∈ known₀.visited := mem_add inside fresh fewer
  have length₀ : known₀.visited.length = known.visited.length + 1 := length_add inside fresh fewer
  have place : known₀.place others object = others + known.visited.length :=
    place_add inside fresh fewer
  obtain ⟨known', data, items⟩ : ∃ known' data, RestoresItems graph others fuel object contents
      (contents.type.read created.value) contents.items [] known₀ known' data :=
    items_restored pointers there consumes known₀ member (by rw [length₀]; omega)
      fun _ listed => absurd listed List.not_mem_nil
  refine ⟨known', objectData known classData data, ?_⟩
  constructor
  case grown => exact (List.prefix_append known.visited [object]).trans items.grown
  case here => exact fun target points => Option.some.inj points ▸ items.grown.subset member
  case reached =>
    intro target listed unknown
    refine ⟨object, rfl, ?_⟩
    by_cases before : target ∈ known₀.visited
    · rw [eq_of_mem_add inside fresh fewer before unknown]
    · exact items.reached target listed before
  case written => exact object_written inside fresh fewer there few writesClass items.written
  case read =>
    intro current memory rest null length
    rw [null object rfl fresh]
    rw [← length] at place
    have last : (memory ++ [created])[known₀.place others object]? = some created := by
      rw [place, List.getElem?_concat_length]
    have longer : (memory ++ [created]).length = others + known₀.visited.length := by
      rw [List.length_append, length, length₀, List.length_singleton, Nat.add_assoc]
    obtain ⟨memory', result, extended, finished⟩ := items.read (memory ++ [created])
      (written objectEnd ++ rest) created longer last (draft_created type empty)
    rw [place] at result extended finished
    have nowhere : (List.range' others known.visited.length)[known.visited.length]? = none :=
      List.getElem?_eq_none (Nat.le_of_eq List.length_range')
    refine ⟨memory', ?_, extends_object inside fresh fewer there length items.grown items.closed
      extended finished⟩
    simp only [objectData, List.append_assoc]
    rw [read_new fuel (readNumber_reading _ _ _ (by omega) _) (Nat.ne_of_lt few) nowhere
      (readsClass others known.visited _) registered, object_read inside fresh fewer type length
      result, ok_bind]
    show Except.ok (some memory.length, _) = Except.ok (some (known'.place others object), _)
    rw [Known.place_of_begins items.grown member, place]

/-! ### Graphs -/

/-- The induction is on the fuel, of which there is more than there are objects that have not been
come to. -/
theorem pointer_restored
    (short : ∀ object ∈ graph.objects, object.type.getPersistenceID.length < 2 ^ 32 - 1)
    (fuel : Nat) (known : Known graph.objects) (pointer : Pointer)
    (valid : ∀ target, pointer = some target → target < graph.objects.length)
    (enough : graph.objects.length < fuel + known.visited.length) :
    ∃ known' data, Restores graph others fuel known known' pointer data := by
  induction fuel generalizing known pointer with
  | zero =>
    rw [Nat.zero_add] at enough
    exact absurd known.length_le (Nat.not_le.mpr enough)
  | succ fuel inductionHypothesis =>
    cases pointer with
    | none => exact ⟨known, _, restores_null fuel known⟩
    | some object =>
      have inside := valid object rfl
      by_cases visited : object ∈ known.visited
      · exact ⟨known, _, restores_known fuel visited⟩
      · exact restores_new inductionHypothesis inside (List.getElem?_eq_getElem inside)
          (short _ (List.getElem_mem inside)) visited enough

/-- As `Restores`, for the roots. -/
structure RestoresAll (graph : PersistGraph types) (others fuel : Nat) (roots : List Pointer)
    (known known' : Known graph.objects) (data : List UInt8) : Prop where
  grown : known.visited <+: known'.visited
  here : ∀ object, some object ∈ roots → object ∈ known'.visited
  reached : ∀ target ∈ known'.visited, target ∉ known.visited →
    Reachable graph.objects roots target
  written : ∀ output, (known.writes output).writeAll graph.objects fuel roots =
    .ok (known'.writes (output ++ data))
  read : ∀ memory rest, memory.length = others + known.visited.length →
    ∃ memory', Reading.readAll types fuel roots.length
          ⟨known.reads others (data ++ rest), memory⟩ =
        .ok (roots.map (Option.map (known'.place others)), ⟨known'.reads others rest, memory'⟩) ∧
      Extends others (fun _ => False) known known' memory memory'

theorem roots_nil (fuel : Nat) (known : Known graph.objects) :
    RestoresAll graph others fuel [] known known [] where
  grown := List.prefix_rfl
  here _ listed := absurd listed List.not_mem_nil
  reached _ listed fresh := absurd listed fresh
  written output := by rw [List.append_nil]; rfl
  read memory _ length := ⟨memory, rfl, Extends.refl length⟩

theorem roots_cons {fuel : Nat} {pointer : Pointer} {roots : List Pointer}
    {known known' known'' : Known graph.objects} {data data' : List UInt8}
    (first : Restores graph others fuel known known' pointer data)
    (after : RestoresAll graph others fuel roots known' known'' data') :
    RestoresAll graph others fuel (pointer :: roots) known known'' (data ++ data') where
  grown := first.grown.trans after.grown
  here object listed := by
    rcases List.mem_cons.mp listed with same | later
    · exact after.grown.subset (first.here object same.symm)
    · exact after.here object later
  reached target listed fresh := by
    by_cases before : target ∈ known'.visited
    · obtain ⟨root, same, path⟩ := first.reached target before fresh
      exact ⟨root, same ▸ List.mem_cons_self, path⟩
    · obtain ⟨root, later, path⟩ := after.reached target listed before
      exact ⟨root, List.mem_cons_of_mem pointer later, path⟩
  written output := by
    rw [writeAll, first.written, ok_bind, after.written, List.append_assoc]
  read memory rest length := by
    obtain ⟨memory₁, result₁, extended₁⟩ := first.read none memory (data' ++ rest)
      (fun _ _ _ => rfl) length
    obtain ⟨memory₂, result₂, extended₂⟩ := after.read memory₁ rest extended₁.length
    have same : pointer.map (known''.place others) = pointer.map (known'.place others) :=
      Known.map_place_of_begins after.grown first.here
    refine ⟨memory₂, ?_, Extends.trans length (fun _ taken => taken.elim) first.grown after.grown
      extended₁ extended₂⟩
    rw [List.length_cons, readAll, List.append_assoc, result₁, ok_bind]
    show (Reading.readAll types fuel roots.length _ >>= _) = _
    rw [result₂, ok_bind, List.map_cons, same]
    rfl

theorem roots_restored
    (short : ∀ object ∈ graph.objects, object.type.getPersistenceID.length < 2 ^ 32 - 1)
    {fuel : Nat} (enough : graph.objects.length < fuel) (roots : List Pointer)
    (valid : ∀ root, some root ∈ roots → root < graph.objects.length)
    (known : Known graph.objects) :
    ∃ known' data, RestoresAll graph others fuel roots known known' data := by
  induction roots generalizing known with
  | nil => exact ⟨known, [], roots_nil fuel known⟩
  | cons pointer roots inductionHypothesis =>
    obtain ⟨known', data, first⟩ : ∃ known' data, Restores graph others fuel known known' pointer
        data :=
      pointer_restored short fuel known pointer
        (fun target points => valid target (points ▸ List.mem_cons_self))
        (Nat.lt_of_lt_of_le enough (Nat.le_add_right _ _))
    obtain ⟨known'', data', after⟩ := inductionHypothesis
      (fun root later => valid root (List.mem_cons_of_mem pointer later)) known'
    exact ⟨known'', data ++ data', roots_cons first after⟩

/-- What both engines know at the beginning. -/
def Known.nothing (objects : List (PersistObject Value)) : Known objects :=
  ⟨[], [], List.nodup_nil, fun _ listed => absurd listed List.not_mem_nil, Nat.le_refl 0⟩

/-- What can be reached from objects that have been copied has been copied too. -/
theorem visited_of_reachable {roots : List Pointer} {known : Known graph.objects}
    {memory : List (PersistObject Value)} (here : ∀ object, some object ∈ roots →
      object ∈ known.visited)
    (copied : ∀ object ∈ known.visited, known.Copied others memory object) {object : Nat}
    (reachable : Reachable graph.objects roots object) : object ∈ known.visited := by
  obtain ⟨root, listed, path⟩ := reachable
  induction path with
  | refl => exact here root listed
  | tail _ step inductionHypothesis =>
    obtain ⟨contents, there, member, points⟩ := step
    obtain ⟨contents', there', _, closed⟩ := copied _ inductionHypothesis
    have same : contents = contents' := Option.some.inj (there.symm.trans there')
    exact closed member _ (same ▸ points)

/-- Objects that have been copied one after the other, of which each can be reached, are a
copy. -/
theorem isomorphic_of_copied {roots : List Pointer} {known : Known graph.objects}
    {before memory : List (PersistObject Value)}
    (here : ∀ object, some object ∈ roots → object ∈ known.visited)
    (reached : ∀ object ∈ known.visited, Reachable graph.objects roots object)
    (length : memory.length = before.length + known.visited.length)
    (kept : ∀ address < before.length, memory[address]? = before[address]?)
    (copied : ∀ object ∈ known.visited, known.Copied before.length memory object) :
    Isomorphic graph.objects roots before
      (roots.map (Option.map (known.place before.length))) memory
      (known.place before.length) where
  renamed := rfl
  shared pointer pointer' within within' := by
    refine ⟨fun same => ?_, fun same => congrArg _ same⟩
    cases pointer with
    | none => cases pointer' with
      | none => rfl
      | some _ => exact nomatch same
    | some object => cases pointer' with
      | none => exact nomatch same
      | some object' =>
        have visited := visited_of_reachable here copied (within object rfl)
        exact congrArg some (Known.place_injective visited (Option.some.inj same))
  copied object reachable := by
    obtain ⟨contents, there, copy, _⟩ :=
      copied object (visited_of_reachable here copied reachable)
    exact ⟨contents, there, Nat.le_add_right _ _, copy⟩
  onto address behind inside := by
    have place : address - before.length < known.visited.length := by omega
    refine ⟨known.visited[address - before.length], reached _ (List.getElem_mem place), ?_⟩
    show before.length + known.visited.idxOf known.visited[address - before.length] = address
    rw [known.distinct.idxOf_getElem]
    omega
  kept := kept

end Graph

/-- What one engine has written of a graph, another reads as a copy of what can be reached from the
pointers, and reads no more of the stream than that. Both go no deeper than there are objects. -/
theorem graph_restored {types : Types Value} (graph : PersistGraph types)
    (short : ∀ object ∈ graph.objects, object.type.getPersistenceID.length < 2 ^ 32 - 1)
    (roots : List Pointer) (valid : ∀ root, some root ∈ roots → root < graph.objects.length)
    (before : List (PersistObject Value)) (rest : List UInt8) (fuel : Nat)
    (enough : graph.objects.length < fuel) :
    ∃ engine, (opened [] .modeWrite).writeAll graph.objects fuel roots = .ok engine ∧
      ∃ pointers engine' memory place,
        Reading.readAll types fuel roots.length
            ⟨opened (engine.stream ++ rest) .modeRead, before⟩ =
          .ok (pointers, ⟨engine', memory⟩) ∧
        engine'.stream = rest ∧ Isomorphic graph.objects roots before pointers memory place := by
  obtain ⟨known, data, restores⟩ : ∃ known data, RestoresAll graph before.length fuel roots
      (Known.nothing graph.objects) known data := roots_restored short enough roots valid _
  obtain ⟨memory, result, extended⟩ := restores.read before rest rfl
  have fresh : ∀ object, object ∉ (Known.nothing graph.objects).visited :=
    fun _ => List.not_mem_nil
  refine ⟨_, restores.written [], _, _, memory, known.place before.length, result, rfl, ?_⟩
  exact isomorphic_of_copied restores.here
    (fun object listed => restores.reached object listed (fresh object)) extended.length
    (fun address inside => extended.kept address inside not_false)
    fun object listed => extended.copied object listed (fresh object)

/-- A class with two pointers, and a byte. -/
def node : PersistClass UInt8 where
  getPersistenceID := [0x4e, 0x6f, 0x64, 0x65]
  write value _ := [.byte value, .pointer 0, .pointer 1]
  read _ := .binary 1 fun data => .pointer 0 fun _ => .pointer 1 fun _ => .done (data.headD 0)

def link (value : UInt8) (next other : Pointer) : PersistObject UInt8 :=
  ⟨node, value, fun member => [next, other].getD member none⟩

def nodeTypes : Types UInt8 := fun name =>
  if name = node.getPersistenceID then some (some (link 0 none none)) else none

theorem registered_link (value : UInt8) (next other : Pointer) :
    Registered nodeTypes (link value next other) where
  created := by
    refine ⟨link 0 none none, by simp [nodeTypes, link], rfl, fun member => ?_, ?_⟩
    · match member with
      | 0 => rfl
      | 1 => rfl
      | _ + 2 => rfl
    · show Consumes _ (.binary [value].length _)
        ([value].map Item.byte ++ [.pointer 0, .pointer 1]) []
      refine .binary (.pointer (.pointer (.done fun member unread => ?_)))
      match member with
      | 0 => exact absurd (by decide) unread
      | 1 => exact absurd (by decide) unread
      | _ + 2 => rfl
  visible := show 0 ∉ node.getPersistenceID by decide

/-- Two objects that point to each other, of which one points to itself as well. -/
def nodeGraph : PersistGraph nodeTypes where
  objects := [link 7 (some 1) none, link 8 (some 0) (some 1)]
  few := by decide
  inside object listed member target points := by
    simp only [List.mem_cons, List.not_mem_nil, or_false] at listed
    show target < 2
    rcases listed with rfl | rfl <;>
    · match member with
      | 0 => simp [link] at points; omega
      | 1 => simp [link] at points <;> omega
      | _ + 2 => simp [link] at points
  registered object listed := by
    simp only [List.mem_cons, List.not_mem_nil, or_false] at listed
    rcases listed with rfl | rfl
    · exact registered_link 7 _ _
    · exact registered_link 8 _ _

theorem graph_restored_nodes :
    ∃ engine, (opened [] .modeWrite).writeAll nodeGraph.objects 3 [some 1, none, some 0, some 1] =
        .ok engine ∧
      ∃ pointers engine' memory place,
        Reading.readAll nodeTypes 3 4 ⟨opened (engine.stream ++ [0]) .modeRead, []⟩ =
          .ok (pointers, ⟨engine', memory⟩) ∧
        engine'.stream = [0] ∧
        Isomorphic nodeGraph.objects [some 1, none, some 0, some 1] [] pointers memory place :=
  graph_restored nodeGraph
    (by
      intro object listed
      simp only [nodeGraph, List.mem_cons, List.not_mem_nil, or_false] at listed
      rcases listed with rfl | rfl <;> decide)
    [some 1, none, some 0, some 1]
    (by
      intro root listed
      simp only [List.mem_cons, Option.some.injEq, List.not_mem_nil, or_false] at listed
      show root < 2
      grind)
    [] [0] 3 (by decide)

/-! ### Long names -/

section Long

variable {name : Text}

/-- A class of this name, which writes nothing. -/
def empty (name : Text) : PersistClass Unit := ⟨name, fun _ _ => [], fun _ => .done ()⟩

def emptyTypes (name : Text) : Types Unit := fun name' =>
  if name' = name then some (some ⟨empty name, (), fun _ => none⟩) else none

/-- One object of that class. -/
def emptyGraph (name : Text) (visible : 0 ∉ name) : PersistGraph (emptyTypes name) where
  objects := [⟨empty name, (), fun _ => none⟩]
  few := show 1 < 2 ^ 32 - 1 by decide
  inside object listed member target points := by
    rw [List.mem_singleton.mp listed] at points
    exact nomatch points
  registered object listed := by
    rw [List.mem_singleton.mp listed]
    exact ⟨⟨_, if_pos rfl, rfl, fun _ => rfl, .done fun _ _ => rfl⟩, visible⟩

theorem writeString_long (long : name.length = 2 ^ 32) (visited : List Nat)
    (classes : List Text) (output : List UInt8) :
    (writing visited classes output).writeString name =
      .ok (writing visited classes (output ++ bytes 0)) := by
  have wrapped : name.length % 2 ^ 32 = 0 := by rw [long, Nat.mod_self]
  rw [writeString, wrapped, List.take_zero]
  show Except.ok (writing visited classes (output ++ bytes 0 ++ [])) = _
  rw [List.append_nil]

/-- Of the name there is only the length, which is none. -/
theorem writeAll_long (long : name.length = 2 ^ 32) (visible : 0 ∉ name) (fuel : Nat) :
    (opened [] .modeWrite).writeAll (emptyGraph name visible).objects (fuel + 1) [some 0] =
      .ok (writing [0] [name] (bytes 0 ++ (bytes 0 ++ (bytes 0 ++
        (written objectStart ++ written objectEnd))))) := by
  have step : (opened [] .modeWrite).write (emptyGraph name visible).objects (fuel + 1) (some 0) =
      .ok (writing [0] [name] (bytes 0 ++ (bytes 0 ++ (bytes 0 ++
        (written objectStart ++ written objectEnd))))) := by
    rw [write_new fuel rfl rfl]
    show ((writing [0] [] []).writeNumber 0 >>= _) = _
    rw [writeNumber_writing, ok_bind, writeClass_new rfl]
    show (((writing [0] [name] ([] ++ bytes 0)).writeNumber 0 >>= fun engine =>
      engine.writeString name) >>= _) = _
    rw [writeNumber_writing, ok_bind, writeString_long long, ok_bind,
      writeString_writing _ _ (by decide), ok_bind]
    show (Except.ok (writing [0] [name] _) >>= _) = _
    rw [ok_bind, writeString_writing _ _ (by decide)]
    simp only [List.nil_append, List.append_assoc]
  rw [writeAll, step, ok_bind]
  rfl

/-- The empty name that is read is that of no class. -/
theorem readAll_long (long : name.length = 2 ^ 32) (fuel : Nat) (rest : List UInt8) :
    Reading.readAll (emptyTypes name) (fuel + 1) 1
        ⟨opened (bytes 0 ++ (bytes 0 ++ (bytes 0 ++ rest))) .modeRead, []⟩ =
      .error .assertion := by
  have unregistered : emptyTypes name [] = none :=
    if_neg fun same => absurd long (by rw [← same]; decide)
  have className : (reading 0 [] [] (bytes 0 ++ (bytes 0 ++ rest))).readClass =
      .ok ([], reading 0 [] [[]] rest) := by
    rw [readClass, readNumber_reading _ _ _ (by decide), ok_bind]
    show ((reading 0 [] [] (written [] ++ rest)).readString >>= _) = _
    rw [readString_reading _ _ _ (by decide) List.not_mem_nil, ok_bind]
    rfl
  have step : Reading.read (emptyTypes name) (fuel + 1) none
      ⟨opened (bytes 0 ++ (bytes 0 ++ (bytes 0 ++ rest))) .modeRead, []⟩ = .error .assertion := by
    have number := readNumber_reading 0 [] [] (i := 0) (by decide) (bytes 0 ++ (bytes 0 ++ rest))
    rw [Reading.read]
    show ((reading 0 [] [] (bytes 0 ++ (bytes 0 ++ (bytes 0 ++ rest)))).readNumber >>= _) = _
    rw [number, ok_bind]
    show ((reading 0 [] [] (bytes 0 ++ (bytes 0 ++ rest))).readClass >>= _) = _
    rw [className, ok_bind]
    simp only [unregistered]
    rfl
  rw [readAll, step]
  rfl

end Long

/-- A name of a length that is none in 32 bits. -/
def longName : Text := List.replicate (2 ^ 32) 0x61

theorem length_longName : longName.length = 2 ^ 32 := List.length_replicate

theorem visible_longName : 0 ∉ longName := fun listed =>
  absurd (List.eq_of_mem_replicate listed) (by decide)

theorem graph_loses_name :
    ∃ engine, (opened [] .modeWrite).writeAll (emptyGraph longName visible_longName).objects 2
        [some 0] = .ok engine ∧
      ∀ fuel, Reading.readAll (emptyTypes longName) (fuel + 1) 1
        ⟨opened engine.stream .modeRead, []⟩ = .error .assertion :=
  ⟨_, writeAll_long length_longName visible_longName 1, fun fuel =>
    readAll_long length_longName fuel _⟩

end Persist

end CommonCpp
