/-
This file shows that what one engine writes of numbers, strings and classes another one reads, and
what both engines know when they have come to the same objects.

Both engines number an object when they come to it, before what its own pointers lead to. So they
have come to the same objects in the same order wherever one writes a pointer and the other reads
it, and the tables of the one say what those of the other do: `Known` is what both know.
-/

import CommonCpp.Numbering
import CommonCpp.Persist

namespace CommonCpp

namespace Persist

open Numbering PersistEngine

variable {Value : Type}

/-- The object, with its pointers turned. -/
def PersistObject.redirect (object : PersistObject Value) (place : Nat → Nat) :
    PersistObject Value :=
  { object with members := fun member => (object.members member).map place }

/-! ### Numbers, strings and classes -/

theorem ok_bind {α β : Type} (a : α) (f : α → Except Stop β) : (Except.ok a >>= f) = f a := rfl

theorem number_bytes {i : Nat} (small : i < 2 ^ 32) : number (bytes i) = i := by
  simp only [bytes, number, UInt8.toNat_ofNat']
  omega

/-- The step writes these bytes, and changes nothing else. -/
def Writes (step : PersistEngine → Except Stop PersistEngine) (data : List UInt8) : Prop :=
  ∀ engine : PersistEngine, engine.mode = .modeWrite →
    step engine = .ok { engine with stream := engine.stream ++ data }

/-- The step reads these bytes, which give the value, and changes nothing else. -/
def Reads {Result : Type} (step : PersistEngine → Except Stop (Result × PersistEngine))
    (data : List UInt8) (value : Result) : Prop :=
  ∀ (engine : PersistEngine) (rest : List UInt8), engine.mode = .modeRead →
    engine.stream = data ++ rest → step engine = .ok (value, { engine with stream := rest })

theorem Writes.next {step step' : PersistEngine → Except Stop PersistEngine}
    {data data' : List UInt8} (first : Writes step data) (second : Writes step' data') :
    Writes (fun engine => step engine >>= step') (data ++ data') := by
  intro engine mode
  show step engine >>= step' = _
  rw [first engine mode, ok_bind]
  refine (second { engine with stream := engine.stream ++ data } mode).trans ?_
  simp only [List.append_assoc]

theorem Writes.nothing : Writes Except.ok [] := fun engine _ => by rw [List.append_nil]

theorem Reads.next {First Second : Type}
    {step : PersistEngine → Except Stop (First × PersistEngine)}
    {step' : First × PersistEngine → Except Stop (Second × PersistEngine)}
    {data data' : List UInt8} {value : First} {value' : Second} (first : Reads step data value)
    (second : Reads (fun engine => step' (value, engine)) data' value') :
    Reads (fun engine => step engine >>= step') (data ++ data') value' := by
  intro engine rest mode stream
  show step engine >>= step' = _
  rw [first engine (data' ++ rest) mode (stream.trans (List.append_assoc _ _ _)), ok_bind]
  exact second { engine with stream := data' ++ rest } rest mode rfl

theorem Reads.done {Result : Type} (value : Result) :
    Reads (fun engine => Except.ok (value, engine)) [] value := by
  intro engine rest _ stream
  rw [← List.nil_append rest, ← stream]

theorem writes_binary (data : List UInt8) :
    Writes (fun engine => engine.writeBinary data) data := by
  intro engine mode
  simp only [writeBinary, mode, ne_eq, not_true_eq_false, ↓reduceIte]

theorem writes_number (i : Nat) : Writes (fun engine => engine.writeNumber i) (bytes i) :=
  writes_binary (bytes i)

theorem reads_binary (data : List UInt8) :
    Reads (fun engine => engine.readBinary data.length) data data := by
  intro engine rest mode stream
  have enough : ¬ (data ++ rest).length < data.length := by simp
  simp only [readBinary, mode, stream, ne_eq, not_true_eq_false, ↓reduceIte, enough,
    List.take_left, List.drop_left]

/-- What is made of the bytes that are read. -/
theorem Reads.map {First Second : Type}
    {step : PersistEngine → Except Stop (First × PersistEngine)} {data : List UInt8}
    {value : First} (reads : Reads step data value) (turn : First → Second) :
    Reads (fun engine => step engine >>= fun got => Except.ok (turn got.1, got.2)) data
      (turn value) := by
  intro engine rest mode stream
  show (step engine >>= fun got => Except.ok (turn got.1, got.2)) = _
  rw [reads engine rest mode stream, ok_bind]

theorem reads_number {i : Nat} (small : i < 2 ^ 32) :
    Reads (fun engine => engine.readNumber) (bytes i) i := by
  have reads := (reads_binary (bytes i)).map number
  rwa [number_bytes small] at reads

/-- What is written of a string that is short enough. -/
def written (str : Text) : List UInt8 := bytes str.length ++ str

theorem writes_string {str : Text} (short : str.length < 2 ^ 32) :
    Writes (fun engine => engine.writeString str) (written str) := by
  have writes := (writes_number str.length).next (writes_binary str)
  simpa only [writeString, written, Nat.mod_eq_of_lt short, List.take_length] using writes

theorem reads_string {str : Text} (short : str.length < 2 ^ 32 - 1) (visible : 0 ∉ str) :
    Reads (fun engine => engine.readString) (written str) str := by
  have room : ¬ (str.length + 1) % 2 ^ 32 ≤ str.length := by omega
  intro engine rest mode stream
  have string := (reads_binary str).map Bytes.string
  rw [Bytes.string_eq_self visible] at string
  have length : engine.readNumber = .ok (str.length, { engine with stream := str ++ rest }) :=
    reads_number (by omega) engine (str ++ rest) mode (stream.trans (List.append_assoc _ _ _))
  show engine.readString = _
  rw [readString, length, ok_bind]
  simp only [room, ↓reduceIte]
  exact string _ rest mode rfl

/-- An engine that has written these objects and classes. -/
def writing (visited : List Nat) (classes : List Text) (output : List UInt8) : PersistEngine :=
  ⟨output, .modeWrite, [], numbered visited, [], numbered classes⟩

/-- An engine that has read these objects and classes, where there were others in the memory. -/
def reading (others : Nat) (visited : List Nat) (classes : List Text) (input : List UInt8) :
    PersistEngine :=
  ⟨input, .modeRead, List.range' others visited.length, [], classes, []⟩

section Primitives

variable (others : Nat) (visited : List Nat) (classes : List Text)

theorem writeNumber_writing (output : List UInt8) (i : Nat) :
    (writing visited classes output).writeNumber i =
      .ok (writing visited classes (output ++ bytes i)) :=
  writes_number i _ rfl

theorem readBinary_reading (data rest : List UInt8) :
    (reading others visited classes (data ++ rest)).readBinary data.length =
      .ok (data, reading others visited classes rest) :=
  reads_binary data _ rest rfl rfl

theorem readNumber_reading {i : Nat} (small : i < 2 ^ 32) (rest : List UInt8) :
    (reading others visited classes (bytes i ++ rest)).readNumber =
      .ok (i, reading others visited classes rest) :=
  reads_number small _ rest rfl rfl

theorem writeString_writing {str : Text} (short : str.length < 2 ^ 32) (output : List UInt8) :
    (writing visited classes output).writeString str =
      .ok (writing visited classes (output ++ written str)) :=
  writes_string short _ rfl

theorem readString_reading {str : Text} (short : str.length < 2 ^ 32 - 1) (visible : 0 ∉ str)
    (rest : List UInt8) :
    (reading others visited classes (written str ++ rest)).readString =
      .ok (str, reading others visited classes rest) :=
  reads_string short visible _ rest rfl rfl

end Primitives

theorem writeClass_known {engine : PersistEngine} {name : Text} {classId : Nat}
    (known : engine.classMap.lookup name = some classId) :
    engine.writeClass name = engine.writeNumber classId := by
  rw [writeClass, known]

theorem writeClass_new {engine : PersistEngine} {name : Text}
    (fresh : engine.classMap.lookup name = none) :
    engine.writeClass name = (PersistEngine.writeNumber { engine with
      classMap := engine.classMap ++ [(name, engine.classMap.length % 2 ^ 32)] }
        (engine.classMap.length % 2 ^ 32) >>= fun engine => engine.writeString name) := by
  rw [writeClass, fresh]

/-- The reading engine finds the name that was meant, and then has the classes of the other. -/
theorem class_restored {name : Text} (short : name.length < 2 ^ 32 - 1) (visible : 0 ∉ name)
    {classes : List Text} (few : classes.length < 2 ^ 32) :
    ∃ (classes' : List Text) (data : List UInt8), classes'.length ≤ classes.length + 1 ∧
      (∀ visited output, (writing visited classes output).writeClass name =
        .ok (writing visited classes' (output ++ data))) ∧
      ∀ others visited rest, (reading others visited classes (data ++ rest)).readClass =
        .ok (name, reading others visited classes' rest) := by
  by_cases known : name ∈ classes
  · have place : classes.idxOf name < classes.length := List.idxOf_lt_length_of_mem known
    refine ⟨classes, bytes (classes.idxOf name), Nat.le_succ _, fun visited output => ?_,
      fun others visited rest => ?_⟩
    · rw [writeClass_known (lookup_numbered known), writeNumber_writing]
    · have there : classes[classes.idxOf name]? = some name := List.getElem?_idxOf known
      rw [readClass, readNumber_reading _ _ _ (Nat.lt_trans place few), ok_bind]
      simp only [reading, there]
      rfl
  · refine ⟨classes ++ [name], bytes classes.length ++ written name, by simp,
      fun visited output => ?_, fun others visited rest => ?_⟩
    · have count : (numbered classes).length % 2 ^ 32 = classes.length := by
        rw [length_numbered, Nat.mod_eq_of_lt few]
      rw [writeClass_new (lookup_numbered_of_notMem known)]
      simp only [writing, count, ← numbered_concat]
      show ((writing visited (classes ++ [name]) output).writeNumber classes.length >>=
        fun engine => engine.writeString name) = .ok (writing visited (classes ++ [name]) _)
      rw [writeNumber_writing, ok_bind, writeString_writing _ _ (by omega), List.append_assoc]
    · have nowhere : classes[classes.length]? = none := List.getElem?_eq_none (Nat.le_refl _)
      rw [List.append_assoc, readClass, readNumber_reading _ _ _ few, ok_bind]
      simp only [reading, nowhere]
      show ((reading others visited classes (written name ++ rest)).readString >>= fun got =>
        Except.ok (got.1, { got.2 with classVector := got.2.classVector ++ [got.1] })) = _
      rw [readString_reading _ _ _ short visible, ok_bind]
      rfl

/-! ### What both engines know -/

/-- The objects and the classes that both engines have come to, in order. -/
structure Known (objects : List (PersistObject Value)) where
  visited : List Nat
  classes : List Text
  distinct : visited.Nodup
  inside : ∀ object ∈ visited, object < objects.length
  fewer : classes.length ≤ visited.length

namespace Known

variable {objects : List (PersistObject Value)} (known : Known objects) (others : Nat)

def writes (output : List UInt8) : PersistEngine := writing known.visited known.classes output

def reads (input : List UInt8) : PersistEngine := reading others known.visited known.classes input

/-- Where the object is in the memory of the reader. -/
def place (object : Nat) : Nat := others + known.visited.idxOf object

/-- The object is in the memory, with its pointers to objects that are there. -/
def Copied (memory : List (PersistObject Value)) (object : Nat) : Prop :=
  ∃ contents, objects[object]? = some contents ∧
    memory[known.place others object]? = some (contents.redirect (known.place others)) ∧
    ∀ member target, contents.members member = some target → target ∈ known.visited

variable {known others}

theorem length_le : known.visited.length ≤ objects.length :=
  length_le_of_nodup known.distinct known.inside

theorem place_lt {object : Nat} (member : object ∈ known.visited) :
    known.place others object < others + known.visited.length :=
  Nat.add_lt_add_left (List.idxOf_lt_length_of_mem member) others

theorem place_of_begins {known' : Known objects} (grown : known.visited <+: known'.visited)
    {object : Nat} (member : object ∈ known.visited) :
    known'.place others object = known.place others object :=
  congrArg (others + ·) (idxOf_of_begins grown member)

theorem le_place {known' : Known objects} (grown : known.visited <+: known'.visited) {object : Nat}
    (fresh : object ∉ known.visited) :
    others + known.visited.length ≤ known'.place others object :=
  Nat.add_le_add_left (length_le_idxOf grown fresh) others

theorem place_injective {object target : Nat} (member : object ∈ known.visited)
    (same : known.place others object = known.place others target) : object = target :=
  (List.idxOf_inj member).mp (Nat.add_left_cancel same)

/-- A pointer to an object that is known keeps its place. -/
theorem map_place_of_begins {known' : Known objects} (grown : known.visited <+: known'.visited)
    {pointer : Pointer} (member : ∀ target, pointer = some target → target ∈ known.visited) :
    pointer.map (known'.place others) = pointer.map (known.place others) := by
  cases pointer with
  | none => rfl
  | some target => exact congrArg some (place_of_begins grown (member target rfl))

theorem Copied.of_begins {known' : Known objects} (grown : known.visited <+: known'.visited)
    {memory memory' : List (PersistObject Value)} {object : Nat} (member : object ∈ known.visited)
    (copied : known.Copied others memory object)
    (kept : memory'[known.place others object]? = memory[known.place others object]?) :
    known'.Copied others memory' object := by
  obtain ⟨contents, here, there, closed⟩ := copied
  refine ⟨contents, here, ?_, fun place target points => grown.subset (closed place target points)⟩
  have same : contents.redirect (known'.place others) = contents.redirect (known.place others) :=
    congrArg (PersistObject.mk contents.type contents.value) (funext fun place =>
      map_place_of_begins grown (closed place))
  rw [place_of_begins grown member, kept, there, same]

end Known

/-- What the memory of the reader has become from one pointer to another: the objects that
were come to are in it, and but for those that are being read it has not changed otherwise. -/
structure Extends {objects : List (PersistObject Value)} (others : Nat) (busy : Nat → Prop)
    (known known' : Known objects) (memory memory' : List (PersistObject Value)) : Prop where
  length : memory'.length = others + known'.visited.length
  kept : ∀ address < memory.length, ¬ busy address → memory'[address]? = memory[address]?
  copied : ∀ object ∈ known'.visited, object ∉ known.visited → known'.Copied others memory' object

namespace Extends

variable {objects : List (PersistObject Value)} {others : Nat} {busy : Nat → Prop}
  {known known' known'' : Known objects} {memory memory' memory'' : List (PersistObject Value)}

theorem refl (length : memory.length = others + known.visited.length) :
    Extends others busy known known memory memory :=
  ⟨length, fun _ _ _ => rfl, fun _ member fresh => absurd member fresh⟩

theorem trans (length : memory.length = others + known.visited.length)
    (below : ∀ address, busy address → address < memory.length)
    (grown : known.visited <+: known'.visited) (grown' : known'.visited <+: known''.visited)
    (first : Extends others busy known known' memory memory')
    (second : Extends others busy known' known'' memory' memory'') :
    Extends others busy known known'' memory memory'' := by
  have longer : memory.length ≤ memory'.length := by
    rw [length, first.length]
    exact Nat.add_le_add_left grown.length_le others
  refine ⟨second.length, fun address inside free => ?_, fun object member fresh => ?_⟩
  · rw [second.kept address (Nat.lt_of_lt_of_le inside longer) free, first.kept address inside free]
  · by_cases before : object ∈ known'.visited
    · have inside : known'.place others object < memory'.length :=
        first.length ▸ Known.place_lt before
      have free : ¬ busy (known'.place others object) := fun taken =>
        absurd (below _ taken) (Nat.not_lt.mpr (length ▸ Known.le_place grown fresh))
      exact (first.copied object before fresh).of_begins grown' before
        (second.kept _ inside free)
    · exact second.copied object member before

/-- Nothing more is said where more objects are being read. -/
theorem weaken {busy' : Nat → Prop} (more : ∀ address, busy address → busy' address)
    (extends' : Extends others busy known known' memory memory') :
    Extends others busy' known known' memory memory' :=
  ⟨extends'.length, fun address inside free =>
    extends'.kept address inside fun taken => free (more address taken), extends'.copied⟩

end Extends

end Persist

end CommonCpp
