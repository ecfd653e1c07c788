/-
This file models `PersistEngine`, which writes the objects that a pointer leads to into a stream
and makes them again from what it has written.

An object is written where a pointer to it is written for the first time, and with it whatever
its own pointers lead to. A later pointer to it is written as the number of the object, which is
that of the objects written before it. Classes are numbered in the same way. Neither number is
agreed upon in the stream: what is not smaller than a table of the reading engine is taken for new.

What a class writes and reads is its own affair. Here it writes a list of bytes and of pointers of
the object, and it reads by asking for the one or the other, as what it has read so far tells it.
-/

import Mathlib.Logic.Function.Basic
import CommonCpp.Bytes

namespace CommonCpp

namespace Persist

/-- The address of an object, or `NULL`. -/
abbrev Pointer := Option Nat

/-! ### Objects -/

/-- What the `write` of a class gives to the engine: a byte by `writeBinary`, or the pointer that
is this member of the object. -/
inductive Item
  | byte (data : UInt8)
  | pointer (member : Nat)
  deriving DecidableEq

/-- What the `read` of a class asks the engine for, in turn: `readBinary`, or `read` into the
pointer that is this member of the object, of which it then knows whether it leads anywhere. At
the end the fields have their values. -/
inductive Reader (Value : Type)
  | binary (size : Nat) (next : List UInt8 → Reader Value)
  | pointer (member : Nat) (next : Bool → Reader Value)
  | done (value : Value)

/-- The virtual functions of an object. Its `write` sees the fields and which of the pointers are
not null, and its `read` the fields that it is to fill. -/
structure PersistClass (Value : Type) where
  getPersistenceID : Text
  write : Value → (Nat → Bool) → List Item
  read : Value → Reader Value

/-- An object: its class, its fields that are not pointers, and its pointers. -/
structure PersistObject (Value : Type) where
  type : PersistClass Value
  value : Value
  members : Nat → Pointer

variable {Value : Type}

/-- What the object writes. -/
def PersistObject.items (object : PersistObject Value) : List Item :=
  object.type.write object.value fun member => (object.members member).isSome

/-- The functions that are registered with the `TypeManager`, each with what it returns, which may
be `NULL`. -/
abbrev Types (Value : Type) := Text → Option (Option (PersistObject Value))

/-! ### The engine -/

/-- Why there is no result: a `PersistException`, of which the reason may end in a name, a failed
assertion, or what the code does not provide for. -/
inductive Stop
  | exception (reason : String) (name : Text)
  | assertion
  | invalidPointer
  | outOfBounds
  | endOfStream
  | unfinished
  deriving DecidableEq

inductive EngineMode
  | modeRead
  | modeWrite
  deriving DecidableEq

/-- The stream is what is in it and has not been read. -/
structure PersistEngine where
  stream : List UInt8
  mode : EngineMode
  archiveVector : List Nat
  archiveMap : List (Nat × Nat)
  classVector : List Text
  classMap : List (Text × Nat)

def NullObject : Nat := 0xffffffff

/-- `"OBST"`. -/
def objectStart : Text := [0x4f, 0x42, 0x53, 0x54]

/-- `"OBEN"`. -/
def objectEnd : Text := [0x4f, 0x42, 0x45, 0x4e]

/-- The bytes of a `uint32_t` in memory, where the lowest comes first. -/
def bytes (i : Nat) : List UInt8 :=
  [UInt8.ofNat i, UInt8.ofNat (i / 256), UInt8.ofNat (i / 65536), UInt8.ofNat (i / 16777216)]

/-- The `uint32_t` of these bytes. -/
def number : List UInt8 → Nat
  | [] => 0
  | byte :: rest => byte.toNat + 256 * number rest

namespace PersistEngine

def opened (stream : List UInt8) (mode : EngineMode) : PersistEngine :=
  ⟨stream, mode, [], [], [], []⟩

/-! #### Writing -/

def writeBinary (engine : PersistEngine) (data : List UInt8) : Except Stop PersistEngine :=
  if engine.mode ≠ .modeWrite then .error (.exception "Cannot write to an input Engine" [])
  else .ok { engine with stream := engine.stream ++ data }

/-- `write(uint32_t)` and `write(int32_t)`. -/
def writeNumber (engine : PersistEngine) (i : Nat) : Except Stop PersistEngine :=
  engine.writeBinary (bytes i)

/-- `write(const std::string&)`. -/
def writeString (engine : PersistEngine) (str : Text) : Except Stop PersistEngine := do
  let len := str.length % 2 ^ 32
  let engine ← engine.writeNumber len
  engine.writeBinary (str.take len)

/-- What `write(const PersistObject *)` writes of the class. -/
def writeClass (engine : PersistEngine) (name : Text) : Except Stop PersistEngine :=
  match engine.classMap.lookup name with
  | none => do
    let classId := engine.classMap.length % 2 ^ 32
    let engine := { engine with classMap := engine.classMap ++ [(name, classId)] }
    let engine ← engine.writeNumber classId
    engine.writeString name
  | some classId => engine.writeNumber classId

/-- `object->write(*this)`, where the pointers are written by this function. -/
def writeItems (write : Pointer → PersistEngine → Except Stop PersistEngine)
    (members : Nat → Pointer) : List Item → PersistEngine → Except Stop PersistEngine
  | [], engine => .ok engine
  | .byte data :: items, engine => do
    let engine ← engine.writeBinary [data]
    writeItems write members items engine
  | .pointer member :: items, engine => do
    let engine ← write (members member) engine
    writeItems write members items engine

/-- `write(const PersistObject *)`. -/
def write (memory : List (PersistObject Value)) :
    Nat → Pointer → PersistEngine → Except Stop PersistEngine
  | 0, _, _ => .error .unfinished
  | _ + 1, none, engine => engine.writeNumber NullObject
  | fuel + 1, some object, engine =>
    match engine.archiveMap.lookup object with
    | some id => engine.writeNumber id
    | none =>
      match memory[object]? with
      | none => .error .invalidPointer
      | some contents => do
        let id := engine.archiveMap.length % 2 ^ 32
        let engine := { engine with archiveMap := engine.archiveMap ++ [(object, id)] }
        let engine ← engine.writeNumber id
        let engine ← engine.writeClass contents.type.getPersistenceID
        let engine ← engine.writeString objectStart
        let engine ← writeItems (write memory fuel) contents.members contents.items engine
        engine.writeString objectEnd

/-- The pointers, one after the other. -/
def writeAll (memory : List (PersistObject Value)) (fuel : Nat) :
    List Pointer → PersistEngine → Except Stop PersistEngine
  | [], engine => .ok engine
  | pointer :: pointers, engine => do
    let engine ← engine.write memory fuel pointer
    writeAll memory fuel pointers engine

/-! #### Reading -/

def readBinary (engine : PersistEngine) (size : Nat) : Except Stop (List UInt8 × PersistEngine) :=
  if engine.mode ≠ .modeRead then .error (.exception "Cannot read from an output Engine" [])
  else if engine.stream.length < size then .error .endOfStream
  else .ok (engine.stream.take size, { engine with stream := engine.stream.drop size })

/-- `read(uint32_t&)`. -/
def readNumber (engine : PersistEngine) : Except Stop (Nat × PersistEngine) := do
  let (data, engine) ← engine.readBinary 4
  return (number data, engine)

/-- `read(std::string&)`. The buffer has `len + 1` bytes, which is none for the last number. -/
def readString (engine : PersistEngine) : Except Stop (Text × PersistEngine) := do
  let (len, engine) ← engine.readNumber
  if (len + 1) % 2 ^ 32 ≤ len then throw .outOfBounds
  let (buffer, engine) ← engine.readBinary len
  return (Bytes.string buffer, engine)

def readClass (engine : PersistEngine) : Except Stop (Text × PersistEngine) := do
  let (classId, engine) ← engine.readNumber
  match engine.classVector[classId]? with
  | some className => return (className, engine)
  | none =>
    let (className, engine) ← engine.readString
    return (className, { engine with classVector := engine.classVector ++ [className] })

end PersistEngine

/-- A program that reads: its engine, and its objects, each at its address. -/
structure Reading (Value : Type) where
  engine : PersistEngine
  memory : List (PersistObject Value)

namespace Reading

/-- The object at an address, changed. -/
def change (state : Reading Value) (object : Nat)
    (turn : PersistObject Value → PersistObject Value) : Reading Value :=
  { state with memory := state.memory.modify object turn }

/-- The member of the object at an address. -/
def member (state : Reading Value) (object member : Nat) : Pointer :=
  (state.memory[object]?).bind fun contents => contents.members member

/-- `object->read(*this)`, where the pointers are read by this function. -/
def readItems (read : Pointer → Reading Value → Except Stop (Pointer × Reading Value))
    (object : Nat) : Reader Value → Reading Value → Except Stop (Reading Value)
  | .done value, state => .ok (state.change object fun contents => { contents with value := value })
  | .binary size next, state => do
    let (data, engine) ← state.engine.readBinary size
    readItems read object (next data) { state with engine := engine }
  | .pointer member next, state => do
    let (pointer, state) ← read (state.member object member) state
    let state := state.change object fun contents =>
      { contents with members := Function.update contents.members member pointer }
    readItems read object (next pointer.isSome) state

def readObject (read : Pointer → Reading Value → Except Stop (Pointer × Reading Value))
    (object : Nat) (state : Reading Value) : Except Stop (Reading Value) := do
  let engine := { state.engine with archiveVector := state.engine.archiveVector ++ [object] }
  let (majik, engine) ← engine.readString
  if majik ≠ objectStart then throw (.exception "Missing Start-of-Object marker" [])
  match state.memory[object]? with
  | none => throw .invalidPointer
  | some contents =>
    let state := { state with engine := engine }
    let state ← readItems read object (contents.type.read contents.value) state
    let (majik, engine) ← state.engine.readString
    if majik ≠ objectEnd then throw (.exception "Missing End-of-Object marker" [])
    return { state with engine := engine }

/-- `read(PersistObject *&)`: the value that the pointer has before, and after. -/
def read (types : Types Value) :
    Nat → Pointer → Reading Value → Except Stop (Pointer × Reading Value)
  | 0, _, _ => .error .unfinished
  | fuel + 1, object, state => do
    let (id, engine) ← state.engine.readNumber
    if id = NullObject then return (none, { state with engine := engine })
    match engine.archiveVector[id]? with
    | some known => return (some known, { state with engine := engine })
    | none =>
      let (className, engine) ← engine.readClass
      match object with
      | some address =>
        let state ← readObject (read types fuel) address { state with engine := engine }
        return (some address, state)
      | none =>
        match types className with
        | none => throw .assertion
        | some none => throw (.exception "Unable to instantiate object of class " className)
        | some (some created) =>
          let address := state.memory.length
          let state ← readObject (read types fuel) address ⟨engine, state.memory ++ [created]⟩
          return (some address, state)

/-- As many pointers, one after the other, each of which is null before. -/
def readAll (types : Types Value) (fuel : Nat) :
    Nat → Reading Value → Except Stop (List Pointer × Reading Value)
  | 0, state => .ok ([], state)
  | count + 1, state => do
    let (pointer, state) ← state.read types fuel none
    let (pointers, state) ← readAll types fuel count state
    return (pointer :: pointers, state)

end Reading

end Persist

end CommonCpp
