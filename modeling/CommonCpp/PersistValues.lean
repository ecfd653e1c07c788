/-
This file shows which values come back as they were when they are written with `operator <<` and
read with `operator >>`.

The operators of the containers write how many elements there are and then the elements, by the
operators of their type, so that each reader asks for what its writer has written. What does not
come back is what the number of 32 bits cannot say, and what the string is made of: it is taken
from the buffer as far as the first null character. No other value is ever read than one without
these, which is why the converse holds.
-/

import CommonCpp.OrderedMap
import CommonCpp.PersistTables

namespace CommonCpp

namespace Persist

open PersistEngine

/-! ### Types and values -/

inductive IntType
  | int8
  | uint8
  | int16
  | uint16
  | int32
  | uint32
  | int64
  | uint64
  deriving DecidableEq

namespace IntType

/-- `sizeof`. -/
def size : IntType → Nat
  | int8 | uint8 => 1
  | int16 | uint16 => 2
  | int32 | uint32 => 4
  | int64 | uint64 => 8

/-- The smallest value of the type. -/
def low : IntType → Int
  | uint8 | uint16 | uint32 | uint64 => 0
  | int8 => -2 ^ 7
  | int16 => -2 ^ 15
  | int32 => -2 ^ 31
  | int64 => -2 ^ 63

/-- The values, which are as many as there are contents of the memory. -/
abbrev Value (type : IntType) := { i : Int // type.low ≤ i ∧ i < type.low + 256 ^ type.size }

end IntType

/-- The types of the values. -/
inductive Content
  | string
  | integer (type : IntType)
  | bool
  | vector (content : Content)
  | deque (content : Content)
  | map (key value : Content)
  | pair (first second : Content)
  deriving DecidableEq

/-- A type of Lean, and its `operator <`, by which a `std::map` orders its keys. -/
structure Kind where
  Value : Type
  order : LinearOrder Value

/-- Strings are compared by their bytes, which are unsigned. -/
def codes (str : Text) : List Nat := str.map UInt8.toNat

theorem codes_injective : Function.Injective codes :=
  List.map_injective_iff.mpr fun _ _ => UInt8.toNat_inj.mp

/-- The values of a type. -/
def Content.kind : Content → Kind
  | .string => ⟨Text, LinearOrder.lift' codes codes_injective⟩
  | .integer type => ⟨type.Value, inferInstance⟩
  | .bool => ⟨Bool, inferInstance⟩
  | .vector content =>
    let _ := content.kind.order
    ⟨List content.kind.Value, inferInstance⟩
  | .deque content =>
    let _ := content.kind.order
    ⟨List content.kind.Value, inferInstance⟩
  | .map key value =>
    let _ := key.kind.order
    let _ := value.kind.order
    ⟨OrderedMap key.kind.Value value.kind.Value, inferInstance⟩
  | .pair first second =>
    let _ := first.kind.order
    let _ := second.kind.order
    ⟨first.kind.Value × second.kind.Value, Prod.Lex.instLinearOrder _ _⟩

abbrev Content.Value (content : Content) : Type := content.kind.Value

instance (content : Content) : LinearOrder content.Value := content.kind.order

/-! ### The operators -/

/-- So many bytes of a number, the lowest first. -/
def littleEndian : Nat → Nat → List UInt8
  | 0, _ => []
  | size + 1, i => UInt8.ofNat i :: littleEndian size (i / 256)

/-- The bytes of an integer in memory, where the negative ones are behind the others. -/
def IntType.memory (type : IntType) (i : type.Value) : List UInt8 :=
  littleEndian type.size (i.val % 256 ^ type.size).toNat

theorem IntType.within (type : IntType) (i : Int) :
    type.low ≤ type.low + i % 256 ^ type.size ∧
      type.low + i % 256 ^ type.size < type.low + 256 ^ type.size := by
  have positive : (0 : Int) < 256 ^ type.size := Int.pow_pos (by decide)
  have least := Int.emod_nonneg i positive.ne'
  have most := Int.emod_lt_of_pos i positive
  omega

/-- The integer that has these bytes in memory. -/
def IntType.ofMemory (type : IntType) (data : List UInt8) : type.Value :=
  ⟨type.low + (number data - type.low) % 256 ^ type.size, type.within _⟩

/-- Whether an `operator <<` takes the type. A pair is taken by a reference that is not constant,
and what is in a container is constant. There is none for the integers of 64 bits. -/
def Content.written : (constant : Bool) → Content → Bool
  | _, .string => true
  | _, .integer type => type.size ≠ 8
  | _, .bool => true
  | _, .vector content => content.written true
  | _, .deque content => content.written true
  | _, .map key value => key.written true && value.written true
  | constant, .pair first second => !constant && first.written false && second.written false

/-- Whether an `operator >>` takes the type. An element of `std::vector<bool>` is not a `bool&`. -/
def Content.read : Content → Bool
  | .string => true
  | .integer type => type.size ≠ 8
  | .bool => true
  | .vector content => content ≠ .bool && content.read
  | .deque content => content.read
  | .map key value => key.read && value.read
  | .pair first second => first.read && second.read

example : Content.written false (.pair .string (.vector .bool)) = true := rfl

example : Content.written false (.vector (.pair .string .bool)) = false := rfl

namespace PersistEngine

section Containers

variable {Value Key : Type}

/-- The loop of the vector. Its counter has 32 bits, and where it comes to zero again it comes to
the end no more. -/
def writeVector (write : Value → PersistEngine → Except Stop PersistEngine) (ob : List Value) :
    Nat → Nat → PersistEngine → Except Stop PersistEngine
  | 0, _, _ => .error .unfinished
  | turns + 1, i, engine =>
    match ob[i]? with
    | none => .ok engine
    | some element => do
      let engine ← write element engine
      writeVector write ob turns ((i + 1) % 2 ^ 32) engine

/-- The loop of the deque. -/
def writeDeque (write : Value → PersistEngine → Except Stop PersistEngine) :
    List Value → PersistEngine → Except Stop PersistEngine
  | [], engine => .ok engine
  | element :: elements, engine => do
    let engine ← write element engine
    writeDeque write elements engine

/-- The loop of the map. -/
def writeMap (writeKey : Key → PersistEngine → Except Stop PersistEngine)
    (writeValue : Value → PersistEngine → Except Stop PersistEngine) :
    List (Key × Value) → PersistEngine → Except Stop PersistEngine
  | [], engine => .ok engine
  | entry :: entries, engine => do
    let engine ← writeKey entry.1 engine
    let engine ← writeValue entry.2 engine
    writeMap writeKey writeValue entries engine

/-- The loops of the vector and of the deque: so many nodes, one behind the other. -/
def readNodes (read : PersistEngine → Except Stop (Value × PersistEngine)) :
    Nat → PersistEngine → Except Stop (List Value × PersistEngine)
  | 0, engine => .ok ([], engine)
  | siz + 1, engine => do
    let (node, engine) ← read engine
    let (nodes, engine) ← readNodes read siz engine
    return (node :: nodes, engine)

/-- The loop of the map, `ar >> ob[a]`. -/
def readMap [LinearOrder Key] (readKey : PersistEngine → Except Stop (Key × PersistEngine))
    (readValue : PersistEngine → Except Stop (Value × PersistEngine)) :
    Nat → OrderedMap Key Value → PersistEngine →
      Except Stop (OrderedMap Key Value × PersistEngine)
  | 0, ob, engine => .ok (ob, engine)
  | siz + 1, ob, engine => do
    let (a, engine) ← readKey engine
    let (value, engine) ← readValue engine
    readMap readKey readValue siz (ob.set a value) engine

end Containers

/-- `operator <<`. -/
def insert : (content : Content) → content.Value → PersistEngine → Except Stop PersistEngine
  | .string, ob, engine => engine.writeString ob
  | .integer type, ob, engine => engine.writeBinary (type.memory ob)
  | .bool, ob, engine => engine.writeBinary [Bool.toUInt8 ob]
  | .vector content, ob, engine => do
    let engine ← engine.writeNumber (List.length ob % 2 ^ 32)
    writeVector (insert content) ob (2 ^ 32) 0 engine
  | .deque content, ob, engine => do
    let engine ← engine.writeNumber (List.length ob % 2 ^ 32)
    writeDeque (insert content) ob engine
  | .map key value, ob, engine => do
    let engine ← engine.writeNumber (ob.entries.length % 2 ^ 32)
    writeMap (insert key) (insert value) ob.entries engine
  | .pair first second, ob, engine => do
    let engine ← insert first ob.1 engine
    insert second ob.2 engine

/-- `operator >>`: what the object is afterwards, whatever it was before. -/
def extract : (content : Content) → PersistEngine → Except Stop (content.Value × PersistEngine)
  | .string, engine => engine.readString
  | .integer type, engine => do
    let (data, engine) ← engine.readBinary type.size
    return (type.ofMemory data, engine)
  | .bool, engine => do
    let (data, engine) ← engine.readBinary 1
    return (decide (number data ≠ 0), engine)
  | .vector content, engine => do
    let (siz, engine) ← engine.readNumber
    readNodes (extract content) siz engine
  | .deque content, engine => do
    let (siz, engine) ← engine.readNumber
    readNodes (extract content) siz engine
  | .map key value, engine => do
    let (siz, engine) ← engine.readNumber
    readMap (extract key) (extract value) siz OrderedMap.empty engine
  | .pair first second, engine => do
    let (a, engine) ← extract first engine
    let (b, engine) ← extract second engine
    return ((a, b), engine)

end PersistEngine

/-- A value, and its type. -/
abbrev Object := (content : Content) × content.Value

/-- `ar << a << b`, and so on. -/
def insertAll : List Object → PersistEngine → Except Stop PersistEngine
  | [], engine => .ok engine
  | object :: objects, engine => do
    let engine ← insert object.1 object.2 engine
    insertAll objects engine

/-- `ar >> a >> b`, and so on, where the objects have these types. -/
def extractAll : List Content → PersistEngine → Except Stop (List Object × PersistEngine)
  | [], engine => .ok ([], engine)
  | content :: contents, engine => do
    let (ob, engine) ← extract content engine
    let (objects, engine) ← extractAll contents engine
    return (⟨content, ob⟩ :: objects, engine)

/-! ### What comes back -/

/-- The operators take the types, and what is written of the objects, one after the other, is read
as the same objects, and nothing behind it. -/
def Restored (objects : List Object) : Prop :=
  (∀ object ∈ objects, object.1.written false = true ∧ object.1.read = true) ∧
    ∀ writer reader : PersistEngine, writer.mode = .modeWrite → reader.mode = .modeRead →
      ∃ data : List UInt8,
        insertAll objects writer = .ok { writer with stream := writer.stream ++ data } ∧
          ∀ rest : List UInt8,
            extractAll (objects.map Sigma.fst) { reader with stream := data ++ rest } =
              .ok (objects, { reader with stream := rest })

/-- A string that comes back. -/
def PlainString (str : Text) : Prop := 0 ∉ str ∧ str.length < 2 ^ 32 - 1

/-- Nodes that can be counted and come back. -/
def PlainNodes {Node : Type} (PlainNode : Node → Prop) (nodes : List Node) : Prop :=
  nodes.length < 2 ^ 32 ∧ ∀ node ∈ nodes, PlainNode node

/-- No string in the value has a null character or the greatest length, and no container has more
elements than a number of 32 bits can say. -/
def Plain : (content : Content) → content.Value → Prop
  | .string, ob => PlainString ob
  | .integer _, _ => True
  | .bool, _ => True
  | .vector content, ob => PlainNodes (Plain content) ob
  | .deque content, ob => PlainNodes (Plain content) ob
  | .map key value, ob =>
    PlainNodes (fun entry => Plain key entry.1 ∧ Plain value entry.2) ob.entries
  | .pair first second, ob => Plain first ob.1 ∧ Plain second ob.2

/-- The operators take the type, and the value is plain. -/
def Persistable (object : Object) : Prop :=
  object.1.written false = true ∧ object.1.read = true ∧ Plain object.1 object.2

/-! ### Integers -/

theorem length_littleEndian (size i : Nat) : (littleEndian size i).length = size := by
  induction size generalizing i with
  | zero => rfl
  | succ size inductionHypothesis => rw [littleEndian, List.length_cons, inductionHypothesis]

theorem number_littleEndian (size i : Nat) : number (littleEndian size i) = i % 256 ^ size := by
  induction size generalizing i with
  | zero => exact (Nat.mod_one i).symm
  | succ size inductionHypothesis =>
    have lowest : (UInt8.ofNat i).toNat = i % 256 := UInt8.toNat_ofNat'
    rw [littleEndian, number, inductionHypothesis, lowest, Nat.pow_succ', Nat.mod_mul]

theorem length_memory (type : IntType) (i : type.Value) : (type.memory i).length = type.size :=
  length_littleEndian _ _

theorem number_memory (type : IntType) (i : type.Value) :
    (number (type.memory i) : Int) = i.val % 256 ^ type.size := by
  have positive : (0 : Int) < 256 ^ type.size := Int.pow_pos (by decide)
  have least := Int.emod_nonneg i.val positive.ne'
  have most := Int.emod_lt_of_pos i.val positive
  have inside : (i.val % 256 ^ type.size).toNat < 256 ^ type.size := by
    rw [← Int.ofNat_lt, Int.toNat_of_nonneg least]
    exact_mod_cast most
  rw [IntType.memory, number_littleEndian, Nat.mod_eq_of_lt inside, Int.toNat_of_nonneg least]

theorem ofMemory_memory (type : IntType) (i : type.Value) :
    type.ofMemory (type.memory i) = i := by
  refine Subtype.ext ?_
  show type.low + (number (type.memory i) - type.low) % 256 ^ type.size = i.val
  rw [number_memory, Int.emod_sub_emod, Int.emod_eq_of_lt (by omega) (by omega)]
  omega

/-! ### What is written -/

/-- The bytes of a value. -/
def encoded : (content : Content) → content.Value → List UInt8
  | .string, ob => Persist.written ob
  | .integer type, ob => type.memory ob
  | .bool, ob => [Bool.toUInt8 ob]
  | .vector content, ob => bytes (List.length ob) ++ List.flatMap (encoded content) ob
  | .deque content, ob => bytes (List.length ob) ++ List.flatMap (encoded content) ob
  | .map key value, ob =>
    bytes ob.entries.length ++
      ob.entries.flatMap fun entry => encoded key entry.1 ++ encoded value entry.2
  | .pair first second, ob => encoded first ob.1 ++ encoded second ob.2

section Containers

variable {Node Key : Type} {data : Node → List UInt8} {dataKey : Key → List UInt8}

theorem writes_deque {write : Node → PersistEngine → Except Stop PersistEngine} {ob : List Node}
    (writes : ∀ node ∈ ob, Writes (write node) (data node)) :
    Writes (writeDeque write ob) (ob.flatMap data) := by
  induction ob with
  | nil => exact Writes.nothing
  | cons node ob inductionHypothesis =>
    rw [List.flatMap_cons]
    exact (writes node List.mem_cons_self).next
      (inductionHypothesis fun later listed => writes later (List.mem_cons_of_mem _ listed))

/-- A vector that can be counted is written from its index as the deque of the elements there. -/
theorem writeVector_eq (write : Node → PersistEngine → Except Stop PersistEngine)
    {ob : List Node} (counted : ob.length < 2 ^ 32) {turns i : Nat} (within : i ≤ ob.length)
    (enough : ob.length < i + turns) (engine : PersistEngine) :
    writeVector write ob turns i engine = writeDeque write (ob.drop i) engine := by
  induction turns generalizing i engine with
  | zero => omega
  | succ turns inductionHypothesis =>
    rw [writeVector]
    rcases Nat.lt_or_ge i ob.length with inside | behind
    · rw [List.getElem?_eq_getElem inside, List.drop_eq_getElem_cons inside, writeDeque,
        Nat.mod_eq_of_lt (by omega)]
      refine congrArg (write ob[i] engine >>= ·) (funext fun next => ?_)
      exact inductionHypothesis (by omega) (by omega) next
    · rw [List.getElem?_eq_none behind, List.drop_eq_nil_of_le behind, writeDeque]

theorem writes_vector {write : Node → PersistEngine → Except Stop PersistEngine} {ob : List Node}
    (counted : ob.length < 2 ^ 32) (writes : ∀ node ∈ ob, Writes (write node) (data node)) :
    Writes (writeVector write ob (2 ^ 32) 0) (ob.flatMap data) := by
  have same : writeVector write ob (2 ^ 32) 0 = writeDeque write ob :=
    funext fun engine => writeVector_eq write counted (Nat.zero_le _) (by omega) engine
  exact same ▸ writes_deque writes

theorem writes_map {writeKey : Key → PersistEngine → Except Stop PersistEngine}
    {writeValue : Node → PersistEngine → Except Stop PersistEngine} {entries : List (Key × Node)}
    (writes : ∀ entry ∈ entries, Writes (writeKey entry.1) (dataKey entry.1) ∧
      Writes (writeValue entry.2) (data entry.2)) :
    Writes (writeMap writeKey writeValue entries)
      (entries.flatMap fun entry => dataKey entry.1 ++ data entry.2) := by
  induction entries with
  | nil => exact Writes.nothing
  | cons entry entries inductionHypothesis =>
    obtain ⟨key, value⟩ := writes entry List.mem_cons_self
    rw [List.flatMap_cons, List.append_assoc]
    exact key.next (value.next
      (inductionHypothesis fun later listed => writes later (List.mem_cons_of_mem _ listed)))

theorem reads_nodes {read : PersistEngine → Except Stop (Node × PersistEngine)} {ob : List Node}
    (reads : ∀ node ∈ ob, Reads read (data node) node) :
    Reads (readNodes read ob.length) (ob.flatMap data) ob := by
  induction ob with
  | nil => exact Reads.done []
  | cons node ob inductionHypothesis =>
    have later := inductionHypothesis fun node listed => reads node (List.mem_cons_of_mem _ listed)
    exact (reads node List.mem_cons_self).next (later.map (node :: ·))

/-- The map that has been read so far has the entries that come before. -/
theorem reads_entries [LinearOrder Key]
    {readKey : PersistEngine → Except Stop (Key × PersistEngine)}
    {readValue : PersistEngine → Except Stop (Node × PersistEngine)} {ob : OrderedMap Key Node}
    (reads : ∀ entry ∈ ob.entries, Reads readKey (dataKey entry.1) entry.1 ∧
      Reads readValue (data entry.2) entry.2)
    {entries later : List (Key × Node)} (whole : ob.entries = entries ++ later)
    {before : OrderedMap Key Node} (parts : before.entries = entries) :
    Reads (readMap readKey readValue later.length before)
      (later.flatMap fun entry => dataKey entry.1 ++ data entry.2) ob := by
  induction later generalizing entries before with
  | nil =>
    rw [List.append_nil] at whole
    rw [show ob = before from OrderedMap.ext (whole.trans parts.symm)]
    exact Reads.done before
  | cons entry later inductionHypothesis =>
    have listed : entry ∈ ob.entries := whole ▸ List.mem_append_right _ List.mem_cons_self
    obtain ⟨key, value⟩ := reads entry listed
    rw [List.flatMap_cons, List.append_assoc]
    refine key.next (value.next (inductionHypothesis ?_ (OrderedMap.set_next parts whole)))
    rw [whole, List.append_assoc, List.singleton_append]

end Containers

theorem writes_size {size : Nat} (counted : size < 2 ^ 32) :
    Writes (fun engine => engine.writeNumber (size % 2 ^ 32)) (bytes size) :=
  (Nat.mod_eq_of_lt counted).symm ▸ writes_number size

/-- A plain value is written as its bytes. -/
theorem insert_encoded {content : Content} {ob : content.Value} (plain : Plain content ob) :
    Writes (insert content ob) (encoded content ob) := by
  induction content with
  | string =>
    obtain ⟨_, short⟩ := plain
    exact writes_string (by omega)
  | integer type => exact writes_binary _
  | bool => exact writes_binary _
  | vector content inductionHypothesis =>
    obtain ⟨counted, nodes⟩ := plain
    exact (writes_size counted).next
      (writes_vector counted fun node listed => inductionHypothesis (nodes node listed))
  | deque content inductionHypothesis =>
    obtain ⟨counted, nodes⟩ := plain
    exact (writes_size counted).next
      (writes_deque fun node listed => inductionHypothesis (nodes node listed))
  | map key value keyHypothesis valueHypothesis =>
    obtain ⟨counted, nodes⟩ := plain
    exact (writes_size counted).next (writes_map fun entry listed =>
      ⟨keyHypothesis (nodes entry listed).1, valueHypothesis (nodes entry listed).2⟩)
  | pair first second firstHypothesis secondHypothesis =>
    exact (firstHypothesis plain.1).next (secondHypothesis plain.2)

theorem reads_integer (type : IntType) (i : type.Value) :
    Reads (extract (.integer type)) (type.memory i) i := by
  have reads := (reads_binary (type.memory i)).map type.ofMemory
  rwa [ofMemory_memory, length_memory] at reads

theorem reads_bool (i : Bool) : Reads (extract .bool) [i.toUInt8] i := by
  have reads := (reads_binary [i.toUInt8]).map fun data => decide (number data ≠ 0)
  cases i with
  | false => exact reads
  | true => exact reads

/-- The bytes of a plain value are read as the value. -/
theorem extract_encoded {content : Content} {ob : content.Value} (plain : Plain content ob) :
    Reads (extract content) (encoded content ob) ob := by
  induction content with
  | string => exact reads_string plain.2 plain.1
  | integer type => exact reads_integer type ob
  | bool => exact reads_bool ob
  | vector content inductionHypothesis =>
    obtain ⟨counted, nodes⟩ := plain
    exact (reads_number counted).next
      (reads_nodes fun node listed => inductionHypothesis (nodes node listed))
  | deque content inductionHypothesis =>
    obtain ⟨counted, nodes⟩ := plain
    exact (reads_number counted).next
      (reads_nodes fun node listed => inductionHypothesis (nodes node listed))
  | map key value keyHypothesis valueHypothesis =>
    obtain ⟨counted, nodes⟩ := plain
    have reads := fun entry listed => And.intro (keyHypothesis (nodes entry listed).1)
      (valueHypothesis (nodes entry listed).2)
    exact (reads_number counted).next
      (reads_entries reads (List.nil_append ob.entries).symm rfl)
  | pair first second firstHypothesis secondHypothesis =>
    have later := (secondHypothesis plain.2).map (Prod.mk ob.1)
    exact (firstHypothesis plain.1).next later

/-! ### What is read -/

/-- Whatever the step reads has the property. -/
def Yields {Result : Type} (step : PersistEngine → Except Stop (Result × PersistEngine))
    (property : Result → Prop) : Prop :=
  ∀ (engine engine' : PersistEngine) (value : Result),
    step engine = .ok (value, engine') → property value

theorem ok_of_bind {α β : Type} {first : Except Stop α} {next : α → Except Stop β} {result : β}
    (done : first >>= next = .ok result) : ∃ got, first = .ok got ∧ next got = .ok result := by
  cases first with
  | error stop => exact absurd done nofun
  | ok got => exact ⟨got, rfl, done⟩

theorem Yields.next {First Second : Type}
    {step : PersistEngine → Except Stop (First × PersistEngine)}
    {step' : First × PersistEngine → Except Stop (Second × PersistEngine)}
    {property : First → Prop} {property' : Second → Prop} (first : Yields step property)
    (second : ∀ value, property value → Yields (fun engine => step' (value, engine)) property') :
    Yields (fun engine => step engine >>= step') property' := by
  intro engine engine' value' done
  obtain ⟨⟨value, between⟩, got, rest⟩ := ok_of_bind done
  exact second value (first _ _ _ got) _ _ _ rest

theorem Yields.done {Result : Type} {property : Result → Prop} {value : Result}
    (holds : property value) : Yields (fun engine => Except.ok (value, engine)) property := by
  intro engine engine' value' same
  cases same
  exact holds

theorem yields_binary (size : Nat) :
    Yields (fun engine => engine.readBinary size) fun data => data.length = size := by
  intro engine engine' data done
  have read : engine.readBinary size = .ok (data, engine') := done
  rw [readBinary] at read
  split_ifs at read with mode short
  cases read
  exact List.length_take_of_le (not_lt.mp short)

theorem number_lt (data : List UInt8) : number data < 256 ^ data.length := by
  induction data with
  | nil => exact Nat.one_pos
  | cons byte data inductionHypothesis =>
    have small := byte.toNat_lt
    rw [number, List.length_cons, Nat.pow_succ]
    omega

theorem yields_number : Yields (fun engine => engine.readNumber) (· < 2 ^ 32) := by
  refine (yields_binary 4).next fun data length => Yields.done ?_
  have small := number_lt data
  rwa [length] at small

theorem yields_string : Yields (fun engine => engine.readString) PlainString := by
  refine yields_number.next fun len small => ?_
  intro engine engine' str done
  rcases Nat.lt_or_ge len ((len + 1) % 2 ^ 32) with room | none
  · simp only [room.not_ge, ↓reduceIte] at done
    have cut : Yields (fun engine => engine.readBinary len >>= fun got =>
        Except.ok (Bytes.string got.1, got.2)) PlainString := by
      refine (yields_binary len).next fun buffer length =>
        @Yields.done _ PlainString (Bytes.string buffer) ?_
      have inside : (Bytes.string buffer).length ≤ buffer.length :=
        (List.takeWhile_sublist _).length_le
      exact ⟨Bytes.zero_notMem_string buffer, by omega⟩
    exact cut engine engine' str done
  · simp only [none, ↓reduceIte] at done
    exact absurd done nofun

section Containers

variable {Node Key : Type} {PlainNode : Node → Prop} {PlainKey : Key → Prop}

theorem yields_nodes {read : PersistEngine → Except Stop (Node × PersistEngine)}
    (reads : Yields read PlainNode) (siz : Nat) :
    Yields (readNodes read siz) fun nodes =>
      nodes.length = siz ∧ ∀ node ∈ nodes, PlainNode node := by
  induction siz with
  | zero => exact Yields.done ⟨rfl, List.forall_mem_nil _⟩
  | succ siz inductionHypothesis =>
    refine reads.next fun node plain => inductionHypothesis.next fun nodes later => Yields.done ?_
    exact ⟨congrArg (· + 1) later.1, List.forall_mem_cons.mpr ⟨plain, later.2⟩⟩

theorem yields_entries [LinearOrder Key]
    {readKey : PersistEngine → Except Stop (Key × PersistEngine)}
    {readValue : PersistEngine → Except Stop (Node × PersistEngine)}
    (keys : Yields readKey PlainKey) (values : Yields readValue PlainNode) (siz : Nat)
    {before : OrderedMap Key Node}
    (plain : ∀ entry ∈ before.entries, PlainKey entry.1 ∧ PlainNode entry.2) :
    Yields (readMap readKey readValue siz before) fun ob =>
      ob.entries.length ≤ before.entries.length + siz ∧
        ∀ entry ∈ ob.entries, PlainKey entry.1 ∧ PlainNode entry.2 := by
  induction siz generalizing before with
  | zero => exact Yields.done ⟨le_refl _, plain⟩
  | succ siz inductionHypothesis =>
    refine keys.next fun key plainKey => values.next fun value plainValue => ?_
    have grown : ∀ entry ∈ (before.set key value).entries,
        PlainKey entry.1 ∧ PlainNode entry.2 := by
      intro entry listed
      rcases OrderedMap.mem_set listed with rfl | old
      · exact ⟨plainKey, plainValue⟩
      · exact plain entry old
    have length := OrderedMap.length_set_le before key value
    intro engine engine' ob done
    obtain ⟨fewer, all⟩ := inductionHypothesis grown engine engine' ob done
    exact ⟨by omega, all⟩

end Containers

/-- Only plain values are read. -/
theorem extract_plain (content : Content) : Yields (extract content) (Plain content) := by
  induction content with
  | string => exact yields_string
  | integer type => exact (yields_binary _).next fun data _ => Yields.done trivial
  | bool => exact (yields_binary _).next fun data _ => Yields.done trivial
  | vector content inductionHypothesis =>
    refine yields_number.next fun siz small engine engine' ob done => ?_
    obtain ⟨rfl, plain⟩ := yields_nodes inductionHypothesis siz engine engine' ob done
    exact ⟨small, plain⟩
  | deque content inductionHypothesis =>
    refine yields_number.next fun siz small engine engine' ob done => ?_
    obtain ⟨rfl, plain⟩ := yields_nodes inductionHypothesis siz engine engine' ob done
    exact ⟨small, plain⟩
  | map key value keyHypothesis valueHypothesis =>
    refine yields_number.next fun siz small engine engine' ob done => ?_
    obtain ⟨fewer, plain⟩ := yields_entries keyHypothesis valueHypothesis siz
      (List.forall_mem_nil _) engine engine' ob done
    exact ⟨lt_of_le_of_lt fewer ((Nat.zero_add siz).symm ▸ small), plain⟩
  | pair first second firstHypothesis secondHypothesis =>
    exact firstHypothesis.next fun a plain => secondHypothesis.next fun b plain' =>
      Yields.done ⟨plain, plain'⟩

/-! ### One value after another -/

theorem insertAll_encoded {objects : List Object}
    (plain : ∀ object ∈ objects, Plain object.1 object.2) :
    Writes (insertAll objects) (objects.flatMap fun object => encoded object.1 object.2) := by
  induction objects with
  | nil => exact Writes.nothing
  | cons object objects inductionHypothesis =>
    obtain ⟨first, later⟩ := List.forall_mem_cons.mp plain
    exact (insert_encoded first).next (inductionHypothesis later)

theorem extractAll_encoded {objects : List Object}
    (plain : ∀ object ∈ objects, Plain object.1 object.2) :
    Reads (extractAll (objects.map Sigma.fst))
      (objects.flatMap fun object => encoded object.1 object.2) objects := by
  induction objects with
  | nil => exact Reads.done []
  | cons object objects inductionHypothesis =>
    obtain ⟨first, later⟩ := List.forall_mem_cons.mp plain
    exact (extract_encoded first).next ((inductionHypothesis later).map (object :: ·))

theorem extractAll_plain (contents : List Content) :
    Yields (extractAll contents) fun objects => ∀ object ∈ objects, Plain object.1 object.2 := by
  induction contents with
  | nil => exact Yields.done (List.forall_mem_nil _)
  | cons content contents inductionHypothesis =>
    exact (extract_plain content).next fun ob plain => inductionHypothesis.next fun objects later =>
      Yields.done (List.forall_mem_cons.mpr ⟨plain, later⟩)

theorem plain_of_restored {objects : List Object} (restored : Restored objects) :
    ∀ object ∈ objects, Plain object.1 object.2 := by
  obtain ⟨data, _, read⟩ := restored.2 (opened [] .modeWrite) (opened [] .modeRead) rfl rfl
  exact extractAll_plain _ _ _ _ (read [])

/-- Values that are written one after the other come back exactly where the operators take their
types and each of them is plain. -/
theorem values_restored_iff (objects : List Object) :
    Restored objects ↔ ∀ object ∈ objects, Persistable object := by
  constructor
  · intro restored object listed
    obtain ⟨written, read⟩ := restored.1 object listed
    exact ⟨written, read, plain_of_restored restored object listed⟩
  · intro persistable
    have plain : ∀ object ∈ objects, Plain object.1 object.2 :=
      fun object listed => (persistable object listed).2.2
    refine ⟨fun object listed => ?_, fun writer reader writing reading => ?_⟩
    · obtain ⟨written, read, _⟩ := persistable object listed
      exact ⟨written, read⟩
    · exact ⟨_, insertAll_encoded plain writer writing, fun rest =>
        extractAll_encoded plain _ rest reading rfl⟩

/-- The string `"a\0b"` comes back as another one. -/
theorem string_cut_at_null : ¬ Restored [⟨.string, [0x61, 0, 0x62]⟩] := by
  intro restored
  have plain : PlainString [0x61, 0, 0x62] := plain_of_restored restored _ List.mem_cons_self
  exact absurd plain.1 (by decide)

end Persist

end CommonCpp
