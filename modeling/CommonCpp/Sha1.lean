/-
This file models the SHA-1 digest of `nossl/sha1.cpp` and shows that it is that of the whole
message, however the message is cut into the parts that are given to `SHA1Update`.

The digest itself is stated as the standard does: eighty words follow from the sixteen of a block,
and each round moves the five registers on. The code keeps sixteen words only, each of them
replaced when it was used for the last time, and lets the names of the registers go round. It
pads a message by a byte at a time.
-/

import CommonCpp.Blocks
import CommonCpp.Rounds
import CommonCpp.Words

namespace CommonCpp.Sha1

open Blocks Rounds Words

abbrev Word := BitVec 32

local instance sixteen_neZero : NeZero 16 := ⟨by decide⟩

/-- The bytes of a block. -/
abbrev SHA1_BLOCK_LENGTH : ℕ := 64

def SHA1_DIGEST_LENGTH : ℕ := 20

/-! ### The code -/

/-- The state, the count of bits, and the block. -/
structure SHA1_CTX where
  state : Vector Word 5
  count : BitVec 64
  buffer : Vector UInt8 SHA1_BLOCK_LENGTH

/-- Rotates to the left. -/
def rol (value : Word) (bits : ℕ) : Word := value <<< bits ||| value >>> (32 - bits)

/-- What a block is turned into in its own place. -/
abbrev CHAR64LONG16 := Vector Word 16

theorem isLt (i : Fin 16) : i.val < 16 := i.isLt

/-- `blk0(i)` on a machine that has the lowest byte of a word first. -/
def blk0 (block : CHAR64LONG16) (i : Fin 16) : CHAR64LONG16 :=
  block.set i (rol (block.get i) 24 &&& 0xFF00FF00 ||| rol (block.get i) 8 &&& 0x00FF00FF)
    (isLt i)

/-- `blk(i)`. The indices go round as those with `& 15` do. -/
def blk (block : CHAR64LONG16) (i : Fin 16) : CHAR64LONG16 :=
  block.set i (rol (block.get (i + 13) ^^^ block.get (i + 8) ^^^ block.get (i + 2) ^^^ block.get i)
    1) (isLt i)

/-- The macros of the rounds. -/
inductive Operation
  | R0 | R1 | R2 | R3 | R4
  deriving DecidableEq

/-- The word of the block that the operation takes is made in the block first. -/
def Operation.block : Operation → CHAR64LONG16 → Fin 16 → CHAR64LONG16
  | .R0 => blk0
  | _ => blk

/-- How the macro combines three registers. -/
def Operation.select : Operation → Word → Word → Word → Word
  | .R0, w, x, y => (w &&& (x ^^^ y)) ^^^ y
  | .R1, w, x, y => (w &&& (x ^^^ y)) ^^^ y
  | .R2, w, x, y => w ^^^ x ^^^ y
  | .R3, w, x, y => ((w ||| x) &&& y) ||| (w &&& x)
  | .R4, w, x, y => w ^^^ x ^^^ y

/-- What the macro adds. -/
def Operation.constant : Operation → Word
  | .R0 => 0x5A827999
  | .R1 => 0x5A827999
  | .R2 => 0x6ED9EBA1
  | .R3 => 0x8F1BBCDC
  | .R4 => 0xCA62C1D6

/-- An operation on the registers with the names `v`, `w`, `x`, `y` and `z`, and on the block. -/
def Operation.run (operation : Operation) (i : ℕ) (v : Vector Word 5) (block : CHAR64LONG16) :
    Vector Word 5 × CHAR64LONG16 :=
  let block := operation.block block (Fin.ofNat 16 i)
  let z := named v i 4 + (operation.select (named v i 1) (named v i 2) (named v i 3) +
    block.get (Fin.ofNat 16 i) + operation.constant + rol (named v i 0) 5)
  let v := setNamed v i 4 z
  (setNamed v i 1 (rol (named v i 1) 30), block)

/-- The operations as they are written out. -/
def operations : List Operation :=
  List.replicate 16 .R0 ++ List.replicate 4 .R1 ++ List.replicate 20 .R2 ++
    List.replicate 20 .R3 ++ List.replicate 20 .R4

/-- The operations from the `i`th on. -/
def runOperations : ℕ → List Operation → Vector Word 5 × CHAR64LONG16 →
    Vector Word 5 × CHAR64LONG16
  | _, [], state => state
  | i, operation :: operations, (v, block) =>
    runOperations (i + 1) operations (operation.run i v block)

/-- A block is taken into the state. -/
def SHA1Transform (state : Vector Word 5) (buffer : List UInt8) : Vector Word 5 :=
  let block : CHAR64LONG16 := Vector.ofFn fun i => little (slice 4 buffer i)
  let (v, _) := runOperations 0 operations (state, block)
  state.zipWith (· + ·) v

/-- The context is started. -/
def SHA1Init (context : SHA1_CTX) : SHA1_CTX :=
  { context with
    count := 0
    state := #v[0x67452301, 0xEFCDAB89, 0x98BADCFE, 0x10325476, 0xC3D2E1F0] }

/-- `for ( ; i + 63 < len; i += 64)`, which takes at most as many turns as there are bytes. -/
def updateLoop (data : List UInt8) : ℕ → ℕ → Vector Word 5 → ℕ × Vector Word 5
  | 0, i, state => (i, state)
  | turns + 1, i, state =>
    if i + 63 < data.length then
      updateLoop data turns (i + 64)
        (SHA1Transform state ((data.drop i).take SHA1_BLOCK_LENGTH))
    else (i, state)

/-- A part of a message is taken. -/
def SHA1Update (context : SHA1_CTX) (data : List UInt8) : SHA1_CTX :=
  let len := data.length
  let j := ((context.count >>> 3) &&& 63).toNat
  let count := context.count + BitVec.ofNat 64 len <<< 3
  if j + len > 63 then
    let i := 64 - j
    let buffer := memcpy context.buffer j (data.take i)
    let state := SHA1Transform context.state buffer.toList
    let (i, state) := updateLoop data len i state
    ⟨state, count, memcpy buffer 0 (data.drop i)⟩
  else
    ⟨context.state, count, memcpy context.buffer j data⟩

/-- `while ((context->count & 504) != 448)`, which takes less than a block. -/
def padLoop : ℕ → SHA1_CTX → SHA1_CTX
  | 0, context => context
  | turns + 1, context =>
    if context.count &&& 504 ≠ 448 then padLoop turns (SHA1Update context [0]) else context

/-- Fills up the last block. -/
def SHA1Pad (context : SHA1_CTX) : SHA1_CTX :=
  let finalcount := bigBytes 8 context.count
  let context := padLoop SHA1_BLOCK_LENGTH (SHA1Update context [0o200])
  SHA1Update context finalcount

/-- The digest that is left behind; the context is cleared. -/
def SHA1Final (context : SHA1_CTX) : List UInt8 :=
  let state := (SHA1Pad context).state
  (List.range SHA1_DIGEST_LENGTH).map fun i =>
    byteAt (state.toList.getD (i / 4) 0) (3 - i % 4)

/-! ### The digest of the standard -/

/-- The five registers in the order of their names. -/
structure Registers where
  a : Word
  b : Word
  c : Word
  d : Word
  e : Word

/-- The words that follow from a block. -/
def schedule (block : List UInt8) (t : ℕ) : Word :=
  if t < 16 then big (slice 4 block t)
  else
    (schedule block (t - 3) ^^^ schedule block (t - 8) ^^^ schedule block (t - 14) ^^^
      schedule block (t - 16)).rotateLeft 1
termination_by t

/-- The function of a round. -/
def function (t : ℕ) (x y z : Word) : Word :=
  match t / 20 with
  | 0 => (x &&& y) ^^^ (~~~x &&& z)
  | 1 => x ^^^ y ^^^ z
  | 2 => (x &&& y) ^^^ (x &&& z) ^^^ (y &&& z)
  | _ => x ^^^ y ^^^ z

def constantOf (t : ℕ) : Word :=
  match t / 20 with
  | 0 => 0x5a827999
  | 1 => 0x6ed9eba1
  | 2 => 0x8f1bbcdc
  | _ => 0xca62c1d6

/-- A round. -/
def round (block : List UInt8) (registers : Registers) (t : ℕ) : Registers where
  a := registers.a.rotateLeft 5 + function t registers.b registers.c registers.d + registers.e +
    constantOf t + schedule block t
  b := registers.a
  c := registers.b.rotateLeft 30
  d := registers.c
  e := registers.d

/-- A block is taken into the state. -/
def compress (state : Vector Word 5) (block : List UInt8) : Vector Word 5 :=
  let registers := (List.range 80).foldl (round block)
    ⟨state[0], state[1], state[2], state[3], state[4]⟩
  #v[state[0] + registers.a, state[1] + registers.b, state[2] + registers.c,
    state[3] + registers.d, state[4] + registers.e]

/-- A one, zeros up to the last eight bytes of a block, and the number of bits. -/
def padding (length : ℕ) : List UInt8 :=
  0x80 :: List.replicate ((119 - length % 64) % 64) 0 ++
    bigBytes 8 (BitVec.ofNat 64 (8 * length))

def initial : Vector Word 5 :=
  #v[0x67452301, 0xefcdab89, 0x98badcfe, 0x10325476, 0xc3d2e1f0]

/-- The digest of a message. -/
def sha1 (message : List UInt8) : List UInt8 :=
  (absorb compress 64 initial (message ++ padding message.length)).toList.flatMap (bigBytes 4)

/-! ### One block -/

theorem rol_eq {bits : ℕ} (small : bits < 32) (value : Word) :
    rol value bits = value.rotateLeft bits := by
  rw [rol, BitVec.rotateLeft_def, Nat.mod_eq_of_lt small]

theorem choose_eq (w x y : Word) : (w &&& (x ^^^ y)) ^^^ y = (w &&& x) ^^^ (~~~w &&& y) := by
  refine BitVec.eq_of_getLsbD_eq fun i inside => ?_
  simp only [BitVec.getLsbD_xor, BitVec.getLsbD_and, BitVec.getLsbD_not, inside]
  cases w.getLsbD i <;> cases x.getLsbD i <;> cases y.getLsbD i <;> rfl

theorem majority_eq (w x y : Word) :
    ((w ||| x) &&& y) ||| (w &&& x) = (w &&& x) ^^^ (w &&& y) ^^^ (x &&& y) := by
  refine BitVec.eq_of_getLsbD_eq fun i inside => ?_
  simp only [BitVec.getLsbD_xor, BitVec.getLsbD_and, BitVec.getLsbD_or]
  cases w.getLsbD i <;> cases x.getLsbD i <;> cases y.getLsbD i <;> rfl

def operationOf (t : ℕ) : Operation :=
  if t < 16 then .R0
  else if t < 20 then .R1
  else if t < 40 then .R2
  else if t < 60 then .R3
  else .R4

theorem operations_eq : operations = (List.range' 0 80).map operationOf := by decide

theorem select_operationOf {t : ℕ} (inside : t < 80) (w x y : Word) :
    (operationOf t).select w x y = function t w x y := by
  have quarters : t / 20 = 0 ∧ t < 20 ∨ t / 20 = 1 ∧ 20 ≤ t ∧ t < 40 ∨
      t / 20 = 2 ∧ 40 ≤ t ∧ t < 60 ∨ t / 20 = 3 ∧ 60 ≤ t := by omega
  rcases quarters with ⟨quarter, within⟩ | ⟨quarter, low, high⟩ | ⟨quarter, low, high⟩ |
    ⟨quarter, low⟩
  · rw [operationOf, function, quarter, if_pos within]
    split
    · exact choose_eq w x y
    · exact choose_eq w x y
  · rw [operationOf, function, quarter, if_neg (by omega), if_neg (by omega), if_pos high]
    rfl
  · rw [operationOf, function, quarter, if_neg (by omega), if_neg (by omega), if_neg (by omega),
      if_pos high]
    exact majority_eq w x y
  · rw [operationOf, function, quarter, if_neg (by omega), if_neg (by omega), if_neg (by omega),
      if_neg (by omega)]
    rfl

theorem constant_operationOf {t : ℕ} (inside : t < 80) :
    (operationOf t).constant = constantOf t := by
  have all : ∀ t < 80, (operationOf t).constant = constantOf t := by decide
  exact all t inside

/-- Before a round the block has the last sixteen words, or the words of the message that are
still to come. -/
structure InBlock (buffer : List UInt8) (block : CHAR64LONG16) (t : ℕ) : Prop where
  holds : Holds block (schedule buffer) t
  ahead : ∀ i : Fin 16, t ≤ i → block.get i = little (slice 4 buffer i)

theorem schedule_of_lt (buffer : List UInt8) {t : ℕ} (first : t < 16) :
    schedule buffer t = big (slice 4 buffer t) := by
  rw [schedule, if_pos first]

theorem schedule_of_le (buffer : List UInt8) {t : ℕ} (later : 16 ≤ t) :
    schedule buffer t =
      (schedule buffer (t - 3) ^^^ schedule buffer (t - 8) ^^^ schedule buffer (t - 14) ^^^
        schedule buffer (t - 16)).rotateLeft 1 := by
  rw [schedule, if_neg (by omega)]

theorem blk0_eq {buffer : List UInt8} {block : CHAR64LONG16} {t : ℕ} (first : t < 16)
    (whole : 64 ≤ buffer.length) (inBlock : InBlock buffer block t) :
    blk0 block (Fin.ofNat 16 t) =
      block.set (Fin.ofNat 16 t) (schedule buffer t) (Fin.ofNat 16 t).isLt := by
  have place : (Fin.ofNat 16 t).val = t := Nat.mod_eq_of_lt first
  have long : (slice 4 buffer t).length = 4 := length_slice (by omega)
  have bytes : littleBytes (slice 4 buffer t).length (little (slice 4 buffer t) : Word) =
      slice 4 buffer t := littleBytes_little (by rw [long])
  have word : block.get (Fin.ofNat 16 t) = little (slice 4 buffer t) := by
    rw [inBlock.ahead _ (Nat.le_of_eq place.symm), place]
  rw [long] at bytes
  rw [blk0, word, rol_eq (by decide), rol_eq (by decide), rotateLeft_or_rotateLeft, bytes,
    schedule_of_lt buffer first]

theorem blk_eq {buffer : List UInt8} {block : CHAR64LONG16} {t : ℕ} (later : 16 ≤ t)
    (inBlock : InBlock buffer block t) :
    blk block (Fin.ofNat 16 t) =
      block.set (Fin.ofNat 16 t) (schedule buffer t) (Fin.ofNat 16 t).isLt := by
  have third := inBlock.holds.ahead (show 13 < 16 by decide) later
  have eighth := inBlock.holds.ahead (show 8 < 16 by decide) later
  have fourteenth := inBlock.holds.ahead (show 2 < 16 by decide) later
  rw [show t + 13 - 16 = t - 3 by omega] at third
  rw [show t + 8 - 16 = t - 8 by omega] at eighth
  rw [show t + 2 - 16 = t - 14 by omega] at fourteenth
  rw [schedule_of_le buffer later, ← third, ← eighth, ← fourteenth, ← inBlock.holds.oldest later,
    blk, rol_eq (by decide)]
  rfl

theorem block_operationOf {buffer : List UInt8} {block : CHAR64LONG16} {t : ℕ}
    (whole : 64 ≤ buffer.length) (inBlock : InBlock buffer block t) :
    (operationOf t).block block (Fin.ofNat 16 t) =
      block.set (Fin.ofNat 16 t) (schedule buffer t) (Fin.ofNat 16 t).isLt := by
  by_cases first : t < 16
  · rw [operationOf, if_pos first]
    exact blk0_eq first whole inBlock
  · have later : (operationOf t).block = blk := by
      rw [operationOf, if_neg first]
      split
      · rfl
      · split
        · rfl
        · split <;> rfl
    rw [later]
    exact blk_eq (Nat.le_of_not_lt first) inBlock

/-- One round makes the next word and leaves the words that are still to come. -/
theorem InBlock.next {buffer : List UInt8} {block : CHAR64LONG16} {t : ℕ}
    (inBlock : InBlock buffer block t) :
    InBlock buffer
      (block.set (Fin.ofNat 16 t) (schedule buffer t) (Fin.ofNat 16 t).isLt) (t + 1) := by
  refine ⟨holds_set inBlock.holds, fun i later => ?_⟩
  have apart : Fin.ofNat 16 t ≠ i := by
    intro equal
    have same : t % 16 = i := congrArg Fin.val equal
    rw [Nat.mod_eq_of_lt (by omega)] at same
    omega
  refine Eq.trans ?_ (inBlock.ahead i (by omega))
  exact (getElem_set block (Fin.ofNat 16 t) i _).trans (if_neg apart)

/-- The registers by their names in a round. -/
def view (registers : Vector Word 5) (i : ℕ) : Registers :=
  ⟨named registers i 0, named registers i 1, named registers i 2, named registers i 3,
    named registers i 4⟩

theorem view_succ (registers : Vector Word 5) (i : ℕ) (first second : Word) :
    view (setNamed (setNamed registers i 4 first) i 1 second) (i + 1) =
      ⟨first, named registers i 0, second, named registers i 2, named registers i 3⟩ := by
  simp only [view, named_succ, named_setNamed]
  rfl

theorem run_operationOf {buffer : List UInt8} {block : CHAR64LONG16} {t : ℕ} (inside : t < 80)
    (whole : 64 ≤ buffer.length) (inBlock : InBlock buffer block t) (registers : Vector Word 5) :
    view ((operationOf t).run t registers block).1 (t + 1) =
        round buffer (view registers t) t ∧
      InBlock buffer ((operationOf t).run t registers block).2 (t + 1) := by
  have made : (block.set (Fin.ofNat 16 t) (schedule buffer t) (Fin.ofNat 16 t).isLt).get
      (Fin.ofNat 16 t) = schedule buffer t :=
    (getElem_set block (Fin.ofNat 16 t) (Fin.ofNat 16 t) _).trans (if_pos rfl)
  unfold Operation.run
  simp only [block_operationOf whole inBlock, made]
  refine ⟨?_, inBlock.next⟩
  rw [view_succ, select_operationOf inside, constant_operationOf inside, rol_eq (by decide),
    rol_eq (by decide), named_setNamed, if_neg (by decide)]
  simp only [round, view, Registers.mk.injEq, and_true]
  ac_rfl

theorem view_runOperations {buffer : List UInt8} (whole : 64 ≤ buffer.length) (count i : ℕ)
    (inside : i + count ≤ 80) {block : CHAR64LONG16} (inBlock : InBlock buffer block i)
    (registers : Vector Word 5) :
    view (runOperations i ((List.range' i count).map operationOf) (registers, block)).1
        (i + count) =
      (List.range' i count).foldl (round buffer) (view registers i) := by
  induction count generalizing i registers block with
  | zero => rfl
  | succ count inductionHypothesis =>
    obtain ⟨registersNext, blockNext⟩ := run_operationOf (by omega) whole inBlock registers
    rw [List.range'_succ, List.map_cons, runOperations, List.foldl_cons, Nat.add_comm count,
      ← Nat.add_assoc, inductionHypothesis _ (by omega) blockNext, registersNext]

theorem inBlock_zero (buffer : List UInt8) :
    InBlock buffer (Vector.ofFn fun i => little (slice 4 buffer i)) 0 where
  holds := fun _ before => absurd before (Nat.not_lt_zero _)
  ahead := fun i _ => Vector.getElem_ofFn i.isLt

/-- A block goes through the operations as through the rounds. -/
theorem SHA1Transform_eq (state : Vector Word 5) {buffer : List UInt8}
    (whole : 64 ≤ buffer.length) : SHA1Transform state buffer = compress state buffer := by
  have run := view_runOperations whole 80 0 (by decide) (inBlock_zero buffer) state
  rw [← operations_eq, ← List.range_eq_range'] at run
  have turned : 5 ∣ 0 + 80 := by decide
  simp only [view, named_of_dvd _ turned, named_zero] at run
  rw [compress, SHA1Transform]
  generalize runOperations 0 operations _ = after at run ⊢
  refine Vector.ext fun i inside => ?_
  rw [Vector.getElem_zipWith]
  match i with
  | 0 => exact congrArg (state[0] + Registers.a ·) run
  | 1 => exact congrArg (state[1] + Registers.b ·) run
  | 2 => exact congrArg (state[2] + Registers.c ·) run
  | 3 => exact congrArg (state[3] + Registers.d ·) run
  | 4 => exact congrArg (state[4] + Registers.e ·) run

/-! ### Messages in parts -/

/-- The context stands for a message. -/
structure Holds (context : SHA1_CTX) (message : List UInt8) : Prop where
  kept : Kept SHA1Transform 64 initial message context.state context.buffer.toList
  count_eq : context.count = BitVec.ofNat 64 (8 * message.length)

theorem SHA1Init_holds (context : SHA1_CTX) : Sha1.Holds (SHA1Init context) [] :=
  ⟨kept_nil (by decide) initial _, rfl⟩

theorem Holds.j_eq {context : SHA1_CTX} {message : List UInt8}
    (holds : Sha1.Holds context message) :
    ((context.count >>> 3) &&& 63).toNat = message.length % 64 := by
  rw [holds.count_eq]
  exact toNat_bits_mod message.length

/-- The loop takes all the whole blocks from its index on and leaves the rest. -/
theorem updateLoop_eq {data : List UInt8} (turns i : ℕ) (state : Vector Word 5)
    (enough : data.length ≤ turns + i) :
    (updateLoop data turns i state).2 = absorb SHA1Transform 64 state (data.drop i) ∧
      data.drop (updateLoop data turns i state).1 = rest 64 (data.drop i) := by
  induction turns generalizing i state with
  | zero =>
    have empty : data.drop i = [] := List.drop_eq_nil_of_le (by omega)
    rw [updateLoop, empty, absorb_nil (by decide), rest_nil]
    exact ⟨rfl, rfl⟩
  | succ turns inductionHypothesis =>
    rw [updateLoop]
    by_cases whole : i + 63 < data.length
    · have block : 64 ≤ (data.drop i).length := by
        rw [List.length_drop]
        omega
      rw [if_pos whole, absorb_of_le (by decide) block, rest_of_le (by decide) block,
        List.drop_drop]
      exact inductionHypothesis _ _ (by omega)
    · have short : (data.drop i).length < 64 := by
        rw [List.length_drop]
        omega
      rw [if_neg whole, absorb_of_lt short, rest_of_lt short]
      exact ⟨rfl, rfl⟩

/-- After each update the context stands for the message with the data behind it. -/
theorem SHA1Update_holds {context : SHA1_CTX} {message : List UInt8}
    (holds : Sha1.Holds context message) (data : List UInt8) :
    Sha1.Holds (SHA1Update context data) (message ++ data) := by
  have below : message.length % 64 < 64 := Nat.mod_lt _ (by decide)
  have count := bits_append message data
  rw [← holds.count_eq] at count
  unfold SHA1Update
  simp only [holds.j_eq]
  by_cases enough : message.length % 64 + data.length > 63
  · have fills : message.length % 64 + (64 - message.length % 64) = 64 := by omega
    have within : 64 - message.length % 64 ≤ data.length := by omega
    obtain ⟨absorbed, left⟩ := updateLoop_eq data.length (64 - message.length % 64)
      (SHA1Transform context.state
        (memcpy context.buffer (message.length % 64)
          (data.take (64 - message.length % 64))).toList) (Nat.le_add_right _ _)
    rw [if_pos enough]
    refine ⟨holds.kept.append_of_le (by decide) within fills ?_ ?_, count⟩
    · rw [absorbed, toList_memcpy]
      rwa [List.length_take_of_le within]
    · rw [left]
      exact take_memcpy_rest (by decide) _ _
  · have short : message.length % 64 + data.length < 64 := by omega
    rw [if_neg enough]
    refine ⟨holds.kept.append_of_lt (by decide) short ?_, count⟩
    exact take_memcpy _ (Nat.le_of_lt short)

/-! ### The digest -/

/-- Whether eight more bytes end a block. -/
theorem Holds.count_and_504 {context : SHA1_CTX} {message : List UInt8}
    (holds : Sha1.Holds context message) :
    context.count &&& 504 = 448 ↔ message.length % 64 = 56 := by
  have bits : context.count &&& (504 : BitVec 64) = ((context.count >>> 3) &&& 63) <<< 3 := by
    refine BitVec.eq_of_getLsbD_eq fun i inside => ?_
    have masks : ∀ i < 64, (504 : BitVec 64).getLsbD i =
        (!decide (i < 3) && (63 : BitVec 64).getLsbD (i - 3)) := by decide
    rw [BitVec.getLsbD_and, masks i inside, BitVec.getLsbD_shiftLeft, BitVec.getLsbD_and,
      BitVec.getLsbD_ushiftRight, decide_eq_true inside]
    by_cases low : i < 3
    · simp [low]
    · rw [show 3 + (i - 3) = i by omega]
      simp [low]
  have low := Nat.mod_lt message.length (show 64 > 0 by decide)
  rw [bits, ← BitVec.toNat_inj, BitVec.toNat_shiftLeft, holds.j_eq, Nat.shiftLeft_eq,
    Nat.mod_eq_of_lt (by omega)]
  change message.length % 64 * 2 ^ 3 = 448 ↔ _
  omega

theorem padLoop_holds (zeros : ℕ) {turns : ℕ} (enough : zeros ≤ turns) {context : SHA1_CTX}
    {message : List UInt8} (holds : Sha1.Holds context message)
    (first : zeros = (120 - message.length % 64) % 64) :
    Sha1.Holds (padLoop turns context) (message ++ List.replicate zeros 0) := by
  induction zeros generalizing turns context message with
  | zero =>
    have full : context.count &&& 504 = 448 := holds.count_and_504.mpr (by omega)
    have ended : padLoop turns context = context := by
      cases turns with
      | zero => rfl
      | succ turns => rw [padLoop, if_neg (not_not.mpr full)]
    simpa [ended] using holds
  | succ zeros inductionHypothesis =>
    have more : context.count &&& 504 ≠ 448 := fun full => by
      have filled := holds.count_and_504.mp full
      omega
    obtain ⟨turns, rfl⟩ : ∃ less, turns = less + 1 := ⟨turns - 1, by omega⟩
    have next := inductionHypothesis (Nat.le_of_succ_le_succ enough) (SHA1Update_holds holds [0])
      (by rw [List.length_append, List.length_singleton]; omega)
    rw [padLoop, if_pos more, List.replicate_succ]
    rwa [List.append_assoc] at next

/-- The padding of the code ends the message as it should. -/
theorem SHA1Pad_holds {context : SHA1_CTX} {message : List UInt8}
    (holds : Sha1.Holds context message) :
    Sha1.Holds (SHA1Pad context) (message ++ padding message.length) := by
  have few : (119 - message.length % 64) % 64 ≤ 64 := by omega
  have first : (119 - message.length % 64) % 64 =
      (120 - (message ++ [0o200]).length % 64) % 64 := by
    rw [List.length_append, List.length_singleton]
    omega
  have padded := padLoop_holds _ few (SHA1Update_holds holds [0o200]) first
  have whole := SHA1Update_holds padded (bigBytes 8 context.count)
  rw [holds.count_eq, List.append_assoc, List.append_assoc] at whole
  rw [SHA1Pad, holds.count_eq]
  exact whole

theorem SHA1Final_of_holds {context : SHA1_CTX} {message : List UInt8}
    (holds : Sha1.Holds context message) : SHA1Final context = sha1 message := by
  have same : ∀ state block, block.length = 64 → SHA1Transform state block = compress state block :=
    fun state block whole => SHA1Transform_eq state (Nat.le_of_eq whole.symm)
  have rounds := absorb_congr (by decide) same initial (message ++ padding message.length)
  rw [SHA1Final, (SHA1Pad_holds holds).kept.state_eq, rounds, sha1, ← map_byteAt_eq_flatMap,
    Vector.length_toList]
  rfl

/-- The digest is that of the whole message, however it was cut into parts. -/
theorem SHA1Final_foldl_SHA1Update (context : SHA1_CTX) (parts : List (List UInt8)) :
    SHA1Final (parts.foldl SHA1Update (SHA1Init context)) = sha1 parts.flatten := by
  have whole : Sha1.Holds (parts.foldl SHA1Update (SHA1Init context)) ([] ++ parts.flatten) :=
    holds_foldl Sha1.Holds (fun part _ _ _ holds => SHA1Update_holds holds part)
      (SHA1Init_holds context)
  exact SHA1Final_of_holds whole

end CommonCpp.Sha1
