/-
This file models the MD5 digest of `nossl/md5.cpp` and shows that it is that of the whole message,
however the message is cut into the parts that are given to `MD5Update`.

The digest itself is stated as it was first published: the message is padded to whole blocks with
a one, zeros and its length in bits, and each block goes through four rounds of sixteen operations
whose words and shifts follow from the place of the operation alone. The code has a table of them,
never moves its four registers, and selects bits with one operation less.
-/

import CommonCpp.Blocks
import CommonCpp.Rounds
import CommonCpp.Words

namespace CommonCpp.Md5

open Blocks Rounds Words

abbrev Word := BitVec 32

/-- The bytes of a block. -/
abbrev MD5_BLOCK_LENGTH : ℕ := 64

/-! ### The code -/

/-- The state, the count of bits, and the block. -/
structure MD5_CTX where
  state : Vector Word 4
  count : BitVec 64
  buffer : Vector UInt8 MD5_BLOCK_LENGTH

/-- A one and zeros. -/
def PADDING : List UInt8 := 0x80 :: List.replicate 63 0

/-- Selects from `y` and `z` by `x`. -/
def F1 (x y z : Word) : Word := z ^^^ (x &&& (y ^^^ z))

/-- Selects from `x` and `y` by `z`. -/
def F2 (x y z : Word) : Word := F1 z x y

def F3 (x y z : Word) : Word := x ^^^ y ^^^ z

def F4 (x y z : Word) : Word := y ^^^ (x ||| ~~~z)

/-- The name of one of the four core functions. -/
inductive Core
  | F1 | F2 | F3 | F4
  deriving DecidableEq

def Core.apply : Core → Word → Word → Word → Word
  | .F1 => Md5.F1
  | .F2 => Md5.F2
  | .F3 => Md5.F3
  | .F4 => Md5.F4

/-- The value that a step gives to `w`. -/
def MD5STEP (f : Word → Word → Word → Word) (w x y z data : Word) (s : ℕ) : Word :=
  let w := w + (f x y z + data)
  let w := w <<< s ||| w >>> (32 - s)
  w + x

/-- What the steps of `MD5Transform` differ in: the core function, the place of the word of the
block, what is added to it, and the shift. -/
structure Step where
  f : Core
  data : ℕ
  constant : Word
  s : ℕ
  deriving DecidableEq

/-- The steps as they are written out. -/
def steps : List Step :=
  [⟨.F1, 0, 0xd76aa478, 7⟩, ⟨.F1, 1, 0xe8c7b756, 12⟩, ⟨.F1, 2, 0x242070db, 17⟩,
   ⟨.F1, 3, 0xc1bdceee, 22⟩, ⟨.F1, 4, 0xf57c0faf, 7⟩, ⟨.F1, 5, 0x4787c62a, 12⟩,
   ⟨.F1, 6, 0xa8304613, 17⟩, ⟨.F1, 7, 0xfd469501, 22⟩, ⟨.F1, 8, 0x698098d8, 7⟩,
   ⟨.F1, 9, 0x8b44f7af, 12⟩, ⟨.F1, 10, 0xffff5bb1, 17⟩, ⟨.F1, 11, 0x895cd7be, 22⟩,
   ⟨.F1, 12, 0x6b901122, 7⟩, ⟨.F1, 13, 0xfd987193, 12⟩, ⟨.F1, 14, 0xa679438e, 17⟩,
   ⟨.F1, 15, 0x49b40821, 22⟩, ⟨.F2, 1, 0xf61e2562, 5⟩, ⟨.F2, 6, 0xc040b340, 9⟩,
   ⟨.F2, 11, 0x265e5a51, 14⟩, ⟨.F2, 0, 0xe9b6c7aa, 20⟩, ⟨.F2, 5, 0xd62f105d, 5⟩,
   ⟨.F2, 10, 0x02441453, 9⟩, ⟨.F2, 15, 0xd8a1e681, 14⟩, ⟨.F2, 4, 0xe7d3fbc8, 20⟩,
   ⟨.F2, 9, 0x21e1cde6, 5⟩, ⟨.F2, 14, 0xc33707d6, 9⟩, ⟨.F2, 3, 0xf4d50d87, 14⟩,
   ⟨.F2, 8, 0x455a14ed, 20⟩, ⟨.F2, 13, 0xa9e3e905, 5⟩, ⟨.F2, 2, 0xfcefa3f8, 9⟩,
   ⟨.F2, 7, 0x676f02d9, 14⟩, ⟨.F2, 12, 0x8d2a4c8a, 20⟩, ⟨.F3, 5, 0xfffa3942, 4⟩,
   ⟨.F3, 8, 0x8771f681, 11⟩, ⟨.F3, 11, 0x6d9d6122, 16⟩, ⟨.F3, 14, 0xfde5380c, 23⟩,
   ⟨.F3, 1, 0xa4beea44, 4⟩, ⟨.F3, 4, 0x4bdecfa9, 11⟩, ⟨.F3, 7, 0xf6bb4b60, 16⟩,
   ⟨.F3, 10, 0xbebfbc70, 23⟩, ⟨.F3, 13, 0x289b7ec6, 4⟩, ⟨.F3, 0, 0xeaa127fa, 11⟩,
   ⟨.F3, 3, 0xd4ef3085, 16⟩, ⟨.F3, 6, 0x04881d05, 23⟩, ⟨.F3, 9, 0xd9d4d039, 4⟩,
   ⟨.F3, 12, 0xe6db99e5, 11⟩, ⟨.F3, 15, 0x1fa27cf8, 16⟩, ⟨.F3, 2, 0xc4ac5665, 23⟩,
   ⟨.F4, 0, 0xf4292244, 6⟩, ⟨.F4, 7, 0x432aff97, 10⟩, ⟨.F4, 14, 0xab9423a7, 15⟩,
   ⟨.F4, 5, 0xfc93a039, 21⟩, ⟨.F4, 12, 0x655b59c3, 6⟩, ⟨.F4, 3, 0x8f0ccc92, 10⟩,
   ⟨.F4, 10, 0xffeff47d, 15⟩, ⟨.F4, 1, 0x85845dd1, 21⟩, ⟨.F4, 8, 0x6fa87e4f, 6⟩,
   ⟨.F4, 15, 0xfe2ce6e0, 10⟩, ⟨.F4, 6, 0xa3014314, 15⟩, ⟨.F4, 13, 0x4e0811a1, 21⟩,
   ⟨.F4, 4, 0xf7537e82, 6⟩, ⟨.F4, 11, 0xbd3af235, 10⟩, ⟨.F4, 2, 0x2ad7d2bb, 15⟩,
   ⟨.F4, 9, 0xeb86d391, 21⟩]

/-- The steps from this one on, where the names of the registers go round. -/
def runSteps (in_ : ℕ → Word) : ℕ → List Step → Vector Word 4 → Vector Word 4
  | _, [], registers => registers
  | i, step :: steps, registers =>
    runSteps in_ (i + 1) steps
      (setNamed registers i 0
        (MD5STEP step.f.apply (named registers i 0) (named registers i 1) (named registers i 2)
          (named registers i 3) (in_ step.data + step.constant) step.s))

/-- The words of the block are copied as they are, on a machine that has the lowest byte first. -/
def MD5Transform (state : Vector Word 4) (block : List UInt8) : Vector Word 4 :=
  let in_ i := little (slice 4 block i)
  let registers := runSteps in_ 0 steps state
  state.zipWith (· + ·) registers

/-- The context is started. -/
def MD5Init (ctx : MD5_CTX) : MD5_CTX :=
  { ctx with
    count := 0
    state := #v[0x67452301, 0xefcdab89, 0x98badcfe, 0x10325476] }

/-- `while(len >= MD5_BLOCK_LENGTH)`, which takes at most as many turns as there are bytes. -/
def updateLoop : ℕ → Vector Word 4 → List UInt8 → Vector Word 4 × List UInt8
  | 0, state, input => (state, input)
  | turns + 1, state, input =>
    if MD5_BLOCK_LENGTH ≤ input.length then
      updateLoop turns (MD5Transform state (input.take MD5_BLOCK_LENGTH))
        (input.drop MD5_BLOCK_LENGTH)
    else (state, input)

/-- A part of a message is taken. -/
def MD5Update (ctx : MD5_CTX) (input : List UInt8) : MD5_CTX :=
  let have_ := ((ctx.count >>> 3) &&& (BitVec.ofNat 64 (MD5_BLOCK_LENGTH - 1))).toNat
  let need := MD5_BLOCK_LENGTH - have_
  let count := ctx.count + BitVec.ofNat 64 input.length <<< 3
  if need ≤ input.length then
    if have_ ≠ 0 then
      let buffer := memcpy ctx.buffer have_ (input.take need)
      let state := MD5Transform ctx.state buffer.toList
      let (state, input) := updateLoop input.length state (input.drop need)
      ⟨state, count, memcpy buffer 0 input⟩
    else
      let (state, input) := updateLoop input.length ctx.state input
      ⟨state, count, memcpy ctx.buffer 0 input⟩
  else
    ⟨ctx.state, count, memcpy ctx.buffer have_ input⟩

/-- Fills up the last block. -/
def MD5Pad (ctx : MD5_CTX) : MD5_CTX :=
  let count := littleBytes 8 ctx.count
  let padlen := MD5_BLOCK_LENGTH -
    ((ctx.count >>> 3) &&& (BitVec.ofNat 64 (MD5_BLOCK_LENGTH - 1))).toNat
  let padlen := if padlen < 1 + 8 then padlen + MD5_BLOCK_LENGTH else padlen
  MD5Update (MD5Update ctx (PADDING.take (padlen - 8))) count

/-- The digest that is left behind; the context is cleared. -/
def MD5Final (ctx : MD5_CTX) : List UInt8 := (MD5Pad ctx).state.toList.flatMap (littleBytes 4)

/-! ### The digest as it was published -/

/-- The four registers in the order of their names. -/
structure Registers where
  a : Word
  b : Word
  c : Word
  d : Word

/-- The function of each round. -/
def function (round : ℕ) (x y z : Word) : Word :=
  match round with
  | 0 => x &&& y ||| ~~~x &&& z
  | 1 => x &&& z ||| y &&& ~~~z
  | 2 => x ^^^ y ^^^ z
  | _ => y ^^^ (x ||| ~~~z)

/-- The word of the block that an operation takes. -/
def wordOf (i : ℕ) : ℕ :=
  match i / 16 with
  | 0 => i
  | 1 => (5 * i + 1) % 16
  | 2 => (3 * i + 5) % 16
  | _ => 7 * i % 16

/-- The shift of an operation. -/
def shiftOf (i : ℕ) : ℕ :=
  match i / 16 with
  | 0 => [7, 12, 17, 22].getD (i % 4) 0
  | 1 => [5, 9, 14, 20].getD (i % 4) 0
  | 2 => [4, 11, 16, 23].getD (i % 4) 0
  | _ => [6, 10, 15, 21].getD (i % 4) 0

/-- The constants, which come from a table here too. -/
def constantOf (i : ℕ) : Word := (steps.map Step.constant).getD i 0

/-- An operation. -/
def operation (block : List UInt8) (registers : Registers) (i : ℕ) : Registers where
  a := registers.d
  b := registers.b + (registers.a + function (i / 16) registers.b registers.c registers.d +
    little (slice 4 block (wordOf i)) + constantOf i).rotateLeft (shiftOf i)
  c := registers.b
  d := registers.c

/-- A block is taken into the state. -/
def compress (state : Vector Word 4) (block : List UInt8) : Vector Word 4 :=
  let registers := (List.range 64).foldl (operation block) ⟨state[0], state[1], state[2], state[3]⟩
  #v[state[0] + registers.a, state[1] + registers.b, state[2] + registers.c,
    state[3] + registers.d]

/-- A one, zeros up to the last eight bytes of a block, and the number of bits. -/
def padding (length : ℕ) : List UInt8 :=
  0x80 :: List.replicate ((119 - length % 64) % 64) 0 ++
    littleBytes 8 (BitVec.ofNat 64 (8 * length))

def initial : Vector Word 4 := #v[0x67452301, 0xefcdab89, 0x98badcfe, 0x10325476]

/-- The digest of a message. -/
def md5 (message : List UInt8) : List UInt8 :=
  (absorb compress 64 initial (message ++ padding message.length)).toList.flatMap (littleBytes 4)

/-! ### One block -/

theorem F1_eq (x y z : Word) : F1 x y z = x &&& y ||| ~~~x &&& z := by
  refine BitVec.eq_of_getLsbD_eq fun i inside => ?_
  simp only [F1, BitVec.getLsbD_xor, BitVec.getLsbD_and, BitVec.getLsbD_or, BitVec.getLsbD_not,
    inside]
  cases x.getLsbD i <;> cases y.getLsbD i <;> cases z.getLsbD i <;> rfl

theorem F2_eq (x y z : Word) : F2 x y z = x &&& z ||| y &&& ~~~z := by
  rw [F2, F1_eq, BitVec.and_comm z, BitVec.and_comm (~~~z)]

/-- The core function of each round. -/
def coreOf (round : ℕ) : Core :=
  match round with
  | 0 => .F1
  | 1 => .F2
  | 2 => .F3
  | _ => .F4

theorem apply_coreOf (round : ℕ) (x y z : Word) :
    (coreOf round).apply x y z = function round x y z := by
  match round with
  | 0 => exact F1_eq x y z
  | 1 => exact F2_eq x y z
  | 2 => rfl
  | _ + 3 => rfl

/-- The table of the steps is what follows from their places. -/
theorem steps_eq :
    steps = (List.range' 0 64).map
      fun i => ⟨coreOf (i / 16), wordOf i, constantOf i, shiftOf i⟩ := by
  decide +kernel

theorem shiftOf_lt (i : ℕ) : shiftOf i < 32 := by
  have small : ∀ k < 4, [7, 12, 17, 22].getD k 0 < 32 ∧ [5, 9, 14, 20].getD k 0 < 32 ∧
      [4, 11, 16, 23].getD k 0 < 32 ∧ [6, 10, 15, 21].getD k 0 < 32 := by decide
  obtain ⟨first, second, third, fourth⟩ := small (i % 4) (Nat.mod_lt _ (by decide))
  rw [shiftOf]
  split <;> assumption

theorem MD5STEP_eq {s : ℕ} (small : s < 32) (f : Word → Word → Word → Word)
    (w x y z word constant : Word) :
    MD5STEP f w x y z (word + constant) s =
      x + (w + f x y z + word + constant).rotateLeft s := by
  rw [BitVec.rotateLeft_def, Nat.mod_eq_of_lt small, BitVec.add_comm x, MD5STEP,
    BitVec.add_assoc (w + f x y z), BitVec.add_assoc w]

/-- The registers by their names in a step. -/
def view (registers : Vector Word 4) (i : ℕ) : Registers :=
  ⟨named registers i 0, named registers i 1, named registers i 2, named registers i 3⟩

theorem view_succ (registers : Vector Word 4) (i : ℕ) (value : Word) :
    view (setNamed registers i 0 value) (i + 1) =
      ⟨named registers i 3, value, named registers i 1, named registers i 2⟩ := by
  simp only [view, named_succ, named_setNamed]
  rfl

theorem view_runSteps (block : List UInt8) (count i : ℕ) (registers : Vector Word 4) :
    view (runSteps (fun place => little (slice 4 block place)) i
        ((List.range' i count).map fun i => ⟨coreOf (i / 16), wordOf i, constantOf i, shiftOf i⟩)
        registers) (i + count) =
      (List.range' i count).foldl (operation block) (view registers i) := by
  induction count generalizing i registers with
  | zero => rfl
  | succ count inductionHypothesis =>
    rw [List.range'_succ, List.map_cons, runSteps, List.foldl_cons, Nat.add_comm count,
      ← Nat.add_assoc, inductionHypothesis, view_succ, MD5STEP_eq (shiftOf_lt i)]
    simp only [apply_coreOf]
    rfl

/-- A block goes through the steps as through the operations. -/
theorem MD5Transform_eq : MD5Transform = compress := by
  funext state block
  have run := view_runSteps block 64 0 state
  rw [← steps_eq, ← List.range_eq_range'] at run
  have whole : 4 ∣ 0 + 64 := by decide
  simp only [view, named_of_dvd _ whole, named_zero] at run
  rw [compress, MD5Transform]
  generalize runSteps _ 0 steps state = after at run ⊢
  refine Vector.ext fun i inside => ?_
  rw [Vector.getElem_zipWith]
  match i with
  | 0 => exact congrArg (state[0] + Registers.a ·) run
  | 1 => exact congrArg (state[1] + Registers.b ·) run
  | 2 => exact congrArg (state[2] + Registers.c ·) run
  | 3 => exact congrArg (state[3] + Registers.d ·) run

/-! ### Messages in parts -/

/-- The context stands for a message. -/
structure Holds (ctx : MD5_CTX) (message : List UInt8) : Prop where
  kept : Kept MD5Transform 64 initial message ctx.state ctx.buffer.toList
  count_eq : ctx.count = BitVec.ofNat 64 (8 * message.length)

theorem MD5Init_holds (ctx : MD5_CTX) : Holds (MD5Init ctx) [] :=
  ⟨kept_nil (by decide) initial _, rfl⟩

theorem Holds.have_eq {ctx : MD5_CTX} {message : List UInt8} (holds : Holds ctx message) :
    ((ctx.count >>> 3) &&& (BitVec.ofNat 64 (MD5_BLOCK_LENGTH - 1))).toNat =
      message.length % 64 := by
  rw [holds.count_eq]
  exact toNat_bits_mod message.length

/-- The loop takes all the whole blocks and leaves the rest. -/
theorem updateLoop_eq (turns : ℕ) (state : Vector Word 4) {input : List UInt8}
    (enough : input.length ≤ turns) :
    updateLoop turns state input = (absorb MD5Transform 64 state input, rest 64 input) := by
  induction turns generalizing state input with
  | zero =>
    have empty : input = [] := List.length_eq_zero_iff.mp (Nat.le_zero.mp enough)
    rw [empty, updateLoop, absorb_nil (by decide), rest_nil]
  | succ turns inductionHypothesis =>
    rw [updateLoop]
    by_cases whole : MD5_BLOCK_LENGTH ≤ input.length
    · have shorter : (input.drop MD5_BLOCK_LENGTH).length ≤ turns := by
        rw [List.length_drop, MD5_BLOCK_LENGTH]
        omega
      rw [if_pos whole, inductionHypothesis _ shorter, absorb_of_le (by decide) whole,
        rest_of_le (by decide) whole]
    · rw [if_neg whole, absorb_of_lt (Nat.lt_of_not_le whole), rest_of_lt (Nat.lt_of_not_le whole)]

/-- After each update the context stands for the message with the input behind it. -/
theorem MD5Update_holds {ctx : MD5_CTX} {message : List UInt8} (holds : Holds ctx message)
    (input : List UInt8) : Holds (MD5Update ctx input) (message ++ input) := by
  have below : message.length % 64 < 64 := Nat.mod_lt _ (by decide)
  have count := bits_append message input
  rw [← holds.count_eq] at count
  unfold MD5Update
  simp only [holds.have_eq]
  by_cases enough : MD5_BLOCK_LENGTH - message.length % 64 ≤ input.length
  · have fills : message.length % 64 + (MD5_BLOCK_LENGTH - message.length % 64) = 64 := by
      rw [MD5_BLOCK_LENGTH]
      omega
    rw [if_pos enough]
    by_cases some : message.length % 64 ≠ 0
    · have shorter : (input.drop (MD5_BLOCK_LENGTH - message.length % 64)).length ≤
          input.length := by
        rw [List.length_drop]
        exact Nat.sub_le _ _
      rw [if_pos some]
      simp only [updateLoop_eq _ _ shorter]
      refine ⟨holds.kept.append_of_le (by decide) enough fills ?_
        (take_memcpy_rest (by decide) _ _), count⟩
      rw [toList_memcpy]
      rw [List.length_take_of_le enough]
      exact fills
    · have none : message.length % 64 = 0 := not_not.mp some
      rw [if_neg some]
      simp only [updateLoop_eq _ _ (Nat.le_refl _)]
      -- The buffer is empty, and the input starts with the next block.
      refine ⟨holds.kept.append_of_le (by decide) enough fills ?_ ?_, count⟩
      · rw [none, Nat.sub_zero, List.take_zero, List.nil_append,
          absorb_of_le (by decide) (by omega)]
      · rw [none, Nat.sub_zero, rest_of_le (by decide) (by omega)]
        exact take_memcpy_rest (by decide) _ _
  · have short : message.length % 64 + input.length < 64 := by
      rw [MD5_BLOCK_LENGTH] at enough
      omega
    rw [if_neg enough]
    refine ⟨holds.kept.append_of_lt (by decide) short ?_, count⟩
    exact take_memcpy _ (Nat.le_of_lt short)

/-! ### The digest -/

theorem take_PADDING {count : ℕ} (few : count ≤ 63) :
    PADDING.take (count + 1) = 0x80 :: List.replicate count 0 := by
  rw [PADDING, List.take_succ_cons, List.take_replicate, Nat.min_eq_left few]

/-- The padding of the code ends the message as it should. -/
theorem MD5Pad_holds {ctx : MD5_CTX} {message : List UInt8} (holds : Holds ctx message) :
    Holds (MD5Pad ctx) (message ++ padding message.length) := by
  have below : message.length % 64 < 64 := Nat.mod_lt _ (by decide)
  have ends {padlen : ℕ} (same : padlen - 8 = (119 - message.length % 64) % 64 + 1) :
      Holds (MD5Update (MD5Update ctx (PADDING.take (padlen - 8))) (littleBytes 8 ctx.count))
        (message ++ padding message.length) := by
    have whole := MD5Update_holds (MD5Update_holds holds (PADDING.take (padlen - 8)))
      (littleBytes 8 ctx.count)
    have bytes : PADDING.take (padlen - 8) ++ littleBytes 8 ctx.count = padding message.length := by
      rw [same, take_PADDING (by omega), holds.count_eq, padding]
    rwa [List.append_assoc, bytes] at whole
  unfold MD5Pad
  simp only [holds.have_eq, MD5_BLOCK_LENGTH]
  split
  · exact ends (by omega)
  · exact ends (by omega)

theorem MD5Final_of_holds {ctx : MD5_CTX} {message : List UInt8} (holds : Holds ctx message) :
    MD5Final ctx = md5 message := by
  rw [MD5Final, (MD5Pad_holds holds).kept.state_eq, MD5Transform_eq, md5]

/-- The digest is that of the whole message, however it was cut into parts. -/
theorem MD5Final_foldl_MD5Update (ctx : MD5_CTX) (parts : List (List UInt8)) :
    MD5Final (parts.foldl MD5Update (MD5Init ctx)) = md5 parts.flatten := by
  have whole : Holds (parts.foldl MD5Update (MD5Init ctx)) ([] ++ parts.flatten) :=
    holds_foldl Holds (fun part _ _ _ holds => MD5Update_holds holds part) (MD5Init_holds ctx)
  exact MD5Final_of_holds whole

example : MD5Final (MD5Update (MD5Init ⟨Vector.replicate 4 0, 0, Vector.replicate 64 0⟩)
    [0x61, 0x62, 0x63]) =
      [0x90, 0x01, 0x50, 0x98, 0x3c, 0xd2, 0x4f, 0xb0, 0xd6, 0x96, 0x3f, 0x7d, 0x28, 0xe1, 0x7f,
        0x72] := by
  decide +kernel

end CommonCpp.Md5
