/-
This file models the bits of a `typeref<const uint8_t *>`: `get`, `count` and `set`, and the
constructor that sets all bits to one value.

Bit 0 is the lowest of the first byte. `count` and `set` go from bit to bit, and stop at the
first that is not in the bytes. `get` compares the byte of its bit with the number of bytes, and
lets the one pass that is equal: for the eight bits behind the last it reads the byte behind the
array, which belongs to the memory of the value and was never written. With these exceptions the
three agree about every bit.

Sizes are those of things in memory, so that an offset leaves the bytes before it wraps around.
-/

import Mathlib.Order.Interval.Finset.Nat
import CommonCpp.PackedBits

namespace CommonCpp

open PackedBits

namespace BitArray

/-! ### The code -/

/-- The memory of a value: its `size` bytes, and the byte behind them. -/
structure Value where
  mem : List UInt8
  behind : UInt8

/-- What is read at a place. -/
def Value.read (value : Value) (place : ℕ) : UInt8 := value.mem.getD place value.behind

/-- The place that `get` reads, if it does not return before. -/
def placeRead (value : Value) (offset : ℕ) : Option ℕ :=
  if value.mem.length < offset / 8 then none else some (offset / 8)

def get (value : Value) (offset : ℕ) : Bool :=
  match placeRead value offset with
  | none => false
  | some place => value.read place &&& mask offset ≠ 0

/-- The loop of `count`, for so many more bits. -/
def countLoop (data : List UInt8) : (bits offset total : ℕ) → ℕ
  | 0, _, total => total
  | bits + 1, offset, total =>
    let pos := offset / 8
    if pos ≥ data.length then total
    else countLoop data bits (offset + 1)
      (if data.getD pos 0 &&& mask offset ≠ 0 then total + 1 else total)

def count (value : Value) (offset bits : ℕ) : ℕ := countLoop value.mem bits offset 0

/-- The loop of `set`: the bytes it leaves, and how many bits it has changed. -/
def setLoop (mode : Bool) : (bits offset : ℕ) → List UInt8 → ℕ → List UInt8 × ℕ
  | 0, _, data, total => (data, total)
  | bits + 1, offset, data, total =>
    let pos := offset / 8
    if pos ≥ data.length then (data, total)
    else
      let bitmask := mask offset
      let current : Bool := data.getD pos 0 &&& bitmask ≠ 0
      if current ≠ mode then
        setLoop mode bits (offset + 1) (data.set pos (put mode (data.getD pos 0) bitmask))
          (total + 1)
      else setLoop mode bits (offset + 1) data total

def set (value : Value) (mode : Bool) (offset bits : ℕ) : Value × ℕ :=
  let (mem, total) := setLoop mode bits offset value.mem 0
  ({ value with mem := mem }, total)

/-- How many bytes are allocated for so many bits. -/
def size (bits : ℕ) : ℕ := if bits % 8 ≠ 0 then bits / 8 + 1 else bits / 8

/-- `typeref(mode, bits)`, in a memory that holds this. -/
def construct (mode : Bool) (bits : ℕ) (junk : ℕ → UInt8) : Value :=
  (set ⟨(List.range (size bits)).map junk, junk (size bits)⟩ mode 0 bits).1

/-! ### Bits -/

/-- The number of bits. -/
def Value.bits (value : Value) : ℕ := 8 * value.mem.length

/-- The bits in a range that are set, according to `get`. -/
def Value.ones (value : Value) (offset bits : ℕ) : Finset ℕ :=
  (Finset.Ico offset (offset + bits)).filter fun i => get value i

/-- The bits are where they should be: `get` reads bit `i` from the bytes, or does not read them
and returns false; `count` returns how many of the range are set; `set` puts those of the range
and no others, and returns how many it has changed; and of the bits that are constructed all are
set, or none. -/
structure Addressed (value : Value) (i offset bits : ℕ) (mode : Bool) : Prop where
  get : get value i = bit value.mem i ∧ ∀ place ∈ placeRead value i, place < value.mem.length
  count : count value offset bits = (value.ones offset bits).card
  put : ∀ j < value.bits, BitArray.get (set value mode offset bits).1 j =
    if offset ≤ j ∧ j < offset + bits then mode else BitArray.get value j
  kept : (set value mode offset bits).1.bits = value.bits ∧
    (set value mode offset bits).1.behind = value.behind
  changed : (set value mode offset bits).2 = ((Finset.range value.bits).filter fun j =>
    BitArray.get (set value mode offset bits).1 j ≠ BitArray.get value j).card
  constructed : ∀ junk, BitArray.count (construct mode bits junk) 0 bits = if mode then bits else 0

variable {value : Value} {data : List UInt8} {mode : Bool} {offset bits i total : ℕ}

/-! #### get -/

theorem get_of_lt (within : i < value.bits) : get value i = bit value.mem i := by
  have inside : i / 8 < value.mem.length := by
    unfold Value.bits at within
    omega
  have same : value.read (i / 8) = value.mem.getD (i / 8) 0 := by
    rw [Value.read, List.getD_eq_getElem _ _ inside, List.getD_eq_getElem _ _ inside]
  rw [get, placeRead, if_neg (Nat.not_lt.mpr inside.le), bit]
  dsimp only
  rw [same]
  exact Bool.eq_iff_iff.mpr (decide_eq_true_iff.trans (test_mask _ _))

theorem get_of_ge (beyond : value.bits ≤ i) :
    get value i = (decide (i / 8 = value.mem.length) && value.behind.toNat.testBit (i % 8)) := by
  have outside : value.mem.length ≤ i / 8 := by
    unfold Value.bits at beyond
    omega
  have same : value.read (i / 8) = value.behind := List.getD_eq_default _ _ outside
  rw [get, placeRead]
  by_cases next : i / 8 = value.mem.length
  · rw [if_neg (by omega), decide_eq_true next, Bool.true_and]
    dsimp only
    rw [same]
    exact Bool.eq_iff_iff.mpr (decide_eq_true_iff.trans (test_mask _ _))
  · rw [if_pos (by omega), decide_eq_false next, Bool.false_and]

/-! #### count -/

/-- A range is its first bit and the rest. -/
theorem range_succ (offset bits : ℕ) :
    Finset.Ico offset (offset + (bits + 1)) =
      insert offset (Finset.Ico (offset + 1) (offset + 1 + bits)) := by
  ext i
  rw [Finset.mem_insert, Finset.mem_Ico, Finset.mem_Ico]
  omega

/-- The bits of a range that pass a test, with its first bit and without it. -/
theorem card_range_succ (test : ℕ → Bool) (offset bits : ℕ) :
    ((Finset.Ico offset (offset + (bits + 1))).filter fun i => test i).card =
      (if test offset then 1 else 0) +
        ((Finset.Ico (offset + 1) (offset + 1 + bits)).filter fun i => test i).card := by
  have apart : offset ∉ (Finset.Ico (offset + 1) (offset + 1 + bits)).filter fun i => test i := by
    simp
  rw [range_succ, Finset.filter_insert]
  by_cases passes : test offset
  · rw [if_pos passes, if_pos passes, Finset.card_insert_of_notMem apart, Nat.add_comm]
  · rw [if_neg passes, if_neg passes, Nat.zero_add]

theorem test_iff (data : List UInt8) (offset : ℕ) :
    data.getD (offset / 8) 0 &&& mask offset ≠ 0 ↔ bit data offset = true := test_mask _ _

theorem countLoop_eq (data : List UInt8) (bits offset total : ℕ) :
    countLoop data bits offset total =
      total + ((Finset.Ico offset (offset + bits)).filter fun i => bit data i).card := by
  induction bits generalizing offset total with
  | zero => simp [countLoop]
  | succ bits inductionHypothesis =>
    rw [countLoop]
    by_cases ends : offset / 8 ≥ data.length
    · have none : ((Finset.Ico offset (offset + (bits + 1))).filter fun i => bit data i) = ∅ := by
        refine Finset.filter_eq_empty_iff.mpr fun i member => ?_
        have behind : data.length ≤ i / 8 :=
          ends.trans (Nat.div_le_div_right (Finset.mem_Ico.mp member).1)
        rw [bit_of_le behind]
        exact Bool.false_ne_true
      rw [if_pos ends, none, Finset.card_empty, Nat.add_zero]
    · rw [if_neg ends, inductionHypothesis, card_range_succ, ← Nat.add_assoc]
      simp only [test_iff]
      by_cases one : bit data offset
      · rw [if_pos one, if_pos one]
      · rw [if_neg one, if_neg one]
        rfl

/-! #### set -/

/-- What the loop leaves: the bits of the range that it comes to are put, the others are as they
were, and it has counted those it has changed. -/
structure Put (mode : Bool) (offset bits : ℕ) (data : List UInt8) (total : ℕ)
    (left : List UInt8 × ℕ) : Prop where
  length : left.1.length = data.length
  bit : ∀ j, bit left.1 j =
    if offset ≤ j ∧ j < offset + bits ∧ j < 8 * data.length then mode else bit data j
  total : left.2 = total + ((Finset.range (8 * data.length)).filter fun j =>
    PackedBits.bit left.1 j ≠ PackedBits.bit data j).card

section Rounds

variable {left : List UInt8 × ℕ}

/-- A round that finds the bit put already. -/
theorem Put.found (within : offset / 8 < data.length) (current : PackedBits.bit data offset = mode)
    (later : Put mode (offset + 1) bits data total left) :
    Put mode offset (bits + 1) data total left := by
  refine ⟨later.length, fun j => ?_, later.total⟩
  rw [later.bit]
  by_cases same : j = offset
  · rw [same, if_neg (by omega), if_pos (by omega), current]
  · by_cases inside : offset + 1 ≤ j ∧ j < offset + 1 + bits ∧ j < 8 * data.length
    · rw [if_pos inside, if_pos (by omega)]
    · rw [if_neg inside, if_neg (by omega)]

/-- The bit that a round puts is one more that is changed, when the later ones leave it. -/
theorem card_changed {data' : List UInt8} (within : offset / 8 < data.length)
    (current : PackedBits.bit data offset ≠ mode) (here : PackedBits.bit data' offset = mode) :
    ((Finset.range (8 * data.length)).filter fun j =>
        PackedBits.bit data' j ≠ PackedBits.bit data j).card =
      ((Finset.range (8 * data.length)).filter fun j => PackedBits.bit data' j ≠ PackedBits.bit
        (data.set (offset / 8) (put mode (data.getD (offset / 8) 0) (mask offset))) j).card +
        1 := by
  have one := bit_put mode within
  have apart : offset ∉ (Finset.range (8 * data.length)).filter fun j =>
      PackedBits.bit data' j ≠ PackedBits.bit
        (data.set (offset / 8) (put mode (data.getD (offset / 8) 0) (mask offset))) j := by
    rw [Finset.mem_filter, here, one, if_pos rfl]
    exact fun member => member.2 rfl
  rw [← Finset.card_insert_of_notMem apart]
  congr 1
  ext j
  rw [Finset.mem_insert, Finset.mem_filter, Finset.mem_filter, Finset.mem_range, one]
  by_cases same : j = offset
  · rw [same, here]
    exact iff_of_true ⟨by omega, Ne.symm current⟩ (Or.inl rfl)
  · rw [if_neg same, or_iff_right same]

/-- A round that puts its bit, which the later ones do not change again. -/
theorem Put.changed (within : offset / 8 < data.length)
    (current : PackedBits.bit data offset ≠ mode)
    (later : Put mode (offset + 1) bits
      (data.set (offset / 8) (put mode (data.getD (offset / 8) 0) (mask offset)))
      (total + 1) left) :
    Put mode offset (bits + 1) data total left := by
  have one := bit_put mode within
  obtain ⟨length, bits_, total_⟩ := later
  rw [List.length_set] at length bits_ total_
  have here : PackedBits.bit left.1 offset = mode := by
    rw [bits_, if_neg (by omega), one, if_pos rfl]
  refine ⟨length, fun j => ?_, ?_⟩
  · rw [bits_, one]
    by_cases same : j = offset
    · rw [same, if_neg (by omega), if_pos rfl, if_pos (by omega)]
    · by_cases inside : offset + 1 ≤ j ∧ j < offset + 1 + bits ∧ j < 8 * data.length
      · rw [if_pos inside, if_pos (by omega)]
      · rw [if_neg inside, if_neg same, if_neg (by omega)]
  · rw [total_, card_changed within current here]
    omega

end Rounds

theorem setLoop_put (mode : Bool) (bits offset : ℕ) (data : List UInt8) (total : ℕ) :
    Put mode offset bits data total (setLoop mode bits offset data total) := by
  induction bits generalizing offset data total with
  | zero =>
    refine ⟨rfl, fun j => ?_, ?_⟩
    · rw [if_neg (by omega)]
      rfl
    · simp [setLoop]
  | succ bits inductionHypothesis =>
    rw [setLoop]
    by_cases ends : offset / 8 ≥ data.length
    · rw [if_pos ends]
      refine ⟨rfl, fun j => ?_, by simp⟩
      rw [if_neg (by omega)]
    · rw [if_neg ends]
      have within : offset / 8 < data.length := Nat.lt_of_not_le ends
      have tested : decide (data.getD (offset / 8) 0 &&& mask offset ≠ 0) =
          PackedBits.bit data offset :=
        Bool.eq_iff_iff.mpr (decide_eq_true_iff.trans (test_iff data offset))
      dsimp only
      rw [tested]
      by_cases differs : PackedBits.bit data offset ≠ mode
      · rw [if_pos differs]
        exact .changed within differs (inductionHypothesis _ _ _)
      · rw [if_neg differs]
        exact .found within (not_not.mp differs) (inductionHypothesis _ _ _)

theorem set_put (value : Value) (mode : Bool) (offset bits : ℕ) :
    Put mode offset bits value.mem 0
      ((set value mode offset bits).1.mem, (set value mode offset bits).2) :=
  setLoop_put mode bits offset value.mem 0

/-- The bits of a value that is set. -/
theorem get_set (value : Value) (mode : Bool) (offset bits : ℕ) {j : ℕ} (within : j < value.bits) :
    get (set value mode offset bits).1 j =
      if offset ≤ j ∧ j < offset + bits then mode else get value j := by
  obtain ⟨length, bits_, -⟩ := set_put value mode offset bits
  have within' : j < (set value mode offset bits).1.bits := by
    rw [Value.bits, length]
    exact within
  rw [get_of_lt within', get_of_lt within, bits_]
  by_cases inside : offset ≤ j ∧ j < offset + bits
  · rw [if_pos inside, if_pos ⟨inside.1, inside.2, within⟩]
  · rw [if_neg inside, if_neg fun all => inside ⟨all.1, all.2.1⟩]

/-- All bits that are constructed are set, or none of them. -/
theorem count_construct (mode : Bool) (bits : ℕ) (junk : ℕ → UInt8) :
    count (construct mode bits junk) 0 bits = if mode then bits else 0 := by
  obtain ⟨length, bits_, -⟩ :=
    set_put ⟨(List.range (size bits)).map junk, junk (size bits)⟩ mode 0 bits
  have enough : bits ≤ 8 * size bits := by
    unfold size
    split <;> omega
  have long : ((List.range (size bits)).map junk).length = size bits := by
    rw [List.length_map, List.length_range]
  have all : ∀ j ∈ Finset.Ico 0 (0 + bits), bit (construct mode bits junk).mem j = mode := by
    intro j member
    have within := (Finset.mem_Ico.mp member).2
    rw [long] at bits_
    exact (bits_ j).trans (if_pos ⟨Nat.zero_le j, within, by omega⟩)
  rw [count, countLoop_eq, Nat.zero_add, Nat.zero_add]
  rw [Nat.zero_add] at all
  cases mode with
  | true =>
    rw [Finset.filter_true_of_mem all, Nat.card_Ico]
    rfl
  | false =>
    have none : ((Finset.Ico 0 bits).filter fun i => bit (construct false bits junk).mem i) = ∅ :=
      Finset.filter_eq_empty_iff.mpr fun j member => by
        rw [all j member]
        exact Bool.false_ne_true
    rw [none]
    rfl

/-! #### The byte behind -/

/-- `get` is right about every bit but those of the byte behind. -/
theorem get_iff (value : Value) (i : ℕ) :
    (get value i = bit value.mem i ∧ ∀ place ∈ placeRead value i, place < value.mem.length) ↔
      i / 8 ≠ value.mem.length := by
  unfold placeRead
  rcases Nat.lt_trichotomy (i / 8) value.mem.length with less | next | more
  · rw [if_neg (by omega), get_of_lt (by unfold Value.bits; omega)]
    refine iff_of_true ⟨rfl, fun place member => ?_⟩ less.ne
    cases member
    exact less
  · rw [if_neg (by omega)]
    exact iff_of_false (fun right => absurd (right.2 _ rfl) (by omega)) (not_not.mpr next)
  · rw [if_pos more, get_of_ge (by unfold Value.bits; omega), bit_of_le more.le,
      decide_eq_false more.ne']
    exact iff_of_true ⟨rfl, fun _ member => by cases member⟩ more.ne'

/-- `count` counts what `get` returns, but for what it returns from the byte behind. -/
theorem count_iff (value : Value) (offset bits : ℕ) :
    count value offset bits = (value.ones offset bits).card ↔
      ∀ j ∈ Finset.Ico offset (offset + bits), j / 8 = value.mem.length →
        value.behind.toNat.testBit (j % 8) = false := by
  have within : ((Finset.Ico offset (offset + bits)).filter fun i => bit value.mem i) ⊆
      value.ones offset bits := by
    refine Finset.monotone_filter_right _ fun j _ one => ?_
    by_cases inside : j < value.bits
    · rwa [get_of_lt inside]
    · rw [bit_of_le (by unfold Value.bits at inside; omega)] at one
      cases one
  rw [count, countLoop_eq, Nat.zero_add]
  constructor
  · intro same j member next
    have equal := Finset.eq_of_subset_of_card_le within same.ge
    by_contra set_
    rw [Bool.not_eq_false] at set_
    have one : get value j = true := by
      rw [get_of_ge (by unfold Value.bits; omega), decide_eq_true next, set_]
      rfl
    have counted : j ∈ value.ones offset bits := Finset.mem_filter.mpr ⟨member, one⟩
    rw [← equal, Finset.mem_filter, bit_of_le next.ge] at counted
    cases counted.2
  · intro clear
    refine congrArg Finset.card (Finset.filter_congr fun j member => ?_)
    by_cases inside : j < value.bits
    · rw [get_of_lt inside]
    · rw [bit_of_le (by unfold Value.bits at inside; omega), get_of_ge (Nat.le_of_not_lt inside)]
      by_cases next : j / 8 = value.mem.length
      · rw [clear j member next, Bool.and_false]
      · rw [decide_eq_false next, Bool.false_and]

/-- The bits are addressed consistently exactly when the one that is asked for is not one of the
byte behind the array, and those of this byte that are in the range happen to be clear. -/
theorem addressed_iff (value : Value) (i offset bits : ℕ) (mode : Bool) :
    Addressed value i offset bits mode ↔
      i / 8 ≠ value.mem.length ∧
        ∀ j ∈ Finset.Ico offset (offset + bits), j / 8 = value.mem.length →
          value.behind.toNat.testBit (j % 8) = false := by
  constructor
  · intro addressed
    exact ⟨(get_iff value i).mp addressed.get, (count_iff value offset bits).mp addressed.count⟩
  · rintro ⟨inner, clear⟩
    have length := (set_put value mode offset bits).length
    refine ⟨(get_iff value i).mpr inner, (count_iff value offset bits).mpr clear,
      fun j within => get_set value mode offset bits within, ⟨congrArg (8 * ·) length, rfl⟩, ?_,
      fun junk => count_construct mode bits junk⟩
    rw [(set_put value mode offset bits).total, Nat.zero_add]
    refine congrArg Finset.card (Finset.filter_congr fun j member => ?_)
    have within := Finset.mem_range.mp member
    rw [get_of_lt within, get_of_lt (within.trans_eq (congrArg (8 * ·) length).symm)]

/-- A byte of zeros with a byte of ones behind it: bit 8 is there, and is not counted. -/
theorem bit_behind_read :
    get ⟨[0x00], 0xff⟩ 8 = true ∧ placeRead ⟨[0x00], 0xff⟩ 8 = some 1 ∧
      count ⟨[0x00], 0xff⟩ 0 9 = 0 ∧ ¬ Addressed ⟨[0x00], 0xff⟩ 8 0 9 true := by
  refine ⟨by decide, by decide, by decide, fun addressed => ?_⟩
  have read := addressed.get.2 1 (by decide)
  exact absurd read (by decide)

end BitArray

end CommonCpp
