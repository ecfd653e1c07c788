/-
This file shows that the SHA-2 digests of the code are those of the standard, however a message is
cut into parts, as long as a part has fewer bytes than a word can count.

The buffer is a memory of bytes while a message is copied to it. Its words are swapped when it is
full, and when the message ends: the last word that has bytes of the message is then cleared behind
them, and what was left of earlier blocks behind that word is overwritten.
-/

import CommonCpp.Sha2

namespace CommonCpp.Sha2

open Blocks Rounds Words

variable {width : ℕ}

namespace Family

variable (family : Family width)

/-! ### The buffer as a memory -/

theorem block_pos : 0 < family.block := Nat.mul_pos (by decide) family.positive

theorem div_lt_of_lt_block {i : ℕ} (inside : i < family.block) : i / family.size < 16 :=
  (Nat.div_lt_iff_lt_mul family.positive).mpr inside

theorem length_bytes (wbuf : Vector (BitVec width) 16) :
    (family.bytes wbuf).toList.length = family.block := Vector.length_toList

theorem getD_bytes (wbuf : Vector (BitVec width) 16) {k offset : ℕ} (place : k < 16)
    (inside : offset < family.size) :
    (family.bytes wbuf).toList.getD (family.size * k + offset) 0 = byteAt wbuf[k] offset := by
  have within : family.size * k + offset < family.block := by
    have rows : family.size * (k + 1) ≤ family.size * 16 := Nat.mul_le_mul_left _ place
    rw [Nat.mul_succ] at rows
    rw [block, Nat.mul_comm 16]
    omega
  have row : (family.size * k + offset) / family.size = k := by
    rw [Nat.mul_add_div family.positive, Nat.div_eq_of_lt inside, Nat.add_zero]
  have column : (family.size * k + offset) % family.size = offset := by
    rw [Nat.mul_add_mod, Nat.mod_eq_of_lt inside]
  have long : k < wbuf.toList.length := by rwa [Vector.length_toList]
  rw [List.getD_eq_getElem _ _ (by rwa [length_bytes]), Vector.getElem_toList]
  simp only [bytes, Vector.getElem_ofFn, row, column]
  rw [List.getD_eq_getElem _ _ long, Vector.getElem_toList]

theorem slice_le {k : ℕ} (place : k < 16) : family.size * (k + 1) ≤ family.block := by
  rw [block, Nat.mul_comm]
  exact Nat.mul_le_mul_right _ place

/-- The words that a memory has. -/
def wordsOf (memory : Vector UInt8 family.block) : Vector (BitVec width) 16 :=
  Vector.ofFn fun i => little (slice family.size memory.toList i)

theorem copy_eq (wbuf : Vector (BitVec width) 16) (pos : ℕ) (sp : List UInt8) :
    family.copy wbuf pos sp = family.wordsOf (memcpy (family.bytes wbuf) pos sp) := rfl

theorem littleBytes_wordsOf (memory : Vector UInt8 family.block) {k : ℕ} (place : k < 16) :
    littleBytes family.size (family.wordsOf memory)[k] = slice family.size memory.toList k := by
  have long : (slice family.size memory.toList k).length = family.size :=
    length_slice (by rw [Vector.length_toList]; exact family.slice_le place)
  have bytes : littleBytes (slice family.size memory.toList k).length
      (little (slice family.size memory.toList k) : BitVec width) =
        slice family.size memory.toList k :=
    littleBytes_little (by rw [long]; exact Nat.le_of_eq family.whole)
  rw [long] at bytes
  simpa [wordsOf] using bytes

theorem bytes_wordsOf (memory : Vector UInt8 family.block) :
    family.bytes (family.wordsOf memory) = memory := by
  refine Vector.ext fun i inside => ?_
  have place := family.div_lt_of_lt_block inside
  have column := Nat.mod_lt i family.positive
  have split : family.size * (i / family.size) + i % family.size = i := Nat.div_add_mod _ _
  have byte := family.getD_bytes (family.wordsOf memory) place column
  rw [← getD_littleBytes column, family.littleBytes_wordsOf memory place, getD_slice column, split,
    List.getD_eq_getElem _ _ (by rwa [length_bytes]),
    List.getD_eq_getElem _ _ (by rwa [Vector.length_toList]), Vector.getElem_toList,
    Vector.getElem_toList] at byte
  exact byte

theorem bytes_copy (wbuf : Vector (BitVec width) 16) (pos : ℕ) (sp : List UInt8) :
    family.bytes (family.copy wbuf pos sp) = memcpy (family.bytes wbuf) pos sp :=
  family.bytes_wordsOf _

/-- A full buffer has the words of its block when all of them are swapped. -/
theorem bsw_wordsOf (memory : Vector UInt8 family.block) :
    family.bsw (family.wordsOf memory) 16 = family.words memory.toList := by
  refine Vector.ext fun k place => ?_
  have word := congrArg (big : List UInt8 → BitVec width) (family.littleBytes_wordsOf memory place)
  simp only [bsw, words, Vector.getElem_ofFn, if_pos place, family.bswap_eq]
  exact word

/-! ### Messages in parts -/

theorem compress_toList (hash : Vector (BitVec width) 8) (memory : Vector UInt8 family.block) :
    family.compressWords hash (family.bsw (family.wordsOf memory) 16) =
      family.compress hash memory.toList := by
  rw [family.bsw_wordsOf, compress]

/-- From an empty buffer the loop takes all the whole blocks and leaves the rest. -/
theorem hashLoop_eq (turns : ℕ) (ctx : Context width) {sp : List UInt8}
    (enough : sp.length ≤ turns) :
    ∃ wbuf, family.hashLoop turns ctx sp 0 family.block =
      ({ ctx with hash := absorb family.compress family.block ctx.hash sp, wbuf },
        rest family.block sp, 0) := by
  induction turns generalizing ctx sp with
  | zero =>
    have empty : sp = [] := List.length_eq_zero_iff.mp (Nat.le_zero.mp enough)
    rw [empty, hashLoop, absorb_nil family.block_pos, rest_nil]
    exact ⟨_, rfl⟩
  | succ turns inductionHypothesis =>
    rw [hashLoop]
    by_cases whole : family.block ≤ sp.length
    · have positive := family.block_pos
      have shorter : (sp.drop family.block).length ≤ turns := by
        rw [List.length_drop]
        omega
      have long : (sp.take family.block).length = family.block := List.length_take_of_le whole
      have filled : (memcpy (family.bytes ctx.wbuf) 0 (sp.take family.block)).toList =
          sp.take family.block := by
        rw [toList_memcpy _ (by rw [long, Nat.zero_add]), List.take_zero, List.nil_append]
      obtain ⟨wbuf, loop⟩ := inductionHypothesis (family.compile
        { ctx with wbuf := family.bsw (family.copy ctx.wbuf 0 (sp.take family.block)) 16 }) shorter
      rw [if_pos whole, loop, hash_compile, copy_eq, compress_toList, filled,
        absorb_of_le positive whole, rest_of_le positive whole]
      exact ⟨_, rfl⟩
    · rw [if_neg whole, absorb_of_lt (Nat.lt_of_not_le whole), rest_of_lt (Nat.lt_of_not_le whole)]
      exact ⟨_, rfl⟩

theorem hashLoop_of_lt (turns : ℕ) (ctx : Context width) {sp : List UInt8} {space : ℕ} (pos : ℕ)
    (short : sp.length < space) : family.hashLoop turns ctx sp pos space = (ctx, sp, pos) := by
  cases turns with
  | zero => rfl
  | succ turns => rw [hashLoop, if_neg (Nat.not_le.mpr short)]

/-- Where the message fills the buffer up, that is the next block. -/
theorem hashLoop_of_le (ctx : Context width) {sp : List UInt8} {pos space : ℕ}
    (positive : 0 < space) (fills : pos + space = family.block) (enough : space ≤ sp.length) :
    ∃ wbuf, family.hashLoop sp.length ctx sp pos space =
      ({ ctx with
          hash := absorb family.compress family.block
            (family.compress ctx.hash
              ((family.bytes ctx.wbuf).toList.take pos ++ sp.take space)) (sp.drop space)
          wbuf }, rest family.block (sp.drop space), 0) := by
  obtain ⟨turns, more⟩ : ∃ turns, sp.length = turns + 1 := ⟨sp.length - 1, by omega⟩
  have shorter : (sp.drop space).length ≤ turns := by
    rw [List.length_drop]
    omega
  have filled : (memcpy (family.bytes ctx.wbuf) pos (sp.take space)).toList =
      (family.bytes ctx.wbuf).toList.take pos ++ sp.take space :=
    toList_memcpy _ (by rw [List.length_take_of_le enough, fills])
  obtain ⟨wbuf, loop⟩ := family.hashLoop_eq turns (family.compile
    { ctx with wbuf := family.bsw (family.copy ctx.wbuf pos (sp.take space)) 16 }) shorter
  rw [more, hashLoop, if_pos enough, loop, hash_compile, copy_eq, compress_toList, filled]
  exact ⟨_, rfl⟩

/-- The context stands for a message that started from this hash. -/
structure Holds (start : Vector (BitVec width) 8) (message : List UInt8) (ctx : Context width) :
    Prop where
  kept : Kept family.compress family.block start message ctx.hash (family.bytes ctx.wbuf).toList
  count_0 : ctx.count_0 = BitVec.ofNat width message.length
  count_1 : ctx.count_1 = BitVec.ofNat width (message.length / 2 ^ width)

theorem begins_holds (start : Vector (BitVec width) 8) (ctx : Context width) :
    family.Holds start [] (ctx.begins start) where
  kept := kept_nil family.block_pos start _
  count_0 := rfl
  count_1 := by rw [List.length_nil, Nat.zero_div]; rfl

theorem Holds.pos_eq {family : Family width} {start : Vector (BitVec width) 8}
    {message : List UInt8} {ctx : Context width} (holds : family.Holds start message ctx) :
    ctx.count_0.toNat % family.block = message.length % family.block := by
  rw [holds.count_0, BitVec.toNat_ofNat]
  exact Nat.mod_mod_of_dvd _ family.divides

/-- The two words of the count go on as one number, where the second is carried by one at most. -/
theorem count_append (first second : ℕ) (small : second < 2 ^ width) :
    (if (BitVec.ofNat width first + BitVec.ofNat width second).toNat < second then
        BitVec.ofNat width (first / 2 ^ width) + 1
      else BitVec.ofNat width (first / 2 ^ width)) =
      BitVec.ofNat width ((first + second) / 2 ^ width) := by
  have positive : 0 < 2 ^ width := Nat.two_pow_pos width
  have below := Nat.mod_lt first positive
  have split := Nat.div_add_mod first (2 ^ width)
  generalize first / 2 ^ width = quotient at split ⊢
  rw [← BitVec.ofNat_add, BitVec.toNat_ofNat]
  by_cases carry : first % 2 ^ width + second < 2 ^ width
  · have under : first + second = 2 ^ width * quotient + (first % 2 ^ width + second) := by omega
    have low : (first + second) % 2 ^ width = first % 2 ^ width + second := by
      rw [under, Nat.mul_add_mod, Nat.mod_eq_of_lt carry]
    have high : (first + second) / 2 ^ width = quotient := by
      rw [under, Nat.mul_add_div positive, Nat.div_eq_of_lt carry, Nat.add_zero]
    rw [low, high, if_neg (by omega)]
  · have beyond : first + second =
        2 ^ width * (quotient + 1) + (first % 2 ^ width + second - 2 ^ width) := by
      rw [Nat.mul_succ]
      omega
    have less : first % 2 ^ width + second - 2 ^ width < 2 ^ width := by omega
    have low : (first + second) % 2 ^ width = first % 2 ^ width + second - 2 ^ width := by
      rw [beyond, Nat.mul_add_mod, Nat.mod_eq_of_lt less]
    have high : (first + second) / 2 ^ width = quotient + 1 := by
      rw [beyond, Nat.mul_add_div positive, Nat.div_eq_of_lt less, Nat.add_zero]
    rw [low, high, if_pos (by omega), BitVec.ofNat_add]
    rfl

/-- After each part of fewer bytes than a word can count, the context stands for the message with
the part behind it. -/
theorem hash_holds {start : Vector (BitVec width) 8} {message : List UInt8} {ctx : Context width}
    (holds : family.Holds start message ctx) {data : List UInt8}
    (small : data.length < 2 ^ width) :
    family.Holds start (message ++ data) (family.hash data ctx) := by
  have positive := family.block_pos
  have below : message.length % family.block < family.block := Nat.mod_lt _ positive
  have count_0 : ctx.count_0 + BitVec.ofNat width data.length =
      BitVec.ofNat width (message ++ data).length := by
    rw [holds.count_0, List.length_append, BitVec.ofNat_add]
  have count_1 := count_append message.length data.length small
  rw [← holds.count_0, ← holds.count_1, ← List.length_append] at count_1
  unfold hash
  simp only [holds.pos_eq, count_1]
  by_cases enough : family.block - message.length % family.block ≤ data.length
  · have fills : message.length % family.block +
        (family.block - message.length % family.block) = family.block := by omega
    obtain ⟨wbuf, loop⟩ := family.hashLoop_of_le
      { ctx with
        count_0 := ctx.count_0 + BitVec.ofNat width data.length
        count_1 := BitVec.ofNat width ((message ++ data).length / 2 ^ width) }
      (Nat.sub_pos_of_lt below) fills enough
    rw [loop]
    refine ⟨holds.kept.append_of_le positive enough fills rfl ?_, count_0, rfl⟩
    rw [bytes_copy]
    exact take_memcpy_rest positive _ _
  · have short : message.length % family.block + data.length < family.block := by omega
    rw [family.hashLoop_of_lt _ _ _ (by omega)]
    refine ⟨holds.kept.append_of_lt positive short ?_, count_0, rfl⟩
    rw [bytes_copy]
    exact take_memcpy _ (Nat.le_of_lt short)

/-! ### The last word of the message -/

theorem getLsbD_128 (i : ℕ) :
    (0x80 : BitVec width).getLsbD i = (decide (i < width) && decide (7 = i)) := by
  have bit : (2 ^ 7).testBit i = decide (7 = i) := Nat.testBit_two_pow
  rw [← bit]
  exact BitVec.getLsbD_ofNat width 128 i

/-- A word is kept above a byte, which gets the one, and cleared below it. -/
theorem byteAt_masked (word : BitVec width) (last : ℕ) {place : ℕ} (inside : place < family.size) :
    byteAt ((word &&& family.mask <<< (8 * last)) ||| (0x80 : BitVec width) <<< (8 * last)) place =
      if last < place then byteAt word place else if place = last then 0x80 else 0 := by
  have whole := family.whole
  refine UInt8.toBitVec_inj.mp (BitVec.eq_of_getLsbD_eq fun j low => ?_)
  have within : 8 * place + j < width := by omega
  rw [getLsbD_byteAt _ _ low, BitVec.getLsbD_or, BitVec.getLsbD_and, BitVec.getLsbD_shiftLeft,
    BitVec.getLsbD_shiftLeft, getLsbD_128, decide_eq_true within, Bool.true_and]
  rcases Nat.lt_trichotomy place last with below | rfl | above
  · rw [if_neg (by omega), if_neg (by omega),
      decide_eq_true (show 8 * place + j < 8 * last by omega)]
    simp
  · have first : 8 * place + j - 8 * place = j := by omega
    have byte : (0x80 : UInt8).toBitVec.getLsbD j = (decide (j < 8) && decide (7 = j)) :=
      getLsbD_128 j
    rw [if_neg (Nat.lt_irrefl _), if_pos rfl, first, byte, decide_eq_true low,
      decide_eq_true (show j < width by omega), decide_eq_false (by omega)]
    by_cases one : j = 7
    · simp [one]
    · rw [family.mask_low j (by omega)]
      simp
  · rw [if_pos above, getLsbD_byteAt _ _ low, decide_eq_false (by omega),
      family.mask_high _ (by omega) (by omega), decide_eq_false (show ¬ 7 = _ by omega)]
    simp

/-- The buffer with the one behind the message, where the words up to the last one are those of
the message with the one and zeros behind it. -/
theorem getElem_mark {wbuf : Vector (BitVec width) 16} {left tail : List UInt8} {k : ℕ}
    (kept : (family.bytes wbuf).toList.take left.length = left)
    (enough : family.size * (left.length / family.size + 1) ≤ (left ++ 0x80 :: tail).length)
    (zeros : ∀ offset < family.size - 1 - left.length % family.size, tail.getD offset 0 = 0)
    (place : k < 16) (upTo : k ≤ left.length / family.size) :
    (family.mark wbuf left.length)[k] = big (slice family.size (left ++ 0x80 :: tail) k) := by
  have column := Nat.mod_lt left.length family.positive
  have split : family.size * (left.length / family.size) + left.length % family.size =
      left.length := Nat.div_add_mod _ _
  have rows : family.size * (k + 1) ≤ family.size * (left.length / family.size + 1) :=
    Nat.mul_le_mul_left _ (by omega)
  have whole := family.whole
  have long : (slice family.size (left ++ 0x80 :: tail) k).length = family.size :=
    length_slice (by omega)
  -- A word that has bytes of the message was swapped.
  have swapped {offset : ℕ} (inside : offset < family.size)
      (before : family.size * k + offset < left.length) :
      byteAt (family.bsw wbuf ((left.length + (family.size - 1)) / family.size))[k]
        (family.size - 1 - offset) = (left ++ 0x80 :: tail).getD (family.size * k + offset) 0 := by
    have counted : k < (left.length + (family.size - 1)) / family.size := by
      rw [Nat.lt_div_iff_mul_lt family.positive, Nat.mul_comm]
      omega
    have bytes : (family.bytes wbuf).toList.getD (family.size * k + offset) 0 =
        left.getD (family.size * k + offset) 0 := by
      rw [← kept, List.getD_eq_getElem?_getD, List.getD_eq_getElem?_getD,
        List.getElem?_take_of_lt before]
    simp only [bsw, Vector.getElem_ofFn, if_pos counted, family.bswap_eq]
    rw [byteAt_big (by rw [length_littleBytes]; omega)
        (by rw [length_littleBytes]; exact Nat.le_of_eq whole), length_littleBytes,
      show family.size - 1 - (family.size - 1 - offset) = offset by omega,
      getD_littleBytes inside, List.getD_append _ _ _ _ before, ← bytes]
    exact (family.getD_bytes wbuf place inside).symm
  rw [mark]
  generalize family.bsw wbuf ((left.length + (family.size - 1)) / family.size) = swaps
    at swapped ⊢
  refine eq_big_of_byteAt (by rw [long, whole]) fun spot inside => ?_
  rw [long] at inside ⊢
  rw [getD_slice (by omega), Vector.getElem_setIfInBounds]
  rcases Nat.eq_or_lt_of_le upTo with last | before
  · have bytes : swaps.toList.getD (left.length / family.size) 0 = swaps[k] := by
      simp [← last, place]
    rw [← last] at split
    rw [if_pos last.symm, family.byteAt_masked _ _ inside, bytes]
    rcases Nat.lt_trichotomy spot (family.size - 1 - left.length % family.size) with
      below | same | above
    · obtain ⟨offset, behind⟩ : ∃ offset, family.size * k + (family.size - 1 - spot) =
          left.length + (offset + 1) :=
        ⟨family.size * k + (family.size - 1 - spot) - left.length - 1, by omega⟩
      rw [if_neg (by omega), if_neg (by omega), behind,
        List.getD_append_right _ _ _ _ (Nat.le_add_right _ _), Nat.add_sub_cancel_left,
        List.getD_cons_succ, zeros offset (by omega)]
    · have here : family.size * k + (family.size - 1 - spot) = left.length := by omega
      rw [if_neg (by omega), if_pos same, here, List.getD_append_right _ _ _ _ (Nat.le_refl _),
        Nat.sub_self, List.getD_cons_zero]
    · rw [if_pos above]
      have kept := swapped (show family.size - 1 - spot < family.size by omega) (by omega)
      rwa [show family.size - 1 - (family.size - 1 - spot) = spot by omega] at kept
  · have under : family.size * (k + 1) ≤ family.size * (left.length / family.size) :=
      Nat.mul_le_mul_left _ before
    rw [Nat.mul_succ] at under
    have kept := swapped (show family.size - 1 - spot < family.size by omega) (by omega)
    rw [if_neg (Nat.ne_of_gt before)]
    rwa [show family.size - 1 - (family.size - 1 - spot) = spot by omega] at kept

/-! ### The count -/

theorem getLsbD_big_drop {wide start count : ℕ} (value : BitVec wide) {i : ℕ}
    (inside : i < width) (within : start + i / 8 < count) :
    (little ((littleBytes count value).drop start) : BitVec width).getLsbD i =
      value.getLsbD (8 * start + i) := by
  rw [getLsbD_little _ inside, List.getD_eq_getElem?_getD, List.getElem?_drop,
    ← List.getD_eq_getElem?_getD, getD_littleBytes within, getLsbD_byteAt _ _ (by omega)]
  congr 1
  omega

theorem high_word (value : BitVec (2 * width)) :
    (big ((bigBytes (2 * family.size) value).take family.size) : BitVec width) =
      little ((littleBytes (2 * family.size) value).drop family.size) := by
  rw [big, bigBytes, List.take_reverse, List.reverse_reverse, length_littleBytes,
    show 2 * family.size - family.size = family.size by omega]

theorem low_word (value : BitVec (2 * width)) :
    (big ((bigBytes (2 * family.size) value).drop family.size) : BitVec width) =
      little ((littleBytes family.size value).drop 0) := by
  have less : (littleBytes (2 * family.size) value).take family.size =
      littleBytes family.size value := by
    rw [littleBytes, ← List.map_take, List.take_range, Nat.min_eq_left (by omega), littleBytes]
  rw [big, bigBytes, List.drop_reverse, List.reverse_reverse, length_littleBytes,
    show 2 * family.size - family.size = family.size by omega, less, List.drop_zero]

/-- The number of bits, the byte of the highest value first. -/
def countBytes (length : ℕ) : List UInt8 :=
  bigBytes (2 * family.size) (BitVec.ofNat (2 * width) (8 * length))

theorem length_countBytes (length : ℕ) : (family.countBytes length).length = 2 * family.size :=
  length_bigBytes _ _

/-- The word of the number of bits that has the higher value. -/
def countHigh (length : ℕ) : BitVec width :=
  BitVec.ofNat width (length / 2 ^ width) <<< 3 ||| BitVec.ofNat width length >>> (width - 3)

/-- The count of the bits, the word of higher value first. -/
theorem count_words (length : ℕ) :
    (countHigh length : BitVec width) = big ((family.countBytes length).take family.size) ∧
      BitVec.ofNat width length <<< 3 = big ((family.countBytes length).drop family.size) := by
  have whole := family.whole
  have positive := family.positive
  have eight (i : ℕ) : (8 * length).testBit i = (decide (i ≥ 3) && length.testBit (i - 3)) := by
    rw [show 8 = 2 ^ 3 from rfl, Nat.testBit_two_pow_mul]
  refine ⟨BitVec.eq_of_getLsbD_eq fun i inside => ?_, BitVec.eq_of_getLsbD_eq fun i inside => ?_⟩
  · rw [countHigh, countBytes, high_word, getLsbD_big_drop _ inside (by omega), BitVec.getLsbD_or,
      BitVec.getLsbD_shiftLeft, BitVec.getLsbD_ushiftRight, BitVec.getLsbD_ofNat,
      BitVec.getLsbD_ofNat, BitVec.getLsbD_ofNat, Nat.testBit_div_two_pow, eight,
      decide_eq_true inside, decide_eq_true (show 8 * family.size + i < 2 * width by omega),
      decide_eq_true (show 8 * family.size + i ≥ 3 by omega)]
    by_cases low : i < 3
    · rw [decide_eq_true low, decide_eq_true (show width - 3 + i < width by omega),
        show width - 3 + i = 8 * family.size + i - 3 by omega]
      simp
    · rw [decide_eq_false low, decide_eq_true (show i - 3 < width by omega),
        decide_eq_false (show ¬ width - 3 + i < width by omega),
        show i - 3 + width = 8 * family.size + i - 3 by omega]
      simp
  · rw [countBytes, low_word, getLsbD_big_drop _ inside (by omega), BitVec.getLsbD_shiftLeft,
      BitVec.getLsbD_ofNat, BitVec.getLsbD_ofNat, eight, Nat.mul_zero, Nat.zero_add,
      decide_eq_true inside, decide_eq_true (show i < 2 * width by omega),
      decide_eq_true (show i - 3 < width by omega)]
    by_cases low : i < 3
    · rw [decide_eq_true low, decide_eq_false (show ¬ i ≥ 3 by omega)]
      simp
    · rw [decide_eq_false low, decide_eq_true (show i ≥ 3 by omega)]
      simp

/-! ### The last blocks -/

theorem zero_eq_big_slice {memory : List UInt8} {k : ℕ}
    (within : family.size * (k + 1) ≤ memory.length)
    (zero : ∀ offset < family.size, memory.getD (family.size * k + offset) 0 = 0) :
    (0 : BitVec width) = big (slice family.size memory k) := by
  have long := length_slice within
  refine eq_big_of_byteAt (by rw [long, family.whole]) fun place inside => ?_
  rw [long] at inside ⊢
  rw [getD_slice (by omega), zero _ (by omega), byteAt]
  simp

theorem getD_zeros {left tail : List UInt8} {one : UInt8} {zeros p : ℕ} (behind : left.length < p)
    (within : p < left.length + 1 + zeros) :
    (left ++ one :: (List.replicate zeros 0 ++ tail)).getD p 0 = 0 := by
  obtain ⟨offset, rfl⟩ : ∃ offset, p = left.length + (offset + 1) := ⟨p - left.length - 1, by omega⟩
  rw [List.getD_append_right _ _ _ _ (Nat.le_add_right _ _), Nat.add_sub_cancel_left,
    List.getD_cons_succ, List.getD_append _ _ _ _ (by rw [List.length_replicate]; omega)]
  simp

theorem fourteen_lt : 14 < 16 := by decide

theorem fifteen_lt : 15 < 16 := by decide

/-- The words with zeros before the count. -/
def counted (p : Vector (BitVec width) 16) (j length : ℕ) : Vector (BitVec width) 16 :=
  ((zeros p j).set 14 (countHigh length) fourteen_lt).set 15 (BitVec.ofNat width length <<< 3)
    fifteen_lt

/-- The block of the rest, where the count has no room in it. -/
def fullBlock (left : List UInt8) : List UInt8 :=
  left ++ 0x80 :: List.replicate (family.block - left.length - 1) 0

/-- The block of the rest and the count. -/
def roomBlock (left : List UInt8) (length : ℕ) : List UInt8 :=
  left ++ 0x80 :: (List.replicate (14 * family.size - (left.length + 1)) 0 ++
    family.countBytes length)

/-- The block of nothing but zeros and the count. -/
def countBlock (length : ℕ) : List UInt8 :=
  List.replicate (14 * family.size) 0 ++ family.countBytes length

theorem length_fullBlock {left : List UInt8} (within : left.length < family.block) :
    (family.fullBlock left).length = family.block := by
  rw [fullBlock, List.length_append, List.length_cons, List.length_replicate]
  omega

theorem length_roomBlock {left : List UInt8} (room : left.length + 1 ≤ 14 * family.size)
    (length : ℕ) : (family.roomBlock left length).length = family.block := by
  simp only [roomBlock, List.length_append, List.length_cons, List.length_replicate,
    length_countBytes, block]
  omega

theorem length_countBlock (length : ℕ) : (family.countBlock length).length = family.block := by
  rw [countBlock, List.length_append, List.length_replicate, length_countBytes, block]
  omega

/-- The block that ends with the count. -/
theorem words_last {p : Vector (BitVec width) 16} {memory : List UInt8} {j : ℕ} (length : ℕ)
    (long : memory.length = family.block)
    (ends : memory.drop (14 * family.size) = family.countBytes length)
    (before : ∀ k (place : k < 16), k < j → k < 14 → p[k] = big (slice family.size memory k))
    (between : ∀ k, j ≤ k → k < 14 → ∀ offset < family.size,
      memory.getD (family.size * k + offset) 0 = 0) :
    counted p j length = family.words memory := by
  have counts := family.count_words length
  rw [← ends] at counts
  refine Vector.ext fun k place => ?_
  simp only [counted, Vector.getElem_set, words, Vector.getElem_ofFn, zeros]
  by_cases last : 15 = k
  · subst last
    have rows : 14 * family.size + family.size = family.size * 15 := by omega
    rw [if_pos rfl, counts.2, List.drop_drop, rows, slice, List.take_of_length_le]
    rw [List.length_drop, long, block]
    omega
  · by_cases next : 14 = k
    · subst next
      rw [if_neg last, if_pos rfl, counts.1, slice, Nat.mul_comm]
    · rw [if_neg last, if_neg next]
      by_cases zero : j ≤ k
      · rw [if_pos ⟨zero, show k < 14 by omega⟩]
        refine family.zero_eq_big_slice ?_ (between k zero (by omega))
        rw [long]
        exact family.slice_le place
      · rw [if_neg (fun both => zero both.1)]
        exact before k place (by omega) (by omega)

/-- Where the count has no room, the block is filled up with zeros. -/
theorem words_full {wbuf : Vector (BitVec width) 16} {left : List UInt8}
    (kept : (family.bytes wbuf).toList.take left.length = left)
    (behind : 14 * family.size ≤ left.length) (within : left.length < family.block) :
    (if left.length < 15 * family.size then (family.mark wbuf left.length).set 15 0
      else family.mark wbuf left.length) = family.words (family.fullBlock left) := by
  have positive := family.positive
  have long := family.length_fullBlock within
  have place := family.div_lt_of_lt_block within
  have row : 14 ≤ left.length / family.size := (Nat.le_div_iff_mul_le positive).mpr behind
  have enough : family.size * (left.length / family.size + 1) ≤
      (family.fullBlock left).length := by
    rw [long]
    exact family.slice_le place
  have marked {k : ℕ} (inside : k < 16) (upTo : k ≤ left.length / family.size) :=
    family.getElem_mark kept enough (fun _ _ => by simp) inside upTo
  refine Vector.ext fun k inside => ?_
  simp only [words, Vector.getElem_ofFn]
  by_cases last : left.length / family.size = 15
  · have beyond : ¬ left.length < 15 * family.size := by
      have few := (Nat.le_div_iff_mul_le positive).mp (Nat.le_of_eq last.symm)
      omega
    rw [if_neg beyond]
    exact marked inside (by omega)
  · have under : left.length < 15 * family.size := by
      rw [← Nat.div_lt_iff_lt_mul positive]
      omega
    rw [if_pos under, Vector.getElem_set]
    by_cases final : 15 = k
    · subst final
      rw [if_pos rfl]
      refine family.zero_eq_big_slice (by rw [long]; exact family.slice_le inside)
        fun offset small => ?_
      have behind : left.length < family.size * 15 + offset := by omega
      have within : family.size * 15 + offset <
          left.length + 1 + (family.block - left.length - 1) := by
        rw [block]
        omega
      have zeros : (left ++ 0x80 :: (List.replicate (family.block - left.length - 1) 0 ++ [])).getD
          (family.size * 15 + offset) 0 = 0 := getD_zeros behind within
      rwa [List.append_nil] at zeros
    · rw [if_neg final]
      exact marked inside (by omega)

/-- Where the count has room, it ends the block of the rest. -/
theorem words_room {wbuf : Vector (BitVec width) 16} {left : List UInt8} (length : ℕ)
    (kept : (family.bytes wbuf).toList.take left.length = left)
    (room : left.length + 1 ≤ 14 * family.size) :
    counted (family.mark wbuf left.length) (left.length / family.size + 1) length =
      family.words (family.roomBlock left length) := by
  have positive := family.positive
  have row : left.length / family.size < 14 := by
    rw [Nat.div_lt_iff_lt_mul positive]
    omega
  have rows : family.size * (left.length / family.size + 1) ≤ 14 * family.size := by
    rw [Nat.mul_comm 14]
    exact Nat.mul_le_mul_left _ row
  have long := family.length_roomBlock room length
  have column := Nat.div_add_mod left.length family.size
  refine family.words_last length long ?_ (fun k place before _ => ?_) fun k after before offset
    small => ?_
  · have front : (left ++ 0x80 :: List.replicate (14 * family.size - (left.length + 1)) 0).length =
        14 * family.size := by
      rw [List.length_append, List.length_cons, List.length_replicate]
      omega
    rw [roomBlock, ← List.cons_append, ← List.append_assoc, List.drop_left' front]
  · have enough : family.size * (left.length / family.size + 1) ≤
        (family.roomBlock left length).length := by
      rw [long, block]
      omega
    refine family.getElem_mark kept enough (fun offset small => ?_) place
      (Nat.le_of_lt_succ before)
    rw [Nat.mul_succ] at rows
    rw [List.getD_append _ _ _ _ (by rw [List.length_replicate]; omega)]
    simp
  · have under : family.size * (left.length / family.size + 1) ≤ family.size * k :=
      Nat.mul_le_mul_left _ after
    have beyond : family.size * (k + 1) ≤ family.size * 14 := Nat.mul_le_mul_left _ before
    rw [Nat.mul_succ] at under beyond
    have below := Nat.mod_lt left.length positive
    exact getD_zeros (by omega) (by omega)

theorem count_0_compile (ctx : Context width) :
    (family.compile ctx).count_0 = ctx.count_0 := rfl

theorem count_1_compile (ctx : Context width) :
    (family.compile ctx).count_1 = ctx.count_1 := rfl

theorem words_second (p : Vector (BitVec width) 16) (length : ℕ) :
    counted p 0 length = family.words (family.countBlock length) := by
  refine family.words_last length (family.length_countBlock length) ?_
    (fun k _ before => absurd before (Nat.not_lt_zero k)) fun k _ before offset small => ?_
  · rw [countBlock, List.drop_left' List.length_replicate]
  · have beyond : family.size * (k + 1) ≤ family.size * 14 := Nat.mul_le_mul_left _ before
    rw [Nat.mul_succ] at beyond
    rw [countBlock, List.getD_append _ _ _ _ (by rw [List.length_replicate]; omega)]
    simp

theorem absorb_last {block : List UInt8} (whole : block.length = family.block)
    (hash : Vector (BitVec width) 8) (words : Vector (BitVec width) 16)
    (same : words = family.words block) :
    absorb family.compress family.block hash block = family.compressWords hash words := by
  have one : absorb family.compress family.block hash (block ++ []) = _ :=
    absorb_block family.block_pos whole hash []
  rw [List.append_nil, absorb_nil family.block_pos] at one
  rw [one, same, compress]

/-- The last blocks of the code are those of the message with its padding. -/
theorem hash_finish {start : Vector (BitVec width) 8} {message : List UInt8} {ctx : Context width}
    (holds : family.Holds start message ctx) :
    (family.finish ctx).hash = absorb family.compress family.block start
      (message ++ family.padding message.length) := by
  have positive := family.positive
  have left : (rest family.block message).length = message.length % family.block :=
    length_rest message
  have below := rest_lt family.block_pos message
  have kept := holds.kept.take_buffer
  rw [← left] at kept
  rw [absorb_append family.block_pos, ← holds.kept.state_eq, padding, ← countBytes, ← left]
  unfold finish
  simp only [holds.pos_eq, ← left]
  generalize rest family.block message = left at kept below ⊢
  by_cases full : left.length > family.block - (2 * family.size + 1)
  · have behind : 14 * family.size ≤ left.length := by
      rw [block] at full
      omega
    have zeros : (30 * family.size - 1 - left.length) % family.block =
        (family.block - left.length - 1) + 14 * family.size := by
      rw [block] at below ⊢
      rw [Nat.mod_eq_of_lt (by omega)]
      omega
    have first := family.words_full kept behind below
    have split : left ++ (0x80 :: List.replicate (family.block - left.length - 1 +
        14 * family.size) 0 ++ family.countBytes message.length) =
        family.fullBlock left ++ family.countBlock message.length := by
      rw [← List.replicate_append_replicate]
      simp only [fullBlock, countBlock, List.cons_append, List.append_assoc]
    rw [if_pos full, zeros, split, absorb_block family.block_pos (family.length_fullBlock below)]
    simp only
    rw [hash_compile, hash_compile, compress, ← first, count_0_compile, count_1_compile]
    simp only [holds.count_0, holds.count_1]
    exact (family.absorb_last (family.length_countBlock _) _ _ (family.words_second _ _)).symm
  · have room : left.length + 1 ≤ 14 * family.size := by
      rw [block] at full below
      omega
    have zeros : (30 * family.size - 1 - left.length) % family.block =
        14 * family.size - (left.length + 1) := by
      rw [block, Nat.mod_eq_sub_mod (by omega), Nat.mod_eq_of_lt (by omega)]
      omega
    rw [if_neg full]
    simp only
    rw [hash_compile, holds.count_0, holds.count_1, zeros, List.cons_append]
    exact (family.absorb_last (family.length_roomBlock room _) _ _
      (family.words_room _ kept room)).symm

/-- The digest at the end is that of the message. -/
theorem end_eq {start : Vector (BitVec width) 8} {message : List UInt8} {ctx : Context width}
    (holds : family.Holds start message ctx) {hlen : ℕ} (short : hlen ≤ 8 * family.size) :
    family.end_ hlen ctx = family.digest start hlen message := by
  have eight : (family.finish ctx).hash.toList.length = 8 := Vector.length_toList
  have bytes := map_byteAt_eq_flatMap family.size (family.finish ctx).hash.toList
  rw [eight] at bytes
  rw [digest, ← family.hash_finish holds, ← bytes, ← List.map_take, List.take_range,
    Nat.min_eq_left short]
  rfl

theorem foldl_hash_holds {start : Vector (BitVec width) 8} {message : List UInt8}
    {ctx : Context width} (holds : family.Holds start message ctx) (parts : List (List UInt8))
    (small : ∀ part ∈ parts, part.length < 2 ^ width) :
    family.Holds start (message ++ parts.flatten)
      (parts.foldl (fun ctx part => family.hash part ctx) ctx) :=
  holds_foldl (fun ctx message => family.Holds start message ctx)
    (fun part member _ _ before => family.hash_holds before (small part member)) holds

theorem end_foldl {start : Vector (BitVec width) 8} (ctx : Context width)
    {parts : List (List UInt8)} (small : ∀ part ∈ parts, part.length < 2 ^ width) {hlen : ℕ}
    (short : hlen ≤ 8 * family.size) :
    family.end_ hlen (parts.foldl (fun ctx part => family.hash part ctx) (ctx.begins start)) =
      family.digest start hlen parts.flatten :=
  family.end_eq (family.foldl_hash_holds (family.begins_holds start ctx) parts small) short

end Family

/-! ### The digests -/

theorem sha256_end_eq {message : List UInt8} {ctx : sha256_ctx}
    (holds : sha256Family.Holds i256 message ctx) :
    sha256_end ctx = sha256Family.digest i256 32 message :=
  sha256Family.end_eq holds (by decide)

theorem sha384_end_eq {message : List UInt8} {ctx : sha512_ctx}
    (holds : sha512Family.Holds i384 message ctx) :
    sha384_end ctx = sha512Family.digest i384 48 message :=
  sha512Family.end_eq holds (by decide)

/-- The two digests of words of 32 bits are those of the standard. -/
theorem sha256_end_foldl (ctx : sha256_ctx) (parts : List (List UInt8))
    (small : ∀ part ∈ parts, part.length < 2 ^ 32) :
    sha256_end (parts.foldl (fun ctx part => sha256_hash part ctx) (sha256_begin ctx)) =
        sha256Family.digest i256 32 parts.flatten ∧
      sha224_end (parts.foldl (fun ctx part => sha256_hash part ctx) (sha224_begin ctx)) =
        sha256Family.digest i224 28 parts.flatten :=
  ⟨sha256Family.end_foldl ctx small (by decide), sha256Family.end_foldl ctx small (by decide)⟩

theorem sha256_end_foldl_abc :
    sha256_end ([[0x61], [0x62, 0x63]].foldl (fun ctx part => sha256_hash part ctx)
        (sha256_begin ⟨0, 0, i256, Vector.replicate 16 0⟩)) =
      sha256Family.digest i256 32 [0x61, 0x62, 0x63] :=
  (sha256_end_foldl ⟨0, 0, i256, Vector.replicate 16 0⟩ [[0x61], [0x62, 0x63]]
    (by decide)).1

/-- The two digests of words of 64 bits are those of the standard. -/
theorem sha512_end_foldl (ctx : sha512_ctx) (parts : List (List UInt8))
    (small : ∀ part ∈ parts, part.length < 2 ^ 64) :
    sha512_end (parts.foldl (fun ctx part => sha512_hash part ctx) (sha512_begin ctx)) =
        sha512Family.digest i512 64 parts.flatten ∧
      sha384_end (parts.foldl (fun ctx part => sha512_hash part ctx) (sha384_begin ctx)) =
        sha512Family.digest i384 48 parts.flatten :=
  ⟨sha512Family.end_foldl ctx small (by decide), sha512Family.end_foldl ctx small (by decide)⟩

theorem sha512_end_foldl_abc :
    sha512_end ([[0x61], [0x62, 0x63]].foldl (fun ctx part => sha512_hash part ctx)
        (sha512_begin ⟨0, 0, i512, Vector.replicate 16 0⟩)) =
      sha512Family.digest i512 64 [0x61, 0x62, 0x63] :=
  (sha512_end_foldl ⟨0, 0, i512, Vector.replicate 16 0⟩ [[0x61], [0x62, 0x63]]
    (by decide)).1

end CommonCpp.Sha2
