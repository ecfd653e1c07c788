/-
This file settles what `unpack` writes into its buffer, and what it returns.

The size of the buffer is compared with the size of each code point alone, and not with what is
left of the buffer when some have been written. The number that is returned is never counted.
So the function does what it says when the first code point does not fit, and never when it does.

A buffer is given by the bytes that are written into it, from its start on. A `wchar_t` has 32 bits,
and a code point is what has an encoding in six bytes at most.
-/

import CommonCpp.UString

namespace CommonCpp

open Bytes

namespace Utf8

namespace Unpack

/-! ### The code -/

/-- The loop of `unpack`: what has been written when it stands at `buf`. -/
def unpackLoop (bufsize : ℕ) : List ℕ → Text → ℕ → Text
  | [], out, buf => move out buf [0]
  | code :: string, out, buf =>
    if code = 0 then move out buf [0]
    else
      let ps := chars code
      if ps > (bufsize + (2 ^ 64 - 1)) % 2 ^ 64 then move out buf [0]
      else unpackLoop bufsize string (move out buf (put code)) (buf + ps)

/-- `unpack`: what it writes, and what it returns. The loop does not change `points`. -/
def unpack (string : List ℕ) (bufsize : ℕ) : Text × ℕ := (unpackLoop bufsize string [] 0, 0)

/-! ### What it should do -/

/-- The code points can be written with the null behind them. -/
def Fits (bufsize : ℕ) (codes : List ℕ) : Prop := (encodeText codes).length + 1 ≤ bufsize

/-- The buffer is not left, and holds the longest part of the code points that fits, which is
counted. -/
structure Unpacks (codes : List ℕ) (bufsize : ℕ) (out : Text × ℕ) : Prop where
  within : out.1.length ≤ bufsize
  ended : 0 ∈ out.1
  longest : ∃ front, front <+: codes ∧ Fits bufsize front ∧
    (∀ other, other <+: codes → Fits bufsize other → other.length ≤ front.length) ∧
    string out.1 = encodeText front ∧ out.2 = front.length

/-! ### What is written -/

section Written

variable {bufsize : ℕ} {codes : List ℕ} {code : ℕ}

theorem pred_bufsize (some_ : 1 ≤ bufsize) (word : bufsize < 2 ^ 64) :
    (bufsize + (2 ^ 64 - 1)) % 2 ^ 64 = bufsize - 1 := by
  omega

/-- A code point is too large for the loop when it is as large as the buffer. -/
theorem stops_iff (some_ : 1 ≤ bufsize) (word : bufsize < 2 ^ 64) :
    chars code > (bufsize + (2 ^ 64 - 1)) % 2 ^ 64 ↔ bufsize ≤ chars code := by
  rw [pred_bufsize some_ word]
  omega

theorem unpackLoop_stops (some_ : 1 ≤ bufsize) (word : bufsize < 2 ^ 64)
    (large : bufsize ≤ chars code) (out : Text) (buf : ℕ) :
    unpackLoop bufsize (code :: codes) out buf = move out buf [0] := by
  rw [unpackLoop, if_pos ((stops_iff some_ word).mpr large), ite_self]

theorem unpackLoop_goesOn (some_ : 1 ≤ bufsize) (word : bufsize < 2 ^ 64) (positive : 1 ≤ code)
    (small : chars code < bufsize) (out : Text) (buf : ℕ) :
    unpackLoop bufsize (code :: codes) out buf =
      unpackLoop bufsize codes (move out buf (put code)) (buf + chars code) := by
  have goesOn : ¬ chars code > (bufsize + (2 ^ 64 - 1)) % 2 ^ 64 := fun stops =>
    Nat.not_le.mpr small ((stops_iff some_ word).mp stops)
  rw [unpackLoop, if_neg (Nat.ne_of_gt positive), if_neg goesOn]

theorem head_move {first : UInt8} {buf : ℕ} (behind : 1 ≤ buf) (rest bytes : Text) :
    ∃ rest', move (first :: rest) buf bytes = first :: rest' := by
  obtain ⟨place, rfl⟩ : ∃ place, buf = place + 1 := ⟨buf - 1, (Nat.sub_add_cancel behind).symm⟩
  exact ⟨rest.take place ++ bytes ++ (first :: rest).drop (place + 1 + bytes.length), rfl⟩

/-- What has been written at the start stays. -/
theorem head_unpackLoop {first : UInt8} {rest : Text} {buf : ℕ} (behind : 1 ≤ buf) :
    ∃ rest', unpackLoop bufsize codes (first :: rest) buf = first :: rest' := by
  induction codes generalizing rest buf with
  | nil => exact head_move behind rest [0]
  | cons code codes inductionHypothesis =>
    rw [unpackLoop]
    dsimp only
    split_ifs
    · exact head_move behind rest [0]
    · exact head_move behind rest [0]
    · obtain ⟨rest', same⟩ := head_move behind rest (put code)
      rw [same]
      exact inductionHypothesis (behind.trans (Nat.le_add_right _ _))

theorem chars_pos (code : ℕ) : 1 ≤ chars code := by
  unfold chars
  split_ifs <;> decide

/-- A code point is encoded in as many bytes at least as `chars` says. -/
theorem chars_le_width (code : ℕ) : chars code ≤ width code := by
  by_cases first : code = 0x80
  · rw [first]
    decide
  · exact Nat.le_of_eq (chars_eq first)

end Written

/-! ### The result -/

variable {codes : List ℕ} {bufsize : ℕ}

/-- Nothing can be written before the null where the first code point does not fit. -/
theorem unpacks_null (within : ∀ code ∈ codes, 1 ≤ code ∧ code ≤ 0x7fffffff) (some_ : 1 ≤ bufsize)
    (large : ∀ code, codes.head? = some code → bufsize ≤ chars code) :
    Unpacks codes bufsize ([0], 0) where
  within := some_
  ended := List.mem_singleton.mpr rfl
  longest := by
    refine ⟨[], List.nil_prefix, some_, fun other begins fits => ?_, rfl, rfl⟩
    cases other with
    | nil => exact Nat.le_refl _
    | cons code other =>
      obtain ⟨rest, rfl⟩ := begins
      obtain ⟨positive, small⟩ := within code List.mem_cons_self
      have wide : bufsize ≤ (encode code).length := by
        rw [(encode_encodes positive small).length]
        exact (large code rfl).trans (chars_le_width code)
      have longer : (encode code).length ≤ (encodeText (code :: other)).length := by
        rw [encodeText_cons, List.length_append]
        exact Nat.le_add_right _ _
      exact absurd fits (Nat.not_le.mpr (Nat.lt_succ_of_le (wide.trans longer)))

/-- `unpack` stays within the buffer, writes the longest part that fits and returns how much that is
exactly when that is nothing: when there is no code point, or `chars` says that the first one has
as many bytes as the buffer or more. -/
theorem unpack_iff (within : ∀ code ∈ codes, 1 ≤ code ∧ code ≤ 0x7fffffff) (some_ : 1 ≤ bufsize)
    (word : bufsize < 2 ^ 64) :
    Unpacks codes bufsize (unpack codes bufsize) ↔
      ∀ code, codes.head? = some code → bufsize ≤ chars code := by
  refine ⟨fun unpacks code first => ?_, fun large => ?_⟩
  · by_contra small
    obtain ⟨rest, rfl⟩ : ∃ rest, codes = code :: rest := List.head?_eq_some_iff.mp first
    obtain ⟨positive, bound⟩ := within code List.mem_cons_self
    -- what is written begins with the first byte of the code point, and nothing is counted
    have written : (put code).length ≠ 0 := by
      intro none_
      have encoded := put_encodes positive bound
      have read := encoded.get []
      rw [List.length_eq_zero_iff.mp none_] at read
      cases read
    obtain ⟨byte, bytes, put_⟩ := List.exists_cons_of_length_pos (Nat.pos_of_ne_zero written)
    have visible : byte ≠ 0 := fun null =>
      (put_encodes positive bound).visible (put_ ▸ null ▸ List.mem_cons_self)
    obtain ⟨rest', out⟩ := @head_unpackLoop bufsize rest byte bytes (0 + chars code) (by
      rw [Nat.zero_add]
      exact chars_pos code)
    have start : (unpack (code :: rest) bufsize).1 = byte :: rest' := by
      show unpackLoop bufsize (code :: rest) [] 0 = _
      have moved : move [] 0 (put code) = byte :: bytes := by
        rw [move, List.drop_nil, List.append_nil, List.take_nil, List.nil_append, put_]
      rw [unpackLoop_goesOn some_ word positive (Nat.not_le.mp small), moved, out]
    obtain ⟨front, _, _, _, text, counted⟩ := unpacks.longest
    have nothing : front = [] := List.length_eq_zero_iff.mp counted.symm
    rw [nothing, start, string_cons visible] at text
    cases text
  · have null : unpack codes bufsize = ([0], 0) := by
      cases codes with
      | nil => rfl
      | cons code codes =>
        have stopped := @unpackLoop_stops bufsize codes code some_ word (large code rfl) [] 0
        exact congrArg (·, 0) stopped
    rw [null]
    exact unpacks_null within some_ large

/-- A character of two bytes does not fit into two. -/
theorem unpack_iff_none :
    (∀ code ∈ [0xe9], 1 ≤ code ∧ code ≤ 0x7fffffff) ∧ Unpacks [0xe9] 2 (unpack [0xe9] 2) := by
  have within : ∀ code ∈ [0xe9], 1 ≤ code ∧ code ≤ 0x7fffffff := by decide
  refine ⟨within, (unpack_iff within (by decide) (by decide)).mpr fun code first => ?_⟩
  cases first
  decide

/-- Two letters do not fit into two bytes with their null, and three are written. -/
theorem unpack_overruns : ¬ Unpacks [0x41, 0x42] 2 (unpack [0x41, 0x42] 2) := by
  intro unpacks
  exact absurd unpacks.within (by decide)

end Unpack

end Utf8

end CommonCpp
