/-
This file gives what is left of a message that is taken in by blocks of one size: the state
after all of its whole blocks, and the rest behind them.

A message may come in parts. When the rest of the first part is put in front of the second,
the state and the rest are those of the whole message, so nothing depends on where it was cut.
A reader that keeps the state and, at the front of a buffer, the rest goes on with the next part
in one of two ways: the buffer takes it up, or it is filled up and its block goes first.
-/

import Mathlib.Data.List.TakeDrop
import Mathlib.Tactic.Common

namespace Blocks

variable {State Item : Type*} (compress : State → List Item → State) (size : ℕ)

/-- The state after this many blocks. -/
def absorbBlocks : ℕ → State → List Item → State
  | 0, state, _ => state
  | count + 1, state, message =>
    absorbBlocks count (compress state (message.take size)) (message.drop size)

/-- The state after all the whole blocks of a message. -/
def absorb (state : State) (message : List Item) : State :=
  absorbBlocks compress size (message.length / size) state message

/-- What follows the whole blocks of a message. -/
def rest (message : List Item) : List Item := message.drop (message.length / size * size)

variable {compress size}

/-! ### Single blocks -/

theorem absorb_of_lt {message : List Item} (short : message.length < size) (state : State) :
    absorb compress size state message = state := by
  rw [absorb, Nat.div_eq_of_lt short, absorbBlocks]

theorem rest_of_lt {message : List Item} (short : message.length < size) :
    rest size message = message := by
  rw [rest, Nat.div_eq_of_lt short, Nat.zero_mul, List.drop_zero]

@[simp]
theorem absorb_nil (positive : 0 < size) (state : State) :
    absorb compress size state [] = state := absorb_of_lt positive state

@[simp]
theorem rest_nil : rest size ([] : List Item) = [] := List.drop_nil

theorem length_rest (message : List Item) :
    (rest size message).length = message.length % size := by
  rw [rest, List.length_drop, Nat.mul_comm, Nat.mod_eq_sub_mul_div]

theorem rest_lt (positive : 0 < size) (message : List Item) :
    (rest size message).length < size := by
  rw [length_rest]
  exact Nat.mod_lt _ positive

theorem length_div_of_le {message : List Item} (positive : 0 < size)
    (enough : size ≤ message.length) :
    message.length / size = (message.drop size).length / size + 1 := by
  rw [List.length_drop, Nat.div_eq_sub_div positive enough]

theorem absorb_of_le {message : List Item} (positive : 0 < size) (enough : size ≤ message.length)
    (state : State) :
    absorb compress size state message =
      absorb compress size (compress state (message.take size)) (message.drop size) := by
  rw [absorb, length_div_of_le positive enough, absorbBlocks, absorb]

theorem rest_of_le {message : List Item} (positive : 0 < size) (enough : size ≤ message.length) :
    rest size message = rest size (message.drop size) := by
  rw [rest, rest, length_div_of_le positive enough, Nat.add_one_mul, List.drop_drop, Nat.add_comm]

theorem absorb_block {block : List Item} (positive : 0 < size) (whole : block.length = size)
    (state : State) (message : List Item) :
    absorb compress size state (block ++ message) =
      absorb compress size (compress state block) message := by
  rw [absorb_of_le positive (by rw [List.length_append, whole]; exact Nat.le_add_right _ _),
    ← whole, List.take_left, List.drop_left]

theorem rest_block {block : List Item} (positive : 0 < size) (whole : block.length = size)
    (message : List Item) : rest size (block ++ message) = rest size message := by
  rw [rest_of_le positive (by rw [List.length_append, whole]; exact Nat.le_add_right _ _),
    ← whole, List.drop_left]

/-- A message is shorter than a block, or it has a block in front of another message. -/
theorem block_induction {motive : List Item → Prop} (positive : 0 < size)
    (short : ∀ message, message.length < size → motive message)
    (block : ∀ message, size ≤ message.length → motive (message.drop size) → motive message)
    (message : List Item) : motive message := by
  induction count : message.length / size generalizing message with
  | zero => exact short message ((Nat.div_eq_zero_iff_lt positive).mp count)
  | succ count inductionHypothesis =>
    rcases Nat.lt_or_ge message.length size with less | enough
    · exact short message less
    · rw [length_div_of_le positive enough] at count
      exact block message enough (inductionHypothesis _ (Nat.succ.inj count))

/-- Only what is made of whole blocks matters. -/
theorem absorb_congr {compress' : State → List Item → State} (positive : 0 < size)
    (same : ∀ state block, block.length = size → compress state block = compress' state block)
    (state : State) (message : List Item) :
    absorb compress size state message = absorb compress' size state message := by
  induction message using block_induction positive generalizing state with
  | short message short => rw [absorb_of_lt short, absorb_of_lt short]
  | block message enough inductionHypothesis =>
    rw [absorb_of_le positive enough, absorb_of_le positive enough,
      same _ _ (List.length_take_of_le enough), inductionHypothesis]

/-! ### Messages in parts -/

theorem absorb_append_and_rest_append (compress : State → List Item → State)
    (positive : 0 < size) (state : State) (first second : List Item) :
    absorb compress size state (first ++ second) =
        absorb compress size (absorb compress size state first) (rest size first ++ second) ∧
      rest size (first ++ second) = rest size (rest size first ++ second) := by
  -- A whole block in front is taken off both sides.
  induction first using block_induction positive generalizing state with
  | short first short =>
    rw [absorb_of_lt short, rest_of_lt short]
    exact ⟨rfl, rfl⟩
  | block first enough inductionHypothesis =>
    have whole : (first.take size).length = size := List.length_take_of_le enough
    have split : first ++ second = first.take size ++ (first.drop size ++ second) := by
      rw [← List.append_assoc, List.take_append_drop]
    rw [split, absorb_block positive whole, rest_block positive whole,
      absorb_of_le positive enough, rest_of_le positive enough]
    exact inductionHypothesis _

/-- What stands for a message stands for it with all the parts that it takes. -/
theorem holds_foldl {Context : Type*} (holds : Context → List Item → Prop)
    {update : Context → List Item → Context} {parts : List (List Item)}
    (takes : ∀ part ∈ parts, ∀ context message, holds context message →
      holds (update context part) (message ++ part))
    {context : Context} {message : List Item} (first : holds context message) :
    holds (parts.foldl update context) (message ++ parts.flatten) := by
  induction parts generalizing context message with
  | nil => simpa using first
  | cons part parts inductionHypothesis =>
    obtain ⟨takesPart, takesRest⟩ := List.forall_mem_cons.mp takes
    have next := inductionHypothesis takesRest (takesPart context message first)
    rwa [List.append_assoc] at next

/-- The whole blocks of a message are those of its first part, and those of the rest and the
second part. -/
theorem absorb_append (positive : 0 < size) (state : State) (first second : List Item) :
    absorb compress size state (first ++ second) =
      absorb compress size (absorb compress size state first) (rest size first ++ second) :=
  (absorb_append_and_rest_append compress positive state first second).1

theorem rest_append (positive : 0 < size) (first second : List Item) :
    rest size (first ++ second) = rest size (rest size first ++ second) :=
  (absorb_append_and_rest_append (fun state _ => state) positive () first second).2

/-! ### What a second part fills up -/

theorem absorb_append_of_lt {first second : List Item} (positive : 0 < size)
    (short : (rest size first).length + second.length < size) (state : State) :
    absorb compress size state (first ++ second) = absorb compress size state first := by
  rw [absorb_append positive, absorb_of_lt (by rwa [List.length_append])]

theorem rest_append_of_lt {first second : List Item} (positive : 0 < size)
    (short : (rest size first).length + second.length < size) :
    rest size (first ++ second) = rest size first ++ second := by
  rw [rest_append positive, rest_of_lt (by rwa [List.length_append])]

theorem rest_append_eq_block (first second : List Item) (need : ℕ) :
    rest size first ++ second = (rest size first ++ second.take need) ++ second.drop need := by
  rw [List.append_assoc, List.take_append_drop]

theorem length_filled {first second : List Item} {need : ℕ} (enough : need ≤ second.length)
    (fills : (rest size first).length + need = size) :
    (rest size first ++ second.take need).length = size := by
  rw [List.length_append, List.length_take_of_le enough, fills]

/-- Where the second part fills up the rest of the first, that is the next block. -/
theorem absorb_append_of_le {first second : List Item} {need : ℕ} (positive : 0 < size)
    (enough : need ≤ second.length) (fills : (rest size first).length + need = size)
    (state : State) :
    absorb compress size state (first ++ second) =
      absorb compress size
        (compress (absorb compress size state first) (rest size first ++ second.take need))
        (second.drop need) := by
  rw [absorb_append positive, rest_append_eq_block first second need,
    absorb_block positive (length_filled enough fills)]

theorem rest_append_of_le {first second : List Item} {need : ℕ} (positive : 0 < size)
    (enough : need ≤ second.length) (fills : (rest size first).length + need = size) :
    rest size (first ++ second) = rest size (second.drop need) := by
  rw [rest_append positive, rest_append_eq_block first second need,
    rest_block positive (length_filled enough fills)]

/-! ### A reader with a buffer -/

/-- A reader keeps the state after the whole blocks, and the rest at the front of its buffer. -/
structure Kept (compress : State → List Item → State) (size : ℕ) (start : State)
    (message : List Item) (state : State) (buffer : List Item) : Prop where
  state_eq : state = absorb compress size start message
  take_buffer : buffer.take (message.length % size) = rest size message

variable {start state : State} {message buffer buffer' input : List Item}

theorem kept_nil (positive : 0 < size) (start : State) (buffer : List Item) :
    Kept compress size start [] start buffer where
  state_eq := (absorb_nil positive start).symm
  take_buffer := by rw [List.length_nil, Nat.zero_mod, List.take_zero, rest_nil]

theorem length_append_mod_of_lt (short : message.length % size + input.length < size) :
    (message ++ input).length % size = message.length % size + input.length := by
  rw [List.length_append, Nat.add_mod, Nat.mod_eq_of_lt (show input.length < size by omega),
    Nat.mod_eq_of_lt short]

/-- The buffer takes the input up. -/
theorem Kept.append_of_lt (kept : Kept compress size start message state buffer)
    (positive : 0 < size) (short : message.length % size + input.length < size)
    (taken : buffer'.take (message.length % size + input.length) =
      buffer.take (message.length % size) ++ input) :
    Kept compress size start (message ++ input) state buffer' := by
  have below : (rest size message).length + input.length < size := by rwa [length_rest]
  refine ⟨?_, ?_⟩
  · rw [kept.state_eq, absorb_append_of_lt positive below]
  · rw [length_append_mod_of_lt short, taken, kept.take_buffer, rest_append_of_lt positive below]

/-- The buffer is filled up, its block goes first, and what follows starts anew. -/
theorem Kept.append_of_le (kept : Kept compress size start message state buffer)
    (positive : 0 < size) {need : ℕ} (enough : need ≤ input.length)
    (fills : message.length % size + need = size) {state' : State}
    (absorbed : state' = absorb compress size
      (compress state (buffer.take (message.length % size) ++ input.take need)) (input.drop need))
    (taken : buffer'.take ((input.drop need).length % size) = rest size (input.drop need)) :
    Kept compress size start (message ++ input) state' buffer' := by
  have full : (rest size message).length + need = size := by rwa [length_rest]
  have left : (message ++ input).length % size = (input.drop need).length % size := by
    rw [← length_rest, rest_append_of_le positive enough full, length_rest]
  refine ⟨?_, ?_⟩
  · rw [absorbed, absorb_append_of_le positive enough full, kept.take_buffer, kept.state_eq]
  · rw [left, taken, rest_append_of_le positive enough full]

end Blocks
