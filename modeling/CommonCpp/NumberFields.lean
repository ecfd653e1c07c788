/-
This file settles whether a number that is set in a field of fixed width is read back.

`Number::set` writes the digits of a number over what was in the field, and blanks the digits that
are left behind them. It writes no digit of zero, and blanks nothing that is not a digit: a field
that starts with a sign keeps its number when zero is set. `ZNumber::set` writes the whole field.
But the operators that change a number are those of `Number` for both, and set it as `Number` does.

A field is the start of a memory. A `long` holds every number of ten digits and does not wrap.
-/

import CommonCpp.Machine
import CommonCpp.Number

namespace CommonCpp

open Ctype

/-! ### The code -/

namespace Number

/-- The loop of `set` over the powers of ten, in which a digit has been written when `z`. -/
def setLoop : ℕ → Bool → ℤ → Text
  | 0, _, _ => []
  | exp + 1, z, value =>
    let max := 10 ^ exp
    let left :=
      if value ≥ max then setLoop exp true (value - value / max * max) else setLoop exp z value
    if value ≥ max ∨ z then (0x30 + UInt8.ofInt (value / max)) :: left else left

/-- The loop behind it, which blanks the digits that are left. -/
def blank : ℕ → Text → Text
  | 0, bp => bp
  | _ + 1, [] => []
  | count + 1, char :: bp => if isdigit char then 0x20 :: blank count bp else char :: bp

/-- `set` into the memory from the buffer on. A number without room for a digit has no outcome,
since the first power of ten is not found. -/
def set (size : ℕ) (value : ℤ) (buffer : Text) : Option Text :=
  let count := if value < 0 then size - 1 else size
  let written :=
    if value < 0 then 0x2d :: setLoop count false (-value) else setLoop count false value
  if count = 0 then none
  else some (written ++ blank (size - written.length) (buffer.drop written.length))

end Number

namespace ZNumber

/-- `set` into the memory from the buffer on. -/
def write (size : ℕ) (value : ℤ) (buffer : Text) : Option Text :=
  let count := if value < 0 then size - 1 else size
  if count = 0 then none else some (set size value ++ buffer.drop (set size value).length)

end ZNumber

namespace Number

/-- The calls that change a number. -/
inductive Call where
  | assign (value : ℤ)
  | add (value : ℤ)
  | sub (value : ℤ)
  | decrement
  | increment

/-- What a call leaves in the memory, and what it returns. The assignment of a `ZNumber`, where `z`,
is its own; it inherits the other operators. -/
def Call.run (z : Bool) (size : ℕ) (buffer : Text) : Call → Option (Text × ℤ)
  | assign value =>
    (if z then ZNumber.write size value buffer else Number.set size value buffer).map (·, value)
  | add value =>
    let value1 := get size buffer + value
    (Number.set size value1 buffer).map (·, value1)
  | sub value =>
    let value1 := get size buffer - value
    (Number.set size value1 buffer).map (·, value1)
  | decrement =>
    let val := get size buffer - 1
    (Number.set size val buffer).map (·, val)
  | increment =>
    let val := get size buffer + 1
    (Number.set size val buffer).map (·, val)

example : Number.set 5 42 [0x2d, 0x39, 0x38, 0x37, 0x36] =
    some [0x34, 0x32, 0x20, 0x20, 0x20] := by decide +kernel

/-! ### Numbers that fit -/

/-- Whether the decimal form of a number, with its sign, has room in so many characters. -/
def Fits (size : ℕ) (value : ℤ) : Prop :=
  0 < size ∧ if value < 0 then -value < 10 ^ (size - 1) else value < 10 ^ size

instance (size : ℕ) (value : ℤ) : Decidable (Fits size value) := by
  unfold Fits
  infer_instance

/-- A field that starts with a sign. -/
def Signed (buffer : Text) : Prop := buffer.head? = some 0x2d ∨ buffer.head? = some 0x2b

/-- A number that fits is none or positive, or negative with room for its sign. -/
theorem Fits.cases {size : ℕ} {value : ℤ} (fits : Fits size value) :
    (∃ n : ℕ, value = n ∧ n < 10 ^ size) ∨
      ∃ n : ℕ, value = -n ∧ 0 < n ∧ n < 10 ^ (size - 1) ∧ 1 < size := by
  obtain ⟨some_, bound⟩ := fits
  split at bound
  next negative =>
    obtain ⟨n, rfl⟩ : ∃ n : ℕ, value = -n := ⟨value.natAbs, by omega⟩
    have small : n < 10 ^ (size - 1) := by
      rw [neg_neg] at bound
      exact_mod_cast bound
    refine Or.inr ⟨n, rfl, by omega, small, ?_⟩
    by_contra narrow
    rw [show size - 1 = 0 by omega] at small
    omega
  next positive =>
    obtain ⟨n, rfl⟩ := Int.eq_ofNat_of_zero_le (not_lt.mp positive)
    exact Or.inl ⟨n, rfl, by exact_mod_cast bound⟩

/-! ### What `set` writes -/

/-- Behind the first digit that is written, all of them are. -/
theorem setLoop_started {exp value : ℕ} (small : value < 10 ^ exp) :
    setLoop exp true value = decimal exp value := by
  induction exp generalizing value with
  | zero => rfl
  | succ exp inductionHypothesis =>
    have less : value % 10 ^ exp < 10 ^ exp := Nat.mod_lt _ (Nat.pow_pos (by decide))
    have left : (if (value : ℤ) ≥ 10 ^ exp then
        setLoop exp true (value - value / 10 ^ exp * 10 ^ exp) else setLoop exp true value) =
        decimal exp value := by
      split
      next => rw [place_left, inductionHypothesis less, decimal_mod le_rfl]
      next below =>
        have below : value < 10 ^ exp := by exact_mod_cast not_le.mp below
        exact inductionHypothesis below
    rw [setLoop, left, if_pos (Or.inr rfl), place_char small]
    rfl

/-- The loop writes the digits of a number without leading zeros, and none of zero. -/
theorem setLoop_eq {exp value : ℕ} (small : value < 10 ^ exp) :
    ∃ k ≤ exp, setLoop exp false value = decimal k value ∧ value < 10 ^ k ∧
      (k = 0 ↔ value = 0) := by
  induction exp with
  | zero =>
    have none_ : value = 0 := by omega
    exact ⟨0, le_rfl, rfl, small, iff_of_true rfl none_⟩
  | succ exp inductionHypothesis =>
    rw [setLoop]
    by_cases starts : (value : ℤ) ≥ 10 ^ exp
    · have less : value % 10 ^ exp < 10 ^ exp := Nat.mod_lt _ (Nat.pow_pos (by decide))
      have positive : 10 ^ exp ≤ value := by exact_mod_cast starts
      have some_ : 0 < 10 ^ exp := Nat.pow_pos (by decide)
      refine ⟨exp + 1, le_rfl, ?_, small, iff_of_false (Nat.succ_ne_zero exp) (by omega)⟩
      rw [if_pos (Or.inl starts), if_pos starts, place_char small, place_left,
        setLoop_started less, decimal_mod le_rfl]
      rfl
    · have below : value < 10 ^ exp := by exact_mod_cast not_le.mp starts
      obtain ⟨k, inside, written, bound, none_⟩ := inductionHypothesis below
      refine ⟨k, Nat.le_succ_of_le inside, ?_, bound, none_⟩
      rw [if_neg (fun either => either.elim starts Bool.false_ne_true), if_neg starts, written]

theorem length_blank (count : ℕ) (bp : Text) : (blank count bp).length = bp.length := by
  induction count generalizing bp with
  | zero => rfl
  | succ count inductionHypothesis =>
    cases bp with
    | nil => rfl
    | cons char bp =>
      rw [blank]
      split
      · rw [List.length_cons, List.length_cons, inductionHypothesis]
      · rfl

/-- Nothing is blanked behind the field. -/
theorem drop_blank (count : ℕ) (bp : Text) : (blank count bp).drop count = bp.drop count := by
  induction count generalizing bp with
  | zero => rfl
  | succ count inductionHypothesis =>
    cases bp with
    | nil => rfl
    | cons char bp =>
      rw [blank]
      split
      · exact inductionHypothesis bp
      · rfl

/-- No digit is read where they have been blanked. -/
theorem getLoop_blank (count : ℕ) (bp : Text) (ret : ℤ) :
    getLoop count (blank count bp) ret = ret := by
  cases count with
  | zero => rfl
  | succ count =>
    cases bp with
    | nil => rfl
    | cons char bp =>
      rw [blank]
      split
      next => rfl
      next other => rw [getLoop, if_neg other]

/-! ### What is read back -/

variable {size : ℕ} {buffer : Text}

theorem get_unsigned (unsigned : ¬ Signed buffer) : get size buffer = getLoop size buffer 0 := by
  rw [get, if_neg fun minus => unsigned (Or.inl minus), if_neg fun plus => unsigned (Or.inr plus)]

/-- A field that starts with a digit is read from there. -/
theorem get_of_digit {k n : ℕ} (some_ : 0 < k) (small : n < 10 ^ k) (fits : k ≤ size)
    (rest : Text) : get size (decimal k n ++ rest) = getLoop (size - k) rest n := by
  obtain ⟨more, rfl⟩ := Nat.exists_eq_add_of_le fits
  have loop := getLoop_append small more rest 0
  rw [zero_mul, zero_add] at loop
  have unsigned : ¬ Signed (decimal k n ++ rest) := by
    obtain ⟨k, rfl⟩ := Nat.exists_eq_succ_of_ne_zero some_.ne'
    have all : ∀ d < 10, digit d ≠ 0x2d ∧ digit d ≠ 0x2b := by decide
    obtain ⟨minus, plus⟩ := all (n / 10 ^ k % 10) (Nat.mod_lt _ (by decide))
    rintro (head | head)
    · exact minus (Option.some.inj head)
    · exact plus (Option.some.inj head)
  rw [Nat.add_sub_cancel_left, ← loop, get_unsigned unsigned]

theorem get_of_minus (size : ℕ) (rest : Text) :
    get size (0x2d :: rest) = -getLoop (size - 1) rest 0 := if_pos rfl

/-- Where zero is set, a field that starts with a sign is left as it is, and any other reads as
zero. -/
theorem get_blank (some_ : 0 < size) :
    get size (blank size buffer) = 0 ↔ (Signed buffer → get size buffer = 0) := by
  by_cases signed : Signed buffer
  · have kept : blank size buffer = buffer := by
      obtain ⟨count, rfl⟩ := Nat.exists_eq_succ_of_ne_zero some_.ne'
      cases buffer with
      | nil => rfl
      | cons char bp =>
        have sign : isdigit char = false := by
          rcases signed with head | head
          · cases head
            rfl
          · cases head
            rfl
        rw [blank, sign, if_neg Bool.false_ne_true]
    rw [kept]
    exact ⟨fun zero _ => zero, fun zero => zero signed⟩
  · have unsigned : ¬ Signed (blank size buffer) := by
      obtain ⟨count, rfl⟩ := Nat.exists_eq_succ_of_ne_zero some_.ne'
      cases buffer with
      | nil => exact signed
      | cons char bp =>
        rw [blank]
        split
        · rintro (head | head) <;> cases head
        · exact signed
    rw [get_unsigned unsigned, getLoop_blank]
    exact iff_of_true rfl fun sign => absurd sign signed

/-! ### One number set in a field -/

/-- A number is set in the field, nothing is changed behind it, and the number is read back. -/
def SetsNumber (size : ℕ) (value : ℤ) (buffer : Text) : Prop :=
  ∃ after, set size value buffer = some after ∧ after.length = buffer.length ∧
    after.drop size = buffer.drop size ∧ get size after = value

/-- Likewise of a `ZNumber`, which fills the field with a sign or none and digits. -/
def SetsZNumber (size : ℕ) (value : ℤ) (buffer : Text) : Prop :=
  ∃ after, ZNumber.write size value buffer = some after ∧ after.length = buffer.length ∧
    after.drop size = buffer.drop size ∧ get size after = value ∧
    ∃ sign places, after.take size = sign ++ places ∧ (sign = [] ∨ sign = [0x2d]) ∧
      places ≠ [] ∧ ∀ char ∈ places, isdigit char

/-- The digits of a number over the start of a field, and the blanks behind them. -/
theorem over_field {written : Text} (inside : written.length ≤ size) (room : size ≤ buffer.length) :
    let after := written ++ blank (size - written.length) (buffer.drop written.length)
    after.length = buffer.length ∧ after.drop size = buffer.drop size := by
  dsimp only
  constructor
  · rw [List.length_append, length_blank, List.length_drop]
    omega
  · rw [List.drop_append, List.drop_eq_nil_of_le inside, List.nil_append, drop_blank,
      List.drop_drop, Nat.add_sub_cancel' inside]

/-- Setting a number changes nothing behind the field, and it is read back unless it is zero and the
field starts with the sign of another. -/
theorem set_spec {value : ℤ} (fits : Fits size value) (room : size ≤ buffer.length) :
    ∃ after, set size value buffer = some after ∧ after.length = buffer.length ∧
      after.drop size = buffer.drop size ∧
      (get size after = value ↔ (value = 0 → Signed buffer → get size buffer = 0)) := by
  have some_ := fits.1
  rcases fits.cases with ⟨n, rfl, small⟩ | ⟨n, rfl, positive, small, wide⟩
  · obtain ⟨k, inside, written, bound, none_⟩ := setLoop_eq small
    have length := length_decimal k n
    have set_ : set size n buffer =
        some (decimal k n ++ blank (size - k) (buffer.drop k)) := by
      have natural : ¬ (n : ℤ) < 0 := not_lt.mpr (Int.natCast_nonneg n)
      rw [set, if_neg natural, if_neg natural, if_neg some_.ne', written, length]
    have field := @over_field size buffer (decimal k n) (by omega) room
    rw [length] at field
    refine ⟨_, set_, field.1, field.2, ?_⟩
    rcases Nat.eq_zero_or_pos n with rfl | positive
    · have nothing : k = 0 := none_.mpr rfl
      subst nothing
      exact (@get_blank size buffer some_).trans ⟨fun zero _ => zero, fun zero => zero rfl⟩
    · refine iff_of_true ?_ fun zero => by omega
      have digits : 0 < k := Nat.pos_of_ne_zero fun zero => positive.ne' (none_.mp zero)
      rw [get_of_digit digits bound inside, getLoop_blank]
  · obtain ⟨k, inside, written, bound, none_⟩ := setLoop_eq small
    have length : (0x2d :: decimal k n).length = k + 1 := by rw [List.length_cons, length_decimal]
    have set_ : set size (-n) buffer =
        some (0x2d :: decimal k n ++ blank (size - (k + 1)) (buffer.drop (k + 1))) := by
      have negative : -(n : ℤ) < 0 := by omega
      rw [set, if_pos negative, if_pos negative, if_neg (by omega), neg_neg, written, length]
    have field := @over_field size buffer (0x2d :: decimal k n) (by omega) room
    rw [length] at field
    refine ⟨_, set_, field.1, field.2, iff_of_true ?_ fun zero => by omega⟩
    rw [List.cons_append, get_of_minus]
    obtain ⟨more, sizes⟩ := Nat.exists_eq_add_of_le inside
    have left : size - (k + 1) = more := by omega
    rw [sizes, left, getLoop_append bound, getLoop_blank, zero_mul, zero_add]

theorem setsNumber_iff {value : ℤ} (fits : Fits size value) (room : size ≤ buffer.length) :
    SetsNumber size value buffer ↔ (value = 0 → Signed buffer → get size buffer = 0) := by
  obtain ⟨after, set_, length, behind, read⟩ := set_spec fits room
  rw [SetsNumber, set_, ← read]
  constructor
  · rintro ⟨_, ⟨⟩, -, -, value⟩
    exact value
  · exact fun value => ⟨after, rfl, length, behind, value⟩

/-- A `ZNumber` is read back whatever the field was. -/
theorem setsZNumber {value : ℤ} (fits : Fits size value) (room : size ≤ buffer.length) :
    SetsZNumber size value buffer := by
  have some_ := fits.1
  -- What is written has the length of the field, so that nothing else is changed.
  have whole : ∀ written : Text, written.length = size →
      (written ++ buffer.drop size).length = buffer.length ∧
        (written ++ buffer.drop size).drop size = buffer.drop size ∧
        (written ++ buffer.drop size).take size = written := by
    intro written length
    refine ⟨?_, ?_, ?_⟩
    · rw [List.length_append, List.length_drop]
      omega
    · rw [← length, List.drop_left]
    · rw [← length, List.take_left]
  have places : ∀ width n, 0 < width → decimal width n ≠ [] := by
    intro width n wide empty
    have length := length_decimal width n
    rw [empty, List.length_nil] at length
    omega
  rcases fits.cases with ⟨n, rfl, small⟩ | ⟨n, rfl, positive, small, wide⟩
  · have natural : ¬ (n : ℤ) < 0 := not_lt.mpr (Int.natCast_nonneg n)
    obtain ⟨length, behind, field⟩ := whole _ (length_decimal size n)
    refine ⟨decimal size n ++ buffer.drop size, ?_, length, behind, ?_, [], decimal size n,
      field, Or.inl rfl, places size n some_, fun char => isdigit_of_mem_decimal⟩
    · rw [ZNumber.write, if_neg natural, if_neg some_.ne', ZNumber.set_eq_decimal small,
        length_decimal]
    · exact get_decimal small _ some_
  · have negative : -(n : ℤ) < 0 := by omega
    have written : ZNumber.set size (-n) = 0x2d :: decimal (size - 1) n := by
      rw [ZNumber.set, if_pos negative, neg_neg, ZNumber.setLoop_eq small]
    have sized : (0x2d :: decimal (size - 1) n).length = size := by
      rw [List.length_cons, length_decimal]
      omega
    obtain ⟨length, behind, field⟩ := whole _ sized
    refine ⟨0x2d :: decimal (size - 1) n ++ buffer.drop size, ?_, length, behind, ?_, [0x2d],
      decimal (size - 1) n, field, Or.inr rfl, places (size - 1) n (by omega),
      fun char => isdigit_of_mem_decimal⟩
    · rw [ZNumber.write, if_pos negative, if_neg (by omega), written, sized]
    · rw [List.cons_append, get_of_minus, getLoop_decimal small, zero_mul, zero_add]

/-! ### Calls in a row -/

/-- The integer that a call makes of an integer. -/
def Call.value (n : ℤ) : Call → ℤ
  | assign value => value
  | add value => n + value
  | sub value => n - value
  | decrement => n - 1
  | increment => n + 1

def Call.isAssign : Call → Bool
  | assign _ => true
  | _ => false

/-- The memory from the field on, the integer that the calls make, and what the last call
returned. -/
structure State where
  buffer : Text
  integer : ℤ
  result : ℤ

/-- The calls on a field whose integers stay in its range. -/
def machine (z : Bool) (size : ℕ) : Concurrency.Machine State Call where
  Init state := size ≤ state.buffer.length ∧ state.integer = get size state.buffer ∧
    state.result = state.integer
  step state call :=
    if Fits size (call.value state.integer) then
      (call.run z size state.buffer).map fun after =>
        ⟨after.1, call.value state.integer, after.2⟩
    else none

/-- The field holds the integer, which was returned. -/
def Tracks (size : ℕ) (state : State) : Prop :=
  get size state.buffer = state.integer ∧ state.result = state.integer

/-- A call that does not set zero, as `Number` does, in a field that starts with the sign of another
number. -/
def Clears (z : Bool) (size : ℕ) (state : State) (call : Call) : Prop :=
  call.value state.integer = 0 → (z && call.isAssign) = true ∨
    (Signed state.buffer → get size state.buffer = 0)

/-- What a call sets, and by which `set`, where the field holds the integer. -/
theorem Call.run_eq (z : Bool) (call : Call) {n : ℤ} (held : get size buffer = n) :
    call.run z size buffer =
      (if z && call.isAssign then ZNumber.write size (call.value n) buffer
        else Number.set size (call.value n) buffer).map (·, call.value n) := by
  subst held
  cases z with
  | false => cases call <;> rfl
  | true => cases call <;> rfl

/-- One call in range: it has an outcome, which keeps the length of the memory and what is behind
the field, and which holds the integer exactly when the call clears. -/
theorem step_spec {z : Bool} {state : State} {call : Call} (room : size ≤ state.buffer.length)
    (held : get size state.buffer = state.integer)
    (fits : Fits size (call.value state.integer)) :
    ∃ after, (machine z size).step state call = some ⟨after, call.value state.integer,
        call.value state.integer⟩ ∧ after.length = state.buffer.length ∧
      after.drop size = state.buffer.drop size ∧
      (get size after = call.value state.integer ↔ Clears z size state call) := by
  have step : (machine z size).step state call = (call.run z size state.buffer).map fun after =>
      ⟨after.1, call.value state.integer, after.2⟩ := if_pos fits
  rw [step, call.run_eq z held]
  split
  next own =>
    obtain ⟨after, written, length, behind, read, -⟩ := setsZNumber fits room
    rw [written]
    exact ⟨after, rfl, length, behind, iff_of_true read fun _ => Or.inl own⟩
  next inherited =>
    obtain ⟨after, written, length, behind, read⟩ := set_spec fits room
    rw [written]
    refine ⟨after, rfl, length, behind, read.trans ?_⟩
    exact imp_congr_right fun _ => (or_iff_right inherited).symm

/-- Numbers are read back: from a field that is set once, unless zero is set by `Number` in a field
that starts with the sign of another number; from a `ZNumber` always; and in every state of calls
in range exactly when each of them clears. -/
theorem numbers_read_back_iff (size : ℕ) :
    (∀ value buffer, Fits size value → size ≤ buffer.length →
      (SetsNumber size value buffer ↔
        (value = 0 → Signed buffer → get size buffer = 0)) ∧ SetsZNumber size value buffer) ∧
    (∀ z moves state, (machine z size).Run moves state →
      (Concurrency.Machine.Throughout (Tracks size) moves state ↔
        Concurrency.Machine.Meets (Clears z size) moves)) := by
  refine ⟨fun value buffer fits room => ⟨setsNumber_iff fits room, setsZNumber fits room⟩,
    fun z moves state run => ?_⟩
  have taken : ∀ {source target : State} {call : Call},
      (machine z size).step source call = some target →
        Fits size (call.value source.integer) := by
    intro source target call stepped
    by_contra outside
    have refused : (machine z size).step source call = none := if_neg outside
    exact nomatch refused.symm.trans stepped
  refine run.throughout_iff_meets
    (fun state => size ≤ state.buffer.length ∧ Tracks size state) ?_ ?_ (fun _ both => both.2) ?_
  · rintro state ⟨room, held, result⟩
    exact ⟨room, held.symm, result⟩
  · rintro source call target ⟨room, held, -⟩ clears stepped
    obtain ⟨after, step, length, -, read⟩ := step_spec room held (taken stepped)
    cases step.symm.trans stepped
    exact ⟨room.trans_eq length.symm, read.mpr clears, rfl⟩
  · rintro source call target ⟨room, held, -⟩ broken stepped ⟨tracked, -⟩
    obtain ⟨after, step, -, -, read⟩ := step_spec room held (taken stepped)
    cases step.symm.trans stepped
    exact broken (read.mp tracked)

theorem numbers_read_back_iff_minus_seven :
    (SetsNumber 3 (-7) [0x31, 0x32, 0x33] ↔
      ((-7 : ℤ) = 0 → Signed [0x31, 0x32, 0x33] → get 3 [0x31, 0x32, 0x33] = 0)) ∧
      SetsZNumber 3 (-7) [0x31, 0x32, 0x33] :=
  (numbers_read_back_iff 3).1 (-7) [0x31, 0x32, 0x33] (by decide) (by decide)

/-- Zero that is set in the field `-5` leaves it, and so does an increment of `-1`. -/
theorem zero_keeps_sign :
    set 2 0 [0x2d, 0x35] = some [0x2d, 0x35] ∧ ¬ SetsNumber 2 0 [0x2d, 0x35] ∧
      Call.increment.run true 2 [0x2d, 0x31] = some ([0x2d, 0x31], 0) := by
  refine ⟨by decide, ?_, by decide⟩
  rintro ⟨after, written, -, -, read⟩
  have kept : set 2 0 [0x2d, 0x35] = some [0x2d, 0x35] := by decide
  cases kept.symm.trans written
  exact absurd read (by decide)

end Number

end CommonCpp
