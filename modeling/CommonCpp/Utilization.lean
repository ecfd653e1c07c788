/-
This file models the utilization of a `memalloc`, and says where it is the percentage
of the pages that is used.

The memory of the pages is divided by a hundred first, and then what is used by the
quotient. Pages of less than a hundred bytes in all give the quotient 0, and the second
division has no result. In few bytes the remainder that is lost counts: the result may be
above 100, or too large by more than one. In pages of a regular size the result is right
when no remainder is lost, and when there are ten thousand bytes or more.

The pages lie apart in the address space, whose size is that of an `unsigned long`, so that
the memory of the pages is added up without overflow.
-/

import Mathlib.Algebra.BigOperators.Group.List.Basic
import Mathlib.Algebra.Order.BigOperators.Group.List
import Mathlib.Algebra.Order.Ring.Nat
import CommonCpp.Links
import CommonCpp.Memalloc

namespace CommonCpp

open Concurrency

namespace Memalloc

/-! ### The code -/

/-- The loop over the pages, which adds up what is used and what is allocated. -/
def totals (pagesize : Nat) : List Page → Nat → Nat → Nat × Nat
  | [], used, alloc => (used, alloc)
  | page :: rest, used, alloc =>
    totals pagesize rest ((used + page.used) % 2 ^ 64) ((alloc + pagesize) % 2 ^ 64)

/-- `utilization`, which has no result when it divides by zero. -/
def utilization (pagesize : Nat) (state : State) : Option Nat :=
  let (used, alloc) := totals pagesize state.page 0 0
  if used = 0 then some 0
  else if alloc / 100 = 0 then none
  else some (used / (alloc / 100) % 2 ^ 32)

/-! ### Percentages -/

/-- What the pages say is used of them. -/
def State.used (state : State) : Nat :=
  (state.page.map Page.used).sum

/-- The memory of the pages. -/
def State.memory (pagesize : Nat) (state : State) : Nat :=
  state.page.length * pagesize

/-- The number is 0 without pages, at most 100, and off by at most one from the whole part of the
percentage that is used. -/
structure Percentage (pagesize : Nat) (state : State) (percent : Nat) : Prop where
  empty : state.page = [] → percent = 0
  most : percent ≤ 100
  least : 100 * state.used / state.memory pagesize ≤ percent + 1
  near : percent ≤ 100 * state.used / state.memory pagesize + 1

/-- Nothing is used, or dividing the memory by a hundred loses nothing or little of it. -/
def Ample (used memory : Nat) : Prop := used = 0 ∨ 0 < memory ∧ 100 ∣ memory ∨ 10000 ≤ memory

theorem totals_eq {pagesize : Nat} {pages : List Page} {used alloc : Nat}
    (word : used < 2 ^ 64) (word' : alloc < 2 ^ 64) :
    totals pagesize pages used alloc =
      ((used + (pages.map Page.used).sum) % 2 ^ 64,
        (alloc + pages.length * pagesize) % 2 ^ 64) := by
  induction pages generalizing used alloc with
  | nil =>
    rw [List.map_nil, List.sum_nil, List.length_nil, Nat.zero_mul, Nat.add_zero, Nat.add_zero,
      Nat.mod_eq_of_lt word, Nat.mod_eq_of_lt word', totals]
  | cons page rest inductionHypothesis =>
    have less : (used + page.used) % 2 ^ 64 < 2 ^ 64 := Nat.mod_lt _ (by decide)
    have less' : (alloc + pagesize) % 2 ^ 64 < 2 ^ 64 := Nat.mod_lt _ (by decide)
    rw [totals, inductionHypothesis less less', Nat.mod_add_mod, Nat.mod_add_mod, List.map_cons,
      List.sum_cons, List.length_cons, Nat.add_assoc, Nat.add_assoc, Nat.succ_mul,
      Nat.add_comm pagesize]

/-- A percentage is found when the whole memory can be counted. -/
theorem utilization_eq {pagesize : Nat} {state : State} (word : state.memory pagesize < 2 ^ 64) :
    utilization pagesize state =
      if state.used % 2 ^ 64 = 0 then some 0
      else if state.memory pagesize / 100 = 0 then none
      else some (state.used % 2 ^ 64 / (state.memory pagesize / 100) % 2 ^ 32) := by
  unfold State.memory at word
  rw [utilization, totals_eq (by decide) (by decide), Nat.zero_add, Nat.zero_add,
    Nat.mod_eq_of_lt word]
  rfl

/-! ### Rounding -/

section Rounding

variable {used memory : Nat}

/-- The lost remainder never makes the result smaller. -/
theorem percent_le (hundred : 100 ≤ memory) : 100 * used / memory ≤ used / (memory / 100) := by
  have rounded : 100 * (memory / 100) ≤ memory := Nat.mul_div_le memory 100
  calc 100 * used / memory ≤ 100 * used / (100 * (memory / 100)) :=
        Nat.div_le_div_left rounded (by omega)
    _ = used / (memory / 100) := Nat.mul_div_mul_left used _ (by decide)

/-- It makes the result larger by at most one when less than a hundredth is lost. -/
theorem le_percent (within : used ≤ memory) (lost : memory % 100 < memory / 100) :
    used / (memory / 100) ≤ 100 * used / memory + 1 := by
  have split : memory = 100 * (memory / 100) + memory % 100 := (Nat.div_add_mod memory 100).symm
  -- the quotient times the memory is at most a whole memory above what is used, times 100
  have scaled : used / (memory / 100) * memory ≤ 100 * used + memory := by
    calc used / (memory / 100) * memory
        = 100 * (used / (memory / 100) * (memory / 100)) +
            used / (memory / 100) * (memory % 100) := by
          rw [Nat.mul_left_comm, ← Nat.mul_add, ← split]
      _ ≤ 100 * used + used / (memory / 100) * (memory / 100) :=
          Nat.add_le_add (Nat.mul_le_mul_left _ (Nat.div_mul_le_self _ _))
            (Nat.mul_le_mul_left _ lost.le)
      _ ≤ 100 * used + memory :=
          Nat.add_le_add_left ((Nat.div_mul_le_self _ _).trans within) _
  rw [← Nat.add_div_right _ (by omega)]
  exact (Nat.le_div_iff_mul_le (by omega)).mpr scaled

end Rounding

/-! ### The pages -/

section Pages

variable {pagesize limit : Nat} {state : State}

/-- The pages lie in the address space, and no two overlap. -/
structure Placed (pagesize : Nat) (bases : List Nat) : Prop where
  within : ∀ base ∈ bases, 0 < base ∧ base + pagesize ≤ 2 ^ 64
  disjoint : bases.Pairwise fun first second =>
    first + pagesize ≤ second ∨ second + pagesize ≤ first

/-- A request leaves the pages where they are, and any new one is apart from them. -/
theorem placed_step {request : Request} {target : State}
    (placed : Placed pagesize (state.page.map Page.base))
    (stepped : (machine pagesize limit).step state request = some target) :
    Placed pagesize (target.page.map Page.base) := by
  obtain ⟨⟨_, _, heap⟩, allocated⟩ := allocated_of_step stepped
  obtain ⟨_, ⟨first, page, last, pages, _, rfl⟩ | ⟨base, page, grown, asked, paged, rfl⟩⟩ :=
    alloc_eq_ok allocated
  · rw [pages] at placed
    simpa only [List.map_append, List.map_cons, Page.take] using placed
  · obtain ⟨positive, aligned, fits, apart⟩ := heap base asked
    obtain ⟨rfl, rfl⟩ := pager_eq_ok paged aligned
    rw [List.map_cons]
    refine ⟨List.forall_mem_cons.mpr ⟨⟨Nat.pos_of_ne_zero positive, fits⟩, placed.within⟩,
      List.pairwise_cons.mpr ⟨?_, placed.disjoint⟩⟩
    rintro other member
    obtain ⟨page, on, rfl⟩ := List.mem_map.mp member
    exact apart page on

/-- Pages that are apart are fewer than the address space has room for. -/
theorem Placed.lt {bases : List Nat} (placed : Placed pagesize bases) (positive : 0 < pagesize) :
    bases.length * pagesize < 2 ^ 64 := by
  let slot (base : Nat) : Nat := (base - 1) / pagesize
  have start (base : Nat) : slot base * pagesize ≤ base - 1 := Nat.div_mul_le_self _ _
  have behind (base : Nat) : base - 1 < slot base * pagesize + pagesize :=
    Nat.lt_div_mul_add positive
  have below : ∀ number ∈ bases.map slot, number < (2 ^ 64 - 1) / pagesize := by
    intro number member
    obtain ⟨base, on, rfl⟩ := List.mem_map.mp member
    obtain ⟨_, fits⟩ := placed.within base on
    have first := start base
    rw [Nat.lt_iff_add_one_le, Nat.le_div_iff_mul_le positive, Nat.succ_mul]
    omega
  have once : (bases.map slot).Nodup := by
    refine List.pairwise_map.mpr (placed.disjoint.imp_of_mem ?_)
    intro first second onFirst onSecond apart same
    have positive := (placed.within first onFirst).1
    have positive' := (placed.within second onSecond).1
    have := start first
    have := behind first
    have := start second
    have := behind second
    rw [same] at *
    omega
  have short := Memory.length_le_of_lt once below
  rw [List.length_map, Nat.le_div_iff_mul_le positive] at short
  omega

/-- The memory of the pages can be counted in every state that is reached. -/
theorem memory_lt (positive : 0 < pagesize)
    (reachable : (machine pagesize limit).Reachable state) :
    state.memory pagesize < 2 ^ 64 := by
  have initial (first : State) (start : (machine pagesize limit).Init first) :
      Placed pagesize (first.page.map Page.base) := by
    cases start
    exact ⟨fun base member => absurd member List.not_mem_nil, List.Pairwise.nil⟩
  have placed : Placed pagesize (state.page.map Page.base) :=
    reachable.invariant initial fun _ _ _ placed stepped => placed_step placed stepped
  unfold State.memory
  simpa only [List.length_map] using placed.lt positive

/-! ### When the result is right -/

/-- Nothing is used without pages. -/
theorem used_eq_zero (none' : state.page = []) : state.used = 0 := by
  rw [State.used, none']
  rfl

/-- When nothing is used the result is 0, and right. -/
theorem percentage_zero (unused : state.used = 0) : Percentage pagesize state 0 := by
  refine ⟨fun _ => rfl, Nat.zero_le _, ?_, Nat.zero_le _⟩
  rw [unused, Nat.mul_zero, Nat.zero_div]
  exact Nat.zero_le _

/-- In a state that is reached with pages of a regular size, no more is used than there is. -/
theorem used_le_memory (regular : Regular pagesize)
    (reachable : (machine pagesize limit).Reachable state) :
    state.used ≤ state.memory pagesize := by
  have laid : Laid pagesize state :=
    reachable.invariant (by rintro _ rfl; exact laid_empty)
      fun _ request _ laid stepped => laid_step regular laid request stepped
  have most : ∀ used ∈ state.page.map Page.used, used ≤ pagesize := by
    intro used member
    obtain ⟨page, on, rfl⟩ := List.mem_map.mp member
    exact (laid.used page on).2
  simpa [State.used, State.memory] using List.sum_le_card_nsmul _ _ most

/-- In a state that is reached with pages of a regular size, ample for what is used of them,
`utilization` has a result and it is right. -/
theorem utilization_of_ample (regular : Regular pagesize)
    (reachable : (machine pagesize limit).Reachable state)
    (ample : Ample state.used (state.memory pagesize)) :
    ∃ percent, utilization pagesize state = some percent ∧
      Percentage pagesize state percent := by
  have word := memory_lt (Nat.lt_of_lt_of_le (by decide) regular.1) reachable
  have within := used_le_memory regular reachable
  rw [utilization_eq word, Nat.mod_eq_of_lt (Nat.lt_of_le_of_lt within word)]
  by_cases unused : state.used = 0
  · rw [if_pos unused]
    exact ⟨0, rfl, percentage_zero unused⟩
  · have lost : state.memory pagesize % 100 < state.memory pagesize / 100 := by
      rcases ample.resolve_left unused with ⟨some', whole⟩ | large
      · rw [Nat.mod_eq_zero_of_dvd whole]
        exact Nat.div_pos (Nat.le_of_dvd some' whole) (by decide)
      · omega
    have below : state.used < 101 * (state.memory pagesize / 100) := by omega
    have most : state.used / (state.memory pagesize / 100) < 101 :=
      (Nat.div_lt_iff_lt_mul (Nat.zero_lt_of_lt lost)).mpr below
    rw [if_neg unused, if_neg (by omega), Nat.mod_eq_of_lt (by omega)]
    exact ⟨_, rfl, fun none' => absurd (used_eq_zero none') unused, Nat.le_of_lt_succ most,
      Nat.le_succ_of_le (percent_le (by omega)), le_percent within lost⟩

end Pages

/-- A page of 400 bytes with one block of 104 bytes: what is used of it is 30 percent. -/
theorem utilization_of_ample_part :
    ∃ state, (machine 400 0).Reachable state ∧ state.page = [⟨16, 120⟩] ∧
      ∃ percent, utilization 400 state = some percent ∧ Percentage 400 state percent := by
  let played := (machine 400 0).play ⟨[], 0, []⟩ [⟨104, some 16⟩]
  have reachable : (machine 400 0).Reachable (played.get (by decide)) :=
    Machine.reachable_get rfl _
  have regular : Regular 400 := ⟨by decide, by decide, by decide⟩
  exact ⟨_, reachable, by decide,
    utilization_of_ample regular reachable (Or.inr (Or.inl (by decide)))⟩

/-- A page of 4096 bytes that is used up to its end counts as 102 percent. A single page of 64
bytes has no hundredth to divide by. -/
theorem utilization_of_full_page :
    (∃ state, (machine 4096 0).Reachable state ∧ state.page = [⟨16, 4096⟩] ∧
        utilization 4096 state = some 102 ∧
        ¬ ∃ percent, utilization 4096 state = some percent ∧ Percentage 4096 state percent) ∧
      ∃ state, (machine 64 0).Reachable state ∧ state.page = [⟨16, 24⟩] ∧
        utilization 64 state = none := by
  let played := (machine 4096 0).play ⟨[], 0, []⟩ [⟨4080, some 16⟩]
  let played' := (machine 64 0).play ⟨[], 0, []⟩ [⟨8, some 16⟩]
  have reachable : (machine 4096 0).Reachable (played.get (by decide)) :=
    Machine.reachable_get rfl _
  have reachable' : (machine 64 0).Reachable (played'.get (by decide)) :=
    Machine.reachable_get rfl _
  have above : utilization 4096 (played.get (by decide)) = some 102 := by decide
  refine ⟨⟨_, reachable, by decide, above, ?_⟩, _, reachable', by decide, by decide⟩
  rintro ⟨percent, result, percentage⟩
  rw [above] at result
  cases result
  exact absurd percentage.most (by decide)

end Memalloc

end CommonCpp
