/-
This file models `memalloc`, which allocates blocks that are never freed out of
pages from the heap, and finds for which page sizes its blocks are sound.

The size of a request is tested before it is rounded up, against the page size less
the header of a page, and what a page has left is found by subtracting what is used.
All of this is unsigned arithmetic. It is right when the page size is a multiple of
the alignment that has room for the header, and when the `unsigned` that says how
much of a page is used can hold it. A page size above that of the system is rounded
up to whole system pages; one below is taken as it is.

Numbers are those of a 64-bit machine: a pointer has 8 bytes, and the header of a
page 16. What the heap returns is part of a step; it must be aligned, and not overlap
an earlier page. The blocks returned so far are kept beside the pages.
-/

import Mathlib.Algebra.Group.Nat.Defs
import CommonCpp.Machine

namespace CommonCpp

open Concurrency

namespace Memalloc

/-! ### The code -/

/-- `sizeof(void *)`. -/
def pointerSize : Nat := 8

/-- `sizeof(page_t)`: the link, and the union of `memalign` and `used`. -/
def headerSize : Nat := 16

/-- The difference of two values of type `size_t`. -/
def sub (first second : Nat) : Nat := (first + 2 ^ 64 - second) % 2 ^ 64

/-- The page size after construction with `ps`, on a system with pages of the size `paging`. -/
def pagesize (paging ps : Nat) : Nat :=
  if ps = 0 then paging
  else if ps > paging then sub ((ps + paging) % 2 ^ 64) 1 / paging * paging % 2 ^ 64
  else ps

/-- A page: its address, and how much of it is used. -/
structure Page where
  base : Nat
  used : Nat
  deriving DecidableEq

/-- A block that has been returned: its address, and the size that was requested. -/
structure Block where
  address : Nat
  size : Nat
  deriving DecidableEq

/-- The pages, the latest first, with the blocks returned so far. -/
structure State where
  page : List Page
  count : Nat
  blocks : List Block

/-- `while(size % sizeof(void *)) ++size;`, which goes round less often than there are bytes in a
pointer. -/
def roundUp : Nat → Nat → Nat
  | 0, size => size
  | rounds + 1, size =>
    if size % pointerSize = 0 then size else roundUp rounds ((size + 1) % 2 ^ 64)

/-- A new page, when the heap returns this address. -/
def pager (limit : Nat) (address : Option Nat) (state : State) : Except String (Page × State) :=
  if limit ≠ 0 ∧ limit ≤ state.count then .error "pager exhausted"
  else
    match address with
    | none => .error "std::bad_alloc"
    | some base =>
      let page := { base := base, used := headerSize }
      let page :=
        if base % pointerSize = 0 then page
        else { page with used := page.used + (pointerSize - base % pointerSize) }
      .ok (page, { state with count := (state.count + 1) % 2 ^ 32 })

/-- What a page gives for a size that has been rounded up, and the page after it. -/
def Page.take (page : Page) (size : Nat) : Page × Nat :=
  ({ page with used := (page.used + size % 2 ^ 32) % 2 ^ 32 }, page.base + page.used)

/-- The first page with enough left gives the block. -/
def takeFirst (pagesize size : Nat) : List Page → Option (List Page × Nat)
  | [] => none
  | page :: rest =>
    if size ≤ sub pagesize page.used then some ((page.take size).1 :: rest, (page.take size).2)
    else (takeFirst pagesize size rest).map fun taken => (page :: taken.1, taken.2)

/-- `_alloc`, when the heap returns this address if it is asked for a page. -/
def alloc (pagesize limit size : Nat) (address : Option Nat) (state : State) :
    Except String State :=
  if size > sub pagesize headerSize then .error "Larger than pagesize"
  else
    let rounded := roundUp pointerSize size
    match takeFirst pagesize rounded state.page with
    | some (pages, mem) =>
      .ok { state with page := pages, blocks := ⟨mem, size⟩ :: state.blocks }
    | none =>
      (pager limit address state).map fun (page, state) =>
        { state with
          page := (page.take rounded).1 :: state.page
          blocks := ⟨(page.take rounded).2, size⟩ :: state.blocks }

/-! ### Refused requests -/

/-- A request throws: it is larger than a page, or no page has room for it and another is not to be
had, because the limit is reached or the heap is exhausted. -/
def Refused (pagesize limit size : Nat) (address : Option Nat) (state : State) : Prop :=
  size > sub pagesize headerSize ∨
    (∀ page ∈ state.page, sub pagesize page.used < roundUp pointerSize size) ∧
      (limit ≠ 0 ∧ limit ≤ state.count ∨ address = none)

instance (pagesize limit size : Nat) (address : Option Nat) (state : State) :
    Decidable (Refused pagesize limit size address state) :=
  inferInstanceAs (Decidable (_ ∨ _ ∧ _))

theorem takeFirst_eq_none_iff {pagesize size : Nat} {pages : List Page} :
    takeFirst pagesize size pages = none ↔ ∀ page ∈ pages, sub pagesize page.used < size := by
  induction pages with
  | nil => simp [takeFirst]
  | cons page rest inductionHypothesis =>
    rw [takeFirst, List.forall_mem_cons, ← inductionHypothesis]
    split
    next room => simp [Nat.not_lt_of_le room]
    next full => simp [Nat.lt_of_not_le full]

theorem pager_eq_error_iff {limit : Nat} {address : Option Nat} {state : State} :
    (∃ text, pager limit address state = .error text) ↔
      limit ≠ 0 ∧ limit ≤ state.count ∨ address = none := by
  unfold pager
  split
  next reached => exact iff_of_true ⟨_, rfl⟩ (Or.inl reached)
  next below =>
    cases address with
    | none => exact iff_of_true ⟨_, rfl⟩ (Or.inr rfl)
    | some base => simp [below]

/-- These are the requests for which `_alloc` throws. -/
theorem alloc_eq_error_iff {pagesize limit size : Nat} {address : Option Nat} {state : State} :
    (∃ text, alloc pagesize limit size address state = .error text) ↔
      Refused pagesize limit size address state := by
  unfold alloc Refused
  by_cases large : size > sub pagesize headerSize
  · rw [if_pos large]
    exact iff_of_true ⟨_, rfl⟩ (Or.inl large)
  · rw [if_neg large, or_iff_right large, ← takeFirst_eq_none_iff, ← pager_eq_error_iff]
    dsimp only
    cases taken : takeFirst pagesize (roundUp pointerSize size) state.page with
    | some found => simp
    | none =>
      cases paged : pager limit address state with
      | error text => simp [Except.map]
      | ok page => simp [Except.map]

/-- What a caller does when `_alloc` throws, and what it goes on with when it does not. -/
def attempt {Result : Type} (taken : Except String State) (thrown : String → Result)
    (onward : State → Result) : Result :=
  match taken with
  | .error text => thrown text
  | .ok state => onward state

/-- The block that has been returned last. -/
def State.latest (state : State) : Option Nat :=
  state.blocks.head?.map fun block => block.address

theorem attempt_cases {Result : Type} (pagesize limit size : Nat) (address : Option Nat)
    (state : State) (thrown : String → Result) (onward : State → Result) :
    (Refused pagesize limit size address state ∧
        ∃ text, attempt (alloc pagesize limit size address state) thrown onward = thrown text) ∨
      (¬ Refused pagesize limit size address state ∧
        ∃ state', attempt (alloc pagesize limit size address state) thrown onward =
          onward state') := by
  rw [← alloc_eq_error_iff]
  cases alloc pagesize limit size address state with
  | error text => exact Or.inl ⟨⟨text, rfl⟩, text, rfl⟩
  | ok state' => exact Or.inr ⟨nofun, state', rfl⟩

/-! ### Runs -/

/-- A request, with what the heap returns if it is asked for a page. -/
structure Request where
  size : Nat
  address : Option Nat

/-- An address the heap may return: a page there is aligned, within the address space, and overlaps
no earlier page. -/
def Heap (pagesize base : Nat) (state : State) : Prop :=
  base ≠ 0 ∧ base % pointerSize = 0 ∧ base + pagesize ≤ 2 ^ 64 ∧
    ∀ page ∈ state.page, base + pagesize ≤ page.base ∨ page.base + pagesize ≤ base

instance (pagesize base : Nat) (state : State) : Decidable (Heap pagesize base state) :=
  inferInstanceAs (Decidable (_ ∧ _ ∧ _ ∧ _))

/-- The runs of requests that do not throw, from the constructor on. -/
def machine (pagesize limit : Nat) : Machine State Request where
  Init state := state = ⟨[], 0, []⟩
  step state request :=
    if 0 < request.size ∧ request.size < 2 ^ 64 ∧
        ∀ base ∈ request.address, Heap pagesize base state then
      (alloc pagesize limit request.size request.address state).toOption
    else none

/-! ### Sound blocks -/

/-- Two blocks do not overlap. -/
def Block.Apart (first second : Block) : Prop :=
  first.address + first.size ≤ second.address ∨ second.address + second.size ≤ first.address

/-- Every block lies in a page, behind its header, and is aligned; no two overlap; no page is used
beyond its end; and a size for which a new page has no room is rejected. -/
structure Sound (pagesize limit : Nat) (state : State) : Prop where
  inside : ∀ block ∈ state.blocks, ∃ page ∈ state.page,
    page.base + headerSize ≤ block.address ∧
      block.address + block.size ≤ page.base + pagesize
  aligned : ∀ block ∈ state.blocks, block.address % pointerSize = 0
  apart : state.blocks.Pairwise Block.Apart
  used : ∀ page ∈ state.page, page.used ≤ pagesize
  rejects : ∀ size address, size < 2 ^ 64 → pagesize < headerSize + size →
    alloc pagesize limit size address state = .error "Larger than pagesize"

/-- A page of this size has room for its header and for whole pointers behind it, and the field
that says how much of it is used can hold its size. -/
def Regular (pagesize : Nat) : Prop :=
  headerSize ≤ pagesize ∧ pagesize % pointerSize = 0 ∧ pagesize < 2 ^ 32

/-! #### Arithmetic -/

theorem sub_of_le {first second : Nat} (word : first < 2 ^ 64) (least : second ≤ first) :
    sub first second = first - second := by
  unfold sub
  omega

theorem sub_of_lt {first second : Nat} (small : second < 2 ^ 64) (less : first < second) :
    sub first second = first + 2 ^ 64 - second := by
  unfold sub
  omega

/-- Rounding ends at the next multiple, which it may wrap around to. -/
theorem roundUp_eq (rounds size : Nat) (word : size < 2 ^ 64)
    (enough : (pointerSize - size % pointerSize) % pointerSize ≤ rounds) :
    roundUp rounds size = (size + 7) / 8 * 8 % 2 ^ 64 := by
  induction rounds generalizing size with
  | zero =>
    unfold pointerSize at enough
    unfold roundUp
    omega
  | succ rounds inductionHypothesis =>
    unfold roundUp
    unfold pointerSize at enough inductionHypothesis ⊢
    split
    next whole => omega
    next odd =>
      rw [inductionHypothesis _ (Nat.mod_lt _ (by decide)) (by omega)]
      omega

/-! #### Regular page sizes -/

section Regular

variable {pagesize limit : Nat} {state : State}

/-- Every page is used up to a multiple of the alignment within it; no two pages overlap; and every
block lies in the used part of a page, behind its header. -/
structure Laid (pagesize : Nat) (state : State) : Prop where
  aligned : ∀ page ∈ state.page, page.base % pointerSize = 0 ∧ page.used % pointerSize = 0
  used : ∀ page ∈ state.page, headerSize ≤ page.used ∧ page.used ≤ pagesize
  disjoint : (state.page.map Page.base).Pairwise fun first second =>
    first + pagesize ≤ second ∨ second + pagesize ≤ first
  inside : ∀ block ∈ state.blocks, ∃ page ∈ state.page,
    page.base + headerSize ≤ block.address ∧ block.address + block.size ≤ page.base + page.used
  whole : ∀ block ∈ state.blocks, block.address % pointerSize = 0
  apart : state.blocks.Pairwise Block.Apart

theorem Page.take_page {page : Page} {rounded : Nat} (small : page.used + rounded < 2 ^ 32) :
    (page.take rounded).1 = ⟨page.base, page.used + rounded⟩ := by
  have small : (page.used + rounded % 2 ^ 32) % 2 ^ 32 = page.used + rounded := by omega
  rw [Page.take, small]

/-- The other pages do not overlap the one from which a block is taken. -/
theorem Laid.others {first last : List Page} {page page' : Page} (laid : Laid pagesize state)
    (pages : state.page = first ++ page :: last) (other : page' ∈ first ++ last) :
    page'.base + pagesize ≤ page.base ∨ page.base + pagesize ≤ page'.base := by
  have disjoint := laid.disjoint
  rw [pages, List.map_append, List.map_cons, List.pairwise_append, List.pairwise_cons] at disjoint
  obtain ⟨_, ⟨after, _⟩, before⟩ := disjoint
  rcases List.mem_append.mp other with inFirst | inLast
  · exact before _ (List.mem_map_of_mem inFirst) _ List.mem_cons_self
  · exact (after _ (List.mem_map_of_mem inLast)).symm

/-- A block taken from a page does not overlap those returned before. -/
theorem Laid.apart_take {first last : List Page} {page : Page} {size rounded : Nat} {block : Block}
    (laid : Laid pagesize state) (pages : state.page = first ++ page :: last)
    (least : size ≤ rounded) (room : page.used + rounded ≤ pagesize)
    (old : block ∈ state.blocks) : Block.Apart ⟨(page.take rounded).2, size⟩ block := by
  obtain ⟨page', on, from_, to_⟩ := laid.inside block old
  have within := (laid.used page' on).2
  unfold Block.Apart Page.take
  dsimp only
  rw [pages] at on
  by_cases same : page' = page
  · rw [same] at to_
    exact Or.inr to_
  · have inner : page' ∈ first ++ last := by
      simp only [List.mem_append, List.mem_cons] at on ⊢
      tauto
    unfold headerSize at from_
    rcases laid.others pages inner with before | after
    · omega
    · omega

/-- A block taken from a page leaves everything laid. -/
theorem Laid.take {first last : List Page} {page : Page} {size rounded : Nat}
    (laid : Laid pagesize state) (pages : state.page = first ++ page :: last)
    (regular : Regular pagesize) (whole : rounded % pointerSize = 0) (least : size ≤ rounded)
    (room : rounded ≤ pagesize - page.used) :
    Laid pagesize
      { state with
        page := first ++ (page.take rounded).1 :: last
        blocks := ⟨(page.take rounded).2, size⟩ :: state.blocks } := by
  obtain ⟨_, _, word⟩ := regular
  have member : page ∈ state.page := by simp [pages]
  obtain ⟨header, within⟩ := laid.used page member
  obtain ⟨base, start⟩ := laid.aligned page member
  have fits : page.used + rounded ≤ pagesize := by omega
  have taken : (page.take rounded).1 = ⟨page.base, page.used + rounded⟩ :=
    Page.take_page (by omega)
  have other : ∀ page' ∈ first ++ last, page' ∈ state.page := by
    intro page' inner
    rw [pages]
    simp only [List.mem_append, List.mem_cons] at inner ⊢
    tauto
  have cases : ∀ page' ∈ first ++ (page.take rounded).1 :: last,
      page' = ⟨page.base, page.used + rounded⟩ ∨ page' ∈ first ++ last := by
    intro page' inner
    rw [taken] at inner
    simp only [List.mem_append, List.mem_cons] at inner ⊢
    tauto
  have apart : ∀ block ∈ state.blocks, Block.Apart ⟨(page.take rounded).2, size⟩ block :=
    fun block old => laid.apart_take pages least fits old
  unfold pointerSize at base start whole
  unfold headerSize at header
  constructor
  · intro page' inner
    rcases cases page' inner with rfl | old
    · exact ⟨base, by unfold pointerSize; dsimp only; omega⟩
    · exact laid.aligned page' (other page' old)
  · intro page' inner
    rcases cases page' inner with rfl | old
    · exact ⟨by unfold headerSize; dsimp only; omega, by dsimp only; omega⟩
    · exact laid.used page' (other page' old)
  · have bases : (first ++ (page.take rounded).1 :: last).map Page.base =
        state.page.map Page.base := by
      simp [pages, Page.take]
    dsimp only
    rw [bases]
    exact laid.disjoint
  · intro block inner
    rcases List.mem_cons.mp inner with rfl | old
    · refine ⟨_, List.mem_append_right _ List.mem_cons_self, ?_⟩
      rw [taken]
      unfold Page.take headerSize
      dsimp only
      omega
    · obtain ⟨page', on, from_, to_⟩ := laid.inside block old
      rw [pages] at on
      by_cases same : page' = page
      · refine ⟨_, List.mem_append_right _ List.mem_cons_self, ?_⟩
        rw [taken]
        rw [same] at from_ to_
        dsimp only
        omega
      · refine ⟨page', ?_, from_, to_⟩
        simp only [List.mem_append, List.mem_cons] at on ⊢
        tauto
  · intro block inner
    rcases List.mem_cons.mp inner with rfl | old
    · unfold Page.take pointerSize
      dsimp only
      omega
    · exact laid.whole block old
  · exact List.pairwise_cons.mpr ⟨apart, laid.apart⟩

/-- A new page with nothing but its header leaves everything laid. -/
theorem Laid.push (laid : Laid pagesize state) (regular : Regular pagesize) {base : Nat}
    (heap : Heap pagesize base state) (count : Nat) :
    Laid pagesize { state with page := ⟨base, headerSize⟩ :: state.page, count := count } := by
  obtain ⟨_, aligned, _, disjoint⟩ := heap
  refine ⟨?_, ?_, ?_, ?_, laid.whole, laid.apart⟩
  · exact List.forall_mem_cons.mpr ⟨⟨aligned, (rfl : headerSize % pointerSize = 0)⟩, laid.aligned⟩
  · exact List.forall_mem_cons.mpr ⟨⟨Nat.le_refl _, regular.1⟩, laid.used⟩
  · refine List.pairwise_cons.mpr ⟨?_, laid.disjoint⟩
    rw [List.forall_mem_map]
    exact disjoint
  · intro block inner
    obtain ⟨page, on, within⟩ := laid.inside block inner
    exact ⟨page, List.mem_cons_of_mem _ on, within⟩

theorem takeFirst_eq_some {size mem : Nat} {pages pages' : List Page}
    (taken : takeFirst pagesize size pages = some (pages', mem)) :
    ∃ first page last, pages = first ++ page :: last ∧ size ≤ sub pagesize page.used ∧
      pages' = first ++ (page.take size).1 :: last ∧ mem = (page.take size).2 := by
  induction pages generalizing pages' with
  | nil => cases taken
  | cons page rest inductionHypothesis =>
    rw [takeFirst] at taken
    split at taken
    next room =>
      cases taken
      exact ⟨[], page, rest, rfl, room, rfl, rfl⟩
    next =>
      obtain ⟨⟨pages, mem'⟩, inner, same⟩ := Option.map_eq_some_iff.mp taken
      cases same
      obtain ⟨first, page', last, rfl, room, rfl, rfl⟩ := inductionHypothesis inner
      exact ⟨page :: first, page', last, rfl, room, rfl, rfl⟩

/-- What a step does: it takes the block from a page, which may be new. -/
theorem alloc_eq_ok {size : Nat} {address : Option Nat} {target : State}
    (allocated : alloc pagesize limit size address state = .ok target) :
    size ≤ sub pagesize headerSize ∧
      ((∃ first page last, state.page = first ++ page :: last ∧
          roundUp pointerSize size ≤ sub pagesize page.used ∧
          target =
            { state with
              page := first ++ (page.take (roundUp pointerSize size)).1 :: last
              blocks := ⟨(page.take (roundUp pointerSize size)).2, size⟩ :: state.blocks }) ∨
        ∃ base page grown, address = some base ∧ pager limit (some base) state = .ok (page, grown) ∧
          target =
            { grown with
              page := (page.take (roundUp pointerSize size)).1 :: grown.page
              blocks := ⟨(page.take (roundUp pointerSize size)).2, size⟩ :: grown.blocks }) := by
  unfold alloc at allocated
  split at allocated
  next => cases allocated
  next small =>
    refine ⟨Nat.le_of_not_lt small, ?_⟩
    dsimp only at allocated
    split at allocated
    next pages mem taken =>
      cases allocated
      obtain ⟨first, page, last, before, room, rfl, rfl⟩ := takeFirst_eq_some taken
      exact Or.inl ⟨first, page, last, before, room, rfl⟩
    next =>
      cases paged : pager limit address state with
      | error text =>
        rw [paged] at allocated
        cases allocated
      | ok result =>
        rw [paged] at allocated
        cases allocated
        cases address with
        | none =>
          unfold pager at paged
          split at paged <;> cases paged
        | some base => exact Or.inr ⟨base, result.1, result.2, rfl, paged, rfl⟩

theorem pager_eq_ok {base : Nat} {page : Page} {grown : State}
    (paged : pager limit (some base) state = .ok (page, grown)) (aligned : base % pointerSize = 0) :
    page = ⟨base, headerSize⟩ ∧ grown = { state with count := (state.count + 1) % 2 ^ 32 } := by
  unfold pager at paged
  split at paged
  next => cases paged
  next =>
    dsimp only at paged
    rw [if_pos aligned] at paged
    cases paged
    exact ⟨rfl, rfl⟩

/-- A request that does not throw was allowed, and has been allocated. -/
theorem allocated_of_step {request : Request} {target : State}
    (stepped : (machine pagesize limit).step state request = some target) :
    (0 < request.size ∧ request.size < 2 ^ 64 ∧
        ∀ base ∈ request.address, Heap pagesize base state) ∧
      alloc pagesize limit request.size request.address state = .ok target := by
  simp only [machine] at stepped
  split at stepped
  next fair =>
    refine ⟨fair, ?_⟩
    cases outcome : alloc pagesize limit request.size request.address state with
    | error text =>
      rw [outcome] at stepped
      cases stepped
    | ok target' =>
      rw [outcome] at stepped
      cases stepped
      rfl
  next => cases stepped

/-- Every request keeps the pages and blocks laid. -/
theorem laid_step (regular : Regular pagesize) (laid : Laid pagesize state) (request : Request)
    {target : State} (stepped : (machine pagesize limit).step state request = some target) :
    Laid pagesize target := by
  obtain ⟨header, whole, word⟩ := regular
  obtain ⟨⟨positive, sized, heap⟩, allocated⟩ := allocated_of_step stepped
  obtain ⟨small, outcome⟩ := alloc_eq_ok allocated
  have rounded := roundUp_eq pointerSize request.size sized (by unfold pointerSize; omega)
  unfold headerSize at header small
  rw [sub_of_le (by omega) header] at small
  unfold pointerSize at whole
  have multiple : roundUp pointerSize request.size % pointerSize = 0 := by
    rw [rounded]
    unfold pointerSize
    omega
  have least : request.size ≤ roundUp pointerSize request.size := by
    rw [rounded]
    omega
  rcases outcome with ⟨first, page, last, pages, room, rfl⟩ |
    ⟨base, page, grown, asked, paged, rfl⟩
  · have within := (laid.used page (by simp [pages])).2
    rw [sub_of_le (by omega) within] at room
    exact laid.take pages ⟨header, whole, word⟩ multiple least room
  · have allowed := heap base asked
    obtain ⟨rfl, rfl⟩ := pager_eq_ok paged allowed.2.1
    have pushed := laid.push ⟨header, whole, word⟩ allowed ((state.count + 1) % 2 ^ 32)
    have room : roundUp pointerSize request.size ≤ pagesize - headerSize := by
      rw [rounded]
      unfold headerSize
      omega
    exact pushed.take (List.nil_append _).symm ⟨header, whole, word⟩ multiple least room

/-- Without pages everything is laid. -/
theorem laid_empty : Laid pagesize ⟨[], 0, []⟩ := by
  refine ⟨?_, ?_, List.Pairwise.nil, ?_, ?_, List.Pairwise.nil⟩ <;> intro _ member <;>
    cases member

theorem Laid.sound (laid : Laid pagesize state) (regular : Regular pagesize) :
    Sound pagesize limit state where
  inside block member := by
    obtain ⟨page, on, from_, to_⟩ := laid.inside block member
    exact ⟨page, on, from_, Nat.le_trans to_ (Nat.add_le_add_left (laid.used page on).2 _)⟩
  aligned := laid.whole
  apart := laid.apart
  used page on := (laid.used page on).2
  rejects size address sized large := by
    obtain ⟨header, _, word⟩ := regular
    unfold alloc
    rw [if_pos]
    rw [sub_of_le (by omega) header]
    omega

end Regular

/-! #### Other page sizes -/

section Irregular

variable {pagesize limit : Nat}

/-- The first block, from a page at address 16. -/
theorem alloc_first (limit : Nat) {size : Nat} (small : size ≤ sub pagesize headerSize) :
    alloc pagesize limit size (some 16) ⟨[], 0, []⟩ =
      .ok ⟨[⟨16, (16 + roundUp pointerSize size % 2 ^ 32) % 2 ^ 32⟩], 1, [⟨32, size⟩]⟩ := by
  unfold alloc
  rw [if_neg (Nat.not_lt.mpr small)]
  have unlimited : ¬ (limit ≠ 0 ∧ limit ≤ 0) := by omega
  simp only [takeFirst, pager, if_neg unlimited]
  rfl

/-- The next block, when the latest page has enough left. -/
theorem alloc_next (limit count : Nat) (address : Option Nat) (rest : List Page)
    (blocks : List Block) {size : Nat} {page : Page} (small : size ≤ sub pagesize headerSize)
    (room : roundUp pointerSize size ≤ sub pagesize page.used) :
    alloc pagesize limit size address ⟨page :: rest, count, blocks⟩ =
      .ok ⟨(page.take (roundUp pointerSize size)).1 :: rest, count,
        ⟨(page.take (roundUp pointerSize size)).2, size⟩ :: blocks⟩ := by
  unfold alloc
  rw [if_neg (Nat.not_lt.mpr small)]
  simp only [takeFirst, if_pos room]

/-- A step that is allowed and does not throw. -/
theorem step_eq_some {state target : State} (request : Request)
    (sized : 0 < request.size ∧ request.size < 2 ^ 64)
    (heap : ∀ base ∈ request.address, Heap pagesize base state)
    (allocated : alloc pagesize limit request.size request.address state = .ok target) :
    (machine pagesize limit).step state request = some target := by
  simp only [machine]
  rw [if_pos ⟨sized.1, sized.2, heap⟩, allocated]
  rfl

/-- The first page may be at address 16. -/
theorem heap_first (fits : pagesize + 16 ≤ 2 ^ 64) :
    ∀ base ∈ some 16, Heap pagesize base ⟨[], 0, []⟩ := by
  intro base same
  cases same
  exact ⟨by decide, by decide, by omega, fun page member => by cases member⟩

/-- Without room for the header the size test wraps around, and a page is used beyond its end from
the start. -/
theorem not_sound_of_tiny (tiny : pagesize < 16) :
    ∃ state, (machine pagesize limit).Reachable state ∧ ¬ Sound pagesize limit state := by
  have small : 1 ≤ sub pagesize headerSize := by
    unfold headerSize
    rw [sub_of_lt (by decide) tiny]
    omega
  have stepped := step_eq_some ⟨1, some 16⟩ ⟨by decide, by decide⟩
    (heap_first (by omega)) (alloc_first limit small)
  refine ⟨_, ⟨_, (Machine.Run.start rfl).next _ stepped⟩, fun sound => ?_⟩
  have used := sound.used _ List.mem_cons_self
  have rounded : roundUp pointerSize 1 = 8 := by decide
  rw [rounded] at used
  dsimp only at used
  omega

/-- A page that does not hold whole pointers is used beyond its end by a block of all it has. -/
theorem not_sound_of_odd (header : 16 ≤ pagesize) (odd : pagesize % 8 ≠ 0)
    (narrow : pagesize ≤ 2 ^ 32 - 8) :
    ∃ state, (machine pagesize limit).Reachable state ∧ ¬ Sound pagesize limit state := by
  have subtract : sub pagesize headerSize = pagesize - 16 := sub_of_le (by omega) header
  have rounded := roundUp_eq pointerSize (pagesize - 16) (by omega) (by unfold pointerSize; omega)
  have stepped := step_eq_some ⟨pagesize - 16, some 16⟩
    ⟨by dsimp only; omega, by dsimp only; omega⟩ (heap_first (by omega)) 
    (alloc_first limit (Nat.le_of_eq subtract.symm))
  refine ⟨_, ⟨_, (Machine.Run.start rfl).next _ stepped⟩, fun sound => ?_⟩
  have used := sound.used _ List.mem_cons_self
  rw [rounded] at used
  dsimp only at used
  omega

/-- In a page of nearly 4 GiB or more, `used` starts again at 0, and the next block is the
header. -/
theorem not_sound_of_wide (wide : 2 ^ 32 - 8 < pagesize) (fits : pagesize + 16 ≤ 2 ^ 64) :
    ∃ state, (machine pagesize limit).Reachable state ∧ ¬ Sound pagesize limit state := by
  have subtract : sub pagesize headerSize = pagesize - 16 :=
    sub_of_le (by omega) (by unfold headerSize; omega)
  obtain ⟨size, least, most, whole⟩ : ∃ size, 0 < size ∧ size ≤ pagesize - 16 ∧
      (size + 7) / 8 * 8 = 2 ^ 32 - 16 :=
    ⟨min pagesize (2 ^ 32) - 16, by omega, by omega, by omega⟩
  have rounded := roundUp_eq pointerSize size (by omega) (by unfold pointerSize; omega)
  have full : (16 + roundUp pointerSize size % 2 ^ 32) % 2 ^ 32 = 0 := by
    rw [rounded]
    omega
  have small : size ≤ sub pagesize headerSize := by
    rw [subtract]
    exact most
  have first := alloc_first limit small
  rw [full] at first
  have one : roundUp pointerSize 1 = 8 := by decide
  have small' : 1 ≤ sub pagesize headerSize := by
    rw [subtract]
    omega
  have room : roundUp pointerSize 1 ≤ sub pagesize (Page.mk 16 0).used := by
    rw [one, sub_of_le (by omega) (Nat.zero_le _)]
    omega
  have again := alloc_next limit 1 none [] [⟨32, size⟩] small' room
  have stepped := step_eq_some ⟨size, some 16⟩ ⟨least, by dsimp only; omega⟩
    (heap_first fits) first
  have stepped' := step_eq_some ⟨1, none⟩ ⟨by decide, by decide⟩
    (fun base same => by cases same) again
  refine ⟨_, ⟨_, ((Machine.Run.start rfl).next _ stepped).next _ stepped'⟩, fun sound => ?_⟩
  obtain ⟨page, on, behind, _⟩ := sound.inside _ List.mem_cons_self
  rw [List.mem_singleton.mp on] at behind
  exact absurd behind (by decide)

/-- With any other page size a page is used beyond its end, or its header is handed out. -/
theorem not_sound_of_irregular (limit : Nat) (irregular : ¬ Regular pagesize)
    (fits : pagesize + 16 ≤ 2 ^ 64) :
    ∃ state, (machine pagesize limit).Reachable state ∧ ¬ Sound pagesize limit state := by
  unfold Regular headerSize pointerSize at irregular
  by_cases tiny : pagesize < 16
  · exact not_sound_of_tiny tiny
  · by_cases wide : 2 ^ 32 - 8 < pagesize
    · exact not_sound_of_wide wide fits
    · exact not_sound_of_odd (Nat.le_of_not_lt tiny) (by omega) (Nat.le_of_not_lt wide)

end Irregular

/-- The page size after construction leaves room for a pointer behind it in the address space. -/
theorem pagesize_add_le {paging : Nat} (aligned : paging % 16 = 0) (word : paging < 2 ^ 64)
    (ps : Nat) : pagesize paging ps + 16 ≤ 2 ^ 64 := by
  unfold pagesize
  split
  next => omega
  next =>
    split
    next =>
      have multiple : (sub ((ps + paging) % 2 ^ 64) 1 / paging * paging) % 16 = 0 := by
        rw [Nat.mul_mod, aligned, Nat.mul_zero]
      omega
    next => omega

/-- The blocks of a `memalloc` are sound in every run exactly when its page size is regular. -/
theorem memalloc_sound_iff {paging : Nat} (aligned : paging % 16 = 0) (word : paging < 2 ^ 64)
    (ps limit : Nat) :
    (∀ moves state, (machine (pagesize paging ps) limit).Run moves state →
      Machine.Throughout (Sound (pagesize paging ps) limit) moves state) ↔
      Regular (pagesize paging ps) := by
  constructor
  · intro sound
    by_contra irregular
    obtain ⟨state, ⟨moves, run⟩, unsound⟩ :=
      not_sound_of_irregular limit irregular (pagesize_add_le aligned word ps)
    exact unsound (sound moves state run).1
  · intro regular moves state run
    have unconditional : Machine.Meets (fun _ _ => True) moves := fun _ _ => trivial
    refine (run.throughout_iff_meets (Laid (pagesize paging ps)) ?_ ?_ ?_ ?_).mpr unconditional
    · rintro state rfl
      exact laid_empty
    · exact fun _ request _ laid _ stepped => laid_step regular laid request stepped
    · exact fun _ laid => laid.sound regular
    · exact fun _ _ _ _ broken => absurd trivial broken

/-- Three blocks in two pages of a `memalloc` with pages of 64 bytes. -/
theorem memalloc_sound_iff_two_pages :
    ∃ moves state, (machine (pagesize 4096 64) 0).Run moves state ∧
      state.blocks = [⟨144, 20⟩, ⟨56, 5⟩, ⟨32, 17⟩] ∧
      Machine.Throughout (Sound (pagesize 4096 64) 0) moves state := by
  have paging : 4096 % 16 = 0 := by decide
  let played := (machine (pagesize 4096 64) 0).play ⟨[], 0, []⟩
    [⟨17, some 16⟩, ⟨5, some 128⟩, ⟨20, some 128⟩]
  obtain ⟨moves, run⟩ : (machine (pagesize 4096 64) 0).Reachable (played.get (by decide)) :=
    Machine.reachable_get rfl _
  exact ⟨moves, _, run, by decide, (memalloc_sound_iff paging (by decide) 64 0).mpr
    (by unfold Regular; decide) moves _ run⟩

/-- A page of 20 bytes has 4 left behind its header. A block of 4 bytes takes 8. -/
theorem memalloc_exceeds_page :
    ∃ moves state, (machine (pagesize 4096 20) 0).Run moves state ∧
      state.page = [⟨16, 24⟩] ∧
      ¬ Machine.Throughout (Sound (pagesize 4096 20) 0) moves state := by
  let played := (machine (pagesize 4096 20) 0).play ⟨[], 0, []⟩ [⟨4, some 16⟩]
  obtain ⟨moves, run⟩ : (machine (pagesize 4096 20) 0).Reachable (played.get (by decide)) :=
    Machine.reachable_get rfl _
  have pages : (played.get (by decide)).page = [⟨16, 24⟩] := by decide
  refine ⟨moves, _, run, pages, fun throughout => ?_⟩
  have used := throughout.1.used ⟨16, 24⟩ (by rw [pages]; simp)
  exact absurd used (by decide)

end Memalloc

end CommonCpp
