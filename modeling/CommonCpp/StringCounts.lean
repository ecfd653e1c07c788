/-
This file settles the reference counts of strings. The count of each buffer is the number of
strings that point to it, and a buffer is deallocated when the last of them lets go, as long as
nothing is pasted into a string that has no buffer: `paste` then creates one and does not
retain it. The count is an `unsigned`, and so no string may become the copy of one whose buffer
has as many already as can be counted.
-/

import CommonCpp.Machine
import CommonCpp.Strings

namespace CommonCpp

open Concurrency Counted Counter Bytes

namespace Strings

variable {Name : Type} [DecidableEq Name]

/-- The runs of any program on the strings. -/
def machine (Name : Type) [DecidableEq Name] : Machine (State Name) (Action Name) where
  Init state := ∃ cstring fresh,
    state = ⟨⟨0, fun _ => 0, fun _ => 0, cstring, fresh⟩, fun _ => false, fun _ => none⟩
  step state action := if Allowed state action then some (perform state action) else none

/-! ### The accounts -/

/-- The accounts of the buffers, of which each is held so often: one that is held has this for its
count and has not been deallocated, and one that is not held any more has been, once. -/
structure Balanced (heap : Heap) (held : ℕ → ℕ) : Prop where
  counts : ∀ str < heap.size, 0 < held str →
    heap.count str = held str ∧ heap.deallocs str = 0
  dead : ∀ str < heap.size, held str = 0 → heap.deallocs str = 1
  beyond : ∀ str, heap.size ≤ str → held str = 0 ∧ heap.deallocs str = 0

variable {heap : Heap} {held held' : ℕ → ℕ} {str : ℕ}

namespace Balanced

/-- The accounts do not depend on what is in the buffers. -/
theorem edit (balanced : Balanced heap held) (str : ℕ) (change : Cstring → Cstring) :
    Balanced (heap.edit str change) held :=
  ⟨balanced.counts, balanced.dead, balanced.beyond⟩

theorem lt_size (balanced : Balanced heap held) (holds : 0 < held str) : str < heap.size := by
  by_contra beyond
  exact absurd (balanced.beyond str (Nat.le_of_not_lt beyond)).1 (Nat.ne_of_gt holds)

/-- A buffer that is held is retained once more. -/
theorem retain (balanced : Balanced heap held) (holds : 0 < held str)
    (room : heap.count str + 1 < 2 ^ 32)
    (taken : ∀ other, held' other = held other + points (some str) other) :
    Balanced (heap.retain str) held' := by
  have inside := balanced.lt_size holds
  refine ⟨fun other within holds' => ?_, fun other within none_ => ?_, fun other beyond => ?_⟩
  · rw [taken, points_some] at holds'
    rw [taken, points_some]
    by_cases same : other = str
    · rw [same]
      obtain ⟨count, living⟩ := balanced.counts str inside holds
      rw [count] at room
      exact ⟨by simp [Heap.retain, count, raise_of_lt room], living⟩
    · rw [if_neg same, Nat.add_zero] at holds' ⊢
      simpa [Heap.retain, same] using balanced.counts other within holds'
  · rw [taken] at none_
    exact balanced.dead other within (by omega)
  · have apart : other ≠ str := fun same => Nat.not_lt_of_le beyond (same ▸ inside)
    rw [taken, points_some, if_neg apart]
    exact balanced.beyond other beyond

/-- A buffer that is held is released. -/
theorem release (balanced : Balanced heap held) (holds : 0 < held str)
    (let_ : ∀ other, held' other + points (some str) other = held other) :
    Balanced (heap.release str) held' := by
  have inside := balanced.lt_size holds
  obtain ⟨count, living⟩ := balanced.counts str inside holds
  have here := let_ str
  rw [points_some, if_pos rfl] at here
  have elsewhere : ∀ other, other ≠ str → held' other = held other := by
    intro other apart
    have there := let_ other
    rwa [points_some, if_neg apart] at there
  unfold Heap.release
  split
  next copied =>
    refine ⟨fun other within holds' => ?_, fun other within none_ => ?_, fun other beyond => ?_⟩
    · by_cases same : other = str
      · rw [same]
        refine ⟨?_, living⟩
        simp only [Function.update_self]
        omega
      · rw [elsewhere other same] at holds' ⊢
        simpa [same] using balanced.counts other within holds'
    · have apart : other ≠ str := by
        rintro rfl
        omega
      exact balanced.dead other within (elsewhere other apart ▸ none_)
    · have apart : other ≠ str := fun same => Nat.not_lt_of_le beyond (same ▸ inside)
      rw [elsewhere other apart]
      exact balanced.beyond other beyond
  next last =>
    refine ⟨fun other within holds' => ?_, fun other within none_ => ?_, fun other beyond => ?_⟩
    · have apart : other ≠ str := by
        rintro rfl
        omega
      rw [elsewhere other apart] at holds' ⊢
      simpa [apart] using balanced.counts other within holds'
    · by_cases same : other = str
      · simp [same, living]
      · rw [elsewhere other same] at none_
        simpa [same] using balanced.dead other within none_
    · have apart : other ≠ str := fun same => Nat.not_lt_of_le beyond (same ▸ inside)
      rw [elsewhere other apart]
      simpa [apart] using balanced.beyond other beyond

/-- A buffer is created and retained. -/
theorem create (balanced : Balanced heap held) (size : ℕ)
    (taken : ∀ other, held' other = held other + points (some heap.size) other) :
    Balanced ((heap.create size).retain heap.size) held' := by
  obtain ⟨unheld, living⟩ := balanced.beyond heap.size le_rfl
  refine ⟨fun other within holds' => ?_, fun other within none_ => ?_, fun other beyond => ?_⟩
  · rw [taken, points_some] at holds' ⊢
    by_cases same : other = heap.size
    · rw [same, if_pos rfl, unheld]
      exact ⟨by simp [Heap.retain, Heap.create, raise], living⟩
    · have within' : other < heap.size :=
        Nat.lt_of_le_of_ne (Nat.le_of_lt_succ within) same
      rw [if_neg same, Nat.add_zero] at holds' ⊢
      simpa [Heap.retain, Heap.create, same] using balanced.counts other within' holds'
  · rw [taken, points_some] at none_
    have apart : other ≠ heap.size := by
      rintro rfl
      rw [if_pos rfl] at none_
      omega
    have within' : other < heap.size := Nat.lt_of_le_of_ne (Nat.le_of_lt_succ within) apart
    exact balanced.dead other within' (by omega)
  · have beyond' : heap.size + 1 ≤ other := beyond
    rw [taken, points_some, if_neg (by omega)]
    exact balanced.beyond other (by omega)

end Balanced

/-! ### Strings and counts -/

section Accounts

variable [Fintype Name]

/-- The strings that point to a buffer. -/
def holders (state : State Name) (str : ℕ) : ℕ := ∑ name, points (state.str name) str

/-- The count of each buffer that has not been deallocated is the number of strings that point to
it, of which there is one at least, and no string points to one that has. -/
def Consistent (state : State Name) : Prop := Balanced state.heap (holders state)

/-- The buffer of a string, if it has one, can count one more. -/
def Room (state : State Name) (s : Name) : Prop :=
  ∀ str, state.str s = some str → state.heap.count str + 1 < 2 ^ 32

/-- Nothing is pasted into a string that has no buffer, and the buffer of a string that is copied
can count the copy. -/
def Careful (state : State Name) : Action Name → Prop
  | .mutate this (.paste _ cp size) =>
    state.str this ≠ none ∨ cp = none ∨ size = 0 ∧ string (cp.getD []) = []
  | .copy _ dup => Room state dup
  | .assign this s => state.str this = state.str s ∨ Room state s
  | _ => True

variable {state : State Name} {this : Name}

theorem holders_store (state : State Name) (this : Name) (ref : Option ℕ) (str : ℕ) :
    holders (store state this ref) str + points (state.str this) str =
      holders state str + points ref str :=
  sum_points_update state.str this ref str

omit [DecidableEq Name] in
theorem holders_pos (points_ : state.str this = some str) : 0 < holders state str :=
  sum_points_pos points_

omit [DecidableEq Name] in
theorem Consistent.edit (consistent : Consistent state) (this : Name)
    (change : Cstring → Cstring) : Consistent (edit state this change) := by
  unfold Strings.edit
  split
  · exact consistent
  · exact Balanced.edit consistent _ change

/-- A string that has none is given a new buffer. -/
theorem consistent_make (balanced : Balanced state.heap (holders (store state this none)))
    (size : ℕ) : Consistent (make state this size) := by
  refine balanced.create size fun other => ?_
  have given : holders (store state this (some state.heap.size)) other +
      points (state.str this) other = holders state other + points (some state.heap.size) other :=
    holders_store state this _ other
  have taken := holders_store state this none other
  rw [points_none] at taken
  show holders (store state this (some state.heap.size)) other = _
  omega

theorem Consistent.unheld (consistent : Consistent state) (none_ : state.str this = none) :
    Balanced state.heap (holders (store state this none)) := by
  have same : holders (store state this none) = holders state := by
    funext str
    have stored := holders_store state this none str
    rwa [none_, points_none, Nat.add_zero, Nat.add_zero] at stored
  rw [same]
  exact consistent

/-- A string lets go of its buffer. -/
theorem Consistent.letGo (consistent : Consistent state) (ref : Option ℕ)
    (refers : state.str this = ref) :
    Balanced (state.heap.releaseRef ref) (holders (store state this none)) := by
  cases ref with
  | none => exact consistent.unheld refers
  | some str =>
    refine Balanced.release consistent (holders_pos refers) fun other => ?_
    have stored := holders_store state this none other
    rwa [refers, points_none, Nat.add_zero] at stored

theorem Consistent.release (consistent : Consistent state) (this : Name) :
    Consistent (release state this) :=
  consistent.letGo (state.str this) rfl

theorem Consistent.make (consistent : Consistent state) (none_ : state.str this = none)
    (size : ℕ) : Consistent (make state this size) :=
  consistent_make (consistent.unheld none_) size

theorem Consistent.resize (consistent : Consistent state) (this : Name) (size : ℕ) :
    Consistent (resize state this size) := by
  unfold Strings.resize
  split
  · exact consistent.release this
  split
  next none_ => exact consistent.make none_ size
  next str str_ =>
    split
    · exact @consistent_make _ _ _ { state with heap := state.heap.release str } this
        (consistent.letGo (some str) str_) size
    · exact consistent

theorem Consistent.cow (consistent : Consistent state) (this : Name) (size : ℕ) (s : Text) :
    Consistent (cow state this size s) := by
  unfold Strings.cow
  split
  next none_ =>
    split
    · exact consistent
    · exact consistent.make none_ size
  next str str_ =>
    dsimp only
    split
    · exact consistent
    split
    · -- the new buffer is retained before the old one is released
      have created : Balanced ((state.heap.create _).retain state.heap.size)
          (fun other => holders state other + points (some state.heap.size) other) :=
        Balanced.create consistent (Cstring.sum (state.heap.cstring str).len size s) fun _ => rfl
      have edited := created.edit state.heap.size (cowed (state.heap.cstring str))
      refine edited.release ?_ fun other => ?_
      · exact Nat.lt_add_right _ (holders_pos str_)
      · have stored := holders_store state this (some state.heap.size) other
        rw [str_] at stored
        exact stored
    · exact consistent

theorem Consistent.set (consistent : Consistent state) (this : Name) (s : Text) :
    Consistent (set state this s) := by
  unfold Strings.set
  split
  next none_ => exact (consistent.make none_ _).edit this _
  next => exact consistent.edit this _

theorem Consistent.add (consistent : Consistent state) (this : Name) (s : Text) :
    Consistent (add state this s) := by
  unfold Strings.add
  split
  · exact consistent
  split
  · exact consistent.set this s
  · exact (consistent.cow this _ _).edit this _

theorem Consistent.addChar (consistent : Consistent state) (this : Name) (ch : UInt8) :
    Consistent (addChar state this ch) := by
  unfold Strings.addChar
  split
  · exact consistent
  dsimp only
  split
  · exact consistent.set this [ch]
  · exact (consistent.cow this 1 _).edit this _

theorem Consistent.fill (consistent : Consistent state) (this : Name) (size : ℕ) (ch : UInt8) :
    Consistent (fill state this size ch) := by
  unfold Strings.fill
  split
  next none_ => exact (consistent.make none_ size).edit this _
  next => exact consistent.edit this _

/-- What is pasted into a string that has a buffer. -/
theorem Consistent.paste (consistent : Consistent state) {str : ℕ}
    (str_ : state.str this = some str)
    (offset : ℕ) (cp : Option Text) (size : ℕ) : Consistent (paste state this offset cp size) := by
  unfold Strings.paste
  split
  · exact consistent
  next cp =>
  generalize (if size = 0 then strlen cp else size) = size
  dsimp only
  split
  · exact consistent
  rw [str_]
  exact (consistent.cow this size cp).edit this _

theorem Consistent.replaceLoop (consistent : Consistent state) (this : Name) (substring : Text)
    (cp : Option Text) (insensitive : Bool) (rounds offset : ℕ) :
    Consistent (replaceLoop this substring cp insensitive rounds offset state) := by
  induction rounds generalizing offset state with
  | zero => exact consistent
  | succ rounds inductionHypothesis =>
    unfold Strings.replaceLoop
    split
    · exact consistent
    next str str_ =>
    split
    · have cut_ := consistent.edit this fun str => str.cut offset (strlen substring)
      have str' : (Strings.edit state this fun str => str.cut offset (strlen substring)).str this =
          some str := by
        rw [edit_str, str_]
      dsimp only
      split
      · exact inductionHypothesis (cut_.paste str' offset cp 0) _
      · exact inductionHypothesis cut_ _
    · exact consistent

theorem Consistent.replace (consistent : Consistent state) (this : Name)
    (substring cp : Option Text) (insensitive : Bool) (rounds : ℕ) :
    Consistent (replace state this substring cp insensitive rounds) := by
  unfold Strings.replace
  split
  · split
    · exact consistent
    · exact consistent.replaceLoop this _ cp insensitive rounds 0
  · exact consistent

/-- Every method keeps the counts, but for what is pasted into a string without a buffer. -/
theorem Consistent.mutate (consistent : Consistent state) (this : Name) (mutation : Mutation)
    (careful : Careful state (.mutate this mutation)) :
    Consistent (mutate state this mutation) := by
  cases mutation with
  | set s => exact consistent.set this _
  | add s => exact consistent.add this _
  | addChar ch => exact consistent.addChar this ch
  | paste offset cp size =>
    rcases careful with some_ | rfl | ⟨rfl, empty⟩
    · obtain ⟨str, str_⟩ := Option.ne_none_iff_exists'.mp some_
      exact consistent.paste str_ offset cp size
    · exact consistent
    · cases cp with
      | none => exact consistent
      | some cp =>
        have nothing : (if (0 : ℕ) = 0 then strlen cp else 0) = 0 := congrArg List.length empty
        show Consistent (Strings.paste state this offset (some cp) 0)
        unfold Strings.paste
        dsimp only
        rw [nothing]
        exact consistent
  | replace substring cp insensitive rounds =>
    exact consistent.replace this substring cp insensitive rounds
  | fill size ch => exact consistent.fill this size ch
  | split s =>
    cases s with
    | none => exact consistent
    | some s => exact consistent.edit this _
  | rsplit s =>
    cases s with
    | none => exact consistent
    | some s => exact consistent.edit this _
  | _ => exact consistent.edit this _

/-- What is pasted into a string without a buffer is in one that nobody has retained. -/
theorem not_consistent_paste {offset size : ℕ} {cp : Option Text}
    (careless : ¬ Careful state (.mutate this (.paste offset cp size))) :
    ¬ Consistent (paste state this offset cp size) := by
  obtain ⟨none_, some_, filled⟩ : state.str this = none ∧ cp ≠ none ∧
      ¬ (size = 0 ∧ string (cp.getD []) = []) := by
    simpa only [Careful, not_or, not_not] using careless
  obtain ⟨cp, rfl⟩ := Option.ne_none_iff_exists'.mp some_
  have positive : ¬ (if size = 0 then strlen cp else size) = 0 := by
    intro nothing
    split at nothing
    next zero => exact filled ⟨zero, List.length_eq_zero_iff.mp nothing⟩
    next given => exact given nothing
  unfold paste
  dsimp only
  generalize (if size = 0 then strlen cp else size) = size at positive ⊢
  rw [if_neg positive, none_]
  dsimp only
  intro consistent
  have points_ : (edit (store { state with heap := state.heap.create size } this
      (some state.heap.size)) this (pasted cp size)).str this = some state.heap.size := by
    rw [edit_str, store_str_self]
  have held := holders_pos points_
  have count := (consistent.counts state.heap.size (consistent.lt_size held) held).1
  have created : (edit (store { state with heap := state.heap.create size } this
      (some state.heap.size)) this (pasted cp size)).heap.count state.heap.size = 0 := by
    unfold edit
    rw [store_str_self]
    exact Function.update_self _ _ _
  rw [created] at count
  omega

/-! ### Constructors, copies and assignments -/

/-- A string that has been destroyed, or not been constructed, has no buffer. -/
def Unconstructed (state : State Name) : Prop :=
  ∀ name, state.constructed name = false → state.str name = none

theorem Consistent.construct (consistent : Consistent state) (none_ : state.str this = none)
    (construction : Construction) : Consistent (construct state this construction) := by
  cases construction with
  | empty =>
    show Balanced state.heap (holders (store state this none))
    exact consistent.unheld none_
  | size size => exact consistent.make none_ size
  | _ => exact (consistent.make none_ _).edit this _

theorem Consistent.copy (consistent : Consistent state) (none_ : state.str this = none)
    (dup : Name) (room : Room state dup) : Consistent (copy state this dup) := by
  show Balanced (state.heap.retainRef ((store state this (state.str dup)).str this))
    (holders (store state this (state.str dup)))
  rw [store_str_self]
  have stored : ∀ other, holders (store state this (state.str dup)) other =
      holders state other + points (state.str dup) other := by
    intro other
    have taken := holders_store state this (state.str dup) other
    rwa [none_, points_none, Nat.add_zero] at taken
  cases dup_ : state.str dup with
  | none =>
    rw [dup_] at stored
    have same : holders (store state this none) = holders state := funext stored
    rw [same]
    exact consistent
  | some str =>
    rw [dup_] at stored
    exact Balanced.retain consistent (holders_pos dup_) (room str dup_) stored

theorem Consistent.assign (consistent : Consistent state) (this s : Name)
    (careful : Careful state (.assign this s)) : Consistent (assign state this s) := by
  unfold Strings.assign
  split
  · exact consistent
  next apart =>
    have room : Room state s := careful.resolve_left apart
    have stored := holders_store state this (state.str s)
    have retained : Balanced (state.heap.retainRef (state.str s))
        (fun other => holders state other + points (state.str s) other) := by
      cases s_ : state.str s with
      | none => exact consistent
      | some str => exact Balanced.retain consistent (holders_pos s_) (room str s_) fun _ => rfl
    show Balanced ((state.heap.retainRef (state.str s)).releaseRef (state.str this))
      (holders (store state this (state.str s)))
    cases this_ : state.str this with
    | none =>
      rw [this_] at stored
      have same : holders (store state this (state.str s)) =
          fun other => holders state other + points (state.str s) other := funext stored
      rw [same]
      exact retained
    | some str =>
      rw [this_] at stored
      exact Balanced.release retained (Nat.lt_add_right _ (holders_pos this_)) stored

omit [DecidableEq Name] in
/-- A count that could not be raised is not the number of the strings. -/
theorem not_consistent_of_full {target : State Name} {str : ℕ}
    (full : ¬ state.heap.count str + 1 < 2 ^ 32) (points_ : state.str this = some str)
    (consistent : Consistent state) (held : holders target str = holders state str + 1)
    (count : target.heap.count str = raise (state.heap.count str) 1) : ¬ Consistent target := by
  intro consistent_
  have positive := holders_pos points_
  have before := (consistent.counts str (consistent.lt_size positive) positive).1
  have positive_ : 0 < holders target str := by omega
  have after := (consistent_.counts str (consistent_.lt_size positive_) positive_).1
  have small := raise_lt (state.heap.count str) 1
  rw [count, held] at after
  omega

/-- A string that has no buffer becomes one copy too many. -/
theorem not_consistent_copy (consistent : Consistent state) (none_ : state.str this = none)
    {dup : Name} (full : ¬ Room state dup) : ¬ Consistent (copy state this dup) := by
  obtain ⟨str, dup_, full⟩ : ∃ str, state.str dup = some str ∧
      ¬ state.heap.count str + 1 < 2 ^ 32 := by
    simpa only [Room, not_forall, exists_prop] using full
  have stored := holders_store state this (state.str dup) str
  rw [none_, dup_, points_none, points_some, if_pos rfl, Nat.add_zero] at stored
  refine not_consistent_of_full full dup_ consistent ?_ ?_
  · rw [← stored, ← dup_]
    rfl
  · show ((state.heap.retainRef ((store state this (state.str dup)).str this))).count str = _
    rw [store_str_self, dup_]
    exact Function.update_self _ _ _

/-- A string is made one copy too many. -/
theorem not_consistent_assign (consistent : Consistent state) {s : Name}
    (careless : ¬ Careful state (.assign this s)) : ¬ Consistent (assign state this s) := by
  obtain ⟨apart, full⟩ := not_or.mp careless
  obtain ⟨str, s_, full⟩ : ∃ str, state.str s = some str ∧
      ¬ state.heap.count str + 1 < 2 ^ 32 := by
    simpa only [Room, not_forall, exists_prop] using full
  have other_ : state.str this ≠ some str := fun same => apart (same.trans s_.symm)
  have stored := holders_store state this (state.str s) str
  have elsewhere : points (state.str this) str = 0 := if_neg other_
  rw [elsewhere, s_, points_some, if_pos rfl, Nat.add_zero] at stored
  unfold assign
  rw [if_neg apart]
  refine not_consistent_of_full full s_ consistent ?_ ?_
  · rw [← stored, ← s_]
    rfl
  · show ((state.heap.retainRef (state.str s)).releaseRef (state.str this)).count str = _
    have retained : (state.heap.retainRef (state.str s)).count str =
        raise (state.heap.count str) 1 := by
      rw [s_]
      exact Function.update_self _ _ _
    rw [← retained]
    cases this_ : state.str this with
    | none => rfl
    | some old =>
      refine release_count_of_ne fun same => ?_
      rw [this_, same] at other_
      exact other_ rfl

theorem Consistent.swap (consistent : Consistent state) (s₁ s₂ : Name) :
    Consistent (swap state s₁ s₂) := by
  have same : holders (Strings.swap state s₁ s₂) = holders state := by
    funext str
    have first := holders_store state s₁ (state.str s₂) str
    have second := holders_store (store state s₁ (state.str s₂)) s₂ (state.str s₁) str
    have between : (store state s₁ (state.str s₂)).str s₂ = state.str s₂ := by
      by_cases equal : s₂ = s₁
      · rw [equal, store_str_self]
      · exact store_str_of_ne equal state _
    rw [between] at second
    show holders (store (store state s₁ (state.str s₂)) s₂ (state.str s₁)) str = _
    omega
  show Balanced state.heap (holders (Strings.swap state s₁ s₂))
  rw [same]
  exact consistent

/-! ### Runs -/

/-- The call of a careful program keeps the counts. -/
theorem Consistent.perform (consistent : Consistent state) (tidy : Unconstructed state)
    {action : Action Name} (allowed : Allowed state action) (careful : Careful state action) :
    Consistent (perform state action) := by
  cases action with
  | construct this construction =>
    exact @Consistent.construct _ _ _ { state with
      constructed := Function.update state.constructed this true } this consistent
      (tidy this allowed) construction
  | copy this dup =>
    exact @Consistent.copy _ _ _ { state with
      constructed := Function.update state.constructed this true } this consistent
      (tidy this allowed.1) dup careful
  | assign this s => exact consistent.assign this s careful
  | assignValue this s => exact (consistent.release this).set this _
  | assignText this s => exact (consistent.release this).set this _
  | mutate this mutation => exact consistent.mutate this mutation careful
  | resize this size => exact consistent.resize this size
  | cow this size => exact consistent.cow this size []
  | swap s₁ s₂ => exact consistent.swap s₁ s₂
  | release this => exact consistent.release this
  | destroy this =>
    exact @Consistent.release _ _ _ { state with
      constructed := Function.update state.constructed this false } consistent this

omit [Fintype Name] [DecidableEq Name] in
/-- A call on a string that has been constructed gives no buffer to any that has not. -/
theorem Unconstructed.of_others {target : State Name} (tidy : Unconstructed state)
    (constructed : state.constructed this) (same : target.constructed = state.constructed)
    (others : ∀ other, other ≠ this → target.str other = state.str other) :
    Unconstructed target := by
  intro name destroyed
  rw [same] at destroyed
  have apart : name ≠ this := by
    rintro rfl
    exact absurd constructed (by rw [destroyed]; exact Bool.false_ne_true)
  rw [others name apart]
  exact tidy name destroyed

omit [Fintype Name] [DecidableEq Name] in
theorem Touches.unconstructed {target : State Name} (touches : Touches this state target)
    (tidy : Unconstructed state) (constructed : state.constructed this) : Unconstructed target :=
  tidy.of_others constructed touches.constructed touches.str

omit [Fintype Name] in
theorem construct_str_of_ne {other : Name} (apart : other ≠ this) (state : State Name)
    (construction : Construction) :
    (construct state this construction).str other = state.str other := by
  have made : ∀ size, (make state this size).str other = state.str other :=
    fun size => (Touches.make state this size).str other apart
  cases construction with
  | empty => exact store_str_of_ne apart state none
  | size size => exact made size
  | _ => exact (congrFun (edit_str _ this _) other).trans (made _)

omit [Fintype Name] in
theorem construct_constructed (state : State Name) (this : Name) (construction : Construction) :
    (construct state this construction).constructed = state.constructed := by
  cases construction with
  | empty => rfl
  | size size => rfl
  | _ => exact (Touches.edit _ this _).constructed

omit [Fintype Name] in
theorem Unconstructed.perform (tidy : Unconstructed state) {action : Action Name}
    (allowed : Allowed state action) : Unconstructed (perform state action) := by
  have marked : ∀ this, Unconstructed
      { state with constructed := Function.update state.constructed this true } := by
    intro this name destroyed
    by_cases same : name = this
    · have kept : Function.update state.constructed this true name = false := destroyed
      rw [same, Function.update_self] at kept
      cases kept
    · have kept : Function.update state.constructed this true name = false := destroyed
      rw [Function.update_of_ne same] at kept
      exact tidy name kept
  cases action with
  | construct this construction =>
    exact (marked this).of_others (Function.update_self _ _ _)
      (construct_constructed _ this construction)
      fun other apart => construct_str_of_ne apart _ construction
  | copy this dup =>
    exact (marked this).of_others (Function.update_self _ _ _) rfl
      fun other apart => store_str_of_ne apart _ _
  | assign this s =>
    refine tidy.of_others allowed.1 ?_ fun other apart => ?_
    · show (assign state this s).constructed = _
      unfold assign
      split <;> rfl
    · show (assign state this s).str other = _
      unfold assign
      split
      · rfl
      · exact store_str_of_ne apart _ _
  | assignValue this s =>
    exact ((touches_release state this).trans (touches_set _ this _)).unconstructed tidy allowed.1
  | assignText this s =>
    exact ((touches_release state this).trans (touches_set _ this _)).unconstructed tidy allowed
  | mutate this mutation => exact (touches_mutate state this mutation).unconstructed tidy allowed
  | resize this size => exact (touches_resize state this size).unconstructed tidy allowed
  | cow this size => exact (touches_cow state this size []).unconstructed tidy allowed
  | swap s₁ s₂ =>
    intro name destroyed
    have apart : ∀ {other}, state.constructed other → name ≠ other := by
      rintro other constructed rfl
      have destroyed' : state.constructed name = false := destroyed
      rw [destroyed'] at constructed
      cases constructed
    show (store (store state s₁ (state.str s₂)) s₂ (state.str s₁)).str name = none
    rw [store_str_of_ne (apart allowed.2), store_str_of_ne (apart allowed.1)]
    exact tidy name destroyed
  | release this => exact (touches_release state this).unconstructed tidy allowed
  | destroy this =>
    intro name destroyed
    show (store _ this none).str name = none
    by_cases same : name = this
    · rw [same, store_str_self]
    · rw [store_str_of_ne same]
      refine tidy name ?_
      have kept : Function.update state.constructed this false name = false := destroyed
      rwa [Function.update_of_ne same] at kept

omit [Fintype Name] in
/-- The program starts without strings and buffers. -/
theorem consistent_init [Fintype Name] (initial : (machine Name).Init state) :
    Consistent state ∧ Unconstructed state := by
  obtain ⟨cstring, fresh, rfl⟩ := initial
  refine ⟨⟨fun _ within => absurd within (Nat.not_lt_zero _),
    fun _ within => absurd within (Nat.not_lt_zero _), fun str _ => ⟨?_, rfl⟩⟩, fun _ _ => rfl⟩
  simp [holders]

/-- The counts of a program agree with its strings in every state of a run exactly when nothing is
pasted into a string that has no buffer, and no buffer has a copy too many. -/
theorem counts_iff {moves : List (Move (State Name) (Action Name))}
    (run : (machine Name).Run moves state) :
    Machine.Throughout Consistent moves state ↔ Machine.Meets Careful moves := by
  refine run.throughout_iff_meets (fun state => Consistent state ∧ Unconstructed state)
    (fun _ => consistent_init) ?_ (fun _ invariant => invariant.1) ?_
  · rintro source action target ⟨consistent, tidy⟩ careful stepped
    obtain ⟨allowed, performed⟩ := Option.ite_none_right_eq_some.mp stepped
    cases performed
    exact ⟨consistent.perform tidy allowed careful, tidy.perform allowed⟩
  · rintro source action target ⟨consistent, tidy⟩ careless stepped
    obtain ⟨allowed, performed⟩ := Option.ite_none_right_eq_some.mp stepped
    cases performed
    cases action with
    | mutate this mutation =>
      cases mutation with
      | paste offset cp size => exact not_consistent_paste careless
      | _ => exact absurd trivial careless
    | copy this dup =>
      exact @not_consistent_copy _ _ _ { source with
        constructed := Function.update source.constructed this true } this consistent
        (tidy this allowed.1) dup careless
    | assign this s => exact not_consistent_assign consistent careless
    | _ => exact absurd trivial careless

end Accounts

/-- A program that has not constructed a string yet. -/
def start (Name : Type) : State Name :=
  ⟨⟨0, fun _ => 0, fun _ => 0, fun _ => ⟨0, 0, [0]⟩, fun _ _ => 0⟩, fun _ => false, fun _ => none⟩

/-- A string is copied and destroyed: its buffer stays for the copy. -/
theorem counts_iff_copied :
    ∃ moves, ∃ state : State Bool, (machine Bool).Run moves state ∧
      state.str true = some 0 ∧ state.heap.count 0 = 1 ∧ state.heap.deallocs 0 = 0 ∧
      Machine.Throughout Consistent moves state := by
  have first : (machine Bool).Run [] (start Bool) := .start ⟨_, _, rfl⟩
  have run := ((first.take (.construct false (.text (some [0x41]))) (by decide)).take
    (.copy true false) (by decide)).take (.destroy false) (by decide)
  refine ⟨_, _, run, by decide, by decide, by decide, (counts_iff run).mpr ?_⟩
  have room : Room (perform (start Bool) (.construct false (.text (some [0x41])))) false := by
    intro str points_
    have first : (perform (start Bool) (.construct false (.text (some [0x41])))).str false =
        some 0 := by decide
    rw [first] at points_
    cases points_
    decide
  refine Machine.meets_cons.mpr ⟨trivial, Machine.meets_cons.mpr ⟨room,
    Machine.meets_cons.mpr ⟨trivial, fun move member => ?_⟩⟩⟩
  cases member

/-- A text is pasted into an empty string, which is copied and destroyed: the buffer is deallocated,
and the copy still points to it. -/
theorem paste_loses_count :
    ∃ moves, ∃ state : State Bool, (machine Bool).Run moves state ∧
      state.constructed true ∧ state.str true = some 0 ∧ state.heap.deallocs 0 = 1 ∧
      ¬ Machine.Throughout Consistent moves state := by
  let played := (machine Bool).play (start Bool)
    [.construct false .empty, .mutate false (.paste 0 (some [0x41]) 0), .copy true false,
      .destroy false]
  obtain ⟨moves, run⟩ : (machine Bool).Reachable (played.get (by decide)) :=
    Machine.reachable_of_play ⟨_, _, rfl⟩ (Option.some_get _).symm
  have points_ : (played.get (by decide)).str true = some 0 := by decide
  have dead : (played.get (by decide)).heap.deallocs 0 = 1 := by decide
  refine ⟨moves, _, run, by decide, points_, dead, fun throughout => ?_⟩
  have held := holders_pos points_
  have living := (throughout.1.counts 0 (throughout.1.lt_size held) held).2
  rw [dead] at living
  cases living

end Strings

end CommonCpp
