/-
This file models `String`, the string that shares its buffer with its copies.

A string has a pointer to a `cstring` or the null pointer. A `cstring` is counted by the
strings that point to it, and deallocated when the last one releases it. The strings are any
number of places, each of which may be constructed and destroyed again and again; a destroyed
string reads as the null its destructor left.

A text that is given to a string is memory of its own, and a pointer into the text of the
string is a distance from it. The null pointer is `none`. What a fresh `cstring` holds in its
memory is not known.
-/

import CommonCpp.Counted
import CommonCpp.Counter
import CommonCpp.Cstring

namespace CommonCpp

open Counted Counter Bytes

namespace Strings

/-! ### The buffers -/

/-- The buffers, numbered in the order of their construction: the count of each, how often it has
been deallocated, what it is, and what its memory holds when it is new. -/
structure Heap where
  size : ℕ
  count : ℕ → ℕ
  deallocs : ℕ → ℕ
  cstring : ℕ → Cstring
  fresh : ℕ → ℕ → UInt8

namespace Heap

/-- `create`: the new buffer is the one with the number `heap.size`. -/
def create (heap : Heap) (size : ℕ) : Heap :=
  { heap with
    size := heap.size + 1
    count := Function.update heap.count heap.size 0
    cstring := Function.update heap.cstring heap.size (Cstring.create size (heap.fresh heap.size)) }

/-- `CountedObject::retain`. -/
def retain (heap : Heap) (str : ℕ) : Heap :=
  { heap with count := Function.update heap.count str (raise (heap.count str) 1) }

/-- `CountedObject::release`. -/
def release (heap : Heap) (str : ℕ) : Heap :=
  if heap.count str > 1 then
    { heap with count := Function.update heap.count str (heap.count str - 1) }
  else { heap with deallocs := Function.update heap.deallocs str (heap.deallocs str + 1) }

/-- `CountedObject::is_copied`. -/
def isCopied (heap : Heap) (str : ℕ) : Prop := heap.count str > 1

instance (heap : Heap) (str : ℕ) : Decidable (heap.isCopied str) :=
  inferInstanceAs (Decidable (heap.count str > 1))

/-- A buffer that is changed in place. -/
def edit (heap : Heap) (str : ℕ) (change : Cstring → Cstring) : Heap :=
  { heap with cstring := Function.update heap.cstring str (change (heap.cstring str)) }

/-- `if(str) str->retain()`. -/
def retainRef (heap : Heap) : Option ℕ → Heap
  | none => heap
  | some str => heap.retain str

/-- `if(str) str->release()`. -/
def releaseRef (heap : Heap) : Option ℕ → Heap
  | none => heap
  | some str => heap.release str

end Heap

/-! ### The strings -/

variable {Name : Type} [DecidableEq Name]

/-- The buffers, which strings are constructed, and the buffer each of them points to. -/
structure State (Name : Type) where
  heap : Heap
  constructed : Name → Bool
  str : Name → Option ℕ

/-- `str = ...`. -/
def store (state : State Name) (this : Name) (str : Option ℕ) : State Name :=
  { state with str := Function.update state.str this str }

/-- `str = create(size); str->retain();`. -/
def make (state : State Name) (this : Name) (size : ℕ) : State Name :=
  let str := state.heap.size
  let state := { state with heap := state.heap.create size }
  let state := store state this (some str)
  { state with heap := state.heap.retain str }

/-- What a method does to the buffer of its string in place, when there is one. -/
def edit (state : State Name) (this : Name) (change : Cstring → Cstring) : State Name :=
  match state.str this with
  | none => state
  | some str => { state with heap := state.heap.edit str change }

def release (state : State Name) (this : Name) : State Name :=
  let state := { state with heap := state.heap.releaseRef (state.str this) }
  store state this none

/-- `resize`. -/
def resize (state : State Name) (this : Name) (size : ℕ) : State Name :=
  if size = 0 then release state this
  else
    match state.str this with
    | none => make state this size
    | some str =>
      if state.heap.isCopied str ∨ (state.heap.cstring str).max < size then
        make { state with heap := state.heap.release str } this size
      else state

/-- The buffer that `cow` makes, when the string has one already. -/
def cowed (str new : Cstring) : Cstring :=
  { new with len := str.len, text := Bytes.set new.text 0 (new.max + 1) str.text }

/-- `cow`, with a size that is that of this text or may be any number. -/
def cow (state : State Name) (this : Name) (size : ℕ) (s : Text) : State Name :=
  match state.str this with
  | none => if size = 0 then state else make state this size
  | some str =>
    let old := state.heap.cstring str
    let size := Cstring.sum old.len size s
    if size = 0 then state
    else if old.max = 0 ∨ state.heap.isCopied str ∨ size > old.max then
      let s := state.heap.size
      let heap := state.heap.create size
      let heap := heap.edit s (cowed old)
      let heap := heap.retain s
      let heap := heap.release str
      store { state with heap := heap } this (some s)
    else state

/-- `set(const char *)`, without the null pointer. -/
def set (state : State Name) (this : Name) (s : Text) : State Name :=
  match state.str this with
  | none => edit (make state this (strlen s)) this fun str => str.set s
  | some _ => edit state this fun str => str.set s

/-- `add(const char *)`. -/
def add (state : State Name) (this : Name) (s : Text) : State Name :=
  if string s = [] then state
  else
    match state.str this with
    | none => set state this s
    | some _ => edit (cow state this (strlen s) s) this fun str => str.add s

/-- `add(char)`. -/
def addChar (state : State Name) (this : Name) (ch : UInt8) : State Name :=
  if ch = 0 then state
  else
    let buf := [ch]
    match state.str this with
    | none => set state this buf
    | some _ => edit (cow state this 1 buf) this fun str => str.add buf

/-- What `paste` makes of the buffer of a string that had none. -/
def pasted (cp : Text) (size : ℕ) (new : Cstring) : Cstring :=
  Cstring.fix { new with text := Bytes.set new.text 0 (Cstring.sum 1 size cp) cp, len := size }

/-- `paste(size_t, const char *, size_t)`. A string without a buffer is given one that is not
retained. -/
def paste (state : State Name) (this : Name) (offset : ℕ) (cp : Option Text) (size : ℕ) :
    State Name :=
  match cp with
  | none => state
  | some cp =>
    let size := if size = 0 then strlen cp else size
    if size = 0 then state
    else
      match state.str this with
      | none =>
        let str := state.heap.size
        let state := store { state with heap := state.heap.create size } this (some str)
        edit state this (pasted cp size)
      | some _ => edit (cow state this size cp) this fun str => str.paste offset cp size

/-- Whether `strstr` finds the text, or `strcasestr`. -/
def found (insensitive : Bool) (text substring : Text) : Bool :=
  if insensitive then
    ((string text).map Ctype.tolower).tails.any ((string substring).map Ctype.tolower).isPrefixOf
  else (string text).tails.any (string substring).isPrefixOf

/-- So many rounds of the loop of `replace`. -/
def replaceLoop (this : Name) (substring : Text) (cp : Option Text) (insensitive : Bool) :
    ℕ → ℕ → State Name → State Name
  | 0, _, state => state
  | rounds + 1, offset, state =>
    match state.str this with
    | none => state
    | some str =>
      if found insensitive ((state.heap.cstring str).text.drop offset) substring then
        let cpl := strlen (cp.getD [])
        let state := edit state this fun str => str.cut offset (strlen substring)
        if cpl ≠ 0 then
          let state := paste state this offset cp 0
          replaceLoop this substring cp insensitive rounds (offset + cpl) state
        else replaceLoop this substring cp insensitive rounds offset state
      else state

/-- `replace(const char *, const char *, unsigned)`, after so many rounds of its loop. An empty text
is found again in each of them, and then the loop does not end. -/
def replace (state : State Name) (this : Name) (substring cp : Option Text) (insensitive : Bool)
    (rounds : ℕ) : State Name :=
  match state.str this, substring with
  | some str, some substring =>
    if (state.heap.cstring str).len = 0 then state
    else replaceLoop this substring cp insensitive rounds 0 state
  | _, _ => state

/-- `fill(size_t, char)`. -/
def fill (state : State Name) (this : Name) (size : ℕ) (ch : UInt8) : State Name :=
  match state.str this with
  | none => edit (make state this size) this fun str => str.fill size ch
  | some _ => edit state this fun str => str.fill size ch

/-! ### What a program may call -/

/-- The methods that change the text of a string. -/
inductive Mutation
  | set (s : Option Text)
  | setOffset (offset : ℕ) (s : Option Text) (size : ℕ)
  | setOverflow (s : Option Text) (overflow : UInt8) (offset size : ℕ)
  | rset (s : Option Text) (overflow : UInt8) (offset size : ℕ)
  | add (s : Option Text)
  | addChar (ch : UInt8)
  | paste (offset : ℕ) (cp : Option Text) (size : ℕ)
  | cut (offset size : ℕ)
  | trim (clist : Text)
  | chop (clist : Text)
  | strip (clist : Text)
  | clearAt (offset : ℕ)
  | clear
  | upper
  | lower
  | erase
  | replace (substring cp : Option Text) (insensitive : Bool) (rounds : ℕ)
  | split (s : Option ℤ)
  | splitAt (pos : ℕ)
  | rsplit (s : Option ℤ)
  | rsplitAt (pos : ℕ)
  | fill (size : ℕ) (ch : UInt8)
  | unquote (clist : Text)
  | inc (offset : ℕ)
  | dec (offset : ℕ)

/-- What a method does. `+=` with a text is `add`. `+=` with a number and `trim` with one are `inc`,
and so is `++` with the number one; `-=`, `chop` and `--` are `dec` likewise. -/
def mutate (state : State Name) (this : Name) : Mutation → State Name
  | .set s => set state this (s.getD [])
  | .setOffset offset s size => edit state this fun str => str.setOffset offset (s.getD []) size
  | .setOverflow s overflow offset size =>
    edit state this fun str => str.setOverflow (s.getD []) overflow offset size
  | .rset s overflow offset size =>
    edit state this fun str => str.rset (s.getD []) overflow offset size
  | .add s => add state this (s.getD [])
  | .addChar ch => addChar state this ch
  | .paste offset cp size => paste state this offset cp size
  | .cut offset size => edit state this fun str => str.cut offset size
  | .trim clist => edit state this fun str => str.trim clist
  | .chop clist => edit state this fun str => str.chop clist
  | .strip clist => edit state this fun str => str.strip clist
  | .clearAt offset => edit state this fun str => str.clearAt offset
  | .clear => edit state this Cstring.clear
  | .upper => edit state this Cstring.upper
  | .lower => edit state this Cstring.lower
  | .erase => edit state this Cstring.erase
  | .replace substring cp insensitive rounds => replace state this substring cp insensitive rounds
  | .split none | .rsplit none => state
  | .split (some s) => edit state this fun str => str.split s
  | .splitAt pos => edit state this fun str => str.splitAt pos
  | .rsplit (some s) => edit state this fun str => str.rsplit s
  | .rsplitAt pos => edit state this fun str => str.rsplitAt pos
  | .fill size ch => fill state this size ch
  | .unquote clist => edit state this fun str => str.unquote clist
  | .inc offset => edit state this fun str => str.inc offset
  | .dec offset => edit state this fun str => str.dec offset

/-- The constructors that make a string of its own. -/
inductive Construction
  | empty
  | size (size : ℕ)
  | text (s : Option Text)
  | sized (s : Option Text) (size : ℕ)
  | until (s : Option Text) (last : Option ℤ)
  | printed (size : ℕ) (text : Text)

/-- A constructor, where `last` is this far from `s`, and the formatted text is given. That one is
written without its length. -/
def construct (state : State Name) (this : Name) : Construction → State Name
  | .empty => store state this none
  | .size size => make state this size
  | .text s =>
    let size := strlen (s.getD [])
    edit (make state this size) this fun str => str.set (s.getD [])
  | .sized s size =>
    let size := if size = 0 then strlen (s.getD []) else size
    edit (make state this size) this fun str => str.set (s.getD [])
  | .until s last =>
    let size :=
      match s, last with
      | none, _ => 0
      | some s, none => strlen s
      | some _, some last => last.toNat
    edit (make state this size) this fun str => str.set (s.getD [])
  | .printed size text =>
    edit (make state this size) this fun str =>
      { str with text := Bytes.set str.text 0 (size + 1) text }

/-- `String(const String&)`. -/
def copy (state : State Name) (this dup : Name) : State Name :=
  let state := store state this (state.str dup)
  { state with heap := state.heap.retainRef (state.str this) }

/-- `operator=(const String&)`. -/
def assign (state : State Name) (this s : Name) : State Name :=
  if state.str this = state.str s then state
  else
    let state := { state with heap := state.heap.retainRef (state.str s) }
    let state := { state with heap := state.heap.releaseRef (state.str this) }
    store state this (state.str s)

/-- `operator=(const char *)` and `operator^=(const char *)`. -/
def assignText (state : State Name) (this : Name) (s : Option Text) : State Name :=
  set (release state this) this (s.getD [])

/-- `c_str`. -/
def cStr (state : State Name) (this : Name) : Text :=
  match state.str this with
  | none => []
  | some str => (state.heap.cstring str).text

/-- `operator^=(const String&)`. -/
def assignValue (state : State Name) (this s : Name) : State Name :=
  let state := release state this
  set state this (cStr state s)

def swap (state : State Name) (s₁ s₂ : Name) : State Name :=
  let s := state.str s₁
  let state := store state s₁ (state.str s₂)
  store state s₂ s

inductive Action (Name : Type)
  | construct (this : Name) (construction : Construction)
  | copy (this dup : Name)
  | assign (this s : Name)
  | assignValue (this s : Name)
  | assignText (this : Name) (s : Option Text)
  | mutate (this : Name) (mutation : Mutation)
  | resize (this : Name) (size : ℕ)
  | cow (this : Name) (size : ℕ)
  | swap (s₁ s₂ : Name)
  | release (this : Name)
  | destroy (this : Name)

/-- The calls a program may make: on strings that exist, or to construct one that does not. -/
def Allowed (state : State Name) : Action Name → Prop
  | .construct this _ => state.constructed this = false
  | .copy this dup => state.constructed this = false ∧ state.constructed dup
  | .assign this s | .assignValue this s | .swap this s =>
    state.constructed this ∧ state.constructed s
  | .assignText this _ | .mutate this _ | .resize this _ | .cow this _ | .release this
  | .destroy this => state.constructed this

/-- What a call does. -/
def perform (state : State Name) : Action Name → State Name
  | .construct this construction =>
    construct { state with constructed := Function.update state.constructed this true } this
      construction
  | .copy this dup =>
    copy { state with constructed := Function.update state.constructed this true } this dup
  | .assign this s => assign state this s
  | .assignValue this s => assignValue state this s
  | .assignText this s => assignText state this s
  | .mutate this mutation => mutate state this mutation
  | .resize this size => resize state this size
  | .cow this size => cow state this size []
  | .swap s₁ s₂ => swap state s₁ s₂
  | .release this => release state this
  | .destroy this =>
    release { state with constructed := Function.update state.constructed this false } this

instance (state : State Name) : (action : Action Name) → Decidable (Allowed state action)
  | .construct this _ => inferInstanceAs (Decidable (state.constructed this = false))
  | .copy this dup =>
    inferInstanceAs (Decidable (state.constructed this = false ∧ state.constructed dup))
  | .assign this s | .assignValue this s | .swap this s =>
    inferInstanceAs (Decidable (state.constructed this ∧ state.constructed s))
  | .assignText this _ | .mutate this _ | .resize this _ | .cow this _ | .release this
  | .destroy this => inferInstanceAs (Decidable (state.constructed this))

/-! ### What is not touched -/

@[simp]
theorem store_str_self (state : State Name) (this : Name) (str : Option ℕ) :
    (store state this str).str this = str :=
  Function.update_self _ _ _

theorem store_str_of_ne {this other : Name} (apart : other ≠ this) (state : State Name)
    (str : Option ℕ) : (store state this str).str other = state.str other :=
  Function.update_of_ne apart _ _

omit [DecidableEq Name] in
@[simp]
theorem edit_str (state : State Name) (this : Name) (change : Cstring → Cstring) :
    (edit state this change).str = state.str := by
  unfold edit
  split <;> rfl

/-- A call on one string, which leaves the other strings alone and the buffers that are there
already, but for the one it had. -/
structure Touches (this : Name) (state target : State Name) : Prop where
  constructed : target.constructed = state.constructed
  str : ∀ other, other ≠ this → target.str other = state.str other
  size : state.heap.size ≤ target.heap.size
  own : ∀ str, target.str this = some str →
    state.str this = some str ∨ state.heap.size ≤ str
  cstring : ∀ str < state.heap.size, state.str this ≠ some str →
    target.heap.cstring str = state.heap.cstring str

namespace Touches

variable {state next target : State Name} {this : Name}

omit [DecidableEq Name] in
theorem refl (this : Name) (state : State Name) : Touches this state state :=
  ⟨rfl, fun _ _ => rfl, le_rfl, fun _ same => Or.inl same, fun _ _ _ => rfl⟩

omit [DecidableEq Name] in
theorem trans (first : Touches this state next) (second : Touches this next target) :
    Touches this state target := by
  refine ⟨second.constructed.trans first.constructed, fun other apart => ?_,
    first.size.trans second.size, fun str same => ?_, fun str within apart => ?_⟩
  · rw [second.str other apart, first.str other apart]
  · rcases second.own str same with old | new
    · exact first.own str old
    · exact Or.inr (first.size.trans new)
  · have apart' : next.str this ≠ some str := by
      intro same
      rcases first.own str same with old | new
      · exact apart old
      · exact Nat.not_le_of_lt within new
    rw [second.cstring str (within.trans_le first.size) apart', first.cstring str within apart]

omit [DecidableEq Name] in
theorem edit (state : State Name) (this : Name) (change : Cstring → Cstring) :
    Touches this state (edit state this change) := by
  unfold Strings.edit
  split
  next => exact refl this state
  next str str_ =>
    refine ⟨rfl, fun _ _ => rfl, le_rfl, fun _ same => Or.inl same, fun other _ apart => ?_⟩
    have apart' : other ≠ str := fun same => apart (str_.trans (congrArg some same.symm))
    exact Function.update_of_ne apart' _ _

/-- A new buffer is stored. -/
theorem create (state : State Name) (this : Name) (size : ℕ) :
    Touches this state
      (store { state with heap := state.heap.create size } this (some state.heap.size)) := by
  refine ⟨rfl, fun other apart => Function.update_of_ne apart _ _, Nat.le_succ _,
    fun str same => ?_, fun str within _ => Function.update_of_ne (Nat.ne_of_lt within) _ _⟩
  have new : some state.heap.size = some str :=
    (store_str_self state this (some state.heap.size)).symm.trans same
  exact Or.inr (Option.some.inj new).le

theorem make (state : State Name) (this : Name) (size : ℕ) :
    Touches this state (make state this size) :=
  have created := create state this size
  ⟨created.constructed, created.str, created.size, created.own, created.cstring⟩

omit [DecidableEq Name] in
/-- Counts and the marks of what is deallocated make no difference here. -/
theorem recount {heap : Heap} (touches : Touches this { state with heap := heap } target)
    (size : heap.size = state.heap.size) (cstring : heap.cstring = state.heap.cstring) :
    Touches this state target := by
  refine ⟨touches.constructed, touches.str, size ▸ touches.size, fun str same => ?_,
    fun str within apart => ?_⟩
  · have own := touches.own str same
    rwa [size] at own
  · rw [touches.cstring str (by rw [size]; exact within) apart, cstring]

end Touches

theorem release_size (heap : Heap) (str : ℕ) : (heap.release str).size = heap.size := by
  unfold Heap.release
  split <;> rfl

theorem release_cstring (heap : Heap) (str : ℕ) : (heap.release str).cstring = heap.cstring := by
  unfold Heap.release
  split <;> rfl

theorem release_count_of_ne {heap : Heap} {str other : ℕ} (apart : other ≠ str) :
    (heap.release str).count other = heap.count other := by
  unfold Heap.release
  split
  · exact Function.update_of_ne apart _ _
  · rfl

theorem touches_release (state : State Name) (this : Name) :
    Touches this state (release state this) := by
  have size : (state.heap.releaseRef (state.str this)).size = state.heap.size := by
    cases state.str this with
    | none => rfl
    | some str => exact release_size _ str
  have cstring : (state.heap.releaseRef (state.str this)).cstring = state.heap.cstring := by
    cases state.str this with
    | none => rfl
    | some str => exact release_cstring _ str
  refine Touches.recount ?_ size cstring
  refine ⟨rfl, fun other apart => Function.update_of_ne apart _ _, le_rfl, fun str same => ?_,
    fun _ _ _ => rfl⟩
  have none_ : none = some str := (store_str_self state this none).symm.trans same
  cases none_

theorem touches_resize (state : State Name) (this : Name) (size : ℕ) :
    Touches this state (resize state this size) := by
  unfold resize
  split
  next => exact touches_release state this
  split
  next => exact .make state this size
  next str str_ =>
    split
    next =>
      exact (Touches.make { state with heap := state.heap.release str } this size).recount
        (release_size _ _) (release_cstring _ _)
    next => exact .refl this state

/-- `cow` leaves the buffers that are there already as they are. -/
theorem cow_cstring (state : State Name) (this : Name) (size : ℕ) (s : Text) {str : ℕ}
    (within : str < state.heap.size) :
    (cow state this size s).heap.cstring str = state.heap.cstring str := by
  have apart : str ≠ state.heap.size := Nat.ne_of_lt within
  unfold cow
  split
  next =>
    split
    · rfl
    · exact Function.update_of_ne apart _ _
  next old _ =>
    dsimp only
    split
    next => rfl
    split
    next =>
      show (Heap.release _ old).cstring str = _
      rw [release_cstring]
      simp [Heap.retain, Heap.edit, Heap.create, apart]
    next => rfl

theorem touches_cow (state : State Name) (this : Name) (size : ℕ) (s : Text) :
    Touches this state (cow state this size s) := by
  have cstring := fun str (within : str < state.heap.size) (_ : state.str this ≠ some str) =>
    cow_cstring state this size s within
  revert cstring
  unfold cow
  split
  next =>
    split
    · exact fun _ => .refl this state
    · exact fun _ => .make state this size
  next str str_ =>
    dsimp only
    split
    next => exact fun _ => .refl this state
    split
    next =>
      intro cstring
      have created := Touches.create state this size
      refine ⟨rfl, created.str, ?_, created.own, cstring⟩
      show state.heap.size ≤ (Heap.release _ str).size
      rw [release_size]
      exact Nat.le_succ _
    next => exact fun _ => .refl this state

theorem touches_set (state : State Name) (this : Name) (s : Text) :
    Touches this state (set state this s) := by
  unfold set
  split
  · exact (Touches.make state this _).trans (.edit _ this _)
  · exact .edit state this _

theorem touches_add (state : State Name) (this : Name) (s : Text) :
    Touches this state (add state this s) := by
  unfold add
  split
  · exact .refl this state
  split
  · exact touches_set state this s
  · exact (touches_cow state this _ _).trans (.edit _ this _)

theorem touches_addChar (state : State Name) (this : Name) (ch : UInt8) :
    Touches this state (addChar state this ch) := by
  unfold addChar
  split
  · exact .refl this state
  dsimp only
  split
  · exact touches_set state this [ch]
  · exact (touches_cow state this 1 _).trans (.edit _ this _)

theorem touches_paste (state : State Name) (this : Name) (offset : ℕ) (cp : Option Text)
    (size : ℕ) : Touches this state (paste state this offset cp size) := by
  unfold paste
  split
  · exact .refl this state
  next cp =>
  generalize (if size = 0 then strlen cp else size) = size
  dsimp only
  split
  · exact .refl this state
  split
  · exact (Touches.create state this _).trans (.edit _ this _)
  · exact (touches_cow state this _ _).trans (.edit _ this _)

theorem touches_replaceLoop (this : Name) (substring : Text) (cp : Option Text)
    (insensitive : Bool) (rounds offset : ℕ) (state : State Name) :
    Touches this state (replaceLoop this substring cp insensitive rounds offset state) := by
  induction rounds generalizing offset state with
  | zero => exact .refl this state
  | succ rounds inductionHypothesis =>
    unfold replaceLoop
    split
    next => exact .refl this state
    split
    · have cut_ := Touches.edit state this fun str => str.cut offset (strlen substring)
      dsimp only
      split
      · exact (cut_.trans (touches_paste _ this offset cp 0)).trans (inductionHypothesis _ _)
      · exact cut_.trans (inductionHypothesis _ _)
    · exact .refl this state

theorem touches_replace (state : State Name) (this : Name) (substring cp : Option Text)
    (insensitive : Bool) (rounds : ℕ) :
    Touches this state (replace state this substring cp insensitive rounds) := by
  unfold replace
  split
  · split
    · exact .refl this state
    · exact touches_replaceLoop this _ cp insensitive rounds 0 state
  · exact .refl this state

theorem touches_fill (state : State Name) (this : Name) (size : ℕ) (ch : UInt8) :
    Touches this state (fill state this size ch) := by
  unfold fill
  split
  · exact (Touches.make state this size).trans (.edit _ this _)
  · exact .edit state this _

/-- Every method leaves the other strings alone. -/
theorem touches_mutate (state : State Name) (this : Name) (mutation : Mutation) :
    Touches this state (mutate state this mutation) := by
  cases mutation with
  | set s => exact touches_set state this _
  | add s => exact touches_add state this _
  | addChar ch => exact touches_addChar state this ch
  | paste offset cp size => exact touches_paste state this offset cp size
  | replace substring cp insensitive rounds =>
    exact touches_replace state this substring cp insensitive rounds
  | fill size ch => exact touches_fill state this size ch
  | split s =>
    cases s with
    | none => exact .refl this state
    | some s => exact .edit state this _
  | rsplit s =>
    cases s with
    | none => exact .refl this state
    | some s => exact .edit state this _
  | _ => exact .edit state this _

end Strings

end CommonCpp
