/-
This file models the sections of a `keyfile` and shows that each of them is an ordered
map whose keys are compared ignoring case, and that a keyfile loaded over another one
wins.

The objects of all keyfiles lie in one heap. A section is a `keydata` with an index of
`keyvalue`s, and a keyfile has an index of sections and may have one more for the keys
before the first section. To set a key takes the old object of the key off the index
and puts a new one at its end; nothing is freed before the keyfile is. Loading walks
along the indexes of one keyfile while it changes those of the other.

What each section was told is kept beside the heap, as a log of the keys set and
cleared. Nothing in the code reads it.
-/

import CommonCpp.Ctype
import CommonCpp.KeyLog
import CommonCpp.Machine
import CommonCpp.OrderedIndex

namespace CommonCpp

open Concurrency KeyLog Memory

namespace Keyfile

/-! ### The code -/

/-- The objects of all keyfiles, `keydata` and `keyvalue` each numbered as they are allocated. -/
structure Heap (File : Type) where
  sections : OrderedIndex File Nat
  keys : OrderedIndex Nat Nat
  name : Nat → Text
  id : Nat → Text
  value : Nat → Text
  defaults : File → Option Nat
  keydatas : Nat
  keyvalues : Nat

variable {File : Type}

/-- What a `keyvalue` says. -/
def Heap.entry (heap : Heap File) (keys : Nat) : Text × Text :=
  (heap.id keys, heap.value keys)

end Keyfile

namespace Keydata

open Keyfile

variable {File : Type} (folding : Comparison Text)

/-- The loop of `get`, `clear` and `set`. -/
def find (heap : Heap File) (this : Nat) (key : Text) : Option (Option Nat) :=
  (walk heap.keys.next (fun keys => folding.same key (heap.id keys)) heap.keyvalues none
    (heap.keys.head this)).map Prod.snd

def get (heap : Heap File) (this : Nat) (key : Text) : Option (Option Text) :=
  (find folding heap this key).map fun keys => keys.map heap.value

def clear (heap : Heap File) (this : Nat) (key : Text) : Option (Heap File) :=
  (find folding heap this key).bind fun keys =>
    match keys with
    | some keys => (heap.keys.delist heap.keyvalues keys this).map fun index =>
      { heap with keys := index }
    | none => some heap

/-- The constructor of a `keyvalue`. Without a value it has the empty one. -/
def keyvalue (heap : Heap File) (this : Nat) (key : Text) (value : Option Text) : Heap File :=
  { heap with
    keys := heap.keys.construct heap.keyvalues this
    id := Function.update heap.id heap.keyvalues key
    value := Function.update heap.value heap.keyvalues (value.getD [])
    keyvalues := heap.keyvalues + 1 }

/-- `set` takes the old object of the key off, as `clear` does. -/
def set (heap : Heap File) (this : Nat) (key : Text) (value : Option Text) : Option (Heap File) :=
  (clear folding heap this key).map fun heap => keyvalue heap this key value

/-- The keys and values along the index. -/
def entries (heap : Heap File) (this : Nat) : Option (List (Text × Text)) :=
  (passed heap.keys.next heap.keyvalues (heap.keys.head this)).map fun list => list.map heap.entry

end Keydata

namespace Keyfile

section Code

variable (folding : Comparison Text) [DecidableEq File]

omit [DecidableEq File] in
def get (heap : Heap File) (this : File) (key : Text) : Option (Option Nat) :=
  (walk heap.sections.next (fun keys => folding.same key (heap.name keys)) heap.keydatas none
    (heap.sections.head this)).map Prod.snd

/-- The constructor of a `keydata` with a name. -/
def keydata (heap : Heap File) (this : File) (id : Text) : Heap File :=
  { heap with
    sections := heap.sections.construct heap.keydatas this
    keys := heap.keys.reset heap.keydatas
    name := Function.update heap.name heap.keydatas id
    keydatas := heap.keydatas + 1 }

def create (heap : Heap File) (this : File) (id : Text) : Option (Heap File) :=
  (get folding heap this id).bind fun old =>
    match old with
    | some old => (heap.sections.delist heap.keydatas old this).map fun index =>
      keydata { heap with sections := index } this id
    | none => some (keydata heap this id)

/-- What both ways of loading do first, when there are no default keys yet. -/
def openDefaults (heap : Heap File) (this : File) : Heap File :=
  match heap.defaults this with
  | some _ => heap
  | none =>
    { heap with
      sections := heap.sections.constructAlone heap.keydatas
      keys := heap.keys.reset heap.keydatas
      name := Function.update heap.name heap.keydatas [0x2d]
      defaults := Function.update heap.defaults this (some heap.keydatas)
      keydatas := heap.keydatas + 1 }

omit [DecidableEq File] in
/-- The loops of `load` over keys: from `vp` on, each is set in the section. -/
def loadKeys : Nat → Heap File → Nat → Option Nat → Option (Heap File)
  | _, heap, _, none => some heap
  | 0, _, _, some _ => none
  | fuel + 1, heap, keydata, some vp =>
    (Keydata.set folding heap keydata (heap.id vp) (some (heap.value vp))).bind fun heap =>
      loadKeys fuel heap keydata (heap.keys.next vp)

/-- The section of a name, which is created when there is none. -/
def obtain (heap : Heap File) (this : File) (id : Text) : Option (Heap File × Nat) :=
  (get folding heap this id).bind fun keydata =>
    match keydata with
    | some keydata => some (heap, keydata)
    | none => (create folding heap this id).map fun created => (created, heap.keydatas)

/-- The loop of `load` over sections, from `kp` on. -/
def loadSections : Nat → Heap File → File → Option Nat → Option (Heap File)
  | _, heap, _, none => some heap
  | 0, _, _, some _ => none
  | fuel + 1, heap, this, some kp =>
    let vp := heap.keys.head kp
    (obtain folding heap this (heap.name kp)).bind fun (heap, keydata) =>
      (loadKeys folding heap.keyvalues heap keydata vp).bind fun heap =>
        loadSections fuel heap this (heap.sections.next kp)

/-- `load` of another keyfile. -/
def load (heap : Heap File) (this copy : File) : Option (Heap File) :=
  let vp := (heap.defaults copy).bind heap.keys.head
  let heap := if (heap.defaults copy).isSome then openDefaults heap this else heap
  let loaded := match heap.defaults this, vp with
    | some defaults, vp => loadKeys folding heap.keyvalues heap defaults vp
    | none, none => some heap
    | none, some _ => none
  loaded.bind fun heap => loadSections folding heap.keydatas heap this (heap.sections.head copy)

inductive Action (File : Type)
  | create (this : File) (id : Text)
  | openDefaults (this : File)
  | set (section_ : Nat) (key : Text) (value : Option Text)
  | clear (section_ : Nat) (key : Text)
  | load (this copy : File)

def perform (heap : Heap File) : Action File → Option (Heap File)
  | .create this id => create folding heap this id
  | .openDefaults this => some (openDefaults heap this)
  | .set keydata key value => Keydata.set folding heap keydata key value
  | .clear keydata key => Keydata.clear folding heap keydata key
  | .load this copy => load folding heap this copy

end Code

/-! ### The logs -/

/-- What is kept beside the heap: the name and the log of each section, the sections of a keyfile in
the order they are listed, and its default section. -/
structure Store (File : Type) where
  name : Nat → Text
  sections : File → List Nat
  defaults : File → Option Nat
  log : Nat → List (LogEntry Text Text)
  keydatas : Nat

namespace Store

variable (folding : Comparison Text)

/-- A section is told something. -/
def tell (store : Store File) (keydata : Nat) (told : List (LogEntry Text Text)) : Store File :=
  { store with log := Function.update store.log keydata (store.log keydata ++ told) }

def find (store : Store File) (this : File) (id : Text) : Option Nat :=
  (store.sections this).find? fun keydata => folding.same id (store.name keydata)

theorem tell_nil (store : Store File) (keydata : Nat) : store.tell keydata [] = store := by
  simp [tell]

theorem tell_tell (store : Store File) (keydata : Nat) (told told' : List (LogEntry Text Text)) :
    (store.tell keydata told).tell keydata told' = store.tell keydata (told ++ told') := by
  simp [tell]

theorem log_tell_of_ne (store : Store File) {keydata other : Nat} (apart : other ≠ keydata)
    (told : List (LogEntry Text Text)) : (store.tell keydata told).log other = store.log other :=
  Function.update_of_ne apart _ _

/-- A section is told the keys and values that another one lists. -/
def copyKeys (store : Store File) (keydata copied : Nat) : Store File :=
  store.tell keydata
    ((folding.listing (store.log copied)).map fun entry => .set entry.1 entry.2)

variable [DecidableEq File]

/-- A new section takes the place of one of the same name, at the end. -/
def create (store : Store File) (this : File) (id : Text) : Store File :=
  { store with
    name := Function.update store.name store.keydatas id
    sections := Function.update store.sections this (((store.sections this).filter fun keydata =>
      !folding.same id (store.name keydata)) ++ [store.keydatas])
    log := Function.update store.log store.keydatas []
    keydatas := store.keydatas + 1 }

def openDefaults (store : Store File) (this : File) : Store File :=
  match store.defaults this with
  | some _ => store
  | none =>
    { store with
      name := Function.update store.name store.keydatas [0x2d]
      defaults := Function.update store.defaults this (some store.keydatas)
      log := Function.update store.log store.keydatas []
      keydatas := store.keydatas + 1 }

def obtain (store : Store File) (this : File) (id : Text) : Store File × Nat :=
  match store.find folding this id with
  | some keydata => (store, keydata)
  | none => (store.create folding this id, store.keydatas)

def loadSection (this : File) (store : Store File) (copied : Nat) : Store File :=
  let (store, keydata) := store.obtain folding this (store.name copied)
  store.copyKeys folding keydata copied

def loadDefaults (store : Store File) (this copy : File) : Store File :=
  match store.defaults copy with
  | some copied => (store.openDefaults this).copyKeys folding
    ((store.defaults this).getD store.keydatas) copied
  | none => store

def load (store : Store File) (this copy : File) : Store File :=
  (store.sections copy).foldl (loadSection folding this) (store.loadDefaults folding this copy)

/-- What a call does to the logs. -/
def intended (store : Store File) : Action File → Store File
  | .create this id => store.create folding this id
  | .openDefaults this => store.openDefaults this
  | .set keydata key value => store.tell keydata [.set key (value.getD [])]
  | .clear keydata key => store.tell keydata [.clear key]
  | .load this copy => store.load folding this copy

end Store

structure State (File : Type) where
  heap : Heap File
  store : Store File

/-- A section is one that was made, and a keyfile is loaded over another one. -/
def Allowed (store : Store File) : Action File → Prop
  | .set keydata _ _ | .clear keydata _ => keydata < store.keydatas
  | .load this copy => this ≠ copy
  | _ => True

instance [DecidableEq File] (store : Store File) : DecidablePred (Allowed store)
  | .set keydata _ _ | .clear keydata _ => inferInstanceAs (Decidable (keydata < store.keydatas))
  | .load this copy => inferInstanceAs (Decidable (this ≠ copy))
  | .create _ _ | .openDefaults _ => inferInstanceAs (Decidable True)

section Machine

variable (folding : Comparison Text) [DecidableEq File]

def step (state : State File) (action : Action File) : Option (State File) :=
  if Allowed state.store action then
    (perform folding state.heap action).map fun heap => ⟨heap, state.store.intended folding action⟩
  else none

/-- The heap of keyfiles that were just constructed. -/
def constructed (File : Type) : Heap File where
  sections := ⟨fun _ => none, fun _ => none, fun _ => none⟩
  keys := ⟨fun _ => none, fun _ => none, fun _ => none⟩
  name _ := []
  id _ := []
  value _ := []
  defaults _ := none
  keydatas := 0
  keyvalues := 0

/-- The runs of any keyfiles from their constructors on. -/
def machine : Machine (State File) (Action File) where
  Init state := state =
    ⟨constructed File, ⟨fun _ => [], fun _ => [], fun _ => none, fun _ => [], 0⟩⟩
  step := step folding

end Machine

/-! ### The logs refine the heap -/

/-- A keyfile has a section. -/
def Store.Owns (store : Store File) (file : File) (keydata : Nat) : Prop :=
  keydata ∈ store.sections file ∨ store.defaults file = some keydata

/-- Every section is one of one keyfile, listed or not, and no two sections of a keyfile have the
same name. -/
structure Store.Valid (folding : Comparison Text) (store : Store File) : Prop where
  made : ∀ file keydata, store.Owns file keydata → keydata < store.keydatas
  owned : ∀ {file file' keydata}, store.Owns file keydata → store.Owns file' keydata → file = file'
  unlisted : ∀ {file file' keydata}, store.defaults file = some keydata →
    keydata ∉ store.sections file'
  distinct : ∀ file, folding.Distinct ((store.sections file).map store.name)

/-- The indexes list the sections of each keyfile and, in each section, objects with the keys and
values of its log. -/
structure Represents (folding : Comparison Text) (heap : Heap File) (store : Store File)
    (lists : Nat → List Nat) : Prop where
  sections : OrderedIndex.Listed heap.sections store.sections
  keys : OrderedIndex.Listed heap.keys lists
  entries : ∀ keydata, (lists keydata).map heap.entry = folding.listing (store.log keydata)
  name : heap.name = store.name
  defaults : heap.defaults = store.defaults
  keydatas : heap.keydatas = store.keydatas
  allocated : ∀ keydata, ∀ keys ∈ lists keydata, keys < heap.keyvalues
  unmade : ∀ keydata, store.keydatas ≤ keydata → lists keydata = []

section Refinement

variable {folding : Comparison Text} {heap : Heap File} {store : Store File}
  {lists : Nat → List Nat}

namespace Store

theorem mem_create [DecidableEq File] {this file : File} {id : Text} {keydata : Nat}
    (listed : keydata ∈ (store.create folding this id).sections file) :
    (file = this ∧ keydata = store.keydatas) ∨ keydata ∈ store.sections file := by
  by_cases same : file = this
  · simp only [create, same, Function.update_self, List.mem_append, List.mem_filter,
      List.mem_singleton] at listed
    rcases listed with older | new
    · exact Or.inr (same ▸ older.1)
    · exact Or.inl ⟨same, new⟩
  · simp only [create, Function.update_of_ne same] at listed
    exact Or.inr listed

theorem owns_create [DecidableEq File] {this file : File} {id : Text} {keydata : Nat}
    (owns : (store.create folding this id).Owns file keydata) :
    (file = this ∧ keydata = store.keydatas) ∨ store.Owns file keydata := by
  rcases owns with listed | unlisted
  · exact (mem_create listed).imp_right Or.inl
  · exact Or.inr (Or.inr unlisted)

theorem owns_openDefaults [DecidableEq File] {this file : File} {keydata : Nat}
    (owns : (store.openDefaults this).Owns file keydata) :
    (file = this ∧ keydata = store.keydatas) ∨ store.Owns file keydata := by
  unfold openDefaults at owns
  split at owns
  next => exact Or.inr owns
  next =>
    rcases owns with listed | unlisted
    · exact Or.inr (Or.inl listed)
    · by_cases same : file = this
      · simp only [same, Function.update_self, Option.some_inj] at unlisted
        exact Or.inl ⟨same, unlisted.symm⟩
      · simp only [Function.update_of_ne same] at unlisted
        exact Or.inr (Or.inr unlisted)

namespace Valid

theorem tell (valid : store.Valid folding) (keydata : Nat)
    (told : List (LogEntry Text Text)) : (store.tell keydata told).Valid folding :=
  ⟨valid.made, valid.owned, valid.unlisted, valid.distinct⟩

/-- A section that is made next is one of no keyfile. -/
theorem unowned (valid : store.Valid folding) (file : File) : ¬ store.Owns file store.keydatas :=
  fun owns => Nat.lt_irrefl _ (valid.made file _ owns)

theorem ne_of_owns (valid : store.Valid folding) {file : File} {keydata : Nat}
    (owns : store.Owns file keydata) : keydata ≠ store.keydatas :=
  Nat.ne_of_lt (valid.made file keydata owns)

/-- The names of the sections stay when another one is made. -/
theorem map_name (valid : store.Valid folding) (id : Text) (file : File) :
    (store.sections file).map (Function.update store.name store.keydatas id) =
      (store.sections file).map store.name :=
  List.map_congr_left fun _ member => Function.update_of_ne (valid.ne_of_owns (Or.inl member)) _ _

/-- A store that has one more section of one keyfile keeps each section to one keyfile. -/
theorem owned_of_next (valid : store.Valid folding) {this : File} {store' : Store File}
    (owns : ∀ {file keydata}, store'.Owns file keydata →
      (file = this ∧ keydata = store.keydatas) ∨ store.Owns file keydata)
    {file file' : File} {keydata : Nat} (owner : store'.Owns file keydata)
    (owner' : store'.Owns file' keydata) : file = file' := by
  rcases owns owner with ⟨here, rfl⟩ | older
  · rcases owns owner' with ⟨here', _⟩ | older'
    · exact here.trans here'.symm
    · exact absurd older' (valid.unowned file')
  · rcases owns owner' with ⟨_, rfl⟩ | older'
    · exact absurd older (valid.unowned file)
    · exact valid.owned older older'

theorem made_of_next (valid : store.Valid folding) {this : File} {store' : Store File}
    (owns : ∀ {file keydata}, store'.Owns file keydata →
      (file = this ∧ keydata = store.keydatas) ∨ store.Owns file keydata)
    (file : File) (keydata : Nat) (owner : store'.Owns file keydata) :
    keydata < store.keydatas + 1 := by
  rcases owns owner with ⟨_, rfl⟩ | older
  · exact Nat.lt_succ_self _
  · exact Nat.lt_succ_of_lt (valid.made file keydata older)

variable [DecidableEq File]

theorem create (valid : store.Valid folding) (this : File) (id : Text) :
    (store.create folding this id).Valid folding where
  made := valid.made_of_next owns_create
  owned := valid.owned_of_next owns_create
  unlisted {file file' keydata} unlisted listed := by
    rcases mem_create listed with ⟨_, rfl⟩ | older
    · exact valid.unowned file (Or.inr unlisted)
    · exact valid.unlisted unlisted older
  distinct file := by
    by_cases same : file = this
    · have kept := valid.map_name id this
      have older : folding.Distinct (((store.sections this).filter fun keydata =>
          !folding.same id (store.name keydata)).map
            (Function.update store.name store.keydatas id)) := by
        have whole := valid.distinct this
        rw [← kept] at whole
        exact whole.sublist (List.filter_sublist.map _)
      simp only [Store.create, same, Function.update_self, List.map_append]
      refine List.pairwise_append.mpr ⟨older, List.pairwise_singleton _ _, ?_⟩
      intro name member name' member' here
      obtain ⟨keydata, listed, rfl⟩ := List.mem_map.mp member
      obtain ⟨listed, apart⟩ := List.mem_filter.mp listed
      have other := valid.ne_of_owns (Or.inl listed)
      rw [List.map_singleton, List.mem_singleton, Function.update_self] at member'
      rw [Function.update_of_ne other, member', folding.same_comm] at here
      simp [here] at apart
    · simp only [Store.create, Function.update_of_ne same, valid.map_name]
      exact valid.distinct file

theorem openDefaults (valid : store.Valid folding) (this : File) :
    (store.openDefaults this).Valid folding := by
  have owns := fun {file keydata} => @owns_openDefaults _ store _ this file keydata
  unfold Store.openDefaults at owns ⊢
  cases none_ : store.defaults this with
  | some _ => exact valid
  | none =>
    simp only [none_] at owns ⊢
    refine ⟨valid.made_of_next owns, valid.owned_of_next owns, ?_, fun file => ?_⟩
    · intro file file' keydata unlisted listed
      by_cases same : file = this
      · simp only [same, Function.update_self, Option.some_inj] at unlisted
        exact valid.unowned file' (Or.inl (unlisted ▸ listed))
      · simp only [Function.update_of_ne same] at unlisted
        exact valid.unlisted unlisted listed
    · simp only [valid.map_name]
      exact valid.distinct file

end Valid

/-! #### What a call leaves as it was -/

/-- A keyfile has the same sections, with the same names and logs. -/
structure Keeps (store store' : Store File) (file : File) : Prop where
  sections : store'.sections file = store.sections file
  defaults : store'.defaults file = store.defaults file
  name : ∀ keydata, store.Owns file keydata → store'.name keydata = store.name keydata
  log : ∀ keydata, store.Owns file keydata → store'.log keydata = store.log keydata

namespace Keeps

variable {store' store'' : Store File} {file : File}

theorem refl (store : Store File) (file : File) : Keeps store store file :=
  ⟨rfl, rfl, fun _ _ => rfl, fun _ _ => rfl⟩

theorem owns (keeps : Keeps store store' file) {keydata : Nat} :
    store'.Owns file keydata ↔ store.Owns file keydata := by
  unfold Owns
  rw [keeps.sections, keeps.defaults]

theorem trans (keeps : Keeps store store' file) (keeps' : Keeps store' store'' file) :
    Keeps store store'' file where
  sections := keeps'.sections.trans keeps.sections
  defaults := keeps'.defaults.trans keeps.defaults
  name keydata owns := (keeps'.name keydata (keeps.owns.mpr owns)).trans (keeps.name keydata owns)
  log keydata owns := (keeps'.log keydata (keeps.owns.mpr owns)).trans (keeps.log keydata owns)

end Keeps

/-- To tell a section something leaves the keyfiles that do not have it. -/
theorem keeps_tell {file : File} {keydata : Nat} (unowned : ¬ store.Owns file keydata)
    (told : List (LogEntry Text Text)) : Keeps store (store.tell keydata told) file where
  sections := rfl
  defaults := rfl
  name _ _ := rfl
  log other owns := by
    have apart : other ≠ keydata := fun same => unowned (same ▸ owns)
    exact Function.update_of_ne apart _ _

section

variable [DecidableEq File] {this file : File}

theorem keeps_create (valid : store.Valid folding) (other : file ≠ this) (id : Text) :
    Keeps store (store.create folding this id) file where
  sections := Function.update_of_ne other _ _
  defaults := rfl
  name _ owns := Function.update_of_ne (valid.ne_of_owns owns) _ _
  log _ owns := Function.update_of_ne (valid.ne_of_owns owns) _ _

theorem keeps_openDefaults (valid : store.Valid folding) (other : file ≠ this) :
    Keeps store (store.openDefaults this) file := by
  unfold openDefaults
  cases store.defaults this with
  | some _ => exact Keeps.refl store file
  | none =>
    exact ⟨rfl, Function.update_of_ne other _ _,
      fun _ owns => Function.update_of_ne (valid.ne_of_owns owns) _ _,
      fun _ owns => Function.update_of_ne (valid.ne_of_owns owns) _ _⟩

/-- The section of a name is a listed one of the keyfile, and the other keyfiles are as they
were. -/
theorem obtain_spec (valid : store.Valid folding) (this : File) (id : Text) :
    (store.obtain folding this id).1.Valid folding ∧
      (store.obtain folding this id).2 ∈ (store.obtain folding this id).1.sections this ∧
      ∀ file, file ≠ this → Keeps store (store.obtain folding this id).1 file := by
  unfold obtain
  cases found : store.find folding this id with
  | some keydata =>
    exact ⟨valid, List.mem_of_find?_eq_some found, fun file _ => Keeps.refl store file⟩
  | none =>
    exact ⟨valid.create this id, by simp [create], fun file other => keeps_create valid other id⟩

theorem defaults_openDefaults (store : Store File) (this : File) :
    (store.openDefaults this).defaults this =
      some ((store.defaults this).getD store.keydatas) := by
  unfold openDefaults
  cases opened : store.defaults this with
  | some _ => exact opened
  | none => exact Function.update_self _ _ _

theorem loadDefaults_spec (valid : store.Valid folding) (this copy : File) :
    (store.loadDefaults folding this copy).Valid folding ∧
      ∀ file, file ≠ this → Keeps store (store.loadDefaults folding this copy) file := by
  unfold loadDefaults
  cases store.defaults copy with
  | none => exact ⟨valid, fun file _ => Keeps.refl store file⟩
  | some copied =>
    have opened := valid.openDefaults this
    refine ⟨opened.tell _ _, fun file other => ?_⟩
    refine (keeps_openDefaults valid other).trans (keeps_tell (fun owns => other ?_) _)
    exact opened.owned owns (Or.inr (store.defaults_openDefaults this))

theorem loadSection_spec (valid : store.Valid folding) (this : File) (copied : Nat) :
    (store.loadSection folding this copied).Valid folding ∧
      ∀ file, file ≠ this → Keeps store (store.loadSection folding this copied) file := by
  obtain ⟨after, member, keeps⟩ := obtain_spec valid this (store.name copied)
  refine ⟨after.tell _ _, fun file other => (keeps file other).trans (keeps_tell ?_ _)⟩
  exact fun owns => other (after.owned owns (Or.inl member))

end

end Store

namespace Represents

theorem short (represents : Represents folding heap store lists) (keydata : Nat) :
    (lists keydata).length ≤ heap.keyvalues :=
  length_le_of_lt (represents.keys.once keydata) (represents.allocated keydata)

theorem find (represents : Represents folding heap store lists) (keydata : Nat) (key : Text) :
    Keydata.find folding heap keydata key =
      some ((lists keydata).find? fun keys => folding.same key (heap.id keys)) :=
  walk_find _ (represents.keys.path keydata) (represents.short keydata)

theorem distinct (represents : Represents folding heap store lists) (keydata : Nat) :
    folding.Distinct ((lists keydata).map heap.id) := by
  have distinct := folding.distinct_listing (store.log keydata)
  rwa [← represents.entries, List.map_map] at distinct

theorem getKey (represents : Represents folding heap store lists) (keydata : Nat) (key : Text) :
    Keydata.get folding heap keydata key = some (folding.latest (store.log keydata) key) := by
  rw [Keydata.get, represents.find, Option.map_some, Option.some_inj,
    ← folding.lookup_listing, ← represents.entries, Comparison.lookup, List.find?_map,
    Option.map_map]
  rfl

theorem clear (represents : Represents folding heap store lists) (keydata : Nat) (key : Text) :
    ∃ heap' lists', Keydata.clear folding heap keydata key = some heap' ∧
      Represents folding heap' (store.tell keydata [.clear key]) lists' ∧
      ∀ other, other ≠ keydata → lists' other = lists other := by
  have cleared : (folding.listing (store.log keydata ++ [.clear key])) =
      ((lists keydata).filter fun keys => !folding.same key (heap.id keys)).map heap.entry := by
    rw [folding.listing_append, ← represents.entries, List.filter_map]
    exact List.append_nil _
  unfold Keydata.clear
  rw [represents.find, Option.bind_some]
  cases found : (lists keydata).find? fun keys => folding.same key (heap.id keys) with
  | none =>
    rw [folding.filter_of_not_found found] at cleared
    refine ⟨heap, lists, rfl, { represents with entries := fun other => ?_ }, fun _ _ => rfl⟩
    by_cases same : other = keydata
    · simp [same, Store.tell, cleared]
    · simp [same, Store.tell, represents.entries]
  | some keys =>
    have member := List.mem_of_find?_eq_some found
    have kept : ∀ other, other ≠ keydata →
        (lists other).filter (fun node => node ≠ keys) = lists other :=
      fun other => represents.keys.filter_ne_of_other member
    obtain ⟨index, delisted, listed⟩ := represents.keys.delist member (represents.short keydata)
    rw [← folding.filter_ne_of_find (represents.distinct keydata) found] at cleared
    refine ⟨{ heap with keys := index }, _, by simp [delisted], { represents with
      keys := listed
      entries := fun other => ?_
      allocated := fun other node on => represents.allocated other node (List.mem_filter.mp on).1
      unmade := fun other above => by rw [represents.unmade other above, List.filter_nil] }, kept⟩
    by_cases same : other = keydata
    · rw [same]
      exact cleared.symm.trans (by simp [Store.tell])
    · rw [kept other same]
      exact (represents.entries other).trans (by simp [Store.tell, same])

theorem set (represents : Represents folding heap store lists) {keydata : Nat}
    (made : keydata < store.keydatas) (key : Text) (value : Option Text) :
    ∃ heap' lists', Keydata.set folding heap keydata key value = some heap' ∧
      Represents folding heap' (store.tell keydata [.set key (value.getD [])]) lists' ∧
      ∀ other, other ≠ keydata → lists' other = lists other := by
  obtain ⟨heap', lists', cleared, after, kept⟩ := represents.clear keydata key
  have outside : ∀ other, heap'.keyvalues ∉ lists' other := fun other member =>
    Nat.lt_irrefl _ (after.allocated other _ member)
  have unchanged : ∀ other, (lists' other).map (Keydata.keyvalue heap' keydata key value).entry =
      folding.listing ((store.tell keydata [.clear key]).log other) := by
    intro other
    rw [← after.entries other]
    refine List.map_congr_left fun node member => ?_
    have older := ne_of_mem_of_not_mem member (outside other)
    simp [Keydata.keyvalue, Heap.entry, older]
  refine ⟨Keydata.keyvalue heap' keydata key value,
    Function.update lists' keydata (lists' keydata ++ [heap'.keyvalues]),
    by rw [Keydata.set, cleared, Option.map_some], { after with
    keys := after.keys.construct outside keydata
    entries := fun other => ?_
    allocated := fun other node on => ?_
    unmade := fun other above => ?_ }, fun other same => ?_⟩
  · by_cases same : other = keydata
    · rw [same, Function.update_self, List.map_append, unchanged]
      simp [Store.tell, folding.listing_append, Keydata.keyvalue, Heap.entry, LogEntry.key,
        LogEntry.value?]
    · rw [Function.update_of_ne same, unchanged]
      simp [Store.tell, same]
  · refine Nat.lt_succ_iff_lt_or_eq.mpr ?_
    by_cases same : other = keydata
    · rw [same, Function.update_self, List.mem_append, List.mem_singleton] at on
      exact on.imp_left (after.allocated keydata node)
    · rw [Function.update_of_ne same] at on
      exact Or.inl (after.allocated other node on)
  · rw [Function.update_of_ne (Nat.ne_of_gt (Nat.lt_of_lt_of_le made above))]
    exact after.unmade other above
  · exact (Function.update_of_ne same _ _).trans (kept other same)

variable [DecidableEq File]

omit [DecidableEq File] in
theorem get (represents : Represents folding heap store lists) (valid : store.Valid folding)
    (this : File) (id : Text) :
    Keyfile.get folding heap this id = some (store.find folding this id) := by
  have short := length_le_of_lt (represents.sections.once this)
    fun keydata member => valid.made this keydata (Or.inl member)
  rw [← represents.keydatas] at short
  rw [Keyfile.get, Store.find, ← represents.name]
  exact walk_find _ (represents.sections.path this) short

omit [DecidableEq File] in
/-- The section that is made next lists nothing. -/
theorem entries_next (represents : Represents folding heap store lists) (other : Nat) :
    (lists other).map heap.entry =
      folding.listing (Function.update store.log store.keydatas [] other) := by
  by_cases same : other = store.keydatas
  · rw [same, Function.update_self, represents.unmade _ (Nat.le_refl _)]
    rfl
  · rw [Function.update_of_ne same]
    exact represents.entries other

/-- A new section is put at the end of the list that its namesake was taken off. -/
theorem keydata (represents : Represents folding heap store lists) (valid : store.Valid folding)
    {this : File} {id : Text} {index : OrderedIndex File Nat}
    (listed : OrderedIndex.Listed index (Function.update store.sections this
      ((store.sections this).filter fun keydata => !folding.same id (store.name keydata)))) :
    Represents folding (Keyfile.keydata { heap with sections := index } this id)
      (store.create folding this id) lists := by
  have unmade := represents.unmade store.keydatas (Nat.le_refl _)
  have outside : ∀ file, store.keydatas ∉ Function.update store.sections this
      ((store.sections this).filter fun keydata =>
        !folding.same id (store.name keydata)) file := by
    intro file member
    by_cases same : file = this
    · rw [same, Function.update_self] at member
      exact valid.unowned this (Or.inl (List.mem_filter.mp member).1)
    · rw [Function.update_of_ne same] at member
      exact valid.unowned file (Or.inl member)
  have constructed := listed.construct outside this
  rw [Function.update_self, Function.update_idem] at constructed
  unfold Keyfile.keydata Store.create
  simp only [represents.keydatas, represents.name]
  refine { represents with
    sections := constructed
    keys := represents.keys.reset unmade
    entries := represents.entries_next
    name := rfl
    keydatas := rfl
    unmade := fun other above => represents.unmade other (Nat.le_of_succ_le above) }

theorem create (represents : Represents folding heap store lists) (valid : store.Valid folding)
    (this : File) (id : Text) :
    ∃ heap', Keyfile.create folding heap this id = some heap' ∧
      Represents folding heap' (store.create folding this id) lists := by
  unfold Keyfile.create
  rw [represents.get valid, Option.bind_some]
  cases found : store.find folding this id with
  | none =>
    refine ⟨_, rfl, represents.keydata valid ?_⟩
    rw [folding.filter_of_not_found found, Function.update_eq_self]
    exact represents.sections
  | some old =>
    have member := List.mem_of_find?_eq_some found
    have short := length_le_of_lt (represents.sections.once this)
      fun keydata member => valid.made this keydata (Or.inl member)
    rw [← represents.keydatas] at short
    obtain ⟨index, delisted, listed⟩ := represents.sections.delist member short
    refine ⟨Keyfile.keydata { heap with sections := index } this id, by simp [delisted],
      represents.keydata valid ?_⟩
    rw [← folding.filter_ne_of_find (valid.distinct this) found]
    refine (congrArg (OrderedIndex.Listed index) (funext fun file => ?_)).mp listed
    by_cases same : file = this
    · rw [same, Function.update_self]
    · rw [Function.update_of_ne same]
      exact represents.sections.filter_ne_of_other member same

theorem openDefaults (represents : Represents folding heap store lists)
    (valid : store.Valid folding) (this : File) :
    Represents folding (Keyfile.openDefaults heap this) (store.openDefaults this) lists := by
  have unmade := represents.unmade store.keydatas (Nat.le_refl _)
  unfold Keyfile.openDefaults Store.openDefaults
  rw [represents.defaults]
  cases store.defaults this with
  | some _ => exact represents
  | none =>
    simp only [represents.keydatas, represents.name]
    refine { represents with
      sections := represents.sections.constructAlone fun file member =>
        valid.unowned file (Or.inl member)
      keys := represents.keys.reset unmade
      entries := represents.entries_next
      name := rfl
      defaults := rfl
      keydatas := rfl
      unmade := fun other above => represents.unmade other (Nat.le_of_succ_le above) }

/-! #### The loops of `load` -/

theorem obtain_ (represents : Represents folding heap store lists) (valid : store.Valid folding)
    (this : File) (id : Text) :
    ∃ heap', Keyfile.obtain folding heap this id = some (heap', (store.obtain folding this id).2) ∧
      Represents folding heap' (store.obtain folding this id).1 lists := by
  unfold Keyfile.obtain Store.obtain
  rw [represents.get valid, Option.bind_some]
  cases store.find folding this id with
  | some keydata => exact ⟨heap, rfl, represents⟩
  | none =>
    obtain ⟨heap', created, after⟩ := represents.create valid this id
    exact ⟨heap', by simp [created, represents.keydatas], after⟩

omit [DecidableEq File] in
/-- The loop over keys tells the section what is left of the list it walks along. -/
theorem loadKeys {keydata copied : Nat} (apart : copied ≠ keydata) {first rest : List Nat}
    {fuel : Nat} (represents : Represents folding heap store lists)
    (made : keydata < store.keydatas) (split : lists copied = first ++ rest)
    (enough : rest.length ≤ fuel) :
    ∃ heap' lists', Keyfile.loadKeys folding fuel heap keydata rest.head? = some heap' ∧
      Represents folding heap' (store.tell keydata
        ((rest.map heap.entry).map fun entry => .set entry.1 entry.2)) lists' := by
  induction rest generalizing first fuel heap store lists with
  | nil =>
    refine ⟨heap, lists, by cases fuel <;> rfl, ?_⟩
    rw [List.map_nil, List.map_nil, store.tell_nil]
    exact represents
  | cons vp rest inductionHypothesis =>
    obtain ⟨fuel, rfl⟩ : ∃ more, fuel = more + 1 := Nat.exists_eq_succ_of_ne_zero (by
      rintro rfl
      cases enough)
    obtain ⟨heap', lists', set, after, kept⟩ :=
      represents.set made (heap.id vp) (some (heap.value vp))
    have split' : lists' copied = (first ++ [vp]) ++ rest := by
      rw [kept copied apart, split, List.append_assoc, List.singleton_append]
    have unread : rest.map heap'.entry = rest.map heap.entry := by
      have whole := after.entries copied
      rw [store.log_tell_of_ne apart, ← represents.entries, kept copied apart] at whole
      refine List.map_congr_left fun node member => List.map_inj_left.mp whole node ?_
      rw [split]
      exact List.mem_append_right _ (List.mem_cons_of_mem _ member)
    have onward : heap'.keys.next vp = rest.head? := by
      have path := after.keys.path copied
      rw [kept copied apart, split] at path
      rw [path.next_eq, Option.or_none]
    obtain ⟨heap'', lists'', loaded, after'⟩ :=
      inductionHypothesis after made split' (Nat.le_of_succ_le_succ enough)
    refine ⟨heap'', lists'', ?_, ?_⟩
    · rw [List.head?_cons, Keyfile.loadKeys, set, Option.bind_some, onward]
      exact loaded
    · rw [unread, store.tell_tell] at after'
      exact after'

omit [DecidableEq File] in
/-- A section of another keyfile is told the whole list of one. -/
theorem copyKeys (represents : Represents folding heap store lists) {keydata copied : Nat}
    (apart : copied ≠ keydata) (made : keydata < store.keydatas) :
    ∃ heap' lists', Keyfile.loadKeys folding heap.keyvalues heap keydata
        (heap.keys.head copied) = some heap' ∧
      Represents folding heap' (store.copyKeys folding keydata copied) lists' := by
  have starts := (represents.keys.path copied).head_eq
  rw [Option.or_none] at starts
  rw [starts, Store.copyKeys, ← represents.entries]
  exact represents.loadKeys apart made (List.nil_append _).symm (represents.short copied)

/-- The loop over sections leaves what its turns make of the logs. -/
theorem loadSections {this copy : File} (apart : copy ≠ this) {first rest : List Nat} {fuel : Nat}
    (represents : Represents folding heap store lists) (valid : store.Valid folding)
    (split : store.sections copy = first ++ rest) (enough : rest.length ≤ fuel) :
    ∃ heap' lists', Keyfile.loadSections folding fuel heap this rest.head? = some heap' ∧
      Represents folding heap' (rest.foldl (Store.loadSection folding this) store) lists' ∧
      (rest.foldl (Store.loadSection folding this) store).Valid folding := by
  induction rest generalizing first fuel heap store lists with
  | nil => exact ⟨heap, lists, by cases fuel <;> rfl, represents, valid⟩
  | cons kp rest inductionHypothesis =>
    obtain ⟨fuel, rfl⟩ : ∃ more, fuel = more + 1 := Nat.exists_eq_succ_of_ne_zero (by
      rintro rfl
      cases enough)
    obtain ⟨validSection, member, keepsSection⟩ :=
      Store.obtain_spec valid this (store.name kp)
    obtain ⟨heap', obtained, after⟩ := represents.obtain_ valid this (store.name kp)
    have owns : store.Owns copy kp := Or.inl (by simp [split])
    have other : kp ≠ (store.obtain folding this (store.name kp)).2 := by
      intro same
      have owner : (store.obtain folding this (store.name kp)).1.Owns this
          (store.obtain folding this (store.name kp)).2 := Or.inl member
      rw [← same] at owner
      exact apart (validSection.owned ((keepsSection copy apart).owns.mpr owns) owner)
    obtain ⟨heap'', lists'', loaded, after'⟩ :=
      after.copyKeys other (validSection.made this _ (Or.inl member))
    obtain ⟨valid', keeps⟩ := Store.loadSection_spec valid this kp
    have split' : (store.loadSection folding this kp).sections copy = first ++ kp :: rest := by
      rw [(keeps copy apart).sections, split]
    have onward : heap''.sections.next kp = rest.head? := by
      have path := after'.sections.path copy
      rw [Store.copyKeys, Store.tell, (keepsSection copy apart).sections, split] at path
      rw [path.next_eq, Option.or_none]
    rw [List.append_cons] at split'
    obtain ⟨final, lists', finished, represents', validFinal⟩ :=
      inductionHypothesis after' valid' split' (Nat.le_of_succ_le_succ enough)
    refine ⟨final, lists', ?_, represents', validFinal⟩
    have starts : heap.keys.head kp = heap'.keys.head kp := by
      rw [(represents.keys.path kp).head_eq, (after.keys.path kp).head_eq]
    simp only [List.head?_cons, Keyfile.loadSections, represents.name, obtained, Option.bind_some,
      starts, loaded, onward]
    exact finished

/-- What `load` does first: the default section is told that of the other keyfile. -/
theorem loadDefaults {this copy : File} (apart : copy ≠ this)
    (represents : Represents folding heap store lists) (valid : store.Valid folding) :
    ∃ heap' lists', Represents folding heap' (store.loadDefaults folding this copy) lists' ∧
      Keyfile.load folding heap this copy = Keyfile.loadSections folding heap'.keydatas heap' this
        (heap'.sections.head copy) := by
  unfold Keyfile.load Store.loadDefaults
  rw [represents.defaults]
  cases theirs : store.defaults copy with
  | none =>
    refine ⟨heap, lists, represents, ?_⟩
    simp only [Option.bind_none, Option.isSome_none, Bool.false_eq_true, if_false]
    cases heap.defaults this with
    | none => rfl
    | some defaults => cases fuel : heap.keyvalues <;> rfl
  | some copied =>
    have opened := represents.openDefaults valid this
    have validOpened := valid.openDefaults this
    have defaults := store.defaults_openDefaults this
    have owner : (store.openDefaults this).Owns this
        ((store.defaults this).getD store.keydatas) := Or.inr defaults
    have other : copied ≠ (store.defaults this).getD store.keydatas := by
      intro same
      rw [← same] at owner
      have keeps := store.keeps_openDefaults valid apart
      exact apart (validOpened.owned (keeps.owns.mpr (Or.inr theirs)) owner)
    obtain ⟨heap', lists', loaded, after⟩ :=
      opened.copyKeys other (validOpened.made this _ owner)
    refine ⟨heap', lists', after, ?_⟩
    have starts : heap.keys.head copied = (Keyfile.openDefaults heap this).keys.head copied := by
      rw [(represents.keys.path copied).head_eq, (opened.keys.path copied).head_eq]
    rw [← opened.defaults] at defaults
    simp only [Option.bind_some, Option.isSome_some, if_true, defaults, starts, loaded]

/-- `load` leaves what its turns make of the logs. -/
theorem load {this copy : File} (apart : copy ≠ this)
    (represents : Represents folding heap store lists) (valid : store.Valid folding) :
    (store.load folding this copy).Valid folding ∧
      ∃ heap' lists', Keyfile.load folding heap this copy = some heap' ∧
        Represents folding heap' (store.load folding this copy) lists' := by
  obtain ⟨valid', keeps⟩ := Store.loadDefaults_spec valid this copy
  obtain ⟨heap', lists', after, loaded⟩ := represents.loadDefaults apart valid
  have starts := (after.sections.path copy).head_eq
  rw [Option.or_none, (keeps copy apart).sections] at starts
  have short := length_le_of_lt (after.sections.once copy)
    fun keydata member => valid'.made copy keydata (Or.inl member)
  rw [← after.keydatas, (keeps copy apart).sections] at short
  have split := (keeps copy apart).sections.trans (List.nil_append _).symm
  obtain ⟨final, lists'', finished, represents', validFinal⟩ :=
    after.loadSections apart valid' split short
  rw [loaded, starts]
  exact ⟨validFinal, final, lists'', finished, represents'⟩

theorem perform (represents : Represents folding heap store lists) (valid : store.Valid folding)
    {action : Action File} (allowed : Allowed store action) :
    (store.intended folding action).Valid folding ∧
      ∃ heap' lists', Keyfile.perform folding heap action = some heap' ∧
        Represents folding heap' (store.intended folding action) lists' := by
  cases action with
  | create this id =>
    obtain ⟨heap', created, after⟩ := represents.create valid this id
    exact ⟨valid.create this id, heap', lists, created, after⟩
  | openDefaults this =>
    exact ⟨valid.openDefaults this, _, lists, rfl, represents.openDefaults valid this⟩
  | set keydata key value =>
    obtain ⟨heap', lists', set, after, _⟩ := represents.set allowed key value
    exact ⟨valid.tell _ _, heap', lists', set, after⟩
  | clear keydata key =>
    obtain ⟨heap', lists', cleared, after, _⟩ := represents.clear keydata key
    exact ⟨valid.tell _ _, heap', lists', cleared, after⟩
  | load this copy => exact represents.load (Ne.symm allowed) valid

end Represents

end Refinement

end Keyfile

end CommonCpp
