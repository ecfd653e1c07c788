/-
This file shows that a keyfile loaded over another one wins.

The logs of the sections are followed through the three loops of `load`. What one
turn of the loop over sections does to the value of a key depends on whether the key
is looked for under the name of the section that is copied; as the names of a
keyfile's sections are different, at most one turn does. The keyfile that is copied
stays as it was because its sections are not those that are told something.
-/

import Mathlib.Data.List.Find
import CommonCpp.Keyfile

namespace CommonCpp

open Concurrency KeyLog Memory

namespace Keyfile

section Merge

variable {File : Type} {folding : Comparison Text} {heap : Heap File} {store : Store File}
  {lists : Nat → List Nat}

/-! ### The merge -/

namespace Store

/-- The value of a key in the section of a name. -/
def value (folding : Comparison Text) (store : Store File) (file : File) (id key : Text) :
    Option Text :=
  (store.find folding file id).bind fun keydata => folding.latest (store.log keydata) key

/-- The value of a default key. -/
def defaultValue (folding : Comparison Text) (store : Store File) (file : File) (key : Text) :
    Option Text :=
  (store.defaults file).bind fun keydata => folding.latest (store.log keydata) key

variable {store' : Store File} {this copy file : File}

theorem find_congr (sections : store'.sections file = store.sections file)
    (name : ∀ keydata ∈ store.sections file, store'.name keydata = store.name keydata)
    (id : Text) : store'.find folding file id = store.find folding file id := by
  unfold find
  rw [sections]
  exact List.find?_congr fun keydata member => by rw [name keydata member]

theorem value_congr (sections : store'.sections file = store.sections file)
    (name : ∀ keydata ∈ store.sections file, store'.name keydata = store.name keydata)
    (log : ∀ keydata ∈ store.sections file, store'.log keydata = store.log keydata)
    (id key : Text) : store'.value folding file id key = store.value folding file id key := by
  unfold value
  rw [find_congr sections name]
  cases found : store.find folding file id with
  | none => rfl
  | some keydata => rw [Option.bind_some, log keydata (List.mem_of_find?_eq_some found)]; rfl

variable [DecidableEq File]

omit [DecidableEq File] in
theorem find_same {id name : Text} (same : folding.same name id) :
    store.find folding this name = store.find folding this id := by
  unfold find
  simp only [folding.same_congr same]

/-- Once a section is obtained under a name, it is the one that is found. -/
theorem find_obtain (valid : store.Valid folding) (this : File) (id name : Text) :
    (store.obtain folding this id).1.find folding this name =
      if folding.same name id then some (store.obtain folding this id).2
      else store.find folding this name := by
  unfold obtain
  cases found : store.find folding this id with
  | some keydata =>
    by_cases same : folding.same name id
    · rw [if_pos same]
      exact (find_same same).trans found
    · rw [if_neg same]
  | none =>
    have older : (store.sections this).find? (fun keydata => folding.same name
        (Function.update store.name store.keydatas id keydata)) = store.find folding this name :=
      List.find?_congr fun keydata member => by
        rw [Function.update_of_ne (valid.ne_of_owns (Or.inl member))]
    simp only [create, find, Function.update_self, List.find?_append]
    rw [folding.filter_of_not_found found, older]
    by_cases same : folding.same name id
    · simp [find_same same, found, same]
    · simp [same, find]

theorem value_obtain (valid : store.Valid folding) (this : File) (id name key : Text) :
    (store.obtain folding this id).1.value folding this name key =
      store.value folding this name key := by
  unfold value
  rw [find_obtain valid]
  unfold obtain
  cases found : store.find folding this id with
  | some keydata =>
    by_cases same : folding.same name id
    · rw [if_pos same, find_same same, found]
    · rw [if_neg same]
  | none =>
    by_cases same : folding.same name id
    · rw [if_pos same, find_same same, found]
      simp [create, Comparison.latest]
    · rw [if_neg same]
      cases here : store.find folding this name with
      | none => rfl
      | some keydata =>
        have older := valid.ne_of_owns (Or.inl (List.mem_of_find?_eq_some here))
        simp [create, older]

theorem log_obtain (folding : Comparison Text) (store : Store File) (this : File) (id : Text)
    {keydata : Nat} (made : keydata < store.keydatas) :
    (store.obtain folding this id).1.log keydata = store.log keydata := by
  unfold obtain
  cases store.find folding this id with
  | some _ => rfl
  | none => exact Function.update_of_ne (Nat.ne_of_lt made) _ _

/-- A key has the value of the copied section, where that has one, and otherwise the value it
had. -/
theorem value_loadSection (valid : store.Valid folding) {copied : Nat}
    (made : copied < store.keydatas) (name key : Text) :
    (store.loadSection folding this copied).value folding this name key =
      if folding.same name (store.name copied) then
        (folding.latest (store.log copied) key).or (store.value folding this name key)
      else store.value folding this name key := by
  have found := fun name => find_obtain valid this (store.name copied) name
  have unchanged := value_obtain valid this (store.name copied) name key
  have log := log_obtain folding store this (store.name copied) made
  unfold loadSection copyKeys
  simp only
  generalize store.obtain folding this (store.name copied) = obtained at found unchanged log ⊢
  rw [log, ← unchanged]
  unfold value
  have untold : (obtained.1.tell obtained.2 ((folding.listing (store.log copied)).map
      fun entry => .set entry.1 entry.2)).find folding this name =
        obtained.1.find folding this name := rfl
  rw [untold]
  by_cases same : folding.same name (store.name copied)
  · rw [if_pos same, found, if_pos same, Option.bind_some, Option.bind_some]
    simp only [tell, Function.update_self]
    rw [folding.latest_append_sets (folding.distinct_listing _), folding.lookup_listing]
  · rw [if_neg same]
    cases here : obtained.1.find folding this name with
    | none => rfl
    | some keydata =>
      have other : keydata ≠ obtained.2 := by
        rintro rfl
        have itself := found (store.name copied)
        rw [if_pos (folding.refl _)] at itself
        have names := List.find?_some here
        have names' := List.find?_some itself
        exact same (folding.trans names (folding.symm names'))
      rw [Option.bind_some, Option.bind_some, log_tell_of_ne _ other]

/-- The sections that are there after one was copied. -/
theorem find_loadSection (valid : store.Valid folding) (copied : Nat) (name : Text) :
    ((store.loadSection folding this copied).find folding this name).isSome =
      (folding.same name (store.name copied) || (store.find folding this name).isSome) := by
  have found : (store.loadSection folding this copied).find folding this name =
      if folding.same name (store.name copied) then
        some (store.obtain folding this (store.name copied)).2
      else store.find folding this name := find_obtain valid this (store.name copied) name
  rw [found]
  by_cases same : folding.same name (store.name copied) <;> simp [same]

theorem defaults_obtain (folding : Comparison Text) (store : Store File) (this : File) (id : Text) :
    (store.obtain folding this id).1.defaults = store.defaults := by
  unfold obtain
  cases store.find folding this id <;> rfl

theorem defaults_loadSection (folding : Comparison Text) (store : Store File) (this : File)
    (copied : Nat) : (store.loadSection folding this copied).defaults = store.defaults :=
  defaults_obtain folding store this (store.name copied)

/-- The default keys stay when a section is copied. -/
theorem defaultValue_loadSection (valid : store.Valid folding) (copied : Nat) (key : Text) :
    (store.loadSection folding this copied).defaultValue folding this key =
      store.defaultValue folding this key := by
  obtain ⟨after, member, _⟩ := obtain_spec valid this (store.name copied)
  unfold defaultValue
  rw [defaults_loadSection]
  cases opened : store.defaults this with
  | none => rfl
  | some keydata =>
    have other : keydata ≠ (store.obtain folding this (store.name copied)).2 := by
      rintro rfl
      rw [← defaults_obtain folding store this (store.name copied)] at opened
      exact after.unlisted opened member
    have log : (store.loadSection folding this copied).log keydata = store.log keydata :=
      (log_tell_of_ne _ other _).trans
        (log_obtain folding store this _ (valid.made this _ (Or.inr opened)))
    rw [Option.bind_some, log]
    rfl

/-- The value of a key in the first of some sections with a name. -/
def valueAmong (folding : Comparison Text) (store : Store File) (copied : List Nat)
    (id key : Text) : Option Text :=
  (copied.find? fun keydata => folding.same id (store.name keydata)).bind fun keydata =>
    folding.latest (store.log keydata) key

/-- What copying some sections of another keyfile makes of a keyfile. -/
structure Overlaid (folding : Comparison Text) (store after : Store File) (this : File)
    (copied : List Nat) : Prop where
  valid : after.Valid folding
  keeps : ∀ file, file ≠ this → Keeps store after file
  defaults : after.defaults this = store.defaults this
  defaultValue : ∀ key, after.defaultValue folding this key = store.defaultValue folding this key
  value : ∀ id key, after.value folding this id key =
    (store.valueAmong folding copied id key).or (store.value folding this id key)
  find : ∀ id, (after.find folding this id).isSome =
    ((copied.find? fun keydata => folding.same id (store.name keydata)).isSome ||
      (store.find folding this id).isSome)

theorem overlaid (valid : store.Valid folding) (apart : copy ≠ this) {copied : List Nat}
    (within : ∀ keydata ∈ copied, keydata ∈ store.sections copy)
    (distinct : folding.Distinct (copied.map store.name)) :
    Overlaid folding store (copied.foldl (loadSection folding this) store) this copied := by
  induction copied generalizing store with
  | nil =>
    exact ⟨valid, fun file _ => Keeps.refl store file, rfl, fun _ => rfl, fun _ _ => rfl,
      fun _ => rfl⟩
  | cons first rest inductionHypothesis =>
    obtain ⟨valid', keeps⟩ := loadSection_spec valid this first
    obtain ⟨here, within⟩ := List.forall_mem_cons.mp within
    obtain ⟨lone, distinct⟩ := List.pairwise_cons.mp distinct
    have name : ∀ keydata ∈ rest, (store.loadSection folding this first).name keydata =
        store.name keydata := fun keydata member =>
      (keeps copy apart).name keydata (Or.inl (within keydata member))
    have log : ∀ keydata ∈ rest, (store.loadSection folding this first).log keydata =
        store.log keydata := fun keydata member =>
      (keeps copy apart).log keydata (Or.inl (within keydata member))
    have overlaid := inductionHypothesis valid'
      (fun keydata member => by rw [(keeps copy apart).sections]; exact within keydata member)
      (by rw [List.map_congr_left name]; exact distinct)
    have found : ∀ id, (rest.find? fun keydata =>
        folding.same id ((store.loadSection folding this first).name keydata)) =
        rest.find? fun keydata => folding.same id (store.name keydata) := fun id =>
      List.find?_congr fun keydata member => by rw [name keydata member]
    have made := valid.made copy first (Or.inl here)
    refine ⟨overlaid.valid, fun file other => (keeps file other).trans (overlaid.keeps file other),
      overlaid.defaults.trans (congrFun (defaults_loadSection folding store this first) this),
      fun key => ?_, fun id key => ?_, fun id => ?_⟩
    · exact (overlaid.defaultValue key).trans (defaultValue_loadSection valid first key)
    · have later : (store.loadSection folding this first).valueAmong folding rest id key =
          store.valueAmong folding rest id key := by
        unfold valueAmong
        rw [found]
        cases among : rest.find? fun keydata => folding.same id (store.name keydata) with
        | none => rfl
        | some keydata =>
          rw [Option.bind_some, Option.bind_some, log keydata (List.mem_of_find?_eq_some among)]
      rw [List.foldl_cons, overlaid.value, later, value_loadSection valid made]
      unfold valueAmong
      rw [List.find?_cons]
      by_cases same : folding.same id (store.name first)
      · have missed : rest.find? (fun keydata => folding.same id (store.name keydata)) = none := by
          refine List.find?_eq_none.mpr fun keydata member => ?_
          rw [folding.same_congr same]
          exact lone _ (List.mem_map_of_mem member)
        simp [same, missed]
      · simp [same]
    · rw [List.foldl_cons, overlaid.find, found, find_loadSection valid, List.find?_cons]
      by_cases same : folding.same id (store.name first)
      · simp [same]
      · simp [same]

/-- Default keys are opened beside the sections that are there. -/
theorem sections_openDefaults (store : Store File) (this : File) :
    (store.openDefaults this).sections = store.sections := by
  unfold openDefaults
  cases store.defaults this <;> rfl

theorem openDefaults_of_made (this : File) {keydata : Nat} (made : keydata < store.keydatas) :
    (store.openDefaults this).name keydata = store.name keydata ∧
      (store.openDefaults this).log keydata = store.log keydata := by
  unfold openDefaults
  cases store.defaults this with
  | some _ => exact ⟨rfl, rfl⟩
  | none =>
    exact ⟨Function.update_of_ne (Nat.ne_of_lt made) _ _,
      Function.update_of_ne (Nat.ne_of_lt made) _ _⟩

/-- Loading the default keys of another keyfile leaves the listed sections. -/
theorem sections_loadDefaults (folding : Comparison Text) (store : Store File) (this copy : File) :
    (store.loadDefaults folding this copy).sections = store.sections := by
  unfold loadDefaults
  cases store.defaults copy with
  | none => rfl
  | some copied => exact store.sections_openDefaults this

theorem listed_loadDefaults (valid : store.Valid folding) (this copy : File) {keydata : Nat}
    (member : keydata ∈ store.sections this) :
    (store.loadDefaults folding this copy).name keydata = store.name keydata ∧
      (store.loadDefaults folding this copy).log keydata = store.log keydata := by
  unfold loadDefaults
  cases store.defaults copy with
  | none => exact ⟨rfl, rfl⟩
  | some copied =>
    have opened := valid.openDefaults this
    obtain ⟨name, log⟩ :=
      store.openDefaults_of_made this (valid.made this keydata (Or.inl member))
    have other : keydata ≠ (store.defaults this).getD store.keydatas := by
      rintro rfl
      rw [← store.sections_openDefaults this] at member
      exact opened.unlisted (store.defaults_openDefaults this) member
    exact ⟨name, (log_tell_of_ne _ other _).trans log⟩

/-- A default key has the value it has in the other keyfile, if any, and otherwise the value it
had. -/
theorem defaultValue_loadDefaults (valid : store.Valid folding) (this copy : File) (key : Text) :
    (store.loadDefaults folding this copy).defaultValue folding this key =
      (store.defaultValue folding copy key).or (store.defaultValue folding this key) := by
  cases theirs : store.defaults copy with
  | none => simp [loadDefaults, defaultValue, theirs]
  | some copied =>
    have made := valid.made copy copied (Or.inr theirs)
    obtain ⟨_, log⟩ := store.openDefaults_of_made this made
    have had : folding.latest ((store.openDefaults this).log
        ((store.defaults this).getD store.keydatas)) key = store.defaultValue folding this key := by
      unfold defaultValue openDefaults
      cases store.defaults this with
      | some _ => rfl
      | none => simp [Comparison.latest]
    have opened : (store.loadDefaults folding this copy).defaults this =
        some ((store.defaults this).getD store.keydatas) := by
      rw [loadDefaults, theirs]
      exact store.defaults_openDefaults this
    rw [defaultValue, opened, Option.bind_some, ← had, defaultValue, theirs, Option.bind_some]
    simp only [loadDefaults, theirs, copyKeys, tell, Function.update_self, log]
    rw [folding.latest_append_sets (folding.distinct_listing _), folding.lookup_listing]

/-- What loading another keyfile makes of a keyfile. -/
structure Merged (folding : Comparison Text) (store after : Store File) (this copy : File) :
    Prop where
  keeps : ∀ file, file ≠ this → Keeps store after file
  defaults : (after.defaults this).isSome =
    ((store.defaults copy).isSome || (store.defaults this).isSome)
  defaultValue : ∀ key, after.defaultValue folding this key =
    (store.defaultValue folding copy key).or (store.defaultValue folding this key)
  find : ∀ id, (after.find folding this id).isSome =
    ((store.find folding copy id).isSome || (store.find folding this id).isSome)
  value : ∀ id key, after.value folding this id key =
    (store.value folding copy id key).or (store.value folding this id key)

theorem merged (valid : store.Valid folding) (apart : copy ≠ this) :
    Merged folding store (store.load folding this copy) this copy := by
  obtain ⟨valid', keeps⟩ := loadDefaults_spec valid this copy
  have sections := congrFun (sections_loadDefaults folding store this copy)
  have names : (store.sections copy).map (store.loadDefaults folding this copy).name =
      (store.sections copy).map store.name := List.map_congr_left fun keydata member =>
    (keeps copy apart).name keydata (Or.inl member)
  have overlaid : Overlaid folding (store.loadDefaults folding this copy)
      (store.load folding this copy) this (store.sections copy) :=
    overlaid valid' apart (fun keydata member => by rwa [sections])
      (by rw [names]; exact valid.distinct copy)
  have copied : ∀ id, ((store.sections copy).find? fun keydata =>
      folding.same id ((store.loadDefaults folding this copy).name keydata)) =
      store.find folding copy id := fun id =>
    List.find?_congr fun keydata member => by rw [(keeps copy apart).name keydata (Or.inl member)]
  have found : ∀ id, (store.loadDefaults folding this copy).find folding this id =
      store.find folding this id :=
    find_congr (sections this) fun keydata member => (listed_loadDefaults valid this copy member).1
  refine ⟨fun file other => (keeps file other).trans (overlaid.keeps file other), ?_, fun key => ?_,
    fun id => ?_, fun id key => ?_⟩
  · rw [overlaid.defaults, loadDefaults]
    cases theirs : store.defaults copy with
    | none => rfl
    | some _ => exact congrArg Option.isSome (store.defaults_openDefaults this)
  · rw [overlaid.defaultValue, defaultValue_loadDefaults valid]
  · rw [overlaid.find, copied, found]
  · have theirs : (store.loadDefaults folding this copy).valueAmong folding (store.sections copy) id
        key = store.value folding copy id key := by
      unfold valueAmong value
      rw [copied]
      cases here : store.find folding copy id with
      | none => rfl
      | some keydata =>
        rw [Option.bind_some, (keeps copy apart).log _ (Or.inl (List.mem_of_find?_eq_some here))]
        rfl
    rw [overlaid.value, theirs, value_congr (sections this)
      (fun keydata member => (listed_loadDefaults valid this copy member).1)
      fun keydata member => (listed_loadDefaults valid this copy member).2]

end Store

/-! ### The result -/

/-- The value of a key in the section of a name, as `get` finds it. -/
def value (folding : Comparison Text) (heap : Heap File) (this : File) (id key : Text) :
    Option (Option Text) :=
  (Keyfile.get folding heap this id).bind fun keydata =>
    match keydata with
    | some keydata => Keydata.get folding heap keydata key
    | none => some none

/-- The value of a default key, as `get` finds it. -/
def defaultValue (folding : Comparison Text) (heap : Heap File) (this : File) (key : Text) :
    Option (Option Text) :=
  match heap.defaults this with
  | some keydata => Keydata.get folding heap keydata key
  | none => some none

/-- The sections along the index of a keyfile, each with its name and with the keys and values along
its own. -/
def sections (heap : Heap File) (this : File) :
    Option (List (Text × Option (List (Text × Text)))) :=
  (passed heap.sections.next heap.keydatas (heap.sections.head this)).map fun list =>
    list.map fun keydata => (heap.name keydata, Keydata.entries heap keydata)

/-- A section lists the keys and values of its log, no key of it twice, and finds the value of each;
the end of its index is the last of them; the sections of a keyfile have different names; and every
call has an outcome. -/
structure Sound (folding : Comparison Text) [DecidableEq File] (state : State File) : Prop where
  listed : ∀ keydata, keydata < state.store.keydatas →
    Keydata.entries state.heap keydata = some (folding.listing (state.store.log keydata))
  distinct : ∀ keydata, folding.Distinct ((folding.listing (state.store.log keydata)).map Prod.fst)
  found : ∀ keydata, keydata < state.store.keydatas → ∀ key,
    Keydata.get folding state.heap keydata key =
      some (folding.latest (state.store.log keydata) key)
  last : ∀ keydata, keydata < state.store.keydatas →
    (state.heap.keys.tail keydata).map state.heap.entry =
      (folding.listing (state.store.log keydata)).getLast?
  named : ∀ this, ∃ list, sections state.heap this = some list ∧
    folding.Distinct (list.map Prod.fst)
  answers : ∀ action, Allowed state.store action → (perform folding state.heap action).isSome

/-- What loading a keyfile over another one does: a key has the value it has in the one that was
loaded, and otherwise the value it had; and no other keyfile changes. -/
structure Overlays (folding : Comparison Text) (source target : Heap File) (this copy : File) :
    Prop where
  value : ∀ id key, ∃ theirs ours, value folding source copy id key = some theirs ∧
    value folding source this id key = some ours ∧
      value folding target this id key = some (theirs.or ours)
  get : ∀ id, ∃ theirs ours after, get folding source copy id = some theirs ∧
    get folding source this id = some ours ∧ get folding target this id = some after ∧
      after.isSome = (theirs.isSome || ours.isSome)
  defaultValue : ∀ key, ∃ theirs ours, defaultValue folding source copy key = some theirs ∧
    defaultValue folding source this key = some ours ∧
      defaultValue folding target this key = some (theirs.or ours)
  defaults : (target.defaults this).isSome =
    ((source.defaults copy).isSome || (source.defaults this).isSome)
  others : ∀ file, file ≠ this → sections target file = sections source file ∧
    (target.defaults file).map (Keydata.entries target) =
      (source.defaults file).map (Keydata.entries source)

/-- The step does what its call is for. -/
def Intended (folding : Comparison Text) (move : Move (State File) (Action File)) : Prop :=
  ∀ this copy, move.action = .load this copy →
    Overlays folding move.source.heap move.target.heap this copy

namespace Represents

theorem entries_eq (represents : Represents folding heap store lists) (keydata : Nat) :
    Keydata.entries heap keydata = some (folding.listing (store.log keydata)) := by
  rw [Keydata.entries, passed_of_path (represents.keys.path keydata) (represents.short keydata),
    Option.map_some, represents.entries]

theorem sections_eq (represents : Represents folding heap store lists)
    (valid : store.Valid folding) (this : File) :
    Keyfile.sections heap this = some ((store.sections this).map fun keydata =>
      (store.name keydata, some (folding.listing (store.log keydata)))) := by
  have short := length_le_of_lt (represents.sections.once this)
    fun keydata member => valid.made this keydata (Or.inl member)
  rw [← represents.keydatas] at short
  rw [Keyfile.sections, passed_of_path (represents.sections.path this) short, Option.map_some]
  simp only [represents.entries_eq, represents.name]

theorem value_eq (represents : Represents folding heap store lists) (valid : store.Valid folding)
    (this : File) (id key : Text) :
    Keyfile.value folding heap this id key = some (store.value folding this id key) := by
  rw [Keyfile.value, represents.get valid, Option.bind_some, Store.value]
  cases store.find folding this id with
  | none => rfl
  | some keydata => exact represents.getKey keydata key

theorem defaultValue_eq (represents : Represents folding heap store lists) (this : File)
    (key : Text) :
    Keyfile.defaultValue folding heap this key = some (store.defaultValue folding this key) := by
  rw [Keyfile.defaultValue, represents.defaults, Store.defaultValue]
  cases store.defaults this with
  | none => rfl
  | some keydata => exact represents.getKey keydata key

theorem sound [DecidableEq File] (represents : Represents folding heap store lists)
    (valid : store.Valid folding) : Sound folding ⟨heap, store⟩ where
  listed keydata _ := represents.entries_eq keydata
  distinct keydata := folding.distinct_listing _
  found keydata _ := represents.getKey keydata
  last keydata _ := by
    rw [represents.keys.tail, ← represents.entries, List.getLast?_map]
  named this := by
    refine ⟨_, represents.sections_eq valid this, ?_⟩
    rw [List.map_map]
    exact valid.distinct this
  answers action allowed := by
    obtain ⟨_, heap', _, performed, _⟩ := represents.perform valid allowed
    rw [performed]
    rfl

theorem overlays [DecidableEq File] {this copy : File} {heap' : Heap File}
    {lists' : Nat → List Nat} (represents : Represents folding heap store lists)
    (valid : store.Valid folding) (apart : copy ≠ this)
    (after : Represents folding heap' (store.load folding this copy) lists')
    (valid' : (store.load folding this copy).Valid folding) :
    Overlays folding heap heap' this copy := by
  have merged := Store.merged valid apart
  refine ⟨fun id key => ⟨_, _, represents.value_eq valid copy id key,
    represents.value_eq valid this id key, ?_⟩, fun id => ⟨_, _, _, represents.get valid copy id,
    represents.get valid this id, after.get valid' this id, merged.find id⟩, fun key => ⟨_, _,
    represents.defaultValue_eq copy key, represents.defaultValue_eq this key, ?_⟩, ?_,
    fun file other => ⟨?_, ?_⟩⟩
  · rw [after.value_eq valid', merged.value]
  · rw [after.defaultValue_eq, merged.defaultValue]
  · rw [after.defaults, represents.defaults, merged.defaults]
  · have keeps := merged.keeps file other
    rw [after.sections_eq valid', represents.sections_eq valid, keeps.sections]
    refine congrArg some (List.map_congr_left fun keydata member => ?_)
    rw [keeps.name keydata (Or.inl member), keeps.log keydata (Or.inl member)]
  · have keeps := merged.keeps file other
    rw [after.defaults, represents.defaults, keeps.defaults]
    cases opened : store.defaults file with
    | none => rfl
    | some keydata =>
      rw [Option.map_some, Option.map_some, after.entries_eq, represents.entries_eq,
        keeps.log keydata (Or.inr opened)]

end Represents

theorem Store.Valid.constructed :
    Store.Valid folding ⟨fun _ => [], fun _ : File => [], fun _ => none, fun _ => [], 0⟩ where
  made _ _ owns := by rcases owns with listed | unlisted <;> contradiction
  owned owns := by rcases owns with listed | unlisted <;> contradiction
  unlisted opened := by cases opened
  distinct _ := List.Pairwise.nil

theorem Represents.constructed :
    Represents folding (Keyfile.constructed File)
      ⟨fun _ => [], fun _ => [], fun _ => none, fun _ => [], 0⟩ fun _ => [] where
  sections := ⟨⟨fun _ => rfl, fun _ => List.nodup_nil, fun member => by cases member⟩, fun _ => rfl⟩
  keys := ⟨⟨fun _ => rfl, fun _ => List.nodup_nil, fun member => by cases member⟩, fun _ => rfl⟩
  entries _ := rfl
  name := rfl
  defaults := rfl
  keydatas := rfl
  allocated _ _ member := by cases member
  unmade _ _ := rfl

/-- A step does to the heap what it does to the logs. -/
theorem represents_of_step [DecidableEq File] {source target : State File} {action : Action File}
    (valid : source.store.Valid folding)
    (represents : Represents folding source.heap source.store lists)
    (stepped : (machine folding).step source action = some target) :
    Allowed source.store action ∧ target.store = source.store.intended folding action ∧
      target.store.Valid folding ∧
      ∃ lists', Represents folding target.heap target.store lists' := by
  simp only [machine, step] at stepped
  split at stepped
  next allowed =>
    obtain ⟨valid', heap', lists', performed, after⟩ := represents.perform valid allowed
    rw [performed, Option.map_some, Option.some_inj] at stepped
    subst stepped
    exact ⟨allowed, rfl, valid', lists', after⟩
  next => cases stepped

theorem represents_of_reachable [DecidableEq File] {state : State File}
    (reachable : (machine folding).Reachable state) :
    state.store.Valid folding ∧ ∃ lists, Represents folding state.heap state.store lists := by
  refine @Machine.Reachable.invariant _ _ (machine folding) (fun state =>
    state.store.Valid folding ∧ ∃ lists, Represents folding state.heap state.store lists)
    ?_ ?_ state reachable
  · rintro state rfl
    exact ⟨Store.Valid.constructed, fun _ => [], Represents.constructed⟩
  · rintro source action target ⟨valid, lists, represents⟩ stepped
    obtain ⟨_, _, after⟩ := represents_of_step valid represents stepped
    exact after

/-- In every run of keyfiles a section finds for each key the value of the latest set that was not
cleared since, and lists these sets in order; and loading one keyfile over another gives it the
sections, keys and values of the one that is loaded, which stays as it was. -/
theorem keyfile_maps [DecidableEq File] {moves : List (Move (State File) (Action File))}
    {state : State File} (run : (machine folding).Run moves state) :
    Machine.Throughout (Sound folding) moves state ∧ ∀ move ∈ moves, Intended folding move := by
  have unconditional : Machine.Meets (fun _ _ => True) moves := fun _ _ => trivial
  refine (run.sound_throughout_iff_meets (fun state => state.store.Valid folding ∧
    ∃ lists, Represents folding state.heap state.store lists) ?_ ?_ ?_ ?_).mpr unconditional
  · rintro state rfl
    exact ⟨Store.Valid.constructed, fun _ => [], Represents.constructed⟩
  · rintro source action target ⟨valid, lists, represents⟩ _ stepped
    obtain ⟨allowed, intended, valid', lists', after⟩ :=
      represents_of_step valid represents stepped
    refine ⟨⟨valid', lists', after⟩, ?_⟩
    rintro this copy rfl
    rw [intended] at valid' after
    exact represents.overlays valid (Ne.symm allowed) after valid'
  · rintro state ⟨valid, lists, represents⟩
    exact represents.sound valid
  · exact fun _ _ _ _ broken => absurd trivial broken

end Merge

/-- Keys set under two spellings, cleared and set again, and a keyfile with default keys and a
section loaded over one with a section of the same name. -/
theorem keyfile_maps_overlaid :
    ∃ (folding : Comparison Text) (moves : _) (state : State (Fin 2)),
      (machine folding).Run moves state ∧
        value folding state.heap 0 [0x73] [0x6b] = some (some [3]) ∧
        value folding state.heap 0 [0x53] [0x6c] = some (some [4]) ∧
        value folding state.heap 0 [0x53] [0x6d] = some none ∧
        defaultValue folding state.heap 0 [0x6b] = some (some [6]) ∧
        Machine.Throughout (Sound folding) moves state ∧
          ∀ move ∈ moves, Intended folding move := by
  let lower : Text → Text := List.map fun char => char ||| 0x20
  let folding : Comparison Text :=
    ⟨fun key key' => lower key = lower key', fun key => decide_eq_true rfl,
      fun same => decide_eq_true (of_decide_eq_true same).symm,
      fun same same' => decide_eq_true ((of_decide_eq_true same).trans (of_decide_eq_true same'))⟩
  let played := (machine folding).play
    ⟨constructed (Fin 2), ⟨fun _ => [], fun _ => [], fun _ => none, fun _ => [], 0⟩⟩
    [.create 0 [0x53], .set 0 [0x6b] (some [1]), .set 0 [0x6d] (some [2]), .clear 0 [0x4d],
      .set 0 [0x6c] (some [4]), .create 1 [0x73], .set 1 [0x4b] (some [3]), .openDefaults 1,
      .set 2 [0x6b] (some [6]), .load 0 1]
  obtain ⟨moves, run⟩ : (machine folding).Reachable (played.get (by decide)) :=
    Machine.reachable_get rfl _
  obtain ⟨sound, intended⟩ := keyfile_maps run
  exact ⟨folding, moves, _, run, by decide, by decide, by decide, by decide, sound, intended⟩

end Keyfile

end CommonCpp
