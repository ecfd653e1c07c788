/-
This file shows when a keyfile that is saved is loaded again as it was.

A keyfile has slots: the names of its sections, their keys, and the default keys. Each
line that is read sets one of them, so what the keyfile says in the end is what was set
last in each slot.

Where every value is kept by its line, the same slots are set to the same values as were
written. The first value that is not kept is read as another one. No more is read than
was written, and that was all about different slots; so where this slot is set again,
another one is missing. A keyfile with an empty name or an empty value is not loaded as
it was: the copy of it is not written.
-/

import CommonCpp.KeyfilePath

namespace CommonCpp

open Concurrency KeyLog Memory
open Bytes (dup dup_eq_some_iff)

namespace Keyfile

/-! ### Slots -/

/-- A place in a keyfile: the name of a section, or a key of a section or among the default
keys. -/
inductive Slot
  | keydata (id : Text)
  | key (name : Option Text) (id : Text)

namespace Slot

def same (folding : Comparison Text) : Slot → Slot → Bool
  | .keydata id, .keydata id' => folding.same id id'
  | .key none id, .key none id' => folding.same id id'
  | .key (some name) id, .key (some name') id' => folding.same name name' && folding.same id id'
  | _, _ => false

variable {folding : Comparison Text} {slot slot' slot'' : Slot}

theorem same_refl (slot : Slot) : slot.same folding slot := by
  rcases slot with id | ⟨_ | name, id⟩
  · exact folding.refl id
  · exact folding.refl id
  · exact Bool.and_eq_true_iff.mpr ⟨folding.refl name, folding.refl id⟩

theorem same_symm (same : slot.same folding slot') : slot'.same folding slot := by
  rcases slot with id | ⟨_ | name, id⟩ <;> rcases slot' with id' | ⟨_ | name', id'⟩ <;>
    try cases same
  · exact folding.symm same
  · exact folding.symm same
  · obtain ⟨sameName, sameId⟩ := Bool.and_eq_true_iff.mp same
    exact Bool.and_eq_true_iff.mpr ⟨folding.symm sameName, folding.symm sameId⟩

theorem same_trans (same : slot.same folding slot') (same' : slot'.same folding slot'') :
    slot.same folding slot'' := by
  rcases slot with id | ⟨_ | name, id⟩ <;> rcases slot' with id' | ⟨_ | name', id'⟩ <;>
    try cases same
  all_goals rcases slot'' with id'' | ⟨_ | name'', id''⟩ <;> try cases same'
  · exact folding.trans same same'
  · exact folding.trans same same'
  · obtain ⟨sameName, sameId⟩ := Bool.and_eq_true_iff.mp same
    obtain ⟨sameName', sameId'⟩ := Bool.and_eq_true_iff.mp same'
    exact Bool.and_eq_true_iff.mpr ⟨folding.trans sameName sameName', folding.trans sameId sameId'⟩

/-- Slots are compared by the names and keys they are about. -/
def comparison (folding : Comparison Text) : Comparison Slot :=
  ⟨same folding, same_refl, same_symm, same_trans⟩

end Slot

namespace Statement

/-- What a statement sets, where the section was named last. -/
def slot (name : Option Text) : Statement → Slot × Text
  | .name id => (.keydata id, [])
  | .key id value => (.key name id, value.getD [])

/-- The section that is named last behind a statement. -/
def onward (name : Option Text) : Statement → Option Text
  | .name id => some id
  | .key _ _ => name

/-- All that is copied of a statement has bytes. -/
def Full : Statement → Prop
  | .name id => id ≠ []
  | .key id value => id ≠ [] ∧ value ≠ some []

end Statement

/-- What some statements set. -/
def written : Option Text → List Statement → List (Slot × Text)
  | _, [] => []
  | name, first :: rest => first.slot name :: written (first.onward name) rest

theorem length_written (name : Option Text) (statements : List Statement) :
    (written name statements).length = statements.length := by
  induction statements generalizing name with
  | nil => rfl
  | cons first rest inductionHypothesis => exact congrArg Nat.succ (inductionHypothesis _)

/-- What is set before a name does not depend on it. -/
theorem written_name (name : Option Text) (before : List Statement) (id : Text)
    (after : List Statement) :
    written name (before ++ .name id :: after) =
      written name before ++ (.keydata id, []) :: written (some id) after := by
  induction before generalizing name with
  | nil => rfl
  | cons statement rest inductionHypothesis =>
    exact congrArg (List.cons _) (inductionHypothesis (statement.onward name))

/-- Which slot a key is set in, and what is set before, depends on the statements before. -/
theorem written_split (name : Option Text) (before : List Statement) :
    ∃ last first, ∀ key value after, written name (before ++ .key key value :: after) =
      first ++ (.key last key, value.getD []) :: written last after := by
  induction before generalizing name with
  | nil => exact ⟨name, [], fun _ _ _ => rfl⟩
  | cons statement rest inductionHypothesis =>
    obtain ⟨last, first, split⟩ := inductionHypothesis (statement.onward name)
    exact ⟨last, statement.slot name :: first, fun key value after =>
      congrArg (List.cons _) (split key value after)⟩

/-- Where what was written is all different and no more is read, a key that is read with another
value leaves something that is not read. -/
theorem exists_lookup_ne {folding : Comparison Text} {before after more : List Statement}
    {key value : Text} {other : Option Text} (apart : other.getD [] ≠ value)
    (distinct : (Slot.comparison folding).Distinct
      ((written none (before ++ .key key (some value) :: after)).map Prod.fst))
    (fewer : (before ++ .key key other :: more).length ≤
      (before ++ .key key (some value) :: after).length) :
    ∃ entry ∈ written none (before ++ .key key (some value) :: after),
      (Slot.comparison folding).lookup (written none (before ++ .key key other :: more)).reverse
        entry.1 ≠ some entry.2 := by
  by_contra found
  simp only [not_exists, not_and, not_not] at found
  have lengths := length_written none (before ++ .key key other :: more)
  rw [← length_written none (before ++ .key key (some value) :: after), ← lengths] at fewer
  obtain ⟨last, first, split⟩ := written_split none before
  rw [split] at distinct found fewer
  rw [split] at found fewer
  -- the key is set once more, or it would have the other value
  obtain ⟨again, member, same⟩ : ∃ entry ∈ written last more,
      (Slot.comparison folding).same (.key last key) entry.1 := by
    have here := found (.key last key, value) (by simp)
    rw [List.reverse_append, List.reverse_cons, Comparison.lookup_append,
      Comparison.lookup_append] at here
    cases later : (Slot.comparison folding).lookup (written last more).reverse (.key last key) with
    | some _ =>
      obtain ⟨entry, on, same⟩ := Comparison.exists_of_lookup later
      exact ⟨entry, List.mem_reverse.mp on, same⟩
    | none =>
      have itself : (Slot.comparison folding).lookup [(Slot.key last key, other.getD [])]
          (.key last key) = some (other.getD []) := by
        simp [Comparison.lookup, (Slot.comparison folding).refl]
      rw [later, itself, Option.none_or, Option.some_or, Option.some_inj] at here
      exact absurd here apart
  -- so the others cover all that was written
  have less : ((first ++ (Slot.key last key, value) :: written last after).map Prod.fst).length ≤
      ((first ++ written last more).map Prod.fst).length := by
    refine distinct.length_le fun slot on => ?_
    obtain ⟨entry, here, rfl⟩ := List.mem_map.mp on
    obtain ⟨entry', on', same'⟩ := Comparison.exists_of_lookup (found entry here)
    rcases List.mem_append.mp (List.mem_reverse.mp on') with left | right
    · exact ⟨entry'.1, List.mem_map_of_mem (List.mem_append_left _ left), same'⟩
    · rcases List.mem_cons.mp right with rfl | right
      · exact ⟨again.1, List.mem_map_of_mem (List.mem_append_right _ member),
          (Slot.comparison folding).trans same' same⟩
      · exact ⟨entry'.1, List.mem_map_of_mem (List.mem_append_right _ right), same'⟩
  simp only [List.length_map, List.length_append, List.length_cons] at less fewer
  omega

namespace Contents

/-- What the statements of the lines set. -/
def slots (contents : Contents) : List (Slot × Text) :=
  contents.defaults.map (fun entry => (.key none entry.1, entry.2)) ++
    contents.sections.flatMap fun keydata => (.keydata keydata.1, []) ::
      keydata.2.map fun entry => (.key (some keydata.1) entry.1, entry.2)

theorem written_keys (name : Option Text) (entries : List (Text × Text))
    (rest : List Statement) : written name (entries.map keyStatement ++ rest) =
      entries.map (fun entry => (Slot.key name entry.1, entry.2)) ++ written name rest := by
  induction entries with
  | nil => rfl
  | cons first entries inductionHypothesis => exact congrArg (List.cons _) inductionHypothesis

theorem written_statements (contents : Contents) :
    written none contents.statements = contents.slots := by
  have sections : ∀ (list : List (Text × List (Text × Text))) (name : Option Text),
      written name (list.flatMap fun keydata => .name keydata.1 :: keydata.2.map keyStatement) =
        list.flatMap fun keydata => (Slot.keydata keydata.1, []) ::
          keydata.2.map fun entry => (Slot.key (some keydata.1) entry.1, entry.2) := by
    intro list
    induction list with
    | nil => exact fun _ => rfl
    | cons keydata rest inductionHypothesis =>
      intro name
      rw [List.flatMap_cons, List.flatMap_cons, List.cons_append, List.cons_append, written,
        Statement.onward, written_keys, inductionHypothesis]
      rfl
  rw [statements, written_keys, sections, slots]

/-- No name and no key is listed twice. -/
structure Distinct (folding : Comparison Text) (contents : Contents) : Prop where
  names : folding.Distinct (contents.sections.map Prod.fst)
  defaults : folding.Distinct (contents.defaults.map Prod.fst)
  keys : ∀ keydata ∈ contents.sections, folding.Distinct (keydata.2.map Prod.fst)

theorem Distinct.slots {folding : Comparison Text} {contents : Contents}
    (distinct : contents.Distinct folding) :
    (Slot.comparison folding).Distinct (contents.slots.map Prod.fst) := by
  unfold Contents.slots
  rw [List.map_append, List.map_flatMap]
  refine List.pairwise_append.mpr ⟨?_, List.pairwise_flatMap.mpr ⟨fun keydata member => ?_, ?_⟩, ?_⟩
  · rw [List.map_map]
    exact List.pairwise_map.mpr (List.pairwise_map.mp distinct.defaults)
  · rw [List.map_cons, List.map_map]
    refine List.pairwise_cons.mpr ⟨fun slot on => ?_, ?_⟩
    · obtain ⟨entry, _, rfl⟩ := List.mem_map.mp on
      exact Bool.false_ne_true
    · refine List.pairwise_map.mpr ((List.pairwise_map.mp (distinct.keys keydata member)).imp ?_)
      intro entry entry' apart same
      exact apart (Bool.and_eq_true_iff.mp same).2
  · refine (List.pairwise_map.mp distinct.names).imp ?_
    intro keydata keydata' apart slot on slot' on' same
    rw [List.map_cons, List.map_map] at on on'
    rcases List.mem_cons.mp on with rfl | on <;> rcases List.mem_cons.mp on' with rfl | on'
    · exact apart same
    · obtain ⟨entry, _, rfl⟩ := List.mem_map.mp on'
      cases same
    · obtain ⟨entry, _, rfl⟩ := List.mem_map.mp on
      cases same
    · obtain ⟨entry, _, rfl⟩ := List.mem_map.mp on
      obtain ⟨entry', _, rfl⟩ := List.mem_map.mp on'
      exact apart (Bool.and_eq_true_iff.mp same).1
  · intro slot on slot' on' same
    rw [List.map_map] at on
    obtain ⟨entry, _, rfl⟩ := List.mem_map.mp on
    obtain ⟨keydata, _, on'⟩ := List.mem_flatMap.mp on'
    rw [List.map_cons, List.map_map] at on'
    rcases List.mem_cons.mp on' with rfl | on'
    · cases same
    · obtain ⟨entry', _, rfl⟩ := List.mem_map.mp on'
      cases same

end Contents

/-! ### What is loaded -/

variable {File : Type}

namespace Store

variable (folding : Comparison Text) (store : Store File) (this : File)

def contents : Contents :=
  ⟨((store.defaults this).map fun keydata => folding.listing (store.log keydata)).getD [],
    (store.sections this).map fun keydata =>
      (store.name keydata, folding.listing (store.log keydata))⟩

/-- The value in a slot. A section that is there has the empty one. -/
def valueAt : Slot → Option Text
  | .keydata id => (store.find folding this id).map fun _ => []
  | .key none id => store.defaultValue folding this id
  | .key (some name) id => store.value folding this name id

variable {folding store this}

theorem valueAt_default (id : Text) : store.valueAt folding this (.key none id) =
    (store.defaults this).bind fun keydata => folding.latest (store.log keydata) id := rfl

theorem valueAt_key (name id : Text) : store.valueAt folding this (.key (some name) id) =
    (store.find folding this name).bind fun keydata => folding.latest (store.log keydata) id := rfl

theorem distinct_contents (valid : store.Valid folding) :
    (store.contents folding this).Distinct folding where
  names := by
    unfold contents
    rw [List.map_map]
    exact valid.distinct this
  defaults := by
    unfold contents
    cases store.defaults this with
    | none => exact List.Pairwise.nil
    | some keydata => exact folding.distinct_listing _
  keys keydata member := by
    obtain ⟨listed, _, rfl⟩ := List.mem_map.mp member
    exact folding.distinct_listing _

theorem same_of_find {id : Text} {keydata : Nat}
    (found : store.find folding this id = some keydata) :
    folding.same id (store.name keydata) := by
  unfold find at found
  simpa using List.find?_some found

/-- A section is the one that is found under its name. -/
theorem find_of_mem (valid : store.Valid folding) {keydata : Nat}
    (member : keydata ∈ store.sections this) :
    store.find folding this (store.name keydata) = some keydata := by
  unfold find
  cases found : (store.sections this).find? fun other =>
      folding.same (store.name keydata) (store.name other) with
  | none =>
    have missed := List.find?_eq_none.mp found keydata member
    exact absurd (folding.refl _) missed
  | some other =>
    have symmetric : Std.Symm fun keydata keydata' =>
        ¬ folding.same (store.name keydata) (store.name keydata') :=
      ⟨fun _ _ apart same => apart (folding.symm same)⟩
    refine congrArg some (Classical.byContradiction fun unequal => ?_)
    have apart := (List.pairwise_map.mp (valid.distinct this)).forall member
      (List.mem_of_find?_eq_some found) (Ne.symm unequal)
    exact apart (by simpa using List.find?_some found)

theorem latest_of_mem {log : List (LogEntry Text Text)} {entry : Text × Text}
    (member : entry ∈ folding.listing log) : folding.latest log entry.1 = some entry.2 := by
  rw [← folding.lookup_listing]
  exact folding.lookup_of_mem (folding.distinct_listing log) member

/-- What is listed is what the slots have. -/
theorem valueAt_of_mem (valid : store.Valid folding) {entry : Slot × Text}
    (member : entry ∈ (store.contents folding this).slots) :
    store.valueAt folding this entry.1 = some entry.2 := by
  rcases List.mem_append.mp member with default | inside
  · obtain ⟨entry, on, rfl⟩ := List.mem_map.mp default
    unfold contents at on
    rw [valueAt_default]
    cases opened : store.defaults this with
    | none =>
      rw [opened] at on
      cases on
    | some keydata =>
      rw [opened] at on
      exact latest_of_mem on
  · obtain ⟨named, on, on'⟩ := List.mem_flatMap.mp inside
    obtain ⟨keydata, listed, rfl⟩ := List.mem_map.mp on
    have found := find_of_mem valid listed
    rcases List.mem_cons.mp on' with rfl | on'
    · exact congrArg (Option.map fun _ => []) found
    · obtain ⟨entry, here, rfl⟩ := List.mem_map.mp on'
      rw [valueAt_key, found]
      exact latest_of_mem here

/-- A keyfile that lists nothing has nothing in any slot. -/
theorem valueAt_of_empty (empty : store.contents folding this = ⟨[], []⟩) (slot : Slot) :
    store.valueAt folding this slot = none := by
  obtain ⟨unlisted, unnamed⟩ := Contents.mk.inj empty
  have sections : store.sections this = [] := List.map_eq_nil_iff.mp unnamed
  have missed : ∀ id, store.find folding this id = none := fun id => by
    unfold find
    rw [sections]
    rfl
  match slot with
  | .keydata id => exact congrArg (Option.map fun _ => []) (missed id)
  | .key (some name) id =>
    rw [valueAt_key, missed]
    rfl
  | .key none id =>
    rw [valueAt_default]
    cases opened : store.defaults this with
    | none => rfl
    | some keydata =>
      rw [opened] at unlisted
      have nothing : folding.listing (store.log keydata) = [] := unlisted
      rw [Option.bind_some, ← folding.lookup_listing, nothing]
      rfl

variable (folding) [DecidableEq File]

/-- What a line makes of the logs. -/
def loadLine (this : File) (state : Store File × Option Nat) : Statement → Store File × Option Nat
  | .name id =>
    let (store, keydata) := state.1.obtain folding this id
    (store, some keydata)
  | .key id value => (state.1.tell ((state.2.or (state.1.defaults this)).getD 0)
      [.set id (value.getD [])], state.2)

variable {folding}

omit [DecidableEq File] in
/-- The section that was named last is the one that keys are set in, if any. -/
structure Loading (folding : Comparison Text) (store : Store File) (this : File)
    (name : Option Text) (keydata : Option Nat) : Prop where
  valid : store.Valid folding
  opened : ∃ defaults, store.defaults this = some defaults
  current : keydata = name.bind fun id => store.find folding this id
  found : keydata.isSome = name.isSome

omit [DecidableEq File] in
/-- To set a key in a section gives it the value there and nowhere else. -/
theorem valueAt_tell_section (valid : store.Valid folding) {name : Text} {keydata : Nat}
    (found : store.find folding this name = some keydata) (key value : Text) (slot : Slot) :
    (store.tell keydata [.set key value]).valueAt folding this slot =
      if slot.same folding (.key (some name) key) then some value
      else store.valueAt folding this slot := by
  match slot with
  | .keydata id => rfl
  | .key none id =>
    rw [valueAt_default, valueAt_default,
      show (store.tell keydata [.set key value]).defaults this = store.defaults this from rfl]
    cases opened : store.defaults this with
    | none => rfl
    | some defaults =>
      have apart : defaults ≠ keydata := by
        rintro rfl
        exact valid.unlisted opened (List.mem_of_find?_eq_some found)
      rw [Option.bind_some, store.log_tell_of_ne apart]
      rfl
  | .key (some other) id =>
    rw [valueAt_key, valueAt_key, show (store.tell keydata [.set key value]).find folding this
      other = store.find folding this other from rfl]
    by_cases same : folding.same other name
    · rw [find_same same, found, Option.bind_some, Option.bind_some]
      simp only [tell, Function.update_self, folding.latest_append, Slot.same, same, Bool.true_and]
      rfl
    · rw [if_neg (by simp [Slot.same, same])]
      cases here : store.find folding this other with
      | none => rfl
      | some keydata' =>
        have apart : keydata' ≠ keydata := by
          rintro rfl
          exact same (folding.trans (same_of_find here) (folding.symm (same_of_find found)))
        rw [Option.bind_some, Option.bind_some, log_tell_of_ne _ apart]

omit [DecidableEq File] in
theorem valueAt_tell_defaults (valid : store.Valid folding) {defaults : Nat}
    (opened : store.defaults this = some defaults) (key value : Text) (slot : Slot) :
    (store.tell defaults [.set key value]).valueAt folding this slot =
      if slot.same folding (.key none key) then some value
      else store.valueAt folding this slot := by
  match slot with
  | .keydata id => rfl
  | .key none id =>
    rw [valueAt_default, valueAt_default,
      show (store.tell defaults [.set key value]).defaults this = store.defaults this from rfl,
      opened, Option.bind_some, Option.bind_some]
    simp only [tell, Function.update_self, folding.latest_append, Slot.same]
    rfl
  | .key (some name) id =>
    rw [valueAt_key, valueAt_key, show (store.tell defaults [.set key value]).find folding this
      name = store.find folding this name from rfl]
    cases found : store.find folding this name with
    | none => rfl
    | some keydata =>
      have apart : keydata ≠ defaults := by
        rintro rfl
        exact valid.unlisted opened (List.mem_of_find?_eq_some found)
      rw [Option.bind_some, log_tell_of_ne _ apart]
      rfl

theorem valueAt_obtain (valid : store.Valid folding) (id : Text) (slot : Slot) :
    (store.obtain folding this id).1.valueAt folding this slot =
      if slot.same folding (.keydata id) then some [] else store.valueAt folding this slot := by
  match slot with
  | .keydata name =>
    show ((store.obtain folding this id).1.find folding this name).map (fun _ => []) =
      if folding.same name id then some [] else (store.find folding this name).map fun _ => []
    rw [find_obtain valid]
    by_cases same : folding.same name id <;> simp [same]
  | .key (some name) key => exact value_obtain valid this id name key
  | .key none key =>
    rw [valueAt_default, valueAt_default, defaults_obtain]
    cases opened : store.defaults this with
    | none => rfl
    | some defaults =>
      rw [Option.bind_some, log_obtain folding store this id (valid.made this _ (Or.inr opened))]
      rfl

/-- A line sets its slot and leaves the others. -/
theorem loadLine_spec {name : Option Text} {keydata : Option Nat}
    (loading : Loading folding store this name keydata) (statement : Statement) :
    Loading folding (loadLine folding this (store, keydata) statement).1 this
        (statement.onward name) (loadLine folding this (store, keydata) statement).2 ∧
      ∀ slot, (loadLine folding this (store, keydata) statement).1.valueAt folding this slot =
        if slot.same folding (statement.slot name).1 then some (statement.slot name).2
        else store.valueAt folding this slot := by
  obtain ⟨defaults, opened⟩ := loading.opened
  cases statement with
  | name id =>
    obtain ⟨valid, _, _⟩ := obtain_spec loading.valid this id
    refine ⟨⟨valid, ⟨defaults, ?_⟩, ?_, rfl⟩, valueAt_obtain loading.valid id⟩
    · exact (congrFun (defaults_obtain folding store this id) this).trans opened
    · exact ((find_obtain loading.valid this id id).trans (if_pos (folding.refl id))).symm
  | key id value =>
    refine ⟨⟨loading.valid.tell _ _, ⟨defaults, opened⟩, loading.current, loading.found⟩, ?_⟩
    have current := loading.current
    have found := loading.found
    cases name with
    | none =>
      cases current
      rw [loadLine, opened]
      exact valueAt_tell_defaults loading.valid opened id (value.getD [])
    | some name =>
      obtain ⟨keydata, rfl⟩ := Option.isSome_iff_exists.mp found
      exact valueAt_tell_section loading.valid current.symm id (value.getD [])

/-- What is in a slot after some lines is what was set last, or else what was there. -/
theorem valueAt_loadLines {name : Option Text} {keydata : Option Nat}
    (loading : Loading folding store this name keydata) (statements : List Statement)
    (slot : Slot) :
    (statements.foldl (loadLine folding this) (store, keydata)).1.valueAt folding this slot =
      ((Slot.comparison folding).lookup (written name statements).reverse slot).or
        (store.valueAt folding this slot) := by
  induction statements generalizing store name keydata with
  | nil => rfl
  | cons first rest inductionHypothesis =>
    obtain ⟨loading', sets⟩ := loadLine_spec loading first
    rw [List.foldl_cons, inductionHypothesis loading', sets, written, List.reverse_cons,
      Comparison.lookup_append, Option.or_assoc]
    refine congrArg (Option.or _) ?_
    have single : (Slot.comparison folding).lookup [first.slot name] slot =
        if slot.same folding (first.slot name).1 then some (first.slot name).2 else none := by
      unfold Comparison.lookup
      rw [List.find?_singleton]
      by_cases same : slot.same folding (first.slot name).1 <;> simp [Slot.comparison, same]
    rw [single]
    by_cases same : slot.same folding (first.slot name).1 <;> simp [same]

/-- Opening the default keys lists nothing more. -/
theorem contents_openDefaults (valid : store.Valid folding) :
    (store.openDefaults this).contents folding this = store.contents folding this := by
  unfold contents
  rw [sections_openDefaults]
  refine congrArg₂ Contents.mk ?_ (List.map_congr_left fun keydata member => ?_)
  · rw [defaults_openDefaults]
    unfold openDefaults
    cases opened : store.defaults this with
    | some _ => rfl
    | none =>
      simp only [Option.getD_none, Option.map_some, Option.getD_some, Function.update_self]
      rfl
  · obtain ⟨name, log⟩ := store.openDefaults_of_made this (valid.made this keydata (Or.inl member))
    rw [name, log]

/-! ### What is loaded as it was -/

/-- Keys are set in a section one after the other. -/
theorem foldl_keys {keydata : Option Nat} {told : Nat}
    (target : keydata.or (store.defaults this) = some told) (entries : List (Text × Text)) :
    (entries.map keyStatement).foldl (loadLine folding this) (store, keydata) =
      (store.tell told (entries.map fun entry => .set entry.1 entry.2), keydata) := by
  induction entries generalizing store with
  | nil => rw [List.map_nil, List.map_nil, List.foldl_nil, store.tell_nil]
  | cons first rest inductionHypothesis =>
    have here : loadLine folding this (store, keydata) (keyStatement first) =
        (store.tell told [.set first.1 first.2], keydata) := by
      unfold loadLine keyStatement
      rw [target]
      rfl
    have later := @inductionHypothesis (store.tell told [.set first.1 first.2]) target
    rw [List.map_cons, List.foldl_cons, here, later, store.tell_tell]
    rfl

/-- A new section with its keys is listed behind the others. -/
theorem contents_section (valid : store.Valid folding) {id : Text} {entries : List (Text × Text)}
    (distinct : folding.Distinct (entries.map Prod.fst))
    (missed : store.find folding this id = none) :
    ((store.create folding this id).tell store.keydatas
        (entries.map fun entry => .set entry.1 entry.2)).contents folding this =
      ⟨(store.contents folding this).defaults,
        (store.contents folding this).sections ++ [(id, entries)]⟩ := by
  have sections : (store.create folding this id).sections this =
      store.sections this ++ [store.keydatas] :=
    (Function.update_self _ _ _).trans (by rw [folding.filter_of_not_found missed])
  have older : ∀ keydata, store.Owns this keydata →
      Function.update (store.create folding this id).log store.keydatas
        ((store.create folding this id).log store.keydatas ++
          entries.map fun entry => .set entry.1 entry.2) keydata = store.log keydata := by
    intro keydata owns
    have apart := valid.ne_of_owns owns
    exact (Function.update_of_ne apart _ _).trans (Function.update_of_ne apart _ _)
  have told : folding.listing ((store.create folding this id).log store.keydatas ++
      entries.map fun entry => .set entry.1 entry.2) = entries := by
    have fresh : (store.create folding this id).log store.keydatas = [] :=
      Function.update_self _ _ _
    rw [fresh]
    exact folding.listing_append_sets distinct
  unfold contents tell
  refine congrArg₂ Contents.mk ?_ ?_
  · refine congrArg (Option.getD · []) (Option.map_congr fun keydata opened => ?_)
    exact congrArg folding.listing (older keydata (Or.inr opened))
  · simp only [sections, List.map_append, List.map_singleton, Function.update_self, told]
    refine congrArg₂ _ (List.map_congr_left fun keydata member => ?_) ?_
    · refine congrArg₂ Prod.mk (Function.update_of_ne (valid.ne_of_owns (Or.inl member)) _ _) ?_
      exact congrArg folding.listing (older keydata (Or.inl member))
    · rw [show (store.create folding this id).name store.keydatas = id from
        Function.update_self _ _ _]

/-- Sections with other names are listed behind those that are there. -/
theorem contents_sections {name : Option Text} {keydata : Option Nat}
    (loading : Loading folding store this name keydata)
    {sections : List (Text × List (Text × Text))}
    (names : folding.Distinct (((store.contents folding this).sections ++ sections).map Prod.fst))
    (keys : ∀ named ∈ sections, folding.Distinct (named.2.map Prod.fst)) :
    ((sections.flatMap fun named => .name named.1 :: named.2.map keyStatement).foldl
        (loadLine folding this) (store, keydata)).1.contents folding this =
      ⟨(store.contents folding this).defaults,
        (store.contents folding this).sections ++ sections⟩ := by
  induction sections generalizing store name keydata with
  | nil => rw [List.append_nil]; rfl
  | cons named rest inductionHypothesis =>
    obtain ⟨distinct, keys⟩ := List.forall_mem_cons.mp keys
    have missed : store.find folding this named.1 = none := by
      refine List.find?_eq_none.mpr fun other member same => ?_
      rw [List.map_append, Comparison.Distinct, List.pairwise_append] at names
      refine names.2.2 (store.name other) ?_ named.1 List.mem_cons_self (folding.symm same)
      unfold contents
      rw [List.map_map]
      exact List.mem_map_of_mem member
    have whole := contents_section loading.valid distinct missed
    obtain ⟨defaults, opened⟩ := loading.opened
    have created : loadLine folding this (store, keydata) (.name named.1) =
        (store.create folding this named.1, some store.keydatas) := by
      simp only [loadLine, obtain, missed]
    obtain ⟨loading', _⟩ := loadLine_spec loading (.name named.1)
    rw [created] at loading'
    have loading'' : Loading folding ((store.create folding this named.1).tell store.keydatas
        (named.2.map fun entry => .set entry.1 entry.2)) this (some named.1)
          (some store.keydatas) :=
      ⟨loading'.valid.tell _ _, loading'.opened, loading'.current, loading'.found⟩
    rw [List.flatMap_cons, List.cons_append, List.foldl_cons, List.foldl_append, created,
      foldl_keys Option.some_or, inductionHypothesis loading'' ?_ keys, whole, List.append_assoc]
    · rfl
    · rw [whole, List.append_assoc]
      exact names

/-- What was listed is listed again where it is loaded into nothing. -/
theorem contents_loadLines {keydata : Option Nat}
    (loading : Loading folding store this none keydata)
    (empty : store.contents folding this = ⟨[], []⟩) {contents : Contents}
    (distinct : contents.Distinct folding) :
    (contents.statements.foldl (loadLine folding this) (store, keydata)).1.contents folding this =
      contents := by
  obtain ⟨defaults, opened⟩ := loading.opened
  obtain ⟨unlisted, unnamed⟩ := Contents.mk.inj empty
  obtain rfl : keydata = none := loading.current
  have loading' : Loading folding (store.tell defaults
      (contents.defaults.map fun entry => .set entry.1 entry.2)) this none none :=
    ⟨loading.valid.tell _ _, ⟨defaults, opened⟩, rfl, rfl⟩
  have nothing : folding.listing (store.log defaults) = [] := by
    rw [opened] at unlisted
    exact unlisted
  have sections : store.sections this = [] := List.map_eq_nil_iff.mp unnamed
  have told : (store.tell defaults
      (contents.defaults.map fun entry => .set entry.1 entry.2)).contents folding this =
        ⟨contents.defaults, []⟩ := by
    unfold Store.contents tell
    simp only [opened, sections, Option.map_some, Option.getD_some, Function.update_self,
      List.map_nil]
    rw [folding.listing_append_sets (by rw [nothing]; exact distinct.defaults), nothing]
    rfl
  rw [Contents.statements, List.foldl_append, foldl_keys (by rw [opened]; rfl),
    contents_sections loading' (by rw [told]; exact distinct.names) distinct.keys, told]
  rfl

end Store

namespace Represents

variable {folding : Comparison Text} {heap : Heap File} {store : Store File}
  {lists : Nat → List Nat} {this : File}

theorem contents_eq (represents : Represents folding heap store lists)
    (valid : store.Valid folding) (this : File) :
    Keyfile.contents heap this = some (store.contents folding this) := by
  have sections : ((store.sections this).map fun keydata => (store.name keydata,
      some (folding.listing (store.log keydata)))).mapM
        (fun keydata => keydata.2.map fun entries => (keydata.1, entries)) =
      some ((store.sections this).map fun keydata =>
        (store.name keydata, folding.listing (store.log keydata))) := by
    rw [List.mapM_map]
    exact List.mapM_pure
  unfold Keyfile.contents Store.contents
  simp only [represents.sections_eq valid, represents.defaults, Option.bind_some, sections,
    Option.map_some]
  cases store.defaults this with
  | none => rfl
  | some keydata =>
    simp only [represents.entries_eq]
    rfl

variable [DecidableEq File]

/-- What a line copies has bytes. A name is copied when there is no section of this name yet. -/
def Copied (folding : Comparison Text) (store : Store File) (this : File) : Statement → Prop
  | .name id => store.find folding this id = none → id ≠ []
  | .key id value => id ≠ [] ∧ value ≠ some []

omit [DecidableEq File] in
theorem copied_of_full {statement : Statement} (full : statement.Full) :
    Copied folding store this statement := by
  cases statement with
  | name id => exact fun _ => full
  | key id value => exact full

/-- What a line copies has bytes, or it has no outcome. -/
theorem copied_of_loadLine {name : Option Text} {keydata : Option Nat}
    (represents : Represents folding heap store lists)
    (loading : Store.Loading folding store this name keydata) {statement : Statement}
    {result : Heap File × Option Nat}
    (loaded : Keyfile.loadLine folding this (heap, keydata) statement = some result) :
    Copied folding store this statement := by
  cases statement with
  | name id =>
    intro missed
    rw [Keyfile.loadLine, represents.get loading.valid, Option.bind_some, missed] at loaded
    obtain ⟨name, copied, _⟩ := Option.bind_eq_some_iff.mp loaded
    exact (dup_eq_some_iff.mp copied).1
  | key id value =>
    obtain ⟨_, _, loaded⟩ := Option.bind_eq_some_iff.mp loaded
    obtain ⟨_, copied, loaded⟩ := Option.bind_eq_some_iff.mp loaded
    obtain ⟨_, copied', _⟩ := Option.bind_eq_some_iff.mp loaded
    refine ⟨(dup_eq_some_iff.mp copied).1, ?_⟩
    rintro rfl
    cases copied'

/-- A line does to the heap what it does to the logs. -/
theorem loadLine {name : Option Text} {keydata : Option Nat}
    (represents : Represents folding heap store lists)
    (loading : Store.Loading folding store this name keydata) {statement : Statement}
    (copied : Copied folding store this statement) :
    ∃ heap' lists', Keyfile.loadLine folding this (heap, keydata) statement =
        some (heap', (Store.loadLine folding this (store, keydata) statement).2) ∧
      Represents folding heap' (Store.loadLine folding this (store, keydata) statement).1
        lists' := by
  cases statement with
  | name id =>
    obtain ⟨heap', obtained, after⟩ := represents.obtain_ loading.valid this id
    refine ⟨heap', lists, ?_, after⟩
    rw [Keyfile.loadLine, represents.get loading.valid, Option.bind_some]
    rw [Keyfile.obtain, represents.get loading.valid, Option.bind_some] at obtained
    show _ = some (heap', some (store.obtain folding this id).2)
    cases found : store.find folding this id with
    | some keydata =>
      rw [found] at obtained
      obtain ⟨rfl, same⟩ := Prod.mk.inj (Option.some.inj obtained)
      rw [← same]
    | none =>
      rw [found] at obtained
      obtain ⟨created, made, both⟩ := Option.map_eq_some_iff.mp obtained
      obtain ⟨rfl, same⟩ := Prod.mk.inj both
      rw [dup_eq_some_iff.mpr ⟨copied found, rfl⟩, Option.bind_some, made, ← same]
      rfl
  | key id value =>
    obtain ⟨told, target, owns⟩ : ∃ told, keydata.or (store.defaults this) = some told ∧
        store.Owns this told := by
      obtain ⟨defaults, opened⟩ := loading.opened
      have current := loading.current
      cases keydata with
      | none => exact ⟨defaults, opened, Or.inr opened⟩
      | some keydata =>
        obtain ⟨id, _, found⟩ := Option.bind_eq_some_iff.mp current.symm
        exact ⟨keydata, rfl, Or.inl (List.mem_of_find?_eq_some found)⟩
    obtain ⟨heap', lists', set, after, _⟩ :=
      represents.set (loading.valid.made this told owns) id value
    refine ⟨heap', lists', ?_, ?_⟩
    · have whole : value.mapM dup = some value := by
        cases value with
        | none => rfl
        | some value =>
          have bytes : value ≠ [] := fun empty => copied.2 (congrArg some empty)
          show (dup value).map some = _
          rw [dup_eq_some_iff.mpr ⟨bytes, rfl⟩, Option.map_some]
      simp only [Keyfile.loadLine, represents.defaults, target, Option.bind_some, whole,
        dup_eq_some_iff.mpr ⟨copied.1, rfl⟩, set, Option.map_some]
      rfl
    · unfold Store.loadLine
      rw [target]
      exact after

theorem loadLines {name : Option Text} {keydata : Option Nat}
    (represents : Represents folding heap store lists)
    (loading : Store.Loading folding store this name keydata) {statements : List Statement}
    (full : ∀ statement ∈ statements, statement.Full) :
    ∃ result, statements.foldlM (Keyfile.loadLine folding this) (heap, keydata) = some result := by
  induction statements generalizing heap store lists name keydata with
  | nil => exact ⟨_, rfl⟩
  | cons first rest inductionHypothesis =>
    obtain ⟨here, later⟩ := List.forall_mem_cons.mp full
    obtain ⟨heap', lists', loaded, after⟩ := represents.loadLine loading (copied_of_full here)
    obtain ⟨loading', _⟩ := Store.loadLine_spec loading first
    obtain ⟨result, finished⟩ := inductionHypothesis after loading' later
    refine ⟨result, ?_⟩
    rw [List.foldlM_cons, loaded]
    exact finished

/-- Lines that are loaded do to the heap what they do to the logs, and what each of them copies has
bytes. -/
theorem loadLines_spec {name : Option Text} {keydata : Option Nat}
    (represents : Represents folding heap store lists)
    (loading : Store.Loading folding store this name keydata) {statements : List Statement}
    {result : Heap File × Option Nat}
    (loaded : statements.foldlM (Keyfile.loadLine folding this) (heap, keydata) = some result) :
    (∃ lists', Represents folding result.1
        (statements.foldl (Store.loadLine folding this) (store, keydata)).1 lists') ∧
      (statements.foldl (Store.loadLine folding this) (store, keydata)).1.Valid folding ∧
      ∀ before statement after, statements = before ++ statement :: after →
        Copied folding (before.foldl (Store.loadLine folding this) (store, keydata)).1 this
          statement := by
  induction statements generalizing heap store lists name keydata with
  | nil =>
    cases loaded
    exact ⟨⟨lists, represents⟩, loading.valid, fun before statement after split =>
      absurd split.symm (List.append_ne_nil_of_right_ne_nil _ (List.cons_ne_nil _ _))⟩
  | cons first rest inductionHypothesis =>
    rw [List.foldlM_cons] at loaded
    obtain ⟨middle, here, later⟩ := Option.bind_eq_some_iff.mp loaded
    have copied := represents.copied_of_loadLine loading here
    obtain ⟨heap', lists', here', after⟩ := represents.loadLine loading copied
    obtain ⟨loading', _⟩ := Store.loadLine_spec loading first
    obtain rfl := Option.some.inj (here.symm.trans here')
    obtain ⟨represents', valid, all⟩ := inductionHypothesis after loading' later
    refine ⟨represents', valid, fun before statement after split => ?_⟩
    cases before with
    | nil =>
      obtain ⟨rfl, -⟩ := List.cons.inj split
      exact copied
    | cons _ before =>
      obtain ⟨rfl, rest⟩ := List.cons.inj split
      exact all before statement after rest

end Represents

/-! ### The result -/

/-- The same default keys and the same sections, and in each the same keys with the same values. -/
structure Same (saved loaded : Contents) : Prop where
  defaults : ∀ entry, entry ∈ loaded.defaults ↔ entry ∈ saved.defaults
  sections : ∀ id, id ∈ loaded.sections.map Prod.fst ↔ id ∈ saved.sections.map Prod.fst
  keys : ∀ keydata ∈ saved.sections, ∀ keydata' ∈ loaded.sections, keydata'.1 = keydata.1 →
    ∀ entry, entry ∈ keydata'.2 ↔ entry ∈ keydata.2

/-- Nothing that was saved is missing. -/
theorem Same.slots {saved loaded : Contents} (same : Same saved loaded) {entry : Slot × Text}
    (member : entry ∈ saved.slots) : entry ∈ loaded.slots := by
  rcases List.mem_append.mp member with default | inside
  · obtain ⟨entry, on, rfl⟩ := List.mem_map.mp default
    exact List.mem_append_left _ (List.mem_map_of_mem ((same.defaults entry).mpr on))
  · obtain ⟨keydata, on, on'⟩ := List.mem_flatMap.mp inside
    obtain ⟨keydata', listed, name⟩ :=
      List.mem_map.mp ((same.sections keydata.1).mpr (List.mem_map_of_mem on))
    refine List.mem_append_right _ (List.mem_flatMap.mpr ⟨keydata', listed, ?_⟩)
    rw [name]
    rcases List.mem_cons.mp on' with rfl | on'
    · exact List.mem_cons_self
    · obtain ⟨entry, here, rfl⟩ := List.mem_map.mp on'
      refine List.mem_cons_of_mem _ (List.mem_map.mpr ⟨entry, ?_, rfl⟩)
      exact (same.keys keydata on keydata' listed name entry).mpr here

/-- Where keys are distinct, what is listed under one name is one list. -/
theorem Same.refl {folding : Comparison Text} {contents : Contents}
    (distinct : contents.Distinct folding) : Same contents contents where
  defaults _ := Iff.rfl
  sections _ := Iff.rfl
  keys keydata member keydata' member' name entry := by
    have symmetric : Std.Symm fun keydata keydata' : Text × List (Text × Text) =>
        ¬ folding.same keydata.1 keydata'.1 :=
      ⟨fun _ _ apart same => apart (folding.symm same)⟩
    have equal : keydata' = keydata := by
      refine Classical.byContradiction fun unequal => ?_
      have apart := (List.pairwise_map.mp distinct.names).forall member' member unequal
      rw [name] at apart
      exact apart (folding.refl _)
    rw [equal]

/-- Every name and every value has bytes, and every value with a double quote is kept. -/
structure Contents.Stored (contents : Contents) : Prop where
  names : ∀ id ∈ contents.sections.map Prod.fst, id ≠ []
  values : ∀ entry ∈ contents.entries, entry.2 ≠ []
  kept : ∀ entry ∈ contents.entries, Kept entry.2

theorem Contents.mem_statements {contents : Contents} {statement : Statement}
    (member : statement ∈ contents.statements) :
    (∃ id ∈ contents.sections.map Prod.fst, statement = .name id) ∨
      ∃ entry ∈ contents.entries, statement = keyStatement entry := by
  rw [Contents.statements_eq] at member
  obtain ⟨item, listed, rfl⟩ := List.mem_filterMap.mp member
  rcases Contents.mem_items listed with none_ | ⟨id, on, said⟩ | ⟨entry, on, said⟩
  · cases none_
  · exact Or.inl ⟨id, on, Option.some.inj said⟩
  · exact Or.inr ⟨entry, on, Option.some.inj said⟩

theorem Contents.Stored.full {contents : Contents} (stored : contents.Stored)
    (writable : contents.Writable) : ∀ statement ∈ contents.statements, statement.Full := by
  intro statement member
  rcases Contents.mem_statements member with ⟨id, on, rfl⟩ | ⟨entry, on, rfl⟩
  · exact stored.names id on
  · obtain ⟨first, rest, whole, _⟩ := (writable.keys entry on).1.starts
    refine ⟨whole ▸ List.cons_ne_nil _ _, fun empty => ?_⟩
    exact stored.values entry on (Option.some.inj empty)

theorem Contents.name_mem_statements {contents : Contents} {id : Text}
    (member : id ∈ contents.sections.map Prod.fst) : .name id ∈ contents.statements := by
  obtain ⟨keydata, on, rfl⟩ := List.mem_map.mp member
  exact List.mem_append_right _ (List.mem_flatMap_of_mem on List.mem_cons_self)

theorem Contents.entry_mem_statements {contents : Contents} {entry : Text × Text}
    (member : entry ∈ contents.entries) : keyStatement entry ∈ contents.statements := by
  rw [Contents.statements_eq]
  exact List.mem_filterMap.mpr ⟨_, Contents.entry_mem_items member, rfl⟩

/-- The first of some things that does not hold. -/
theorem exists_first {p : Option Statement → Prop} {items : List (Option Statement)}
    (broken : ¬ ∀ item ∈ items, p item) :
    ∃ before item after, items = before ++ item :: after ∧ (∀ other ∈ before, p other) ∧
      ¬ p item := by
  induction items with
  | nil => exact absurd (fun _ member => by cases member) broken
  | cons first rest inductionHypothesis =>
    by_cases here : p first
    · have later : ¬ ∀ item ∈ rest, p item := fun all =>
        broken (List.forall_mem_cons.mpr ⟨here, all⟩)
      obtain ⟨before, item, after, rfl, kept, unkept⟩ := inductionHypothesis later
      exact ⟨first :: before, item, after, rfl, List.forall_mem_cons.mpr ⟨here, kept⟩, unkept⟩
    · exact ⟨[], first, rest, rfl, by simp, here⟩

section Read

variable {folding : Comparison Text} {saved : Contents} {text : Text} {read : List Text}

/-- Where every value is kept, what is read is what was written. -/
theorem filterMap_statement_lines (writable : saved.Writable)
    (kept : ∀ entry ∈ saved.entries, Kept entry.2) (text_ : text = file saved.lines)
    (done : readLines (2 * text.length + 1) [] text = some read) :
    read.filterMap statement = saved.statements := by
  obtain ⟨read', done', said⟩ :=
    readLines_items (Contents.legible writable) (Contents.items_kept_iff.mpr kept)
  rw [← Contents.lines_eq, ← text_, done, Option.some_inj] at done'
  rw [done', said, Contents.statements_eq]

/-- Where some value is not kept, some slot is read with another value or not at all. -/
theorem exists_lookup_ne_of_unkept (writable : saved.Writable) (distinct : saved.Distinct folding)
    (unkept : ¬ ∀ entry ∈ saved.entries, Kept entry.2) (text_ : text = file saved.lines)
    (done : readLines (2 * text.length + 1) [] text = some read) :
    ∃ entry ∈ saved.slots, (Slot.comparison folding).lookup
      (written none (read.filterMap statement)).reverse entry.1 ≠ some entry.2 := by
  obtain ⟨before, item, rest, split, kept, broken⟩ :=
    exists_first (mt Contents.items_kept_iff.mp unkept)
  obtain ⟨key, value, rfl⟩ : ∃ key value, item = some (.key key (some value)) := by
    have member : item ∈ saved.items := by simp [split]
    rcases Contents.mem_items member with rfl | ⟨id, _, rfl⟩ | ⟨entry, _, rfl⟩
    · exact absurd trivial broken
    · exact absurd trivial broken
    · exact ⟨entry.1, entry.2, rfl⟩
  have statements : saved.statements =
      before.filterMap id ++ .key key (some value) :: rest.filterMap id := by
    rw [Contents.statements_eq, split, List.filterMap_append]
    rfl
  have legible := Contents.legible writable
  rw [split] at legible
  rw [Contents.lines_eq, split] at text_
  obtain ⟨read', other, more, done', said, apart, fewer⟩ :=
    readLines_items_unkept legible kept broken text_
  rw [done, Option.some_inj] at done'
  rw [← split, ← Contents.statements_eq, statements, said] at fewer
  have distinct' := distinct.slots
  rw [← Contents.written_statements, statements] at distinct'
  obtain ⟨entry, member, missing⟩ := exists_lookup_ne apart distinct' fewer
  rw [← statements, Contents.written_statements] at member
  refine ⟨entry, member, ?_⟩
  rw [done', said]
  exact missing

end Read

section Loaded

variable {File : Type} [DecidableEq File] {folding : Comparison Text} {heap : Heap File}
  {store : Store File} {lists : Nat → List Nat} {this : File} {saved : Contents}

/-- Where the lines that were written are loaded into nothing, each name and each value has
bytes: no section of the name is there when its line is read. -/
theorem full_of_loaded (represents : Represents folding heap store lists)
    (loading : Store.Loading folding store this none none)
    (empty : store.contents folding this = ⟨[], []⟩) (distinct : saved.Distinct folding)
    {result : Heap File × Option Nat}
    (loaded : saved.statements.foldlM (loadLine folding this) (heap, none) = some result) :
    ∀ statement ∈ saved.statements, statement.Full := by
  obtain ⟨-, -, copied⟩ := represents.loadLines_spec loading loaded
  intro statement member
  obtain ⟨before, after, split⟩ := List.append_of_mem member
  have copied := copied before statement after split
  cases statement with
  | key id value => exact copied
  | name id =>
    refine copied ?_
    have apart := distinct.slots
    rw [← Contents.written_statements, split, written_name, List.map_append, List.map_cons] at apart
    have missed : (Slot.comparison folding).lookup (written none before).reverse (.keydata id) =
        none := by
      refine Option.eq_none_iff_forall_ne_some.mpr fun value found => ?_
      obtain ⟨entry, on, same⟩ := Comparison.exists_of_lookup found
      refine (List.pairwise_append.mp apart).2.2 entry.1 ?_ (.keydata id) List.mem_cons_self
        ((Slot.comparison folding).symm same)
      exact List.mem_map_of_mem (List.mem_reverse.mp on)
    have unset := Store.valueAt_loadLines loading before (.keydata id)
    rw [missed, Store.valueAt_of_empty empty, Option.or_none] at unset
    exact Option.map_eq_none_iff.mp unset

end Loaded

/-- The comparison that tells all texts apart. -/
def exactly : Comparison Text :=
  ⟨fun key key' => key = key', fun _ => decide_eq_true rfl,
    fun same => decide_eq_true (of_decide_eq_true same).symm,
    fun same same' => decide_eq_true ((of_decide_eq_true same).trans (of_decide_eq_true same'))⟩

/-- Two keyfiles, the first with one key in one section. -/
def single (value : Text) : Option (State (Fin 2)) :=
  (machine exactly).play
    ⟨constructed (Fin 2), ⟨fun _ => [], fun _ => [], fun _ => none, fun _ => [], 0⟩⟩
    [.create 0 [0x73], .set 0 [0x6b] (some value)]

/-- The only character of a text is its first and its last. -/
theorem only_of_head {char first : UInt8} (visible : char ∉ nameBlanks)
    (head : some char = some first) : first ∉ nameBlanks := by
  cases head
  exact visible

theorem writable_single {value : Text} (short : Short (keyLine ([0x6b], value))) :
    Contents.Writable ⟨[], [([0x73], [([0x6b], value)])]⟩ where
  names id member := by
    obtain rfl : id = [0x73] := List.mem_singleton.mp member
    have visible : (0x73 : UInt8) ∉ nameBlanks := by decide
    exact ⟨⟨by decide, fun _ => only_of_head visible, fun _ => only_of_head visible⟩,
      by decide, by decide, by decide⟩
  keys entry member := by
    obtain rfl : entry = ([0x6b], value) := List.mem_singleton.mp member
    have visible : (0x6b : UInt8) ∉ nameBlanks := by decide
    have readable : KeyReadable [0x6b] :=
      ⟨⟨0x6b, [], rfl, by decide⟩, by decide, fun _ => only_of_head visible⟩
    exact ⟨readable, short⟩

end Keyfile

end CommonCpp
