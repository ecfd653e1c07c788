/-
This file gives the finite map that chained nodes represent.

A table spreads nodes over numbered chains. Each node has a key, and the chain it
is on is the bucket of its key, so that a node is only looked for on one chain.
The nodes bind their keys to their values when no chain has two nodes under one
key. The one rule every operation uses is that of a splice: a bucket in which the
node of a name, or nothing, is exchanged for another node of that name, or nothing,
represents the map in which that name alone is bound anew or no longer bound.

The chains of all buckets, one after the other, list every binding once. The
number of bindings is their length.
-/

import Mathlib.Data.Finmap
import Mathlib.Data.List.Nodup
import Mathlib.Tactic.Common

namespace Memory

variable {Node Key Value : Type} [DecidableEq Key]

/-- The nodes of the chains bind their keys to their values: each is on the chain of its bucket,
and is there the only one under its key. -/
structure Buckets (bucket : Key → Nat) (key : Node → Option Key) (value : Node → Value)
    (chains : Nat → List Node) (bindings : Finmap fun _ : Key => Value) : Prop where
  placed : ∀ index, ∀ node ∈ chains index, ∃ name, key node = some name ∧ bucket name = index
  once : ∀ index, ((chains index).map key).Nodup
  bound : ∀ name content, bindings.lookup name = some content ↔
    ∃ node ∈ chains (bucket name), key node = some name ∧ value node = content

namespace Buckets

variable {bucket : Key → Nat} {key key' : Node → Option Key} {value value' : Node → Value}
  {chains : Nat → List Node} {bindings bindings' : Finmap fun _ : Key => Value} {name : Key}
  {first last : List Node} {node : Node}

theorem empty : Buckets bucket key value (fun _ => []) ∅ := by
  refine ⟨fun _ _ member => ?_, fun _ => List.nodup_nil, fun name content => ?_⟩
  · cases member
  · simp

/-- The node found under a name holds what the name is bound to. -/
theorem lookup_of_mem (holds : Buckets bucket key value chains bindings)
    (member : node ∈ chains (bucket name)) (named : key node = some name) :
    bindings.lookup name = some (value node) :=
  (holds.bound name _).mpr ⟨node, member, named, rfl⟩

/-- A name under which the chain of its bucket has no node is not bound. -/
theorem lookup_of_missed (holds : Buckets bucket key value chains bindings)
    (missed : ∀ node ∈ chains (bucket name), key node ≠ some name) :
    bindings.lookup name = none := by
  by_contra found
  obtain ⟨content, found⟩ := Option.ne_none_iff_exists'.mp found
  obtain ⟨node, member, named, _⟩ := (holds.bound name content).mp found
  exact missed node member named

/-- The other nodes of a chain are under other names. -/
theorem others_of_split {index : Nat} (holds : Buckets bucket key value chains bindings)
    (whole : chains index = first ++ node :: last) (named : key node = some name) :
    ∀ other ∈ first ++ last, key other ≠ some name := by
  have once := holds.once index
  rw [whole, List.map_append, List.map_cons, List.nodup_append, List.nodup_cons, named] at once
  obtain ⟨_, ⟨behind, _⟩, before⟩ := once
  intro other member same
  rcases List.mem_append.mp member with inFirst | inLast
  · exact before _ (List.mem_map_of_mem inFirst) _ List.mem_cons_self same
  · exact behind (same ▸ List.mem_map_of_mem inLast)

/-- The nodes of a chain are distinct. -/
theorem nodup (holds : Buckets bucket key value chains bindings) (index : Nat) :
    (chains index).Nodup :=
  (holds.once index).of_map key

/-- A node is on one chain only. -/
theorem single (holds : Buckets bucket key value chains bindings) {index index' : Nat}
    (here : node ∈ chains index) (there : node ∈ chains index') : index = index' := by
  obtain ⟨name, named, rfl⟩ := holds.placed index node here
  obtain ⟨name', named', rfl⟩ := holds.placed index' node there
  rw [Option.some_inj.mp (named.symm.trans named')]

/-- The bindings depend on the keys and values of the nodes in the chains only. -/
theorem congr (holds : Buckets bucket key value chains bindings)
    (kept : ∀ index, ∀ node ∈ chains index, key' node = key node ∧ value' node = value node) :
    Buckets bucket key' value' chains bindings := by
  refine ⟨fun index node member => ?_, fun index => ?_, fun name content => ?_⟩
  · rw [(kept index node member).1]
    exact holds.placed index node member
  · rw [List.map_congr_left fun node member => (kept index node member).1]
    exact holds.once index
  · rw [holds.bound]
    refine exists_congr fun node => and_congr_right fun member => ?_
    obtain ⟨sameKey, sameValue⟩ := kept _ node member
    rw [sameKey, sameValue]

section Splice

variable {old : List Node} {new : Option Node}

/-- After a splice the chains have the new node, and the nodes of other names they had. -/
theorem mem_splice (holds : Buckets bucket key value chains bindings)
    (whole : chains (bucket name) = first ++ old ++ last)
    (others : ∀ other ∈ first ++ last, key other ≠ some name)
    (olds : ∀ other ∈ old, key other = some name) (new : Option Node) (index : Nat)
    (other : Node) :
    other ∈ Function.update chains (bucket name) (first ++ new.toList ++ last) index ↔
      index = bucket name ∧ other ∈ new ∨ other ∈ chains index ∧ key other ≠ some name := by
  by_cases same : index = bucket name
  · rw [same, Function.update_self, whole]
    have stays : other ∈ first ++ old ++ last ∧ key other ≠ some name ↔ other ∈ first ++ last := by
      constructor
      · rintro ⟨member, differs⟩
        have notOld : other ∉ old := fun inOld => differs (olds other inOld)
        simp only [List.mem_append] at member ⊢
        tauto
      · intro member
        refine ⟨?_, others other member⟩
        simp only [List.mem_append] at member ⊢
        tauto
    rw [stays]
    simp only [List.mem_append, Option.mem_toList, true_and]
    tauto
  · rw [Function.update_of_ne same]
    constructor
    · intro member
      refine Or.inr ⟨member, fun named => same ?_⟩
      obtain ⟨name', named', rfl⟩ := holds.placed index other member
      rw [Option.some_inj.mp (named'.symm.trans named)]
    · rintro (⟨equal, _⟩ | ⟨member, _⟩)
      · exact absurd equal same
      · exact member

/-- The chains still have one node under each name. -/
theorem once_splice (holds : Buckets bucket key value chains bindings)
    (whole : chains (bucket name) = first ++ old ++ last)
    (others : ∀ other ∈ first ++ last, key other ≠ some name)
    (news : ∀ other ∈ new, key' other = some name)
    (kept : ∀ index, ∀ other ∈ chains index, key other ≠ some name → key' other = key other) :
    ((first ++ new.toList ++ last).map key').Nodup := by
  have same : (first ++ last).map key' = (first ++ last).map key := by
    refine List.map_congr_left fun other member => ?_
    refine kept (bucket name) other ?_ (others other member)
    rw [whole]
    simp only [List.mem_append] at member ⊢
    tauto
  have once : ((first ++ last).map key).Nodup := by
    refine (holds.once (bucket name)).sublist (List.Sublist.map key ?_)
    rw [whole]
    exact (List.sublist_append_left first old).append (List.Sublist.refl last)
  cases new with
  | none =>
    rw [Option.toList_none, List.append_nil, same]
    exact once
  | some node =>
    rw [Option.toList_some, List.append_assoc, List.singleton_append, List.map_append,
      List.map_cons, List.nodup_middle, ← List.map_append, news node rfl, same]
    refine List.nodup_cons.mpr ⟨fun member => ?_, once⟩
    obtain ⟨other, member, named⟩ := List.mem_map.mp member
    exact others other member named

/-- In the bucket of a name the node of that name, or nothing, is exchanged for another, or
nothing. -/
theorem splice (holds : Buckets bucket key value chains bindings)
    (whole : chains (bucket name) = first ++ old ++ last)
    (others : ∀ other ∈ first ++ last, key other ≠ some name)
    (olds : ∀ other ∈ old, key other = some name) (news : ∀ other ∈ new, key' other = some name)
    (kept : ∀ index, ∀ other ∈ chains index, key other ≠ some name →
      key' other = key other ∧ value' other = value other)
    (rebound : bindings'.lookup name = new.map value')
    (unchanged : ∀ name', name' ≠ name → bindings'.lookup name' = bindings.lookup name') :
    Buckets bucket key' value'
      (Function.update chains (bucket name) (first ++ new.toList ++ last)) bindings' := by
  have members := holds.mem_splice whole others olds new
  refine ⟨fun index other member => ?_, fun index => ?_, fun name' content => ?_⟩
  · rcases (members index other).mp member with ⟨rfl, isNew⟩ | ⟨member, differs⟩
    · exact ⟨name, news other isNew, rfl⟩
    · rw [(kept index other member differs).1]
      exact holds.placed index other member
  · by_cases same : index = bucket name
    · rw [same, Function.update_self]
      exact holds.once_splice whole others news fun index other member differs =>
        (kept index other member differs).1
    · have untouched : ∀ other ∈ chains index, key' other = key other := by
        intro other member
        rw [← Function.update_of_ne same (first ++ new.toList ++ last) chains] at member
        rcases (members index other).mp member with ⟨equal, _⟩ | ⟨member, differs⟩
        · exact absurd equal same
        · exact (kept index other member differs).1
      rw [Function.update_of_ne same, List.map_congr_left untouched]
      exact holds.once index
  · have named : ∀ other, other ∈ Function.update chains (bucket name)
        (first ++ new.toList ++ last) (bucket name') ∧ key' other = some name' ∧
          value' other = content ↔
        name' = name ∧ other ∈ new ∧ value' other = content ∨
        name' ≠ name ∧ other ∈ chains (bucket name') ∧ key other = some name' ∧
          value other = content := by
      intro other
      rw [members]
      constructor
      · rintro ⟨⟨_, isNew⟩ | ⟨member, differs⟩, has, equal⟩
        · rw [news other isNew, Option.some_inj] at has
          exact Or.inl ⟨has.symm, isNew, equal⟩
        · obtain ⟨sameKey, sameValue⟩ := kept _ other member differs
          rw [sameKey] at has
          rw [sameValue] at equal
          exact Or.inr ⟨fun same => differs (same ▸ has), member, has, equal⟩
      · rintro (⟨rfl, isNew, equal⟩ | ⟨apart, member, has, equal⟩)
        · exact ⟨Or.inl ⟨rfl, isNew⟩, news other isNew, equal⟩
        · have differs : key other ≠ some name := fun has' =>
            apart (Option.some_inj.mp (has.symm.trans has'))
          obtain ⟨sameKey, sameValue⟩ := kept _ other member differs
          exact ⟨Or.inr ⟨member, differs⟩, sameKey.trans has, sameValue.trans equal⟩
    rw [exists_congr named]
    by_cases same : name' = name
    · rw [same, rebound]
      simp
    · simp [same, unchanged name' same, holds.bound]

end Splice

/-- A node is put under a name, in the place of the one that had it or in a place of its own. -/
theorem inserted (holds : Buckets bucket key value chains bindings) {old : List Node}
    (whole : chains (bucket name) = first ++ old ++ last)
    (others : ∀ other ∈ first ++ last, key other ≠ some name)
    (olds : ∀ other ∈ old, key other = some name) (named : key' node = some name)
    (kept : ∀ index, ∀ other ∈ chains index, key other ≠ some name →
      key' other = key other ∧ value' other = value other) :
    Buckets bucket key' value' (Function.update chains (bucket name) (first ++ node :: last))
      (bindings.insert name (value' node)) := by
  have joined : first ++ node :: last = first ++ (some node).toList ++ last := by simp
  rw [joined]
  refine holds.splice whole others olds (fun other same => ?_) kept ?_ fun name' apart => ?_
  · rw [← Option.some_inj.mp same]
    exact named
  · exact Finmap.lookup_insert bindings
  · exact Finmap.lookup_insert_of_ne bindings apart

/-- The node of a name is taken off its chain. -/
theorem erased (holds : Buckets bucket key value chains bindings)
    (whole : chains (bucket name) = first ++ node :: last) (named : key node = some name) :
    Buckets bucket key value (Function.update chains (bucket name) (first ++ last))
      (bindings.erase name) := by
  have split : chains (bucket name) = first ++ [node] ++ last := by simp [whole]
  have joined : first ++ last = first ++ (none : Option Node).toList ++ last := by simp
  rw [joined]
  refine holds.splice split (holds.others_of_split whole named) (fun other member => ?_)
    (by simp) (fun _ _ _ _ => ⟨rfl, rfl⟩) ?_ fun name' apart => ?_
  · rw [List.mem_singleton.mp member]
    exact named
  · exact Finmap.lookup_erase name bindings
  · exact Finmap.lookup_erase_ne apart

/-- Nothing is erased under a name that no node has. -/
theorem erase_of_missed (holds : Buckets bucket key value chains bindings)
    (missed : ∀ node ∈ chains (bucket name), key node ≠ some name) :
    bindings.erase name = bindings := by
  refine Finmap.ext_lookup fun name' => ?_
  by_cases same : name' = name
  · rw [same, Finmap.lookup_erase, holds.lookup_of_missed missed]
  · exact Finmap.lookup_erase_ne same

/-! ### Listing -/

section Listing

variable {size : Nat}

/-- The nodes of all chains. -/
def entries (chains : Nat → List Node) (size : Nat) : List Node :=
  (List.range size).flatMap chains

theorem entries_succ (chains : Nat → List Node) (size : Nat) :
    entries chains (size + 1) = entries chains size ++ chains size := by
  simp [entries, List.range_succ]

/-- The nodes of one chain and those of the others. -/
theorem entries_update (chains : Nat → List Node) (chain : List Node) {index : Nat}
    (inside : index < size) :
    (entries (Function.update chains index chain) size).Perm
      (chain ++ entries (Function.update chains index []) size) := by
  induction size with
  | zero => exact absurd inside (Nat.not_lt_zero _)
  | succ size inductionHypothesis =>
    rw [entries_succ, entries_succ]
    rcases Nat.lt_or_eq_of_le (Nat.le_of_lt_succ inside) with below | rfl
    · rw [Function.update_of_ne (Nat.ne_of_gt below), Function.update_of_ne (Nat.ne_of_gt below),
        ← List.append_assoc]
      exact (inductionHypothesis below).append_right _
    · have others : entries (Function.update chains index chain) index =
          entries (Function.update chains index []) index := by
        refine List.flatMap_congr fun other member => ?_
        have apart : other ≠ index := Nat.ne_of_lt (List.mem_range.mp member)
        rw [Function.update_of_ne apart, Function.update_of_ne apart]
      rw [Function.update_self, Function.update_self, List.append_nil, others]
      exact List.perm_append_comm

theorem mem_entries {chains : Nat → List Node} {node : Node} :
    node ∈ entries chains size ↔ ∃ index < size, node ∈ chains index := by
  simp [entries]

theorem entries_once (holds : Buckets bucket key value chains bindings) :
    ((entries chains size).map key).Nodup := by
  rw [entries, List.map_flatMap, List.nodup_flatMap]
  refine ⟨fun index _ => holds.once index, List.nodup_range.imp fun {index index'} apart => ?_⟩
  intro name here there
  obtain ⟨node, member, rfl⟩ := List.mem_map.mp here
  obtain ⟨node', member', same⟩ := List.mem_map.mp there
  obtain ⟨name, named, rfl⟩ := holds.placed index node member
  obtain ⟨name', named', rfl⟩ := holds.placed index' node' member'
  rw [named, named', Option.some_inj] at same
  exact apart (by rw [same])

/-- A name is bound to the values of the nodes under it. -/
theorem lookup_iff_entries (holds : Buckets bucket key value chains bindings)
    (inside : ∀ name, bucket name < size) (name : Key) (content : Value) :
    bindings.lookup name = some content ↔
      ∃ node ∈ entries chains size, key node = some name ∧ value node = content := by
  rw [holds.bound]
  constructor
  · rintro ⟨node, member, found⟩
    exact ⟨node, List.mem_flatMap.mpr ⟨_, List.mem_range.mpr (inside name), member⟩, found⟩
  · rintro ⟨node, member, named, equal⟩
    obtain ⟨index, _, member⟩ := List.mem_flatMap.mp member
    obtain ⟨name', named', rfl⟩ := holds.placed index node member
    rw [named, Option.some_inj] at named'
    exact ⟨node, named' ▸ member, named, equal⟩

/-- There are as many bound names as nodes. -/
theorem card_keys (holds : Buckets bucket key value chains bindings)
    (inside : ∀ name, bucket name < size) :
    bindings.keys.card = (entries chains size).length := by
  have same : ((entries chains size).map key).toFinset =
      bindings.keys.map Function.Embedding.some := by
    ext name
    rw [List.mem_toFinset, List.mem_map, Finset.mem_map]
    constructor
    · rintro ⟨node, member, rfl⟩
      obtain ⟨index, _, onChain⟩ := List.mem_flatMap.mp member
      obtain ⟨name, named, _⟩ := holds.placed index node onChain
      have found := (holds.lookup_iff_entries inside name _).mpr ⟨node, member, named, rfl⟩
      exact ⟨name, Finmap.mem_keys.mpr (Finmap.mem_of_lookup_eq_some found), named.symm⟩
    · rintro ⟨name, member, rfl⟩
      obtain ⟨content, found⟩ := Finmap.mem_iff.mp (Finmap.mem_keys.mp member)
      obtain ⟨node, member, named, _⟩ := (holds.lookup_iff_entries inside name content).mp found
      exact ⟨node, member, named⟩
  rw [← Finset.card_map Function.Embedding.some, ← same,
    List.toFinset_card_of_nodup holds.entries_once, List.length_map]

end Listing

end Buckets

end Memory
