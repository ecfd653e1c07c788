/-
This file models how references to strings, `typeref<const char *>`, are ordered.

`operator<` puts a reference to nothing before all others, and compares the strings of two that
refer to one by `strcoll`. But of two references to nothing it says that each comes before the
other, and so that one comes before itself. It is a strict weak order of all references but these,
and of no set that has one of them.

A string is its bytes before the null.
-/

import Mathlib.Data.Set.Basic
import CommonCpp.Ctype

namespace CommonCpp

namespace StringReference

/-! ### The code -/

/-- A reference: it is null, or refers to a value with this string. -/
abbrev Reference := Option Text

/-- `operator<`. -/
def less (strcoll : Text → Text → ℤ) (v1 v2 : Reference) : Bool :=
  match v1, v2 with
  | none, some _ => true
  | none, none => true
  | some _, none => false
  | some mem1, some mem2 => strcoll mem1 mem2 < 0

/-- `operator==`, where the strings are compared by `eq`. -/
def equal (v1 v2 : Reference) : Bool :=
  match v1, v2 with
  | some mem1, some mem2 => mem1 = mem2
  | _, _ => false

/-- `strcmp`, which is `strcoll` in the "C" locale. -/
def strcmp : Text → Text → ℤ
  | [], [] => 0
  | [], _ :: _ => -1
  | _ :: _, [] => 1
  | c1 :: s1, c2 :: s2 => if c1 = c2 then strcmp s1 s2 else c1.toNat - c2.toNat

/-! ### Strict weak orders -/

/-- A comparison of strings: the other way round it has the other sign, it is transitive, and it
ties on equal strings only. -/
structure Collates (strcoll : Text → Text → ℤ) : Prop where
  flip : ∀ first second, 0 < strcoll first second ↔ strcoll second first < 0
  trans : ∀ first second third, strcoll first second ≤ 0 → strcoll second third ≤ 0 →
    strcoll first third ≤ 0
  tie : ∀ first second, strcoll first second = 0 → first = second

/-- Neither of two references comes before the other. -/
def Incomparable (strcoll : Text → Text → ℤ) (first second : Reference) : Prop :=
  ¬ less strcoll first second ∧ ¬ less strcoll second first

/-- References are in a strict weak order, with the null references before the others, where only
those are incomparable that refer to equal strings or are both null. -/
structure Ordered (strcoll : Text → Text → ℤ) (references : Set Reference) : Prop where
  irreflexive : ∀ first ∈ references, ¬ less strcoll first first
  asymmetric : ∀ first ∈ references, ∀ second ∈ references,
    less strcoll first second → ¬ less strcoll second first
  transitive : ∀ first ∈ references, ∀ second ∈ references, ∀ third ∈ references,
    less strcoll first second → less strcoll second third → less strcoll first third
  incomparable : ∀ first ∈ references, ∀ second ∈ references, ∀ third ∈ references,
    Incomparable strcoll first second → Incomparable strcoll second third →
      Incomparable strcoll first third
  nullFirst : none ∈ references → ∀ second ∈ references, second ≠ none →
    less strcoll none second ∧ ¬ less strcoll second none
  ties : ∀ first ∈ references, ∀ second ∈ references,
    Incomparable strcoll first second ↔ equal first second ∨ first = none ∧ second = none

variable {strcoll : Text → Text → ℤ} {first second third : Text}

namespace Collates

theorem self (collates : Collates strcoll) (text : Text) : strcoll text text = 0 := by
  have flip := collates.flip text text
  omega

theorem tie_iff (collates : Collates strcoll) : strcoll first second = 0 ↔ first = second := by
  refine ⟨collates.tie first second, ?_⟩
  rintro rfl
  exact collates.self first

theorem less_iff (collates : Collates strcoll) :
    less strcoll (some first) (some second) ↔ ¬ strcoll second first ≤ 0 := by
  rw [less, decide_eq_true_iff, not_le, collates.flip]

theorem incomparable_iff (collates : Collates strcoll) :
    Incomparable strcoll (some first) (some second) ↔ first = second := by
  rw [← collates.tie_iff, Incomparable, collates.less_iff, collates.less_iff]
  have flip := collates.flip first second
  have flip' := collates.flip second first
  omega

end Collates

/-- References are ordered exactly when none of them is null. -/
theorem ordered_iff (collates : Collates strcoll) (references : Set Reference) :
    Ordered strcoll references ↔ none ∉ references := by
  constructor
  · exact fun ordered member => ordered.irreflexive none member rfl
  · intro noNull
    have text : ∀ reference ∈ references, ∃ text, reference = some text := fun reference member =>
      Option.ne_none_iff_exists'.mp (ne_of_mem_of_not_mem member noNull)
    constructor
    · intro first member
      obtain ⟨first, rfl⟩ := text first member
      rw [collates.less_iff, not_not, collates.self]
    · intro first member second member' before
      obtain ⟨first, rfl⟩ := text first member
      obtain ⟨second, rfl⟩ := text second member'
      rw [collates.less_iff] at before ⊢
      have flip := collates.flip second first
      omega
    · intro first member second member' third member'' before after
      obtain ⟨first, rfl⟩ := text first member
      obtain ⟨second, rfl⟩ := text second member'
      obtain ⟨third, rfl⟩ := text third member''
      rw [collates.less_iff] at before after ⊢
      intro back
      have flip := collates.flip second first
      exact after (collates.trans third first second back (by omega))
    · intro first member second member' third member'' tied tied'
      obtain ⟨first, rfl⟩ := text first member
      obtain ⟨second, rfl⟩ := text second member'
      obtain ⟨third, rfl⟩ := text third member''
      rw [collates.incomparable_iff] at tied tied' ⊢
      exact tied.trans tied'
    · exact fun member => absurd member noNull
    · intro first member second member'
      obtain ⟨first, rfl⟩ := text first member
      obtain ⟨second, rfl⟩ := text second member'
      rw [collates.incomparable_iff, equal, decide_eq_true_iff]
      simp

/-! #### The "C" locale -/

theorem strcmp_cons_le (c1 c2 : UInt8) (s1 s2 : Text) :
    strcmp (c1 :: s1) (c2 :: s2) ≤ 0 ↔ c1.toNat < c2.toNat ∨ c1 = c2 ∧ strcmp s1 s2 ≤ 0 := by
  rw [strcmp]
  by_cases same : c1 = c2
  · rw [if_pos same, same, and_iff_right rfl, or_iff_right (Nat.lt_irrefl _)]
  · have apart : c1.toNat ≠ c2.toNat := fun equal => same (UInt8.toNat_inj.mp equal)
    rw [if_neg same]
    simp only [same, false_and, or_false]
    omega

theorem strcmp_flip (first second : Text) : 0 < strcmp first second ↔ strcmp second first < 0 := by
  induction first generalizing second with
  | nil => cases second <;> simp [strcmp]
  | cons c1 s1 inductionHypothesis =>
    cases second with
    | nil => simp [strcmp]
    | cons c2 s2 =>
      rw [strcmp, strcmp]
      by_cases same : c1 = c2
      · rw [if_pos same, if_pos same.symm]
        exact inductionHypothesis s2
      · rw [if_neg same, if_neg (Ne.symm same)]
        omega

theorem strcmp_trans (first second third : Text) (before : strcmp first second ≤ 0)
    (after : strcmp second third ≤ 0) : strcmp first third ≤ 0 := by
  induction first generalizing second third with
  | nil => cases third <;> simp [strcmp]
  | cons c1 s1 inductionHypothesis =>
    cases second with
    | nil => simp [strcmp] at before
    | cons c2 s2 =>
      cases third with
      | nil => simp [strcmp] at after
      | cons c3 s3 =>
        rw [strcmp_cons_le] at before after ⊢
        rcases before with less | ⟨rfl, before⟩
        · rcases after with less' | ⟨rfl, -⟩
          · exact Or.inl (less.trans less')
          · exact Or.inl less
        · rcases after with less' | ⟨rfl, after⟩
          · exact Or.inl less'
          · exact Or.inr ⟨rfl, inductionHypothesis s2 s3 before after⟩

theorem strcmp_tie (first second : Text) (tied : strcmp first second = 0) : first = second := by
  induction first generalizing second with
  | nil => cases second <;> simp_all [strcmp]
  | cons c1 s1 inductionHypothesis =>
    cases second with
    | nil => simp [strcmp] at tied
    | cons c2 s2 =>
      rw [strcmp] at tied
      by_cases same : c1 = c2
      · rw [if_pos same] at tied
        rw [same, inductionHypothesis s2 tied]
      · rw [if_neg same] at tied
        exact absurd (UInt8.toNat_inj.mp (by omega)) same

theorem collates_strcmp : Collates strcmp :=
  ⟨strcmp_flip, strcmp_trans, strcmp_tie⟩

/-- Two strings are ordered by their bytes. -/
theorem ordered_iff_strcmp :
    less strcmp (some [0x61]) (some [0x62]) = true ∧
      Ordered strcmp {some [0x61], some [0x62]} :=
  ⟨by decide, (ordered_iff collates_strcmp {some [0x61], some [0x62]}).mpr (by simp)⟩

/-- A null reference comes before itself, and is not incomparable with itself. -/
theorem null_before_null :
    Collates strcmp ∧ less strcmp none none = true ∧ ¬ Incomparable strcmp none none ∧
      ¬ Ordered strcmp Set.univ :=
  ⟨collates_strcmp, rfl, fun tied => tied.1 rfl,
    fun ordered => ordered.irreflexive none trivial rfl⟩

end StringReference

end CommonCpp
