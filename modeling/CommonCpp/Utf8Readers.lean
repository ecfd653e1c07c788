/-
This file compares the two functions that read a code point, `get` and `codepoint`.

They are written apart: one tells from the first byte how many are to follow and what bits it has,
the other asks `size`; and where a text is malformed one says `EOF` and the other zero or -1. They
read the same code points wherever `get` reads one, and `size` is how far it has come then.

A text is the bytes from a pointer on; where they end there is a null.
-/

import CommonCpp.Unicode

namespace CommonCpp

namespace Utf8

/-! ### Where `get` stands when it returns -/

/-- The bytes that follow in `get`, and what is behind its pointer when they have been read. -/
def readLoop : ℕ → Text → ℕ → Option ℕ × Text
  | 0, cp, code => (some code, cp)
  | count + 1, cp, code =>
    let ch := cp.headD 0
    if ch = 0 then (none, cp.tail)
    else if ch &&& 0xc0 ≠ 0x80 then (none, cp.tail)
    else readLoop count cp.tail (code <<< 6 ||| (ch &&& 0x3f).toNat)

/-- `get`, and what is behind its pointer when it returns. -/
def read (cp : Text) : Option ℕ × Text :=
  match getLead (cp.headD 0) with
  | none => (none, cp.tail)
  | some (count, code) => readLoop count cp.tail code

theorem readLoop_fst (count : ℕ) (cp : Text) (code : ℕ) :
    (readLoop count cp code).1 = getLoop count cp code := by
  induction count generalizing cp code with
  | zero => rfl
  | succ count inductionHypothesis =>
    rw [readLoop, getLoop]
    split_ifs
    · rfl
    · rfl
    · exact inductionHypothesis _ _

theorem read_fst (cp : Text) : (read cp).1 = get cp := by
  rw [read, get]
  cases getLead (cp.headD 0) with
  | none => rfl
  | some lead => exact readLoop_fst lead.1 cp.tail lead.2

/-! ### The first byte -/

/-- Where `get` takes the first byte of a character for that, `size` and `codepoint` do as well. -/
theorem getLead_some {ch : UInt8} {count code : ℕ} (lead : getLead ch = some (count, code)) :
    ch ≠ 0 ∧ (∀ string, size (ch :: string) = count + 1) ∧
      codepointLead (count + 1) ch = code := by
  have all : ∀ byte < 256, ∀ lead ∈ getLead (UInt8.ofNat byte), UInt8.ofNat byte ≠ 0 ∧
      size [UInt8.ofNat byte] = lead.1 + 1 ∧
      codepointLead (lead.1 + 1) (UInt8.ofNat byte) = lead.2 := by decide +kernel
  obtain ⟨visible, size_, bits⟩ := all ch.toNat ch.toNat_lt (count, code)
    (by rw [UInt8.ofNat_toNat]; exact lead)
  rw [UInt8.ofNat_toNat] at visible size_ bits
  exact ⟨visible, fun _ => size_, bits⟩

/-- Where it does not there is a null, or a byte that has no size. -/
theorem getLead_none {ch : UInt8} (lead : getLead ch = none) :
    ch = 0 ∨ ∀ string, size (ch :: string) = 0 := by
  have all : ∀ byte < 256, getLead (UInt8.ofNat byte) = none →
      UInt8.ofNat byte = 0 ∨ size [UInt8.ofNat byte] = 0 := by decide +kernel
  have either := all ch.toNat ch.toNat_lt (by rw [UInt8.ofNat_toNat]; exact lead)
  rw [UInt8.ofNat_toNat] at either
  exact either.imp_right fun size_ _ => size_

/-! ### The bytes that follow -/

/-- What has been read of a text: so many bytes, and no null. -/
def Passes (cp rest : Text) (count : ℕ) : Prop :=
  ∃ front, cp = front ++ rest ∧ front.length = count ∧ 0 ∉ front

theorem Passes.cons {cp rest : Text} {count : ℕ} (passes : Passes cp rest count) {ch : UInt8}
    (visible : ch ≠ 0) : Passes (ch :: cp) rest (count + 1) := by
  obtain ⟨front, rfl, length, noNull⟩ := passes
  refine ⟨ch :: front, rfl, congrArg Nat.succ length, fun null => ?_⟩
  rcases List.mem_cons.mp null with here | later
  · exact visible here.symm
  · exact noNull later

/-- Both loops gather the same bits, and stop at the same byte. -/
theorem readLoop_cases (count : ℕ) (cp : Text) (code : ℕ) :
    (∃ rest, readLoop count cp code = (some (codepointLoop count cp code), rest) ∧
        Passes cp rest count) ∨
      (readLoop count cp code).1 = none ∧ codepointLoop count cp code = 0 := by
  induction count generalizing cp code with
  | zero => exact .inl ⟨cp, rfl, [], rfl, rfl, List.not_mem_nil⟩
  | succ count inductionHypothesis =>
    rw [readLoop, codepointLoop]
    by_cases null : cp.headD 0 = 0
    · have other : cp.headD 0 &&& 0xc0 ≠ 0x80 := by rw [null]; decide
      rw [if_pos null, if_pos other]
      exact .inr ⟨rfl, rfl⟩
    · by_cases other : cp.headD 0 &&& 0xc0 ≠ 0x80
      · rw [if_neg null, if_pos other, if_pos other]
        exact .inr ⟨rfl, rfl⟩
      · rw [if_neg null, if_neg other, if_neg other]
        cases cp with
        | nil => exact absurd rfl null
        | cons ch cp =>
          refine (inductionHypothesis cp _).imp_left ?_
          rintro ⟨rest, same, passes⟩
          exact ⟨rest, same, passes.cons null⟩

/-! ### Whole texts -/

/-- So many code points that are read one after the other, each behind as many bytes as `size`
says of the one before. -/
def walk (reader : Text → Option ℕ) : ℕ → Text → List (Option ℕ)
  | 0, _ => []
  | rounds + 1, string => reader string :: walk reader rounds (string.drop (size string))

/-- Where `get` reads a code point `codepoint` reads the same, and `size` is how many bytes were
read. -/
theorem codepoint_of_get {string : Text} {code : ℕ} (read_ : get string = some code) :
    codepoint string = some code ∧ Passes string (read string).2 (size string) := by
  rw [← read_fst] at read_
  cases lead : getLead (string.headD 0) with
  | none =>
    rw [read, lead] at read_
    cases read_
  | some found =>
    obtain ⟨count, bits⟩ := found
    cases string with
    | nil => cases lead
    | cons ch string =>
      rw [List.headD_cons] at lead
      obtain ⟨visible, size_, same⟩ := getLead_some lead
      have step : read (ch :: string) = readLoop count string bits := by
        rw [read, List.headD_cons, lead]
        rfl
      rw [step] at read_ ⊢
      rw [codepoint, size_ string]
      rcases readLoop_cases count string bits with ⟨rest, loop, passes⟩ | ⟨none_, _⟩
      · rw [loop] at read_ ⊢
        refine ⟨?_, passes.cons visible⟩
        show (if ch = 0 then some 0 else if count + 1 = 0 then none
          else some (codepointLoop count string (codepointLead (count + 1) ch))) = some code
        rw [if_neg visible, if_neg (Nat.succ_ne_zero count), same]
        exact read_
      · rw [none_] at read_
        cases read_

/-- Where `get` does not, `codepoint` is zero or -1. -/
theorem codepoint_of_get_none {string : Text} (read_ : get string = none) :
    codepoint string = some 0 ∨ codepoint string = none := by
  rw [← read_fst] at read_
  rw [codepoint]
  by_cases null : string.headD 0 = 0
  · rw [if_pos null]
    exact .inl rfl
  · rw [if_neg null]
    cases string with
    | nil => exact absurd rfl null
    | cons ch string =>
      cases lead : getLead ch with
      | none =>
        rw [if_pos ((getLead_none lead).resolve_left null string)]
        exact .inr rfl
      | some found =>
        obtain ⟨count, bits⟩ := found
        obtain ⟨_, size_, same⟩ := getLead_some lead
        have step : read (ch :: string) = readLoop count string bits := by
          rw [read, List.headD_cons, lead]
          rfl
        rw [size_ string, if_neg (Nat.succ_ne_zero count)]
        rw [step] at read_
        rcases readLoop_cases count string bits with ⟨rest, loop, _⟩ | ⟨_, zero⟩
        · rw [loop] at read_
          cases read_
        · left
          show some (codepointLoop count string (codepointLead (count + 1) ch)) = some 0
          rw [same, zero]

/-- The two readers agree on every text: where `get` reads a code point `codepoint` reads the same
one, and `get` has read as many bytes as `size` says, of which none is a null; where it does not
`codepoint` is zero or -1. A text that is read by the one and by the other gives the same code
points up to the first that `get` does not read. -/
theorem readers_agree (string : Text) :
    (∀ code, get string = some code →
      codepoint string = some code ∧ Passes string (read string).2 (size string)) ∧
    (get string = none → codepoint string = some 0 ∨ codepoint string = none) ∧
    ∀ rounds,
      (walk get rounds string).takeWhile Option.isSome <+: walk codepoint rounds string := by
  refine ⟨fun code => codepoint_of_get, codepoint_of_get_none, fun rounds => ?_⟩
  induction rounds generalizing string with
  | zero => exact List.prefix_refl []
  | succ rounds inductionHypothesis =>
    rw [walk, walk]
    cases read_ : get string with
    | none => exact List.nil_prefix
    | some code =>
      rw [(codepoint_of_get read_).1, List.takeWhile_cons_of_pos rfl]
      exact (List.prefix_cons_inj _).mpr (inductionHypothesis _)

end Utf8

end CommonCpp
