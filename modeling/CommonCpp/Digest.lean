/-
This file models the objects of `nossl/digest.cpp` that take a message and show its digest, and
shows what they answer over any run of calls.

An object is either open with the message put since it was set, or shows a digest, or is empty.
When a digest is shown for the first time the object is closed, so nothing can be put any more and
a reset leaves it empty. The text of a digest goes to a buffer of 65 characters, which that of
SHA-384 overruns.
-/

import CommonCpp.Bytes
import CommonCpp.Hex
import CommonCpp.Md5
import CommonCpp.Sha1
import CommonCpp.Sha2Digest

namespace CommonCpp.Digest

open Ctype Md5 Sha1 Sha2

/-! ### The contexts -/

/-- The digests that `set` can find. -/
inductive Hash
  | md5 | sha1 | sha256 | sha384
  deriving DecidableEq

/-- The context of the digest that `hashtype` names. -/
inductive Context
  | md5 (ctx : MD5_CTX)
  | sha1 (ctx : SHA1_CTX)
  | sha256 (ctx : sha256_ctx)
  | sha384 (ctx : sha512_ctx)

/-- Which digest the context is for. -/
def Context.hashtype : Context → Hash
  | .md5 _ => .md5
  | .sha1 _ => .sha1
  | .sha256 _ => .sha256
  | .sha384 _ => .sha384

/-- The bytes of a digest. -/
def Hash.size : Hash → ℕ
  | .md5 => 16
  | .sha1 => 20
  | .sha256 => 32
  | .sha384 => 48

/-- A context of cleared memory, which nothing reads before it is written. -/
def Hash.new : Hash → Context
  | .md5 => .md5 ⟨Vector.replicate 4 0, 0, Vector.replicate 64 0⟩
  | .sha1 => .sha1 ⟨Vector.replicate 5 0, 0, Vector.replicate 64 0⟩
  | .sha256 => .sha256 ⟨0, 0, Vector.replicate 8 0, Vector.replicate 16 0⟩
  | .sha384 => .sha384 ⟨0, 0, Vector.replicate 8 0, Vector.replicate 16 0⟩

namespace Context

def init : Context → Context
  | .md5 ctx => .md5 (MD5Init ctx)
  | .sha1 ctx => .sha1 (SHA1Init ctx)
  | .sha256 ctx => .sha256 (sha256_begin ctx)
  | .sha384 ctx => .sha384 (sha384_begin ctx)

/-- Bytes are taken into the context. -/
def update (data : List UInt8) : Context → Context
  | .md5 ctx => .md5 (MD5Update ctx data)
  | .sha1 ctx => .sha1 (SHA1Update ctx data)
  | .sha256 ctx => .sha256 (sha256_hash data ctx)
  | .sha384 ctx => .sha384 (sha512_hash data ctx)

/-- The digest, and the context that is left: the first two clear it. -/
def final : Context → List UInt8 × Context
  | .md5 ctx => (MD5Final ctx, Hash.new .md5)
  | .sha1 ctx => (SHA1Final ctx, Hash.new .sha1)
  | .sha256 ctx => (sha256_end ctx, .sha256 (sha256Family.finish ctx))
  | .sha384 ctx => (sha384_end ctx, .sha384 (sha512Family.finish ctx))

end Context

/-! ### The objects -/

/-- The fields of a `Digest`. -/
structure Object where
  context : Option Context
  bufsize : ℕ
  buffer : Vector UInt8 64
  textbuf : Vector UInt8 65

/-- `Digest::Digest()`. -/
def Object.empty : Object := ⟨none, 0, Vector.replicate 64 0, Vector.replicate 65 0⟩

/-- Whether the names are equal but for case. -/
def eq_case (s1 s2 : Text) : Bool := s1.map tolower = s2.map tolower

def md5Name : Text := [0x6d, 0x64, 0x35]

def shaName : Text := [0x73, 0x68, 0x61]

def sha1Name : Text := shaName ++ [0x31]

def sha2Name : Text := shaName ++ [0x32]

def sha256Name : Text := shaName ++ [0x32, 0x35, 0x36]

def sha384Name : Text := shaName ++ [0x33, 0x38, 0x34]

/-- The digest that `set` finds by a name. -/
def hashOf (type : Text) : Option Hash :=
  if eq_case type md5Name then some .md5
  else if eq_case type shaName || eq_case type sha1Name then some .sha1
  else if eq_case type sha2Name || eq_case type sha256Name then some .sha256
  else if eq_case type sha384Name then some .sha384
  else none

namespace Object

/-- `Digest::release`. -/
def release (digest : Object) : Object :=
  { digest with context := none, bufsize := 0, textbuf := Vector.replicate 65 0 }

/-- `Digest::set`. -/
def set (type : Text) (digest : Object) : Object :=
  { digest.release with context := (hashOf type).map fun hash => hash.new.init }

/-- `Digest::put`. -/
def put (address : List UInt8) (digest : Object) : Bool × Object :=
  match digest.context with
  | none => (false, digest)
  | some context => (true, { digest with context := some (context.update address) })

/-- The loops that write the digits of the buffer, unless they overrun the text. -/
def writeText (size : ℕ) (digest : Object) : Option Object :=
  if 2 * size + 1 ≤ 65 then
    some { digest with
      textbuf := Words.memcpy digest.textbuf 0
        ((digest.buffer.toList.take size).flatMap Hex.hexbyte ++ [0]) }
  else none

/-- What `get` does with a context before it writes the text. Only that of SHA-384 is kept. -/
def finish (context : Context) (digest : Object) : Object :=
  let digest := { digest with buffer := Words.memcpy digest.buffer 0 context.final.1 }
  let digest :=
    if context.hashtype = .sha384 then { digest with context := some context.final.2 }
    else digest.release
  { digest with bufsize := context.hashtype.size }

/-- `Digest::get`, which answers the buffer unless there is nothing to show. -/
def get (digest : Object) : Option (Option (List UInt8) × Object) :=
  if digest.bufsize ≠ 0 then
    some (some (digest.buffer.toList.take digest.bufsize), digest)
  else
    match digest.context with
    | none => some (none, digest)
    | some context =>
      ((digest.finish context).writeText context.hashtype.size).map fun digest =>
        (some (digest.buffer.toList.take digest.bufsize), digest)

/-- `Digest::reset`. Where there is no context there is no `hashtype` either. -/
def reset (digest : Object) : Object :=
  { digest with context := digest.context.map Context.init, bufsize := 0 }

/-- The context is started anew with some bytes. -/
def restart (left : Context) (data : List UInt8) (digest : Object) : Object :=
  { digest with context := some (left.init.update data), bufsize := 0 }

/-- `Digest::recycle`. -/
def recycle (bin : Bool) (digest : Object) : Option Object :=
  match digest.context with
  | none => some digest
  | some context =>
    let size := context.hashtype.size
    let (digest, left) :=
      if digest.bufsize = 0 then
        ({ digest with buffer := Words.memcpy digest.buffer 0 context.final.1 }, context.final.2)
      else (digest, context)
    if bin then some (digest.restart left (digest.buffer.toList.take size))
    else
      (digest.writeText size).map fun digest =>
        digest.restart left (digest.textbuf.toList.take (size * 2))

/-- `Digest::str`, whose text ends at the null. -/
def str (digest : Object) : Option (Text × Object) := do
  let digest ← if digest.bufsize = 0 then (digest.get).map Prod.snd else some digest
  return (if digest.bufsize = 0 then [] else Bytes.string digest.textbuf.toList, digest)

end Object

/-! ### Calls -/

/-- The calls of a run. -/
inductive Call
  | set (type : Text)
  | put (address : List UInt8)
  | get
  | reset
  | recycle (bin : Bool)
  | str

/-- What a call returns. -/
inductive Answer
  | nothing
  | taken (put : Bool)
  | bytes (digest : Option (List UInt8))
  | text (digest : Text)
  deriving DecidableEq

/-- One call, unless the text is overrun. -/
def Object.step (digest : Object) : Call → Option (Answer × Object)
  | .set type => some (.nothing, digest.set type)
  | .put address => some (.taken (digest.put address).1, (digest.put address).2)
  | .get => digest.get.map fun (bytes, digest) => (.bytes bytes, digest)
  | .reset => some (.nothing, digest.reset)
  | .recycle bin => (digest.recycle bin).map fun digest => (.nothing, digest)
  | .str => digest.str.map fun (text, digest) => (.text text, digest)

/-- The answers of a run, unless a text is overrun. -/
def Object.run : Object → List Call → Option (List Answer)
  | _, [] => some []
  | digest, call :: calls => do
    let (answer, digest) ← digest.step call
    let answers ← digest.run calls
    return answer :: answers

/-! ### What an object stands for -/

/-- The digest of a message. -/
def Hash.digest : Hash → List UInt8 → List UInt8
  | .md5 => Md5.md5
  | .sha1 => Sha1.sha1
  | .sha256 => sha256Family.digest i256 32
  | .sha384 => sha512Family.digest i384 48

def hexText (bytes : List UInt8) : Text := bytes.flatMap Hex.hexbyte

/-- An object is empty, or open with the message so far, or shows a digest. -/
inductive Sheet
  | empty
  | open_ (hash : Hash) (message : List UInt8)
  | shown (digest : List UInt8)

namespace Sheet

/-- Whether the text of a digest has room. -/
def hasRoom (hash : Hash) : Prop := hash ≠ .sha384

instance (hash : Hash) : Decidable (hasRoom hash) := inferInstanceAs (Decidable (hash ≠ .sha384))

/-- The digest is shown, where its text has room. -/
def show_ : Sheet → Option Sheet
  | .open_ hash message => if hasRoom hash then some (.shown (hash.digest message)) else none
  | sheet => some sheet

/-- The digest that is shown. -/
def bytes : Sheet → Option (List UInt8)
  | .shown digest => some digest
  | _ => none

/-- The digest, or its text, is the message. -/
def recycle (bin : Bool) : Sheet → Option Sheet
  | .open_ hash message =>
    if bin then some (.open_ hash (hash.digest message))
    else if hasRoom hash then some (.open_ hash (hexText (hash.digest message)))
    else none
  | sheet => some sheet

def step (sheet : Sheet) : Call → Option (Answer × Sheet)
  | .set type => some (.nothing, ((hashOf type).map fun hash => open_ hash []).getD empty)
  | .put address =>
    match sheet with
    | .open_ hash message => some (.taken true, .open_ hash (message ++ address))
    | sheet => some (.taken false, sheet)
  | .get => sheet.show_.map fun sheet => (.bytes sheet.bytes, sheet)
  | .reset =>
    match sheet with
    | .open_ hash _ => some (.nothing, .open_ hash [])
    | _ => some (.nothing, .empty)
  | .recycle bin => (sheet.recycle bin).map fun sheet => (.nothing, sheet)
  | .str => sheet.show_.map fun sheet => (.text (hexText (sheet.bytes.getD [])), sheet)

def run : Sheet → List Call → Option (List Answer)
  | _, [] => some []
  | sheet, call :: calls => do
    let (answer, sheet) ← sheet.step call
    let answers ← sheet.run calls
    return answer :: answers

end Sheet

/-! ### The contexts stand for messages -/

/-- A context stands for a message. -/
def Context.Holds (message : List UInt8) : Context → Prop
  | .md5 ctx => Md5.Holds ctx message
  | .sha1 ctx => Sha1.Holds ctx message
  | .sha256 ctx => sha256Family.Holds i256 message ctx
  | .sha384 ctx => sha512Family.Holds i384 message ctx

theorem Context.init_holds (context : Context) : context.init.Holds [] := by
  cases context with
  | md5 ctx => exact MD5Init_holds ctx
  | sha1 ctx => exact SHA1Init_holds ctx
  | sha256 ctx => exact sha256Family.begins_holds i256 ctx
  | sha384 ctx => exact sha512Family.begins_holds i384 ctx

@[simp]
theorem Context.hashtype_init (context : Context) : context.init.hashtype = context.hashtype := by
  cases context <;> rfl

@[simp]
theorem Context.hashtype_update (data : List UInt8) (context : Context) :
    (context.update data).hashtype = context.hashtype := by
  cases context <;> rfl

@[simp]
theorem Context.hashtype_final (context : Context) :
    context.final.2.hashtype = context.hashtype := by
  cases context <;> rfl

@[simp]
theorem Hash.hashtype_new (hash : Hash) : hash.new.hashtype = hash := by
  cases hash <;> rfl

theorem Context.update_holds {message : List UInt8} {context : Context}
    (holds : context.Holds message) {data : List UInt8} (small : data.length < 2 ^ 32) :
    (context.update data).Holds (message ++ data) := by
  cases context with
  | md5 ctx => exact MD5Update_holds holds data
  | sha1 ctx => exact SHA1Update_holds holds data
  | sha256 ctx => exact sha256Family.hash_holds holds small
  | sha384 ctx => exact sha512Family.hash_holds holds (Nat.lt_trans small (by decide))

theorem Context.final_of_holds {message : List UInt8} {context : Context}
    (holds : context.Holds message) : context.final.1 = context.hashtype.digest message := by
  cases context with
  | md5 ctx => exact MD5Final_of_holds holds
  | sha1 ctx => exact SHA1Final_of_holds holds
  | sha256 ctx => exact sha256_end_eq holds
  | sha384 ctx => exact sha384_end_eq holds

theorem length_flatMap_of_forall {Item : Type*} {items : List Item} {size : ℕ}
    {pieces : Item → List UInt8} (long : ∀ item, (pieces item).length = size) :
    (items.flatMap pieces).length = items.length * size := by
  induction items with
  | nil => simp
  | cons item items inductionHypothesis =>
    rw [List.flatMap_cons, List.length_append, inductionHypothesis, long, List.length_cons,
      Nat.succ_mul, Nat.add_comm]

theorem length_digest (hash : Hash) (message : List UInt8) :
    (hash.digest message).length = hash.size := by
  cases hash with
  | md5 =>
    rw [Hash.digest, Md5.md5, length_flatMap_of_forall (Words.length_littleBytes 4),
      Vector.length_toList]
    rfl
  | sha1 =>
    rw [Hash.digest, Sha1.sha1, length_flatMap_of_forall (Words.length_bigBytes 4),
      Vector.length_toList]
    rfl
  | sha256 =>
    rw [Hash.digest, Sha2.Family.digest, List.length_take,
      length_flatMap_of_forall (Words.length_bigBytes _), Vector.length_toList]
    rfl
  | sha384 =>
    rw [Hash.digest, Sha2.Family.digest, List.length_take,
      length_flatMap_of_forall (Words.length_bigBytes _), Vector.length_toList]
    rfl

/-! ### The objects stand for sheets -/

/-- An object stands for a sheet. -/
def Stands (digest : Object) : Sheet → Prop
  | .empty => digest.context = none ∧ digest.bufsize = 0
  | .open_ hash message =>
    ∃ context, digest.context = some context ∧ digest.bufsize = 0 ∧ context.hashtype = hash ∧
      context.Holds message
  | .shown bytes =>
    digest.context = none ∧ digest.bufsize = bytes.length ∧ 0 < bytes.length ∧
      digest.buffer.toList.take bytes.length = bytes ∧
      Bytes.string digest.textbuf.toList = hexText bytes

theorem size_pos (hash : Hash) : 0 < hash.size := by cases hash <;> decide

/-- The text of a digest has room unless it is the longest one. -/
theorem room_iff (hash : Hash) : 2 * hash.size + 1 ≤ 65 ↔ Sheet.hasRoom hash := by
  cases hash <;> decide

theorem length_hexText (bytes : List UInt8) : (hexText bytes).length = 2 * bytes.length := by
  rw [hexText, Hex.length_flatMap_hexbyte]

/-- The digits that are written are the text up to its null. -/
theorem writeText_eq (hash : Hash) (digest : Object) {bytes : List UInt8}
    (kept : digest.buffer.toList.take hash.size = bytes) :
    digest.writeText hash.size =
      if Sheet.hasRoom hash then
        some { digest with textbuf := Words.memcpy digest.textbuf 0 (hexText bytes ++ [0]) }
      else none := by
  rw [Object.writeText, kept]
  exact if_congr (room_iff hash) rfl rfl

theorem take_textbuf (textbuf : Vector UInt8 65) {bytes : List UInt8}
    (room : 2 * bytes.length + 1 ≤ 65) :
    (Words.memcpy textbuf 0 (hexText bytes ++ [0])).toList.take (2 * bytes.length + 1) =
      hexText bytes ++ [0] := by
  have length : (hexText bytes ++ [0]).length = 2 * bytes.length + 1 := by
    rw [List.length_append, length_hexText, List.length_singleton]
  have copied := Words.take_memcpy textbuf
    (show 0 + (hexText bytes ++ [0]).length ≤ 65 by rwa [length, Nat.zero_add])
  rwa [length, Nat.zero_add, List.take_zero, List.nil_append] at copied

theorem string_textbuf (textbuf : Vector UInt8 65) {bytes : List UInt8}
    (room : 2 * bytes.length + 1 ≤ 65) :
    Bytes.string (Words.memcpy textbuf 0 (hexText bytes ++ [0])).toList = hexText bytes := by
  have split := List.take_append_drop (2 * bytes.length + 1)
    (Words.memcpy textbuf 0 (hexText bytes ++ [0])).toList
  rw [take_textbuf textbuf room] at split
  have noNull : 0 ∉ hexText bytes := Hex.zero_notMem_flatMap bytes
  rw [← split, List.append_assoc, Bytes.string_append noNull]
  exact List.append_nil _

theorem take_buffer (buffer : Vector UInt8 64) (hash : Hash) {bytes : List UInt8}
    (long : bytes.length = hash.size) :
    (Words.memcpy buffer 0 bytes).toList.take hash.size = bytes := by
  have fits : 0 + bytes.length ≤ 64 := by
    rw [long]
    cases hash <;> decide
  have copied := Words.take_memcpy buffer fits
  rwa [Nat.zero_add, long, List.take_zero, List.nil_append] at copied

/-- Both a run of the object and one of its sheet go on, with the same answer, or neither does. -/
abbrev Agree {Value : Type} (first : Option (Value × Object)) (second : Option (Value × Sheet)) :
    Prop :=
  Option.Rel (fun after after' => after.1 = after'.1 ∧ Stands after.2 after'.2) first second

theorem Agree.answer {Value : Type} {first : Option (Value × Object)} {second : Option Sheet}
    {value : Sheet → Value} (agrees : Agree first (second.map fun sheet => (value sheet, sheet)))
    (answer : Value → Answer) :
    Agree (first.map fun (value, digest) => (answer value, digest))
      (second.map fun sheet => (answer (value sheet), sheet)) := by
  cases second with
  | none =>
    cases agrees
    exact .none
  | some sheet =>
    cases agrees with
    | some same => exact .some ⟨congrArg answer same.1, same.2⟩

/-- What is left of an open object when its digest is shown. -/
def closed (digest : Object) (size : ℕ) (bytes : List UInt8) : Object :=
  ⟨none, size, Words.memcpy digest.buffer 0 bytes,
    Words.memcpy (Vector.replicate 65 0) 0 (hexText bytes ++ [0])⟩

theorem buffer_finish (context : Context) (digest : Object) :
    (digest.finish context).buffer = Words.memcpy digest.buffer 0 context.final.1 := by
  rw [Object.finish]
  split <;> rfl

theorem bufsize_finish (context : Context) (digest : Object) :
    (digest.finish context).bufsize = context.hashtype.size := rfl

theorem finish_of_room {context : Context} (room : Sheet.hasRoom context.hashtype)
    (digest : Object) :
    digest.finish context =
      ⟨none, context.hashtype.size, Words.memcpy digest.buffer 0 context.final.1,
        Vector.replicate 65 0⟩ := by
  rw [Object.finish, if_neg room]
  rfl

theorem get_of_open {digest : Object} {context : Context} {message : List UInt8}
    (opened : digest.context = some context) (none_ : digest.bufsize = 0)
    (holds : context.Holds message) :
    digest.get =
      if Sheet.hasRoom context.hashtype then
        some (some (context.hashtype.digest message),
          closed digest context.hashtype.size (context.hashtype.digest message))
      else none := by
  have long := length_digest context.hashtype message
  have final : context.final.1 = context.hashtype.digest message :=
    Context.final_of_holds holds
  have kept : (digest.finish context).buffer.toList.take context.hashtype.size =
      context.hashtype.digest message := by
    rw [buffer_finish, final]
    exact take_buffer digest.buffer context.hashtype long
  rw [Object.get, if_neg (not_not.mpr none_), opened]
  simp only [writeText_eq context.hashtype (digest.finish context) kept]
  by_cases room : Sheet.hasRoom context.hashtype
  · rw [if_pos room, if_pos room, Option.map_some, bufsize_finish, kept, finish_of_room room, final]
    rfl
  · rw [if_neg room, if_neg room, Option.map_none]

theorem closed_stands (digest : Object) {hash : Hash} {bytes : List UInt8}
    (long : bytes.length = hash.size) (room : Sheet.hasRoom hash) :
    Stands (closed digest hash.size bytes) (.shown bytes) := by
  have fits := (room_iff hash).mpr room
  have positive := size_pos hash
  rw [← long] at fits positive
  refine ⟨rfl, long.symm, positive, ?_, string_textbuf _ fits⟩
  have kept := take_buffer digest.buffer hash long
  rwa [← long] at kept

theorem get_agrees {digest : Object} {sheet : Sheet} (stands : Stands digest sheet) :
    Agree digest.get (sheet.show_.map fun sheet => (sheet.bytes, sheet)) := by
  cases sheet with
  | empty =>
    obtain ⟨closed, none_⟩ := stands
    rw [Object.get, if_neg (not_not.mpr none_), closed]
    exact .some ⟨rfl, closed, none_⟩
  | shown bytes =>
    have kept := stands
    obtain ⟨closed, size, positive, buffer, text⟩ := stands
    rw [Object.get, if_pos (by omega), size, buffer]
    exact .some ⟨rfl, kept⟩
  | open_ hash message =>
    obtain ⟨context, opened, none_, rfl, holds⟩ := stands
    rw [get_of_open opened none_ holds, Sheet.show_]
    by_cases room : Sheet.hasRoom context.hashtype
    · rw [if_pos room, if_pos room]
      exact .some ⟨rfl, closed_stands digest (length_digest _ _) room⟩
    · rw [if_neg room, if_neg room]
      exact .none

/-- The text is that of the digest that is shown. -/
theorem text_of_shown {digest : Object} {sheet shown : Sheet} (shows : sheet.show_ = some shown)
    (stands : Stands digest shown) :
    (if digest.bufsize = 0 then [] else Bytes.string digest.textbuf.toList) =
      hexText (shown.bytes.getD []) := by
  cases shown with
  | empty =>
    rw [if_pos stands.2]
    rfl
  | shown bytes =>
    obtain ⟨-, size, positive, -, text⟩ := stands
    rw [if_neg (by omega)]
    exact text
  | open_ hash message =>
    cases sheet with
    | open_ hash' message' => exact nomatch (Option.ite_none_right_eq_some.mp shows).2
    | _ => cases shows

/-- The text is that of the digest that `get` shows, if it was not shown before. -/
theorem str_agrees {digest : Object} {sheet : Sheet} (stands : Stands digest sheet) :
    Agree digest.str (sheet.show_.map fun sheet => (hexText (sheet.bytes.getD []), sheet)) := by
  have agrees := get_agrees stands
  by_cases none_ : digest.bufsize = 0
  · rw [Object.str, if_pos none_]
    cases shows : sheet.show_ with
    | none =>
      rw [shows] at agrees
      generalize digest.get = answer at agrees
      cases agrees
      exact .none
    | some shown =>
      rw [shows] at agrees
      generalize digest.get = answer at agrees
      cases agrees with
      | some same => exact .some ⟨text_of_shown shows same.2, same.2⟩
  · rw [Object.str, if_neg none_]
    have shows : sheet.show_ = some sheet := by
      cases sheet with
      | open_ hash message =>
        obtain ⟨_, -, closed, -⟩ := stands
        exact absurd closed none_
      | _ => rfl
    rw [shows]
    exact .some ⟨text_of_shown shows stands, stands⟩

/-- What is put again is the digest or its text. -/
theorem recycle_agrees {digest : Object} {sheet : Sheet} (stands : Stands digest sheet)
    (bin : Bool) :
    Option.Rel Stands (digest.recycle bin) (sheet.recycle bin) := by
  cases sheet with
  | empty =>
    have kept := stands
    rw [Object.recycle, stands.1]
    exact .some kept
  | shown bytes =>
    have kept := stands
    rw [Object.recycle, stands.1]
    exact .some kept
  | open_ hash message =>
    obtain ⟨context, opened, none_, rfl, holds⟩ := stands
    have long := length_digest context.hashtype message
    have final : context.final.1 = context.hashtype.digest message :=
      Context.final_of_holds holds
    have kept := take_buffer digest.buffer context.hashtype long
    have few : context.hashtype.size < 2 ^ 32 ∧ 2 * context.hashtype.size < 2 ^ 32 := by
      cases context.hashtype <;> decide
    have again {data : List UInt8} (small : data.length < 2 ^ 32) (left : Object) :
        Stands (left.restart context.final.2 data) (.open_ context.hashtype data) :=
      ⟨_, rfl, rfl, by simp, by
        simpa using Context.update_holds context.final.2.init_holds small⟩
    rw [Object.recycle, opened, Sheet.recycle]
    simp only [if_pos none_, final, kept]
    cases bin with
    | true =>
      simp only [if_true]
      refine .some (again ?_ _)
      rw [long]
      exact few.1
    | false =>
      have wrote := writeText_eq context.hashtype
        { digest with
          context := some context
          buffer := Words.memcpy digest.buffer 0 (context.hashtype.digest message) } kept
      simp only [Bool.false_eq_true, if_false]
      rw [wrote]
      by_cases room : Sheet.hasRoom context.hashtype
      · have fits := (room_iff context.hashtype).mpr room
        rw [← long] at fits
        have text := take_textbuf digest.textbuf fits
        have digits := congrArg (List.take (2 * context.hashtype.size)) text
        rw [long, List.take_take, Nat.min_eq_left (Nat.le_succ _), ← long, ← length_hexText,
          List.take_left, length_hexText, long, Nat.mul_comm] at digits
        rw [if_pos room, if_pos room, Option.map_some, digits]
        refine .some (again ?_ _)
        rw [length_hexText, long]
        exact few.2
      · rw [if_neg room, if_neg room]
        exact .none

/-- A call has one answer of the object and of the sheet it stands for. -/
theorem step_agrees {digest : Object} {sheet : Sheet} (stands : Stands digest sheet) {call : Call}
    (small : ∀ address, call = .put address → address.length < 2 ^ 32) :
    Agree (digest.step call) (sheet.step call) := by
  cases call with
  | set type =>
    refine .some ⟨rfl, ?_⟩
    simp only [Object.set]
    cases hashOf type with
    | none => exact ⟨rfl, rfl⟩
    | some hash => exact ⟨_, rfl, rfl, by simp, Context.init_holds _⟩
  | put address =>
    cases sheet with
    | empty =>
      rw [Object.step, Object.put, stands.1]
      exact .some ⟨rfl, stands⟩
    | shown bytes =>
      rw [Object.step, Object.put, stands.1]
      exact .some ⟨rfl, stands⟩
    | open_ hash message =>
      obtain ⟨context, opened, none_, rfl, holds⟩ := stands
      rw [Object.step, Object.put, opened]
      exact .some ⟨rfl, _, rfl, none_, by simp, Context.update_holds holds (small address rfl)⟩
  | get => exact (get_agrees stands).answer .bytes
  | reset =>
    cases sheet with
    | empty =>
      refine .some ⟨rfl, ?_, rfl⟩
      rw [Object.reset, stands.1]
      rfl
    | shown bytes =>
      refine .some ⟨rfl, ?_, rfl⟩
      rw [Object.reset, stands.1]
      rfl
    | open_ hash message =>
      obtain ⟨context, opened, none_, rfl, holds⟩ := stands
      refine .some ⟨rfl, context.init, ?_, rfl, by simp, context.init_holds⟩
      rw [Object.reset, opened]
      rfl
  | recycle bin =>
    have agrees := recycle_agrees stands bin
    rw [Object.step, Sheet.step]
    generalize digest.recycle bin = after, sheet.recycle bin = after' at agrees ⊢
    cases agrees with
    | none => exact .none
    | some both => exact .some ⟨rfl, both⟩
  | str => exact (str_agrees stands).answer .text

theorem run_agrees {digest : Object} {sheet : Sheet} (stands : Stands digest sheet)
    {calls : List Call} (small : ∀ address, .put address ∈ calls → address.length < 2 ^ 32) :
    digest.run calls = sheet.run calls := by
  induction calls generalizing digest sheet with
  | nil => rfl
  | cons call calls inductionHypothesis =>
    have agrees := step_agrees stands
      fun address same => small address (same ▸ List.mem_cons_self)
    rw [Object.run, Sheet.run]
    generalize digest.step call = after, sheet.step call = after' at agrees ⊢
    cases agrees with
    | none => rfl
    | @some after after' both =>
      obtain ⟨answer, next⟩ := both
      have rest := inductionHypothesis next
        fun address member => small address (List.mem_cons_of_mem _ member)
      obtain ⟨answer', digest'⟩ := after
      obtain ⟨answer'', sheet'⟩ := after'
      subst answer
      simp [rest]

/-- What an object answers over any run is what its sheet does: digests of what was put, and no
answer once the text of the longest one is written. -/
theorem run_empty (calls : List Call)
    (small : ∀ address, .put address ∈ calls → address.length < 2 ^ 32) :
    Object.empty.run calls = Sheet.empty.run calls := by
  have stands : Stands Object.empty .empty := ⟨rfl, rfl⟩
  exact run_agrees stands small

theorem run_empty_md5 :
    Object.empty.run [.set md5Name, .put [0x61], .put [0x62, 0x63], .get, .put [0x64], .reset,
        .get] =
      some [.nothing, .taken true, .taken true, .bytes (some (Md5.md5 [0x61, 0x62, 0x63])),
        .taken false, .nothing, .bytes none] :=
  run_empty _ (by simp)

example : Sheet.empty.run [.set sha384Name, .put [0x61], .get] = none := rfl

end CommonCpp.Digest
