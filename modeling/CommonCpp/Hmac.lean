/-
This file models the authentication codes of `nossl/hmac.cpp`, whose functions for the two digests
are the same code, and shows that they are the digest of a digest that the standard gives.

The key fills a block, and is its own digest first where it has more bytes. Two contexts of the
digest start with that block under two masks. The message goes to a copy of the first, and the
digest of it to a copy of the second.
-/

import CommonCpp.Sha2Digest

namespace CommonCpp.Hmac

open Sha2

variable {width : ℕ}

/-- What sets the code for one digest apart: its words, the start of its hash, and its size. -/
structure Kind (width : ℕ) where
  family : Sha2.Family width
  start : Vector (BitVec width) 8
  hlen : ℕ
  short : hlen ≤ 8 * family.size
  counted : 32 ≤ width
  block_lt : family.block < 2 ^ 32

/-- The context, and those of the inner and outer digest. -/
structure HmacContext (width : ℕ) where
  ctx : Sha2.Context width
  innerCtx : Sha2.Context width
  outerCtx : Sha2.Context width

namespace Kind

variable (kind : Kind width)

/-- A context with everything cleared. -/
def cleared : Sha2.Context width := ⟨0, 0, Vector.replicate 8 0, Vector.replicate 16 0⟩

/-- What is copied to the front of `localKey`. -/
def localKey (key : List UInt8) (ctx : Sha2.Context width) : List UInt8 :=
  let front :=
    if key.length > kind.family.block then
      kind.family.end_ kind.hlen (kind.family.hash key (ctx.begins kind.start))
    else key
  front ++ List.replicate (kind.family.block - front.length) 0

/-- The key under a mask. -/
def localPad (mask : UInt8) (localKey : List UInt8) : List UInt8 := localKey.map (· ^^^ mask)

/-- `hmacSha256Init` and `hmacSha384Init` with a key. -/
def init (key : List UInt8) : HmacContext width :=
  let localKey := kind.localKey key cleared
  let innerCtx := kind.family.hash (localPad 0x36 localKey) (cleared.begins kind.start)
  let outerCtx := kind.family.hash (localPad 0x5c localKey) (cleared.begins kind.start)
  ⟨innerCtx, innerCtx, outerCtx⟩

/-- `hmacSha256Update` and `hmacSha384Update`. -/
def update (ctx : HmacContext width) (data : List UInt8) : HmacContext width :=
  { ctx with ctx := kind.family.hash data ctx.ctx }

/-- The code that is left behind, and the context. -/
def final (ctx : HmacContext width) : List UInt8 × HmacContext width :=
  let tmpDigest := kind.family.end_ kind.hlen ctx.ctx
  let outer := kind.family.hash tmpDigest ctx.outerCtx
  (kind.family.end_ kind.hlen outer, { ctx with ctx := outer })

end Kind

/-- HMAC with SHA-256. -/
def sha256Kind : Kind 32 := ⟨sha256Family, i256, 32, by decide, by decide, by decide⟩

/-- HMAC with SHA-384. -/
def sha384Kind : Kind 64 := ⟨sha512Family, i384, 48, by decide, by decide, by decide⟩

/-- The code is started with a key. -/
def hmacSha256Init : List UInt8 → HmacContext 32 := sha256Kind.init

/-- A part of a message is taken. -/
def hmacSha256Update : HmacContext 32 → List UInt8 → HmacContext 32 := sha256Kind.update

/-- The code of all parts. -/
def hmacSha256Final : HmacContext 32 → List UInt8 × HmacContext 32 := sha256Kind.final

/-- The code is started with a key. -/
def hmacSha384Init : List UInt8 → HmacContext 64 := sha384Kind.init

/-- A part of a message is taken. -/
def hmacSha384Update : HmacContext 64 → List UInt8 → HmacContext 64 := sha384Kind.update

/-- The code of all parts. -/
def hmacSha384Final : HmacContext 64 → List UInt8 × HmacContext 64 := sha384Kind.final

/-! ### The code of the standard -/

namespace Kind

variable (kind : Kind width)

/-- The digest that is nested. -/
def digest (message : List UInt8) : List UInt8 :=
  kind.family.digest kind.start kind.hlen message

/-- The key as a block: where it has more bytes, its digest stands for it. -/
def blockKey (key : List UInt8) : List UInt8 :=
  let short := if key.length > kind.family.block then kind.digest key else key
  short ++ List.replicate (kind.family.block - short.length) 0

/-- The nested digests. -/
def hmac (key message : List UInt8) : List UInt8 :=
  kind.digest ((kind.blockKey key).map (· ^^^ 0x5c) ++
    kind.digest ((kind.blockKey key).map (· ^^^ 0x36) ++ message))

/-! ### The code of a message in parts -/

include kind in
theorem lt_of_lt_32 {length : ℕ} (small : length < 2 ^ 32) : length < 2 ^ width :=
  Nat.lt_of_lt_of_le small (Nat.pow_le_pow_right (by decide) kind.counted)

theorem hlen_le_block : kind.hlen ≤ kind.family.block := by
  have short := kind.short
  rw [Sha2.Family.block]
  omega

/-- A message in one part. -/
theorem hash_begins {message : List UInt8} (small : message.length < 2 ^ 32)
    (ctx : Sha2.Context width) :
    kind.family.Holds kind.start message (kind.family.hash message (ctx.begins kind.start)) := by
  have whole := kind.family.hash_holds (kind.family.begins_holds kind.start ctx)
    (kind.lt_of_lt_32 small)
  rwa [List.nil_append] at whole

theorem length_digest_le (message : List UInt8) : (kind.digest message).length ≤ kind.hlen := by
  rw [digest, Sha2.Family.digest, List.length_take]
  exact Nat.min_le_left _ _

theorem localKey_eq {key : List UInt8} (small : key.length < 2 ^ 32) (ctx : Sha2.Context width) :
    kind.localKey key ctx = kind.blockKey key := by
  unfold localKey blockKey
  rw [kind.family.end_eq (kind.hash_begins small ctx) kind.short]
  rfl

theorem length_blockKey (key : List UInt8) :
    (kind.blockKey key).length = kind.family.block := by
  have fits : (if key.length > kind.family.block then kind.digest key else key).length ≤
      kind.family.block := by
    split
    · exact Nat.le_trans (kind.length_digest_le key) kind.hlen_le_block
    · omega
  rw [blockKey, List.length_append, List.length_replicate]
  exact Nat.add_sub_cancel' fits

/-- The two contexts of a key stand for its block under the two masks. -/
theorem init_holds {key : List UInt8} (small : key.length < 2 ^ 32) :
    kind.family.Holds kind.start ((kind.blockKey key).map (· ^^^ 0x36)) (kind.init key).ctx ∧
      kind.family.Holds kind.start ((kind.blockKey key).map (· ^^^ 0x5c))
        (kind.init key).outerCtx := by
  have length (mask : UInt8) : (localPad mask (kind.blockKey key)).length < 2 ^ 32 := by
    rw [localPad, List.length_map, kind.length_blockKey]
    exact kind.block_lt
  unfold init
  rw [kind.localKey_eq small]
  exact ⟨kind.hash_begins (length 0x36) cleared, kind.hash_begins (length 0x5c) cleared⟩

/-- An update leaves the context of the outer digest as it is. -/
theorem update_foldl_outerCtx (ctx : HmacContext width) (parts : List (List UInt8)) :
    (parts.foldl kind.update ctx).outerCtx = ctx.outerCtx := by
  induction parts generalizing ctx with
  | nil => rfl
  | cons part parts inductionHypothesis => exact inductionHypothesis _

theorem update_foldl_ctx (ctx : HmacContext width) (parts : List (List UInt8)) :
    (parts.foldl kind.update ctx).ctx =
      parts.foldl (fun ctx part => kind.family.hash part ctx) ctx.ctx := by
  induction parts generalizing ctx with
  | nil => rfl
  | cons part parts inductionHypothesis => exact inductionHypothesis _

theorem final_foldl_update {key : List UInt8} {parts : List (List UInt8)}
    (smallKey : key.length < 2 ^ 32) (small : ∀ part ∈ parts, part.length < 2 ^ 32) :
    (kind.final (parts.foldl kind.update (kind.init key))).1 = kind.hmac key parts.flatten := by
  obtain ⟨inner, outer⟩ := kind.init_holds smallKey
  have digested := kind.family.foldl_hash_holds inner parts
    fun part member => kind.lt_of_lt_32 (small part member)
  have few : (kind.digest ((kind.blockKey key).map (· ^^^ 0x36) ++ parts.flatten)).length <
      2 ^ width :=
    kind.lt_of_lt_32 (Nat.lt_of_le_of_lt
      (Nat.le_trans (kind.length_digest_le _) kind.hlen_le_block) kind.block_lt)
  unfold final
  rw [kind.update_foldl_ctx, kind.update_foldl_outerCtx, kind.family.end_eq digested kind.short]
  exact kind.family.end_eq (kind.family.hash_holds outer few) kind.short

end Kind

/-- The two codes of a message in parts are those of the standard. -/
theorem hmacs_of_parts (key : List UInt8) (parts : List (List UInt8))
    (smallKey : key.length < 2 ^ 32) (small : ∀ part ∈ parts, part.length < 2 ^ 32) :
    (hmacSha256Final (parts.foldl hmacSha256Update (hmacSha256Init key))).1 =
        sha256Kind.hmac key parts.flatten ∧
      (hmacSha384Final (parts.foldl hmacSha384Update (hmacSha384Init key))).1 =
        sha384Kind.hmac key parts.flatten :=
  ⟨sha256Kind.final_foldl_update smallKey small, sha384Kind.final_foldl_update smallKey small⟩

theorem hmacs_of_two_parts :
    (hmacSha256Final ([[0x61], [0x62, 0x63]].foldl hmacSha256Update (hmacSha256Init [0x6b]))).1 =
      sha256Kind.hmac [0x6b] [0x61, 0x62, 0x63] :=
  (hmacs_of_parts [0x6b] [[0x61], [0x62, 0x63]] (by decide) (by decide)).1

end CommonCpp.Hmac
