/-
This file models the SHA-2 digests of `nossl/sha2.cpp`, of which those of one word length are the
same code, and states the digests of the standard.

The words of a block are kept in the sixteen words of the buffer, which are swapped to their order
first and then replaced one by one as the rounds go on; the eight registers keep their places while
their names go round. The buffer is also the memory that a message is copied to.
-/

import CommonCpp.Blocks
import CommonCpp.Rounds
import CommonCpp.Words

namespace CommonCpp.Sha2

open Blocks Rounds Words

variable {width : ℕ}

/-! ### The code -/

/-- Rotates to the right. -/
def rotr (x : BitVec width) (n : ℕ) : BitVec width := x >>> n ||| x <<< (width - n)

/-- The bytes in the other order. -/
def bswap_32 (x : BitVec 32) : BitVec 32 :=
  (rotr x 24 &&& 0x00ff00ff) ||| (rotr x 8 &&& 0xff00ff00)

/-- The bytes in the other order. -/
def bswap_64 (x : BitVec 64) : BitVec 64 :=
  (bswap_32 (x.setWidth 32)).setWidth 64 <<< 32 ||| (bswap_32 ((x >>> 32).setWidth 32)).setWidth 64

/-- Selects from `y` and `z` by `x`. -/
def ch (x y z : BitVec width) : BitVec width := z ^^^ (x &&& (y ^^^ z))

/-- The majority. -/
def maj (x y z : BitVec width) : BitVec width := (x &&& y) ||| (z &&& (x ^^^ y))

/-- What sets the digests of one word length apart from the others. -/
structure Family (width : ℕ) where
  /-- The bytes of a word. -/
  size : ℕ
  /-- The turns of the loop over `j`, each with sixteen rounds. -/
  turns : ℕ
  k_0 : List (BitVec width)
  s_0 : BitVec width → BitVec width
  s_1 : BitVec width → BitVec width
  g_0 : BitVec width → BitVec width
  g_1 : BitVec width → BitVec width
  bswap : BitVec width → BitVec width
  /-- What of a word is kept in front of the padding. -/
  mask : BitVec width
  positive : 0 < size
  whole : 8 * size = width
  divides : 16 * size ∣ 2 ^ width
  bswap_eq : ∀ word, bswap word = big (littleBytes size word)
  mask_low : ∀ i < 7, mask.getLsbD i = false
  mask_high : ∀ i < width, 8 ≤ i → mask.getLsbD i = true

/-- The count of bytes, the hash, and the block. -/
structure Context (width : ℕ) where
  count_0 : BitVec width
  count_1 : BitVec width
  hash : Vector (BitVec width) 8
  wbuf : Vector (BitVec width) 16

namespace Family

variable (family : Family width)

/-- The bytes of a block. -/
def block : ℕ := 16 * family.size

/-- `hf(i)`, without the value of it. -/
def hf (p : Vector (BitVec width) 16) (i : Fin 16) : Vector (BitVec width) 16 :=
  p.set i (p[i] + (family.g_1 p[i + 14] + p[i + 9] + family.g_0 p[i + 1])) i.isLt

/-- `v_cycle(i,j)`, where `vf(n,i)` is the register that has the name `n` in round `i`. -/
def v_cycle (i j : ℕ) (state : Vector (BitVec width) 8 × Vector (BitVec width) 16) :
    Vector (BitVec width) 8 × Vector (BitVec width) 16 :=
  let (v, p) := state
  let p := if j ≠ 0 then family.hf p (Fin.ofNat 16 i) else p
  let v := setNamed v i 7 (named v i 7 + (p[Fin.ofNat 16 i] + family.k_0.getD (i + j) 0 +
    family.s_1 (named v i 4) + ch (named v i 4) (named v i 5) (named v i 6)))
  let v := setNamed v i 3 (named v i 3 + named v i 7)
  let v := setNamed v i 7 (named v i 7 +
    (family.s_0 (named v i 0) + maj (named v i 0) (named v i 1) (named v i 2)))
  (v, p)

/-- `sha256_compile` and `sha512_compile`. -/
def compile (ctx : Context width) : Context width :=
  let (v, p) := (List.range family.turns).foldl (fun state j =>
    (List.range 16).foldl (fun state i => family.v_cycle i (j * 16) state) state)
    (ctx.hash, ctx.wbuf)
  { ctx with hash := ctx.hash.zipWith (· + ·) v, wbuf := p }

/-- The words of the buffer as the bytes of a memory that has the lowest byte of each first. -/
def bytes (wbuf : Vector (BitVec width) 16) : Vector UInt8 family.block :=
  Vector.ofFn fun i => byteAt (wbuf.toList.getD (i / family.size) 0) (i % family.size)

/-- `memcpy(((unsigned char*)ctx->wbuf) + pos, sp, len)`. -/
def copy (wbuf : Vector (BitVec width) 16) (pos : ℕ) (sp : List UInt8) :
    Vector (BitVec width) 16 :=
  Vector.ofFn fun i => little (slice family.size (memcpy (family.bytes wbuf) pos sp).toList i)

/-- The first words of the buffer swapped. -/
def bsw (wbuf : Vector (BitVec width) 16) (n : ℕ) : Vector (BitVec width) 16 :=
  Vector.ofFn fun i => if i < n then family.bswap wbuf[i] else wbuf[i]

/-- `while(len >= space)`, which takes at most as many turns as there are bytes. -/
def hashLoop : ℕ → Context width → List UInt8 → ℕ → ℕ → Context width × List UInt8 × ℕ
  | 0, ctx, sp, pos, _ => (ctx, sp, pos)
  | turns + 1, ctx, sp, pos, space =>
    if space ≤ sp.length then
      let wbuf := family.bsw (family.copy ctx.wbuf pos (sp.take space)) 16
      hashLoop turns (family.compile { ctx with wbuf }) (sp.drop space) 0 family.block
    else (ctx, sp, pos)

/-- `sha256_hash` and `sha512_hash`. -/
def hash (data : List UInt8) (ctx : Context width) : Context width :=
  let len := data.length
  let pos := ctx.count_0.toNat % family.block
  let space := family.block - pos
  let count_0 := ctx.count_0 + BitVec.ofNat width len
  let count_1 := if count_0.toNat < len then ctx.count_1 + 1 else ctx.count_1
  let (ctx, sp, pos) := family.hashLoop len { ctx with count_0, count_1 } data pos space
  { ctx with wbuf := family.copy ctx.wbuf pos sp }

/-- The words with bytes of the message swapped, and the one put behind these `i` bytes. -/
def mark (wbuf : Vector (BitVec width) 16) (i : ℕ) : Vector (BitVec width) 16 :=
  let wbuf := family.bsw wbuf ((i + (family.size - 1)) / family.size)
  let shift := 8 * (family.size - 1 - i % family.size)
  let word := wbuf.toList.getD (i / family.size) 0 &&& family.mask <<< shift
  wbuf.setIfInBounds (i / family.size) (word ||| (0x80 : BitVec width) <<< shift)

/-- `while(i < 14) ctx->wbuf[i++] = 0`. -/
def zeros (wbuf : Vector (BitVec width) 16) (i : ℕ) : Vector (BitVec width) 16 :=
  Vector.ofFn fun k => if i ≤ k ∧ k < 14 then 0 else wbuf[k]

/-- The padding of `sha_end1` and `sha_end2`. Where there is no room for the count, the buffer goes
first and is started anew. -/
def finish (ctx : Context width) : Context width :=
  let i := ctx.count_0.toNat % family.block
  let wbuf := family.mark ctx.wbuf i
  let (ctx, i) :=
    if i > family.block - (2 * family.size + 1) then
      let wbuf := if i < 15 * family.size then wbuf.set 15 0 else wbuf
      (family.compile { ctx with wbuf }, 0)
    else ({ ctx with wbuf }, i / family.size + 1)
  let wbuf := zeros ctx.wbuf i
  let wbuf := wbuf.set 14 (ctx.count_1 <<< 3 ||| ctx.count_0 >>> (width - 3))
  let wbuf := wbuf.set 15 (ctx.count_0 <<< 3)
  family.compile { ctx with wbuf }

/-- `sha_end1` and `sha_end2`. -/
def end_ (hlen : ℕ) (ctx : Context width) : List UInt8 :=
  let hash := (family.finish ctx).hash
  (List.range hlen).map fun i =>
    byteAt (hash.toList.getD (i / family.size) 0) (family.size - 1 - i % family.size)

end Family

/-- `count[0] = count[1] = 0`, and the start of the hash. -/
def Context.begins (start : Vector (BitVec width) 8) (ctx : Context width) : Context width :=
  { ctx with count_0 := 0, count_1 := 0, hash := start }

/-! ### The two word lengths -/

/-- The constants of the rounds. -/
def k256 : List (BitVec 32) :=
  [0x428a2f98, 0x71374491, 0xb5c0fbcf, 0xe9b5dba5, 0x3956c25b, 0x59f111f1, 0x923f82a4, 0xab1c5ed5,
   0xd807aa98, 0x12835b01, 0x243185be, 0x550c7dc3, 0x72be5d74, 0x80deb1fe, 0x9bdc06a7, 0xc19bf174,
   0xe49b69c1, 0xefbe4786, 0x0fc19dc6, 0x240ca1cc, 0x2de92c6f, 0x4a7484aa, 0x5cb0a9dc, 0x76f988da,
   0x983e5152, 0xa831c66d, 0xb00327c8, 0xbf597fc7, 0xc6e00bf3, 0xd5a79147, 0x06ca6351, 0x14292967,
   0x27b70a85, 0x2e1b2138, 0x4d2c6dfc, 0x53380d13, 0x650a7354, 0x766a0abb, 0x81c2c92e, 0x92722c85,
   0xa2bfe8a1, 0xa81a664b, 0xc24b8b70, 0xc76c51a3, 0xd192e819, 0xd6990624, 0xf40e3585, 0x106aa070,
   0x19a4c116, 0x1e376c08, 0x2748774c, 0x34b0bcb5, 0x391c0cb3, 0x4ed8aa4a, 0x5b9cca4f, 0x682e6ff3,
   0x748f82ee, 0x78a5636f, 0x84c87814, 0x8cc70208, 0x90befffa, 0xa4506ceb, 0xbef9a3f7, 0xc67178f2]

theorem bswap_32_eq (word : BitVec 32) : bswap_32 word = big (littleBytes 4 word) := by
  rw [← rotateLeft_or_rotateLeft, BitVec.or_comm, BitVec.rotateLeft_def, BitVec.rotateLeft_def,
    bswap_32, rotr, rotr, BitVec.or_comm (word >>> 24), BitVec.or_comm (word >>> 8)]

theorem size_positive : 0 < 4 := by decide

/-- Words of 32 bits. -/
def sha256Family : Family 32 where
  size := 4
  turns := 4
  k_0 := k256
  s_0 x := rotr x 2 ^^^ rotr x 13 ^^^ rotr x 22
  s_1 x := rotr x 6 ^^^ rotr x 11 ^^^ rotr x 25
  g_0 x := rotr x 7 ^^^ rotr x 18 ^^^ x >>> 3
  g_1 x := rotr x 17 ^^^ rotr x 19 ^^^ x >>> 10
  bswap := bswap_32
  mask := 0xffffff80
  positive := size_positive
  whole := rfl
  divides := by decide
  bswap_eq := bswap_32_eq
  mask_low := by decide
  mask_high := by decide

/-- The constants of the rounds. -/
def k512 : List (BitVec 64) :=
  [0x428a2f98d728ae22, 0x7137449123ef65cd, 0xb5c0fbcfec4d3b2f, 0xe9b5dba58189dbbc,
   0x3956c25bf348b538, 0x59f111f1b605d019, 0x923f82a4af194f9b, 0xab1c5ed5da6d8118,
   0xd807aa98a3030242, 0x12835b0145706fbe, 0x243185be4ee4b28c, 0x550c7dc3d5ffb4e2,
   0x72be5d74f27b896f, 0x80deb1fe3b1696b1, 0x9bdc06a725c71235, 0xc19bf174cf692694,
   0xe49b69c19ef14ad2, 0xefbe4786384f25e3, 0x0fc19dc68b8cd5b5, 0x240ca1cc77ac9c65,
   0x2de92c6f592b0275, 0x4a7484aa6ea6e483, 0x5cb0a9dcbd41fbd4, 0x76f988da831153b5,
   0x983e5152ee66dfab, 0xa831c66d2db43210, 0xb00327c898fb213f, 0xbf597fc7beef0ee4,
   0xc6e00bf33da88fc2, 0xd5a79147930aa725, 0x06ca6351e003826f, 0x142929670a0e6e70,
   0x27b70a8546d22ffc, 0x2e1b21385c26c926, 0x4d2c6dfc5ac42aed, 0x53380d139d95b3df,
   0x650a73548baf63de, 0x766a0abb3c77b2a8, 0x81c2c92e47edaee6, 0x92722c851482353b,
   0xa2bfe8a14cf10364, 0xa81a664bbc423001, 0xc24b8b70d0f89791, 0xc76c51a30654be30,
   0xd192e819d6ef5218, 0xd69906245565a910, 0xf40e35855771202a, 0x106aa07032bbd1b8,
   0x19a4c116b8d2d0c8, 0x1e376c085141ab53, 0x2748774cdf8eeb99, 0x34b0bcb5e19b48a8,
   0x391c0cb3c5c95a63, 0x4ed8aa4ae3418acb, 0x5b9cca4f7763e373, 0x682e6ff3d6b2b8a3,
   0x748f82ee5defb2fc, 0x78a5636f43172f60, 0x84c87814a1f0ab72, 0x8cc702081a6439ec,
   0x90befffa23631e28, 0xa4506cebde82bde9, 0xbef9a3f7b2c67915, 0xc67178f2e372532b,
   0xca273eceea26619c, 0xd186b8c721c0c207, 0xeada7dd6cde0eb1e, 0xf57d4f7fee6ed178,
   0x06f067aa72176fba, 0x0a637dc5a2c898a6, 0x113f9804bef90dae, 0x1b710b35131c471b,
   0x28db77f523047d84, 0x32caab7b40c72493, 0x3c9ebe0a15c9bebc, 0x431d67c49c100d4c,
   0x4cc5d4becb3e42b6, 0x597f299cfc657e2a, 0x5fcb6fab3ad6faec, 0x6c44198c4a475817]

theorem bswap_64_eq (word : BitVec 64) : bswap_64 word = big (littleBytes 8 word) := by
  refine BitVec.eq_of_getLsbD_eq fun i inside => ?_
  rw [bswap_64, bswap_32_eq, bswap_32_eq, BitVec.getLsbD_or, BitVec.getLsbD_shiftLeft,
    BitVec.getLsbD_setWidth, BitVec.getLsbD_setWidth, getLsbD_big_littleBytes inside (by omega)]
  by_cases low : i < 32
  · rw [getLsbD_big_littleBytes low (by omega), BitVec.getLsbD_setWidth, BitVec.getLsbD_ushiftRight,
      show 32 + (8 * (4 - 1 - i / 8) + i % 8) = 8 * (8 - 1 - i / 8) + i % 8 by omega]
    have within : 8 * (4 - 1 - i / 8) + i % 8 < 32 := by omega
    simpa [inside, low] using fun _ => within
  · have above : i - 32 < 32 := by omega
    rw [getLsbD_big_littleBytes above (by omega), BitVec.getLsbD_setWidth,
      BitVec.getLsbD_of_ge _ i (by omega),
      show 8 * (4 - 1 - (i - 32) / 8) + (i - 32) % 8 = 8 * (8 - 1 - i / 8) + i % 8 by omega]
    have within : 8 * (8 - 1 - i / 8) + i % 8 < 32 := by omega
    have near : i - 32 < 64 := by omega
    simp [inside, low, within, near]

/-- Words of 64 bits. -/
def sha512Family : Family 64 where
  size := 8
  turns := 5
  k_0 := k512
  s_0 x := rotr x 28 ^^^ rotr x 34 ^^^ rotr x 39
  s_1 x := rotr x 14 ^^^ rotr x 18 ^^^ rotr x 41
  g_0 x := rotr x 1 ^^^ rotr x 8 ^^^ x >>> 7
  g_1 x := rotr x 19 ^^^ rotr x 61 ^^^ x >>> 6
  bswap := bswap_64
  mask := 0xffffffffffffff00
  positive := by decide
  whole := rfl
  divides := by decide
  bswap_eq := bswap_64_eq
  mask_low := by decide
  mask_high := by decide

/-! ### The functions of each digest -/

/-- The context of SHA-224 and SHA-256. -/
abbrev sha256_ctx := Context 32

/-- The context of SHA-384 and SHA-512. -/
abbrev sha512_ctx := Context 64

/-- The start of SHA-224. -/
def i224 : Vector (BitVec 32) 8 :=
  #v[0xc1059ed8, 0x367cd507, 0x3070dd17, 0xf70e5939,
     0xffc00b31, 0x68581511, 0x64f98fa7, 0xbefa4fa4]

/-- The start of SHA-256. -/
def i256 : Vector (BitVec 32) 8 :=
  #v[0x6a09e667, 0xbb67ae85, 0x3c6ef372, 0xa54ff53a,
     0x510e527f, 0x9b05688c, 0x1f83d9ab, 0x5be0cd19]

/-- The start of SHA-384. -/
def i384 : Vector (BitVec 64) 8 :=
  #v[0xcbbb9d5dc1059ed8, 0x629a292a367cd507, 0x9159015a3070dd17, 0x152fecd8f70e5939,
     0x67332667ffc00b31, 0x8eb44a8768581511, 0xdb0c2e0d64f98fa7, 0x47b5481dbefa4fa4]

/-- The start of SHA-512. -/
def i512 : Vector (BitVec 64) 8 :=
  #v[0x6a09e667f3bcc908, 0xbb67ae8584caa73b, 0x3c6ef372fe94f82b, 0xa54ff53a5f1d36f1,
     0x510e527fade682d1, 0x9b05688c2b3e6c1f, 0x1f83d9abfb41bd6b, 0x5be0cd19137e2179]

/-- The block is added to the hash. -/
def sha256_compile : sha256_ctx → sha256_ctx := sha256Family.compile

/-- A part of a message is taken. -/
def sha256_hash : List UInt8 → sha256_ctx → sha256_ctx := sha256Family.hash

/-- The first bytes of the hash. -/
def sha_end1 : ℕ → sha256_ctx → List UInt8 := sha256Family.end_

/-- SHA-224 is started. -/
def sha224_begin : sha256_ctx → sha256_ctx := Context.begins i224

/-- The digest of SHA-224. -/
def sha224_end : sha256_ctx → List UInt8 := sha_end1 28

/-- SHA-256 is started. -/
def sha256_begin : sha256_ctx → sha256_ctx := Context.begins i256

/-- The digest of SHA-256. -/
def sha256_end : sha256_ctx → List UInt8 := sha_end1 32

/-- The block is added to the hash. -/
def sha512_compile : sha512_ctx → sha512_ctx := sha512Family.compile

/-- A part of a message is taken. -/
def sha512_hash : List UInt8 → sha512_ctx → sha512_ctx := sha512Family.hash

/-- The first bytes of the hash. -/
def sha_end2 : ℕ → sha512_ctx → List UInt8 := sha512Family.end_

/-- SHA-384 is started. -/
def sha384_begin : sha512_ctx → sha512_ctx := Context.begins i384

/-- The digest of SHA-384. -/
def sha384_end : sha512_ctx → List UInt8 := sha_end2 48

/-- SHA-512 is started. -/
def sha512_begin : sha512_ctx → sha512_ctx := Context.begins i512

/-- The digest of SHA-512. -/
def sha512_end : sha512_ctx → List UInt8 := sha_end2 64

/-! ### The digests of the standard -/

/-- The eight registers in the order of their names. -/
structure Registers (width : ℕ) where
  a : BitVec width
  b : BitVec width
  c : BitVec width
  d : BitVec width
  e : BitVec width
  f : BitVec width
  g : BitVec width
  h : BitVec width

/-- The registers as they stand. -/
def registersOf (hash : Vector (BitVec width) 8) : Registers width :=
  ⟨hash[0], hash[1], hash[2], hash[3], hash[4], hash[5], hash[6], hash[7]⟩

/-- The registers are added to the hash. -/
def Registers.sum (hash : Vector (BitVec width) 8) (registers : Registers width) :
    Vector (BitVec width) 8 :=
  #v[hash[0] + registers.a, hash[1] + registers.b, hash[2] + registers.c, hash[3] + registers.d,
    hash[4] + registers.e, hash[5] + registers.f, hash[6] + registers.g, hash[7] + registers.h]

namespace Family

variable (family : Family width)

/-- The words that follow from those of a block. -/
def schedule (words : Vector (BitVec width) 16) (t : ℕ) : BitVec width :=
  if t < 16 then words[Fin.ofNat 16 t]
  else family.g_1 (schedule words (t - 2)) + schedule words (t - 7) +
    family.g_0 (schedule words (t - 15)) + schedule words (t - 16)
termination_by t

/-- A round. -/
def round (words : Vector (BitVec width) 16) (registers : Registers width) (t : ℕ) :
    Registers width :=
  let ⟨a, b, c, d, e, f, g, h⟩ := registers
  let choice := (e &&& f) ^^^ (~~~e &&& g)
  let majority := (a &&& b) ^^^ (a &&& c) ^^^ (b &&& c)
  let first := h + family.s_1 e + choice + family.k_0.getD t 0 + family.schedule words t
  let second := family.s_0 a + majority
  ⟨first + second, a, b, c, d + first, e, f, g⟩

/-- A block of words is added to the hash. -/
def compressWords (hash : Vector (BitVec width) 8) (words : Vector (BitVec width) 16) :
    Vector (BitVec width) 8 :=
  ((List.range (family.turns * 16)).foldl (family.round words) (registersOf hash)).sum hash

/-- The words of a block, the highest byte of each first. -/
def words (block : List UInt8) : Vector (BitVec width) 16 :=
  Vector.ofFn fun i => big (slice family.size block i)

/-- A block of bytes is added to the hash. -/
def compress (hash : Vector (BitVec width) 8) (block : List UInt8) : Vector (BitVec width) 8 :=
  family.compressWords hash (family.words block)

/-- A one, zeros up to the last two words of a block, and the number of bits. -/
def padding (length : ℕ) : List UInt8 :=
  0x80 :: List.replicate ((30 * family.size - 1 - length % family.block) % family.block) 0 ++
    bigBytes (2 * family.size) (BitVec.ofNat (2 * width) (8 * length))

/-- The first bytes of the hash of a message. -/
def digest (start : Vector (BitVec width) 8) (hlen : ℕ) (message : List UInt8) : List UInt8 :=
  ((absorb family.compress family.block start
    (message ++ family.padding message.length)).toList.flatMap (bigBytes family.size)).take hlen

/-! ### One block -/

theorem schedule_of_lt (words : Vector (BitVec width) 16) {t : ℕ} (first : t < 16) :
    family.schedule words t = words[Fin.ofNat 16 t] := by
  rw [schedule, if_pos first]

theorem schedule_of_le (words : Vector (BitVec width) 16) {t : ℕ} (later : 16 ≤ t) :
    family.schedule words t =
      family.g_1 (family.schedule words (t - 2)) + family.schedule words (t - 7) +
        family.g_0 (family.schedule words (t - 15)) + family.schedule words (t - 16) := by
  rw [schedule, if_neg (by omega)]

theorem hf_eq {words p : Vector (BitVec width) 16} {t : ℕ} (later : 16 ≤ t)
    (holds : Holds p (family.schedule words) t) :
    family.hf p (Fin.ofNat 16 t) =
      p.set (Fin.ofNat 16 t) (family.schedule words t) (Fin.ofNat 16 t).isLt := by
  have second := holds.ahead (show 14 < 16 by decide) later
  have seventh := holds.ahead (show 9 < 16 by decide) later
  have fifteenth := holds.ahead (show 1 < 16 by decide) later
  rw [show t + 14 - 16 = t - 2 by omega] at second
  rw [show t + 9 - 16 = t - 7 by omega] at seventh
  rw [show t + 1 - 16 = t - 15 by omega] at fifteenth
  rw [schedule_of_le family words later, ← second, ← seventh, ← fifteenth, ← holds.oldest later,
    BitVec.add_comm _ (p[Fin.ofNat 16 t])]
  rfl

/-- Before a round the buffer has the words of the block, or the last sixteen. -/
theorem holds_words (words : Vector (BitVec width) 16) :
    Holds words (family.schedule words) 16 := fun _ before _ =>
  (family.schedule_of_lt words before).symm

/-- The buffer of a round, where the first sixteen rounds leave it as it is. -/
def nextBuffer (t : ℕ) (p : Vector (BitVec width) 16) : Vector (BitVec width) 16 :=
  if t / 16 * 16 ≠ 0 then family.hf p (Fin.ofNat 16 t) else p

theorem nextBuffer_holds {words p : Vector (BitVec width) 16} {t : ℕ}
    (holds : Holds p (family.schedule words) (max t 16)) :
    Holds (family.nextBuffer t p) (family.schedule words) (max (t + 1) 16) ∧
      (family.nextBuffer t p)[Fin.ofNat 16 t] = family.schedule words t := by
  unfold nextBuffer
  by_cases later : 16 ≤ t
  · rw [Nat.max_eq_left later] at holds
    rw [if_pos (by omega), Nat.max_eq_left (by omega), family.hf_eq later holds]
    refine ⟨holds_set holds, ?_⟩
    rw [getElem_set, if_pos rfl]
  · rw [Nat.max_eq_right (by omega)] at holds
    rw [if_neg (by omega), Nat.max_eq_right (by omega)]
    exact ⟨holds, holds t (by omega) (by omega)⟩

end Family

theorem ch_eq (x y z : BitVec width) : ch x y z = (x &&& y) ^^^ (~~~x &&& z) := by
  refine BitVec.eq_of_getLsbD_eq fun i inside => ?_
  simp only [ch, BitVec.getLsbD_xor, BitVec.getLsbD_and, BitVec.getLsbD_not, inside]
  cases x.getLsbD i <;> cases y.getLsbD i <;> cases z.getLsbD i <;> rfl

theorem maj_eq (x y z : BitVec width) :
    maj x y z = (x &&& y) ^^^ (x &&& z) ^^^ (y &&& z) := by
  refine BitVec.eq_of_getLsbD_eq fun i inside => ?_
  simp only [maj, BitVec.getLsbD_xor, BitVec.getLsbD_and, BitVec.getLsbD_or]
  cases x.getLsbD i <;> cases y.getLsbD i <;> cases z.getLsbD i <;> rfl

/-- The registers by their names in a round. -/
def view (registers : Vector (BitVec width) 8) (t : ℕ) : Registers width :=
  ⟨named registers t 0, named registers t 1, named registers t 2, named registers t 3,
    named registers t 4, named registers t 5, named registers t 6, named registers t 7⟩

theorem view_succ (registers : Vector (BitVec width) 8) (t : ℕ)
    (first second third : BitVec width) :
    view (setNamed (setNamed (setNamed registers t 7 first) t 3 second) t 7 third) (t + 1) =
      ⟨third, named registers t 0, named registers t 1, named registers t 2, second,
        named registers t 4, named registers t 5, named registers t 6⟩ := by
  simp only [view, named_succ, named_setNamed]
  rfl

namespace Family

variable (family : Family width)

theorem v_cycle_eq (t : ℕ) (v : Vector (BitVec width) 8) {words p : Vector (BitVec width) 16}
    (holds : Holds p (family.schedule words) (max t 16)) :
    view (family.v_cycle (t % 16) (t / 16 * 16) (v, p)).1 (t + 1) =
        family.round words (view v t) t ∧
      (family.v_cycle (t % 16) (t / 16 * 16) (v, p)).2 = family.nextBuffer t p := by
  have place : t % 16 + t / 16 * 16 = t := by omega
  have word := (family.nextBuffer_holds holds).2
  have buffer : (if t / 16 * 16 ≠ 0 then family.hf p (Fin.ofNat 16 t) else p) =
      family.nextBuffer t p := rfl
  have eight : 8 ∣ 16 := by decide
  have sixteen : 16 ∣ 16 := by decide
  unfold v_cycle
  simp only [place, named_mod_of_dvd eight, setNamed_mod_of_dvd eight, ofNat_mod_of_dvd sixteen]
  simp only [buffer, word, and_true]
  rw [view_succ]
  have apart : (7 : Fin 8) ≠ 3 := by decide
  have others : ∀ name : Fin 8, name < 3 → ¬ (3 : Fin 8) = name ∧ ¬ (7 : Fin 8) = name := by decide
  simp only [named_setNamed, if_pos, if_neg apart, if_neg apart.symm, others 0 (by decide),
    others 1 (by decide), others 2 (by decide), if_false, round, view, ch_eq, maj_eq]
  simp only [Registers.mk.injEq, and_true, true_and]
  refine ⟨?_, ?_⟩
  · ac_rfl
  · ac_rfl

theorem v_cycle_foldl (v : Vector (BitVec width) 8) (words : Vector (BitVec width) 16) (count : ℕ) :
    let after := (List.range count).foldl
      (fun state t => family.v_cycle (t % 16) (t / 16 * 16) state) (v, words)
    view after.1 count = (List.range count).foldl (family.round words) (view v 0) ∧
      Holds after.2 (family.schedule words) (max count 16) := by
  induction count with
  | zero => exact ⟨rfl, family.holds_words words⟩
  | succ count inductionHypothesis =>
    obtain ⟨registers, holds⟩ := inductionHypothesis
    rw [List.range_succ, List.foldl_concat, List.foldl_concat]
    obtain ⟨registersNext, buffer⟩ := family.v_cycle_eq count _ holds
    refine ⟨?_, ?_⟩
    · rw [registersNext, registers]
    · rw [buffer]
      exact (family.nextBuffer_holds holds).1

/-- The rounds of the code are those of the standard on the words of the buffer. -/
theorem hash_compile (ctx : Context width) :
    (family.compile ctx).hash = family.compressWords ctx.hash ctx.wbuf := by
  have run := (family.v_cycle_foldl ctx.hash ctx.wbuf (family.turns * 16)).1
  rw [← foldl_range_mul (fun state j i => family.v_cycle i (j * 16) state) family.turns
    (by decide)] at run
  have turned : 8 ∣ family.turns * 16 := Nat.dvd_mul_left_of_dvd (by decide) _
  simp only [view, named_of_dvd _ turned, named_zero] at run
  rw [compile, compressWords]
  simp only
  generalize (List.range family.turns).foldl _ (ctx.hash, ctx.wbuf) = after at run ⊢
  refine Vector.ext fun i inside => ?_
  rw [Vector.getElem_zipWith]
  match i with
  | 0 => exact congrArg (ctx.hash[0] + Registers.a ·) run
  | 1 => exact congrArg (ctx.hash[1] + Registers.b ·) run
  | 2 => exact congrArg (ctx.hash[2] + Registers.c ·) run
  | 3 => exact congrArg (ctx.hash[3] + Registers.d ·) run
  | 4 => exact congrArg (ctx.hash[4] + Registers.e ·) run
  | 5 => exact congrArg (ctx.hash[5] + Registers.f ·) run
  | 6 => exact congrArg (ctx.hash[6] + Registers.g ·) run
  | 7 => exact congrArg (ctx.hash[7] + Registers.h ·) run

end Family

end CommonCpp.Sha2
