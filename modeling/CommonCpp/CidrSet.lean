/-
This file settles what network a `cidr` is set to by a text.

The text is an address, and behind a slash the number of the bits that its network has. `set` makes
the netmask from the number one bit after the other, and has the C library read the address. The
functions of the library are parameters, and a write behind the netmask has no outcome.

The number is not compared with the width of an address. And for IPv6 the slash is cut off from the
text of the caller, and not from the copy that the library is to read: it refuses the copy, and the
network stays what it was. A caller's text that is not writable, such as a literal, has no outcome
there. The address of IPv4 is completed to three dots before it is read.
-/

import CommonCpp.BoundedText
import CommonCpp.Cidr
import CommonCpp.Hex
import CommonCpp.Octets

namespace CommonCpp

open Ctype Bytes

namespace Cidr

/-! ### The code -/

/-- An address of so many bytes. -/
abbrev Addr (size : ℕ) := { bytes : List UInt8 // bytes.length = size }

/-- What the C library reads in a text: `inet_aton`, `inet_addr`, and `inet_pton` for IPv6. -/
structure Inet where
  aton : Text → Option (Addr 4)
  addr : Text → Addr 4
  pton : Text → Option (Addr 16)

/-- What is behind the character that `strchr` finds. -/
def behind (ch : UInt8) (cp : Text) : Option Text :=
  match (string cp).dropWhile (· ≠ ch) with
  | [] => none
  | _ :: sp => some sp

/-- What is behind the character that `strrchr` finds. -/
def behindLast (ch : UInt8) (cp : Text) : Text := ((string cp).reverse.takeWhile (· ≠ ch)).reverse

/-- The number as an `unsigned`. -/
def atoi (cp : Text) : ℕ := Hex.unsigned (atol cp)

/-- The loop that steps over two characters where the first is a zero. A text that ends with the
first is read behind its end, which has no outcome. -/
def zeros : Text → Option Text
  | [] => some []
  | [ch] => if ch = 0x30 then none else some [ch]
  | ch :: next :: sp => if ch = 0x30 then zeros sp else some (ch :: next :: sp)

/-- The loop over the groups of an address of IPv6: the bits up to the last row of empty groups. -/
def groups (count rcount : ℕ) (flag : Bool) : Text → ℕ
  | [] => rcount
  | ch :: cp =>
    if count ≥ 128 then rcount
    else if ch ≠ 0x3a then groups count rcount flag cp
    else
      have := (List.dropWhile_sublist (· = 0x30) (l := cp)).length_le
      if (cp.dropWhile (· = 0x30)).head? = some 0x3a then
        groups (count + 16) (if flag then rcount else count + 16) true (cp.dropWhile (· = 0x30))
      else groups (count + 16) rcount false (cp.dropWhile (· = 0x30))
termination_by cp => cp.length

/-- The loop over the dots of an address of IPv4, for the parts behind the first. -/
def dots : ℕ → Text → List UInt8
  | _, [] => []
  | left, ch :: gp =>
    if left = 0 then []
    else if ch = 0x2e then UInt8.ofNat (atoi gp) :: dots (left - 1) gp
    else dots left gp

/-- `mask(const char *)`. -/
def maskText (inet : Inet) (family : Family) (cp : Text) : Option ℕ :=
  match family with
  | .unspec => some 0
  | .inet6 =>
    match behind 0x2f cp with
    | some sp => some (atoi sp)
    | none =>
      if [0x66, 0x66, 0x30, 0x30, 0x3a].isPrefixOf (string cp) then some 8
      else if [0x66, 0x66, 0x38, 0x30, 0x3a].isPrefixOf (string cp) then some 10
      else if [0x32, 0x30, 0x30, 0x32, 0x3a].isPrefixOf (string cp) then some 16
      else (zeros (behindLast 0x3a cp)).map fun sp =>
        if sp = [] then groups 0 0 false (string cp) else 128
  | .inet =>
    match behind 0x2f cp with
    | some sp => some (if 0x2e ∉ sp then atoi sp else bitcount (inet.addr sp).1)
    | none =>
      let parts := UInt8.ofNat (atoi cp) :: dots 3 (string cp)
      some (if parts.getD 3 0 ≠ 0 then 32
        else if parts.getD 2 0 ≠ 0 then 24
        else if parts.getD 1 0 ≠ 0 then 16
        else 8)

/-- The bytes written over the first ones of the union. -/
def store (host : Hostaddr) (bytes : List UInt8) : Hostaddr :=
  ⟨(bytes ++ host.1.drop bytes.length).take 16, by
    rw [List.length_take, List.length_append, List.length_drop, host.2]
    omega⟩

/-- The text with a null in the place of its slash, if it has one. -/
def cut (text : Text) : Text :=
  if 0x2f ∈ string text then text.set ((string text).idxOf 0x2f) 0 else text

/-- `*ep = 0` in the text of the caller, where it has a slash. -/
def cutCaller (writable : Bool) (cp : Text) : Option Text :=
  if 0x2f ∈ string cp ∧ !writable then none else some (cut cp)

/-- The loop that appends what is missing to an address in `cbuf`. -/
def pad : ℕ → Text → Option Text
  | 0, cbuf => some cbuf
  | missing + 1, cbuf => do pad missing (← BoundedText.add cbuf 128 [0x2e, 0x30])

/-- The network with what the library has read, which writes nothing when it refuses a text. -/
def received (network : Hostaddr) : Option (List UInt8) → Hostaddr
  | some bytes => store network bytes
  | none => network

/-- The end of both branches of `set`: the network keeps the bits of the mask. -/
def masked (netmask network : Hostaddr) (size : ℕ) : Hostaddr :=
  store network (bitmask (network.1.take size) (netmask.1.take size))

/-- `set`, with the memory of the caller's text after it, which may be writable. What `cbuf` holds
at first is not read. -/
def set (inet : Inet) (writable : Bool) (cidr : Cidr) (cp : Text) : Option (Cidr × Text) :=
  let cbuf := List.replicate 128 0
  if 0x3a ∈ string cp then do
    let netmask ← bitset (List.replicate 16 0) (← maskText inet .inet6 cp)
    let cbuf ← BoundedText.set cbuf 0 128 cp
    let netmask := store cidr.netmask netmask
    let cp ← cutCaller writable cp
    let network := received cidr.network ((inet.pton (string cbuf)).map Subtype.val)
    some (⟨.inet6, netmask, masked netmask network 16⟩, cp)
  else do
    let netmask ← bitset (List.replicate 4 0) (← maskText inet .inet cp)
    let cbuf := cut (← BoundedText.set cbuf 0 128 cp)
    let cbuf ← pad (3 - (string cbuf).count 0x2e) cbuf
    let netmask := store cidr.netmask netmask
    let network := received cidr.network ((inet.aton (string cbuf)).map Subtype.val)
    some (⟨.inet, netmask, masked netmask network 4⟩, cp)

/-! ### The bits of a netmask -/

theorem byteBits_eq (byte : UInt8) :
    Octets.byteBits byte = masks.map fun mask => decide (mask &&& byte ≠ 0) := by
  have every : ∀ value : Fin 256, Octets.byteBits (UInt8.ofNat value) =
      masks.map fun mask => decide (mask &&& UInt8.ofNat value ≠ 0) := by decide +kernel
  have this := every ⟨byte.toNat, byte.toNat_lt⟩
  rwa [UInt8.ofNat_toNat] at this

/-- `bitcount` counts the ones that lead. -/
theorem bitcount_eq (bytes : List UInt8) :
    bitcount bytes = ((Octets.bits bytes).takeWhile id).length := by
  induction bytes with
  | nil => rfl
  | cons byte bytes inductionHypothesis =>
    have count : byteCount byte = ((Octets.byteBits byte).takeWhile id).length := by
      rw [byteBits_eq, List.takeWhile_map, List.length_map]
      rfl
    rw [bitcount, Octets.bits_cons, List.takeWhile_append, count, Octets.length_byteBits]
    split
    · rw [List.length_append, Octets.length_byteBits, inductionHypothesis]
    · rfl

/-- A round of `bitset` on a byte that is zero. -/
theorem bitset_cons (rest : List UInt8) (ones : ℕ) :
    bitset (0 :: rest) ones =
      (bitset rest (ones - 8)).map ((masks.take ones).foldl (· ||| ·) 0 :: ·) := by
  cases ones with
  | zero =>
    rw [Nat.zero_sub, bitset, bitset]
    rfl
  | succ ones => rfl

theorem byteBits_round (ones : ℕ) :
    Octets.byteBits ((masks.take ones).foldl (· ||| ·) 0) = Octets.mask 8 (min ones 8) := by
  have every : ∀ ones : Fin 9,
      Octets.byteBits ((masks.take ones).foldl (· ||| ·) 0) = Octets.mask 8 ones := by decide
  rw [← every ⟨min ones 8, Nat.lt_succ_of_le (Nat.min_le_right _ _)⟩]
  exact congrArg (fun taken => Octets.byteBits (List.foldl (· ||| ·) 0 taken))
    List.take_eq_take_min

/-- `bitset` makes a mask from zeros, and writes behind them when they are not enough. -/
theorem bitset_zeros (len ones : ℕ) :
    (ones ≤ 8 * len → ∃ netmask, bitset (List.replicate len 0) ones = some netmask ∧
        netmask.length = len ∧ Octets.bits netmask = Octets.mask (8 * len) ones) ∧
      (8 * len < ones → bitset (List.replicate len 0) ones = none) := by
  induction len generalizing ones with
  | zero =>
    cases ones with
    | zero => exact ⟨fun _ => ⟨[], rfl, rfl, rfl⟩, fun beyond => absurd beyond (Nat.lt_irrefl _)⟩
    | succ ones => exact ⟨fun within => absurd within (Nat.not_succ_le_zero _), fun _ => rfl⟩
  | succ len inductionHypothesis =>
    obtain ⟨fits, fails⟩ := inductionHypothesis (ones - 8)
    rw [List.replicate_succ, bitset_cons]
    constructor
    · intro within
      obtain ⟨netmask, made, length, bits_⟩ := fits (by omega)
      refine ⟨_, by rw [made]; rfl, by rw [List.length_cons, length], ?_⟩
      rw [Octets.bits_cons, byteBits_round, bits_, Octets.mask_append_mask, Nat.mul_succ,
        Nat.add_comm]
    · intro beyond
      rw [fails (by omega)]
      rfl

/-! ### Networks -/

variable {family : Family} {addr addr' : List UInt8} {ones : ℕ}

/-- The first bits of an address. -/
def firstBits (ones : ℕ) (addr : List UInt8) : List Bool := (Octets.bits addr).take ones

/-- The policy is the network that has the first bits of this address. -/
structure Represents (cidr : Cidr) (family : Family) (addr : List UInt8) (ones : ℕ) : Prop where
  family_eq : cidr.family = family
  getMask_eq : cidr.getMask = ones
  isMember_iff : ∀ s : Sockaddr, s.family = family →
    (cidr.isMember s = true ↔ firstBits ones s.addr = firstBits ones addr)
  broadcast_eq : Octets.bits cidr.broadcast =
    firstBits ones addr ++ List.replicate (8 * family.size - ones) true

theorem length_firstBits (length : addr.length = family.size) (fits : ones ≤ 8 * family.size) :
    (firstBits ones addr).length = ones :=
  List.length_take_of_le (by rwa [Octets.length_bits, length])

/-- An address under a mask keeps its first bits. -/
theorem bits_bitmask {netmask : List UInt8} (length : addr.length = family.size)
    (fits : ones ≤ 8 * family.size)
    (made : Octets.bits netmask = Octets.mask (8 * family.size) ones) :
    Octets.bits (bitmask addr netmask) =
      firstBits ones addr ++ List.replicate (8 * family.size - ones) false := by
  rw [bitmask, Octets.bits_and, made,
    Octets.zipWith_and_mask (by rw [Octets.length_bits, length]) fits]
  rfl

/-- A policy whose netmask and network are made of a mask and an address represents the first bits
of the address. -/
theorem represents_of_masked {cidr : Cidr} (known : cidr.family ≠ .unspec)
    (length : addr.length = cidr.family.size) (fits : ones ≤ 8 * cidr.family.size)
    (made : Octets.bits (cidr.netmask.1.take cidr.family.size) =
      Octets.mask (8 * cidr.family.size) ones)
    (network : cidr.network.1.take cidr.family.size =
      bitmask addr (cidr.netmask.1.take cidr.family.size)) :
    cidr.Represents cidr.family addr ones := by
  have networkBits := bits_bitmask length fits made
  rw [← network] at networkBits
  refine ⟨rfl, ?_, ?_, ?_⟩
  · have mask_ : cidr.getMask = bitcount (cidr.netmask.1.take cidr.family.size) := by
      unfold getMask
      split
      next unspec => exact absurd unspec known
      next => rfl
    rw [mask_, bitcount_eq, made, Octets.takeWhile_mask, List.length_replicate]
  · intro s family_
    have length_ : s.addr.length = cidr.family.size := s.length_addr.trans (congrArg _ family_)
    have member : cidr.isMember s = true ↔
        bitmask s.addr (cidr.netmask.1.take cidr.family.size) =
          cidr.network.1.take cidr.family.size := by
      unfold isMember
      rw [if_neg (not_not_intro family_)]
      split
      next unspec => exact absurd unspec known
      next => rw [decide_eq_true_eq, List.take_of_length_le length_.le]
    rw [member, ← Octets.bits_injective.eq_iff, networkBits, bits_bitmask length_ fits made,
      List.append_left_inj]
  · have broadcast_ : cidr.broadcast =
        bitimask (cidr.network.1.take cidr.family.size)
          (cidr.netmask.1.take cidr.family.size) := by
      unfold broadcast
      split
      next unspec => exact absurd unspec known
      next => rfl
    have whole : (Octets.bits (cidr.network.1.take cidr.family.size)).length =
        8 * cidr.family.size := by
      rw [networkBits, List.length_append, length_firstBits length fits, List.length_replicate,
        Nat.add_sub_cancel' fits]
    rw [broadcast_, bitimask, Octets.bits_or_not, made, Octets.zipWith_or_not_mask whole fits,
      networkBits, List.take_left' (length_firstBits length fits)]

/-- A policy that represents the first bits of one address represents those of another when they
are the same. -/
theorem Represents.iff_firstBits {cidr : Cidr} (represents : cidr.Represents family addr' ones)
    (length : addr.length = family.size) :
    cidr.Represents family addr ones ↔ firstBits ones addr' = firstBits ones addr := by
  constructor
  · intro also
    have itself := (also.isMember_iff ⟨family, addr, length⟩ rfl).mpr rfl
    exact ((represents.isMember_iff ⟨family, addr, length⟩ rfl).mp itself).symm
  · intro same
    obtain ⟨family_, mask_, member, broadcast_⟩ := represents
    rw [same] at broadcast_
    refine ⟨family_, mask_, fun s family_ => ?_, broadcast_⟩
    rw [member s family_, same]

/-! ### What is read -/

theorem string_cut (text : Text) : string (cut text) = (string text).takeWhile (· ≠ 0x2f) := by
  have upTo (chars : Text) :
      chars.take (chars.idxOf 0x2f) = chars.takeWhile (· ≠ 0x2f) := by
    induction chars with
    | nil => rfl
    | cons ch chars inductionHypothesis =>
      by_cases slash : ch = 0x2f
      · rw [slash, List.idxOf_cons_self, List.takeWhile_cons_of_neg (by decide), List.take_zero]
      · rw [List.idxOf_cons_ne _ slash, List.take_succ_cons, inductionHypothesis,
          List.takeWhile_cons_of_pos (by simpa using slash)]
  unfold cut
  split
  next => rw [string_set_zero, upTo]
  next missing =>
    refine (List.takeWhile_eq_self_iff.mpr fun ch member => ?_).symm
    exact decide_eq_true fun slash => missing (slash ▸ member)

theorem cut_ended {text : Text} (null : 0 ∈ text) :
    (cut text).length = text.length ∧ 0 ∈ cut text := by
  unfold cut
  split
  next slash =>
    have place : (string text).idxOf 0x2f < text.length :=
      (List.idxOf_lt_length_of_mem slash).trans_le (strlen_le_length text)
    exact ⟨List.length_set, List.mem_iff_getElem.mpr
      ⟨_, by rwa [List.length_set], List.getElem_set_self _⟩⟩
  next => exact ⟨rfl, null⟩

/-- An address with so many of its parts appended, as far as `cbuf` has room. -/
def padded : ℕ → Text → Text
  | 0, text => text
  | missing + 1, text => padded missing (text ++ [0x2e, 0x30].take (127 - text.length))

/-- The address of IPv4 that the C library is to read. -/
def completed (address : Text) : Text :=
  padded (3 - (address.take 127).count 0x2e) (address.take 127)

theorem pad_leaves (missing : ℕ) {cbuf : Text} (length : cbuf.length = 128) (null : 0 ∈ cbuf) :
    ∃ next, pad missing cbuf = some next ∧ string next = padded missing (string cbuf) := by
  induction missing generalizing cbuf with
  | zero => exact ⟨cbuf, rfl, rfl⟩
  | succ missing inductionHypothesis =>
    obtain ⟨next, added, null', text⟩ := BoundedText.add_leaves length null [0x2e, 0x30]
    have length' : next.length = 128 := by
      unfold BoundedText.add at added
      dsimp only at added
      split at added
      · cases added
        exact length
      next room =>
        rw [BoundedText.set_eq (by omega)] at added
        cases added
        rw [Cstring.length_bytes_set _ (by omega), length]
    obtain ⟨last, rest, read⟩ := inductionHypothesis length' null'
    refine ⟨last, ?_, ?_⟩
    · rw [pad, added]
      exact rest
    · rw [read, text]
      rfl

/-- What `cbuf` holds after the text has been copied to it. -/
theorem copied (cp : Text) :
    ∃ cbuf, BoundedText.set (List.replicate 128 0) 0 128 cp = some cbuf ∧ cbuf.length = 128 ∧
      0 ∈ cbuf ∧ string cbuf = (string cp).take 127 := by
  have inside : 0 + 128 ≤ (List.replicate 128 (0 : UInt8)).length := List.length_replicate.ge
  obtain ⟨cbuf, done, null, text⟩ :=
    BoundedText.set_leaves (by decide) (Nat.zero_le _) inside cp
  refine ⟨cbuf, done, ?_, null, text.trans (List.nil_append _)⟩
  rw [BoundedText.set_eq inside] at done
  cases done
  exact (Cstring.length_bytes_set _ inside cp).trans List.length_replicate

/-! ### The text of a network -/

/-- The text of an address and a number behind a slash, with its null. -/
def text (address number : Text) : Text := address ++ 0x2f :: number ++ [0]

/-- The number that is written in digits. -/
def numeral (number : Text) : ℕ := (digits number 0).1

/-- A number in decimal digits. -/
structure Decimal (number : Text) : Prop where
  filled : number ≠ []
  digits : ∀ ch ∈ number, isdigit ch

theorem Decimal.notMem {number : Text} (decimal : Decimal number) {ch : UInt8}
    (other : isdigit ch = false) : ch ∉ number := by
  intro member
  have digit := decimal.digits ch member
  rw [other] at digit
  cases digit

/-- `atoi` reads a number that an `unsigned` holds. -/
theorem Decimal.atoi_eq {number : Text} (decimal : Decimal number)
    (small : numeral number < 2 ^ 32) : atoi number = numeral number := by
  cases number with
  | nil => exact absurd rfl decimal.filled
  | cons first number =>
    rw [atoi, atol, strtol_eq (decimal.digits first List.mem_cons_self), Hex.unsigned]
    show (min (2 ^ 63 - 1) (numeral (first :: number) : ℤ) % 2 ^ 32).toNat = _
    omega

variable {address number : Text}

theorem string_text (plain : 0 ∉ address) (decimal : Decimal number) :
    string (text address number) = address ++ 0x2f :: number := by
  have noNull : 0 ∉ address ++ 0x2f :: number := by
    simp only [List.mem_append, List.mem_cons, not_or]
    exact ⟨plain, by decide, decimal.notMem (by decide)⟩
  rw [text, string_append noNull, string_cons_zero, List.append_nil]

theorem takeWhile_slash (noSlash : 0x2f ∉ address) (after : Text) :
    (address ++ 0x2f :: after).takeWhile (· ≠ 0x2f) = address ∧
      (address ++ 0x2f :: after).dropWhile (· ≠ 0x2f) = 0x2f :: after := by
  have others : ∀ ch ∈ address, decide (ch ≠ 0x2f) = true :=
    fun ch member => decide_eq_true fun slash => noSlash (slash ▸ member)
  rw [List.takeWhile_append_of_pos others, List.dropWhile_append_of_pos others,
    List.takeWhile_cons_of_neg (by decide), List.dropWhile_cons_of_neg (by decide),
    List.append_nil]
  exact ⟨rfl, rfl⟩

theorem behind_text (plain : 0 ∉ address) (noSlash : 0x2f ∉ address) (decimal : Decimal number) :
    behind 0x2f (text address number) = some number := by
  rw [behind, string_text plain decimal, (takeWhile_slash noSlash number).2]

/-! ### Setting -/

theorem take_store {bytes : List UInt8} (host : Hostaddr) (fits : bytes.length ≤ 16) :
    (store host bytes).1.take bytes.length = bytes := by
  rw [store, List.take_take, Nat.min_eq_left fits, List.take_left]

/-- The address that the network is made of: what was read, or what the network was. -/
def origin (network : Hostaddr) (read : Option (List UInt8)) (size : ℕ) : List UInt8 :=
  read.getD (network.1.take size)

/-- The policy that is left by `set` has the first bits of the address its network is made of. -/
theorem represents_masked {family : Family} (known : family ≠ .unspec) {made : List UInt8}
    (length : made.length = family.size) (fits : ones ≤ 8 * family.size)
    (bits_ : Octets.bits made = Octets.mask (8 * family.size) ones) (cidr : Cidr)
    {read : Option (List UInt8)} (read_ : ∀ bytes ∈ read, bytes.length = family.size) :
    (Cidr.mk family (store cidr.netmask made)
        (masked (store cidr.netmask made) (received cidr.network read) family.size)).Represents
      family (origin cidr.network read family.size) ones := by
  have small : family.size ≤ 16 := by cases family <;> decide
  have netmask : (store cidr.netmask made).1.take family.size = made := by
    rw [← length]
    exact take_store cidr.netmask (length.trans_le small)
  have origin_ : (received cidr.network read).1.take family.size =
      origin cidr.network read family.size := by
    cases read with
    | none => rfl
    | some bytes =>
      have size := read_ bytes rfl
      rw [← size]
      exact take_store cidr.network (size.trans_le small)
  have size : (origin cidr.network read family.size).length = family.size := by
    cases read with
    | none => exact List.length_take_of_le (cidr.network.2.symm ▸ small)
    | some bytes => exact read_ bytes rfl
  refine represents_of_masked known size fits (netmask.symm ▸ bits_) ?_
  have whole : (bitmask (origin cidr.network read family.size) made).length = family.size := by
    rw [bitmask, List.length_zipWith, size, length, Nat.min_self]
  have kept := take_store (received cidr.network read) (whole.trans_le small)
  rw [whole] at kept
  show (masked _ _ _).1.take family.size = _
  rw [masked, netmask, origin_]
  exact kept

/-- An address of IPv4 is read with what it lacks. -/
theorem set_inet (inet : Inet) (writable : Bool) (cidr : Cidr) (plain : 0 ∉ address)
    (noSlash : 0x2f ∉ address) (noColon : 0x3a ∉ address) (decimal : Decimal number) :
    set inet writable cidr (text address number) =
      (bitset (List.replicate 4 0) (atoi number)).map fun netmask =>
        (⟨.inet, store cidr.netmask netmask, masked (store cidr.netmask netmask)
          (received cidr.network ((inet.aton (completed address)).map Subtype.val)) 4⟩,
          text address number) := by
  have string_ := string_text plain decimal
  have colon : 0x3a ∉ string (text address number) := by
    simp only [string_, List.mem_append, List.mem_cons, not_or]
    exact ⟨noColon, by decide, decimal.notMem (by decide)⟩
  have noDot : (0x2e : UInt8) ∉ number := decimal.notMem (by decide)
  have ones : maskText inet .inet (text address number) = some (atoi number) := by
    simp only [maskText, behind_text plain noSlash decimal, noDot, not_false_eq_true, if_true]
  obtain ⟨cbuf, copied_, length, null, read⟩ := copied (text address number)
  obtain ⟨length', null'⟩ := cut_ended null
  have cut_ : string (cut cbuf) = address.take 127 := by
    rw [string_cut, read, string_, ← List.take_takeWhile, (takeWhile_slash noSlash number).1]
  obtain ⟨last, padded_, complete⟩ :=
    pad_leaves (3 - (string (cut cbuf)).count 0x2e) (length'.trans length) null'
  rw [cut_] at padded_ complete
  rw [set, if_neg colon, ones, Option.bind_eq_bind, Option.bind_some]
  cases bitset (List.replicate 4 0) (atoi number) with
  | none => rfl
  | some netmask =>
    simp only [Option.bind_eq_bind, Option.bind_some, copied_, padded_, complete, cut_,
      Option.map_some, completed]

/-- For IPv6 the library is to read the whole text, if that of the caller is writable. -/
theorem set_inet6 (inet : Inet) (writable : Bool) (cidr : Cidr) (plain : 0 ∉ address)
    (noSlash : 0x2f ∉ address) (colon : 0x3a ∈ address) (decimal : Decimal number) :
    set inet writable cidr (text address number) =
      (bitset (List.replicate 16 0) (atoi number)).bind fun netmask =>
        if writable then
          some (⟨.inet6, store cidr.netmask netmask, masked (store cidr.netmask netmask)
            (received cidr.network
              ((inet.pton ((address ++ 0x2f :: number).take 127)).map Subtype.val)) 16⟩,
            cut (text address number))
        else none := by
  have string_ := string_text plain decimal
  have colon_ : 0x3a ∈ string (text address number) := by
    rw [string_]
    exact List.mem_append_left _ colon
  have ones : maskText inet .inet6 (text address number) = some (atoi number) := by
    simp only [maskText, behind_text plain noSlash decimal]
  obtain ⟨cbuf, copied_, -, -, read⟩ := copied (text address number)
  have slash : 0x2f ∈ address ++ 0x2f :: number := List.mem_append_right _ List.mem_cons_self
  rw [set, if_pos colon_, ones, Option.bind_eq_bind, Option.bind_some]
  cases bitset (List.replicate 16 0) (atoi number) with
  | none => rfl
  | some netmask =>
    simp only [Option.bind_eq_bind, Option.bind_some, copied_, cutCaller, read, string_, slash,
      true_and]
    cases writable <;> rfl

/-! ### What a text represents -/

/-- What the library reads as an address of a family. -/
def Inet.reads (inet : Inet) : Family → Text → Option (List UInt8)
  | .unspec, _ => none
  | .inet, address => (inet.aton address).map Subtype.val
  | .inet6, address => (inet.pton address).map Subtype.val

/-- What the library documents of the addresses it reads: no text with a null or a slash, those of
IPv4 without a colon; those of IPv6 with one, and short of `INET6_ADDRSTRLEN`. -/
structure Inet.Documented (inet : Inet) : Prop where
  aton_chars : ∀ address, (inet.aton address).isSome →
    0 ∉ address ∧ 0x2f ∉ address ∧ 0x3a ∉ address
  pton_chars : ∀ address, (inet.pton address).isSome →
    0 ∉ address ∧ 0x2f ∉ address ∧ 0x3a ∈ address ∧ address.length < 46

/-- The text sets the policy to the network that it denotes, whatever the policy was, and nothing
behind the netmask is written. -/
def Denotes (inet : Inet) (writable : Bool) (family : Family) (address number : Text)
    (addr : List UInt8) : Prop :=
  ∀ cidr, ∃ next, set inet writable cidr (text address number) = some next ∧
    (numeral number ≤ 8 * family.size → next.1.Represents family addr (numeral number))

/-- What was read agrees with the address in its first bits, if these are any. -/
def Agrees (read : Option (List UInt8)) (ones : ℕ) (addr : List UInt8) : Prop :=
  ones = 0 ∨ ∃ bytes, read = some bytes ∧ firstBits ones bytes = firstBits ones addr

/-- A network that was not read has any bits. -/
theorem origin_agrees_iff {read : Option (List UInt8)} (known : family ≠ .unspec)
    (length : addr.length = family.size) :
    (∀ network, firstBits ones (origin network read family.size) = firstBits ones addr) ↔
      Agrees read ones addr := by
  cases ones with
  | zero => exact iff_of_true (fun _ => rfl) (.inl rfl)
  | succ ones =>
    cases read with
    | some bytes =>
      constructor
      · intro agree
        exact .inr ⟨bytes, rfl, agree (filled 0)⟩
      · rintro (none_ | ⟨bytes, same, agree⟩) network
        · cases none_
        · cases same
          exact agree
    | none =>
      refine iff_of_false (fun agree => ?_) ?_
      · -- The networks of zeros only and of ones only cannot both agree.
        have alike := (agree (filled 0)).trans (agree (filled 0xff)).symm
        have first := congrArg (List.take 1) alike
        rw [firstBits, firstBits, List.take_take, List.take_take,
          Nat.min_eq_left (Nat.le_add_left 1 ones)] at first
        cases family with
        | unspec => exact known rfl
        | inet => exact absurd first (by decide)
        | inet6 => exact absurd first (by decide)
      · rintro (none_ | ⟨bytes, none_, -⟩) <;> cases none_

/-- What a text denotes when the library reads the same in it whatever the policy was. -/
theorem denotes_iff_of_set {inet : Inet} {writable : Bool} {read : Option (List UInt8)}
    {after : Text} (known : family ≠ .unspec) (length : addr.length = family.size)
    (read_ : ∀ bytes ∈ read, bytes.length = family.size) (decimal : Decimal number)
    (set_ : ∀ cidr, set inet writable cidr (text address number) =
      (bitset (List.replicate family.size 0) (atoi number)).map fun netmask =>
        (⟨family, store cidr.netmask netmask, masked (store cidr.netmask netmask)
          (received cidr.network read) family.size⟩, after)) :
    Denotes inet writable family address number addr ↔
      atoi number ≤ 8 * family.size ∧
        (numeral number ≤ 8 * family.size → Agrees read (numeral number) addr) := by
  obtain ⟨fits, fails⟩ := bitset_zeros family.size (atoi number)
  by_cases within : atoi number ≤ 8 * family.size
  · obtain ⟨made, made_, size, bits_⟩ := fits within
    rw [made_] at set_
    have denotes (cidr : Cidr) : (∃ next, set inet writable cidr (text address number) = some next ∧
        (numeral number ≤ 8 * family.size →
          next.1.Represents family addr (numeral number))) ↔
        (numeral number ≤ 8 * family.size →
          firstBits (numeral number) (origin cidr.network read family.size) =
            firstBits (numeral number) addr) := by
      have represents (small : numeral number ≤ 8 * family.size) :=
        have wide : 8 * family.size ≤ 128 := by cases family <;> decide
        have same : atoi number = numeral number :=
          decimal.atoi_eq (lt_of_le_of_lt (small.trans wide) (by decide))
        (represents_masked known size small (same ▸ bits_) cidr read_).iff_firstBits length
      rw [set_ cidr]
      constructor
      · rintro ⟨next, done, right⟩ small
        cases done
        exact (represents small).mp (right small)
      · intro agree
        exact ⟨_, rfl, fun small => (represents small).mpr (agree small)⟩
    rw [← origin_agrees_iff known length]
    constructor
    · intro all
      refine ⟨within, fun small network => ?_⟩
      exact (denotes ⟨family, network, network⟩).mp (all _) small
    · rintro ⟨-, agree⟩ cidr
      exact (denotes cidr).mpr fun small => agree small cidr.network
  · rw [fails (not_le.mp within)] at set_
    refine iff_of_false (fun all => ?_) fun right => within right.1
    obtain ⟨next, done, -⟩ := all ⟨family, filled 0, filled 0⟩
    rw [set_] at done
    cases done

/-- A text denotes its network when it is writable or one of IPv4, the number is no more than the
bits of an address, as `atoi` reads it, and is zero, or the address is one of IPv4 that has its
first bits when it is completed to three dots. -/
theorem denotes_iff {inet : Inet} (documented : inet.Documented) (writable : Bool)
    {family : Family} {address number : Text} {addr : List UInt8}
    (numeric : inet.reads family address = some addr) (decimal : Decimal number) :
    Denotes inet writable family address number addr ↔
      (writable ∨ family = .inet) ∧ atoi number ≤ 8 * family.size ∧
        (numeral number ≤ 8 * family.size → numeral number = 0 ∨ family = .inet ∧
          ∃ bytes, inet.aton (completed address) = some bytes ∧
            firstBits (numeral number) bytes.1 = firstBits (numeral number) addr) := by
  cases family with
  | unspec => cases numeric
  | inet =>
    obtain ⟨bytes, read, rfl⟩ := Option.map_eq_some_iff.mp numeric
    obtain ⟨plain, noSlash, noColon⟩ := documented.aton_chars address (by rw [read]; rfl)
    have sized : ∀ bytes ∈ (inet.aton (completed address)).map Subtype.val,
        bytes.length = 4 := by
      intro bytes member
      obtain ⟨read, -, rfl⟩ := Option.map_eq_some_iff.mp member
      exact read.2
    rw [denotes_iff_of_set (by decide) bytes.2 sized decimal
      fun cidr => set_inet inet writable cidr plain noSlash noColon decimal]
    simp only [Agrees, or_true, true_and, Option.map_eq_some_iff, exists_exists_and_eq_and]
  | inet6 =>
    obtain ⟨bytes, read, rfl⟩ := Option.map_eq_some_iff.mp numeric
    obtain ⟨plain, noSlash, colon, short⟩ := documented.pton_chars address (by rw [read]; rfl)
    -- The slash is within what is copied, and no text with a slash is an address.
    have refused : inet.pton ((address ++ 0x2f :: number).take 127) = none := by
      by_contra some_
      refine (documented.pton_chars _ (Option.isSome_iff_ne_none.mpr some_)).2.1 ?_
      rw [List.take_append, List.mem_append]
      right
      rw [show 127 - address.length = (126 - address.length) + 1 by omega, List.take_succ_cons]
      exact List.mem_cons_self
    have set_ := fun cidr => set_inet6 inet writable cidr plain noSlash colon decimal
    cases writable with
    | false =>
      refine iff_of_false (fun denotes => ?_) (by simp)
      obtain ⟨next, done, -⟩ := denotes ⟨.unspec, filled 0, filled 0⟩
      rw [set_, Option.bind_eq_some_iff] at done
      obtain ⟨netmask, -, none_⟩ := done
      cases none_
    | true =>
      rw [denotes_iff_of_set (by decide) bytes.2 (by rw [refused]; intro _ none_; cases none_)
        decimal fun cidr => (set_ cidr).trans Option.map_eq_bind.symm]
      simp only [refused, Agrees, Option.map_none, reduceCtorEq, false_and, exists_false, or_false,
        true_and]

/-- A library that reads the address 10.1.2.3 of IPv4 and the address ::1 of IPv6. -/
def twoAddresses : Inet where
  aton address :=
    if address = [0x31, 0x30, 0x2e, 0x31, 0x2e, 0x32, 0x2e, 0x33] then some ⟨[10, 1, 2, 3], rfl⟩
    else none
  addr _ := ⟨[0xff, 0xff, 0xff, 0xff], rfl⟩
  pton address :=
    if address = [0x3a, 0x3a, 0x31] then some ⟨List.replicate 15 0 ++ [1], rfl⟩ else none

theorem documented_twoAddresses : twoAddresses.Documented := by
  constructor
  · intro address some_
    have address_ : address = [0x31, 0x30, 0x2e, 0x31, 0x2e, 0x32, 0x2e, 0x33] := by
      by_contra other
      dsimp only [twoAddresses] at some_
      rw [if_neg other] at some_
      cases some_
    rw [address_]
    decide
  · intro address some_
    have address_ : address = [0x3a, 0x3a, 0x31] := by
      by_contra other
      dsimp only [twoAddresses] at some_
      rw [if_neg other] at some_
      cases some_
    rw [address_]
    decide

/-- The text 10.1.2.3/8 denotes its network. -/
theorem denotes_iff_quad :
    Denotes twoAddresses false .inet [0x31, 0x30, 0x2e, 0x31, 0x2e, 0x32, 0x2e, 0x33] [0x38]
      [10, 1, 2, 3] :=
  (denotes_iff documented_twoAddresses false (by decide) ⟨by decide, by decide +kernel⟩).mpr
    ⟨by decide, by decide, fun _ => .inr ⟨rfl, ⟨[10, 1, 2, 3], rfl⟩, by decide, rfl⟩⟩

/-- The text ::1/64 does not denote its network, and 10.1.2.3/33 has the cidr write behind its
netmask. -/
theorem not_denoted :
    ¬ Denotes twoAddresses true .inet6 [0x3a, 0x3a, 0x31] [0x36, 0x34]
        (List.replicate 15 0 ++ [1]) ∧
      ∀ cidr, set twoAddresses false cidr
        (text [0x31, 0x30, 0x2e, 0x31, 0x2e, 0x32, 0x2e, 0x33] [0x33, 0x33]) = none := by
  constructor
  · intro denotes
    obtain ⟨next, done, right⟩ := denotes ⟨.unspec, filled 0xff, filled 0xff⟩
    have missed : (set twoAddresses true ⟨.unspec, filled 0xff, filled 0xff⟩
        (text [0x3a, 0x3a, 0x31] [0x36, 0x34])).map
          (·.1.isMember ⟨.inet6, List.replicate 15 0 ++ [1], rfl⟩) = some false := by
      decide +kernel
    have found := ((right (by decide)).isMember_iff
      ⟨.inet6, List.replicate 15 0 ++ [1], rfl⟩ rfl).mpr rfl
    rw [done, Option.map_some, found] at missed
    cases missed
  · intro cidr
    have nothing : (bitset (List.replicate 4 0) (atoi [0x33, 0x33])) = none := by decide +kernel
    rw [set_inet twoAddresses false cidr (by decide) (by decide) (by decide)
      ⟨by decide, by decide +kernel⟩, nothing]
    rfl

end Cidr

end CommonCpp
