/-
This file models the archiver `car`: how messages and files are encoded into frames of
48 bytes, how frames are decoded, and how an archive keeps them, as bytes or as lines of
base64 in a wrapper.

A frame is read before the one before it is decoded, because only the last frame of a
message or of a file has its length in its last byte. The first frame of a message has
six null bytes in front; each file has a frame with its size and name in front of it.

The cipher is not part of this library. It is any pair of an encryption and a decryption
of frames one after another, where what is encrypted is decrypted again. What the file
system answers, and the user who is asked, is part of a decoding. Reports are left out,
and so is a text without its wrapper, in which no archive is looked for.
-/

import Mathlib.Data.List.Infix
import CommonCpp.Base64
import CommonCpp.Bytes
import CommonCpp.KeyfileText

namespace CommonCpp

namespace Car

/-! ### The cipher -/

/-- `sizeof(frame)`, which is also that of `cbuf`. -/
def frameSize : Nat := 48

abbrev Frame := List UInt8

/-- A cipher after `set`, and `put`, which fills `cbuf` from a frame. -/
structure Cipher (Context : Type) where
  set : Context
  put : Context → Frame → Frame × Context
  length_put : ∀ context frame, frame.length = frameSize → (put context frame).1.length = frameSize

variable {Context : Type}

/-- Frames are put one after another. -/
def Cipher.puts (cipher : Cipher Context) : Context → List Frame → List Frame × Context
  | context, [] => ([], context)
  | context, frame :: rest =>
    let (cbuf, context) := cipher.put context frame
    let (cbufs, context) := cipher.puts context rest
    (cbuf :: cbufs, context)

/-- An encryption and a decryption with the same key. -/
structure Ciphers (Context : Type) where
  encryption : Cipher Context
  decryption : Cipher Context
  inverse : ∀ frames : List Frame, (∀ frame ∈ frames, frame.length = frameSize) →
    (decryption.puts decryption.set (encryption.puts encryption.set frames).1).1 = frames

/-! ### The code -/

/-- `lsb_setlong`. -/
def lsb_setlong (b : Frame) (v : Nat) : Frame :=
  (((b.set 0 (UInt8.ofNat v)).set 1 (UInt8.ofNat (v / 256))).set 2
    (UInt8.ofNat (v / 65536))).set 3 (UInt8.ofNat (v / 16777216))

/-- `lsb_getlong`. -/
def lsb_getlong (b : Frame) : Nat :=
  (b.getD 3 0).toNat * 16777216 + (b.getD 2 0).toNat * 65536 + (b.getD 1 0).toNat * 256 +
    (b.getD 0 0).toNat

/-- `memset(frame, 0, sizeof(frame))`. -/
def cleared : Frame := List.replicate frameSize 0

/-! #### Encoding -/

/-- The buffer, the cipher, and what has been written to `output`. -/
structure Encoder (Context : Type) where
  frame : Frame
  cipher : Context
  output : List UInt8

section Encoding

variable (encryption : Cipher Context) (binary : Bool)

/-- What is written for a `cbuf`. -/
def written (cbuf : Frame) : List UInt8 :=
  if binary then cbuf else Bytes.string (Base64.b64encode cbuf 0).1 ++ [0x0a]

/-- A frame is enciphered and written. -/
def putFrame (state : Encoder Context) (frame : Frame) : Encoder Context :=
  let (cbuf, cipher) := encryption.put state.cipher frame
  ⟨frame, cipher, state.output ++ written binary cbuf⟩

/-- `encode`: whether there may be more, and what is left of the file. -/
def encode (offset : Nat) (state : Encoder Context) (fp : List UInt8) :
    Bool × Encoder Context × List UInt8 :=
  let read := fp.take (frameSize - offset)
  let frame := Bytes.move cleared offset read
  let count := read.length
  let count := if count ≠ 0 then count + offset else count
  let frame :=
    if count < frameSize then
      frame.set (frameSize - 1) (UInt8.ofNat ((count + 2 ^ 64 - offset) % 2 ^ 64))
    else frame
  (count = frameSize, putFrame encryption binary state frame, fp.drop (frameSize - offset))

/-- The loop of `encodestream` and of `encodefile`. -/
def encodeLoop : Nat → Nat → Encoder Context → List UInt8 → Option (Encoder Context)
  | 0, _, _, _ => none
  | fuel + 1, offset, state, fp =>
    let (more, state, fp) := encode encryption binary offset state fp
    if more then encodeLoop fuel 0 state fp else some state

/-- `encodestream`, less the last line. -/
def encodestream (state : Encoder Context) (message : List UInt8) : Option (Encoder Context) :=
  encodeLoop encryption binary (message.length + 1) 6 { state with frame := cleared } message

/-- A file with a name that a frame has room for, and a size that is a `long`. -/
structure File where
  name : Text
  content : List UInt8
  noNull : 0 ∉ name
  short : name.length < 42
  small : content.length < 2 ^ 31

/-- The frame in front of a file. What is behind the name is left as it was. -/
def nameFrame (frame : Frame) (file : File) : Frame :=
  Bytes.set (((lsb_setlong frame file.content.length).set 4 1).set 5 0) 6 (frameSize - 6) file.name

def encodefile (state : Encoder Context) (file : File) : Option (Encoder Context) :=
  let state := putFrame encryption binary state (nameFrame state.frame file)
  encodeLoop encryption binary (file.content.length + 1) 0 state file.content

def encodefiles (state : Encoder Context) : List File → Option (Encoder Context)
  | [] => some state
  | file :: rest => (encodefile encryption binary state file).bind fun state =>
    encodefiles state rest

end Encoding

/-! #### Archives -/

/-- The lines `-----BEGIN CAR STREAM-----` and `-----END CAR STREAM-----`. -/
def beginLine : Text :=
  [0x2d, 0x2d, 0x2d, 0x2d, 0x2d, 0x42, 0x45, 0x47, 0x49, 0x4e, 0x20, 0x43, 0x41, 0x52, 0x20, 0x53,
    0x54, 0x52, 0x45, 0x41, 0x4d, 0x2d, 0x2d, 0x2d, 0x2d, 0x2d]

def endLine : Text :=
  [0x2d, 0x2d, 0x2d, 0x2d, 0x2d, 0x45, 0x4e, 0x44, 0x20, 0x43, 0x41, 0x52, 0x20, 0x53,
    0x54, 0x52, 0x45, 0x41, 0x4d, 0x2d, 0x2d, 0x2d, 0x2d, 0x2d]

/-- A tag that is on one line, for which the decoder has room. -/
structure Tag where
  text : Text
  noNull : 0 ∉ text
  unbroken : 0x0a ∉ text
  short : text.length < 122

/-- The line of the tag, if there is one. -/
def tagLine : Option Tag → List UInt8
  | none => []
  | some tag => [0x54, 0x61, 0x67, 0x3a, 0x20] ++ tag.text ++ [0x0a]

/-- What an archive is written as. -/
inductive Format
  | binary (tag : Text)
  | text (tag : Option Tag)

def Format.isBinary : Format → Bool
  | .binary _ => true
  | .text _ => false

/-- `.car`. -/
def suffix : Text := [0x2e, 0x63, 0x61, 0x72]

/-- The frame that `header` writes. -/
def header (tag : Text) : Frame :=
  Bytes.set (((Bytes.set cleared 0 6 suffix).set 5 1).set 4 0xff) 6 (frameSize - 6) tag

/-- What `main` has written before it encodes anything. -/
def Format.begins (encryption : Cipher Context) : Format → Encoder Context
  | .binary tag => ⟨header tag, encryption.set, header tag⟩
  | .text tag => ⟨cleared, encryption.set, beginLine ++ 0x0a :: tagLine tag⟩

/-- The archive, with its last line. -/
def Format.ends (format : Format) (state : Encoder Context) : List UInt8 :=
  match format with
  | .binary _ => state.output
  | .text _ => state.output ++ endLine ++ [0x0a]

def archiveMessage (encryption : Cipher Context) (format : Format) (message : List UInt8) :
    Option (List UInt8) :=
  (encodestream encryption format.isBinary (format.begins encryption) message).map format.ends

def archiveFiles (encryption : Cipher Context) (format : Format) (files : List File) :
    Option (List UInt8) :=
  (encodefiles encryption format.isBinary (format.begins encryption) files).map format.ends

/-! #### Decoding -/

/-- What `decoder` says. -/
inductive Mode
  | text
  | file
  | scan
  | init
  deriving DecidableEq

/-- What the decoder is called with, and what it is told about a path by the file system and by the
user; the files it has created by then may make a difference. `fopen` is asked after the directory
of the path has been made, if it has one. A path names the file `inode`. No stream is closed: this
many bytes of it are `flushed` to its file, and `exit` writes the rest of all of them in an order of
its own. -/
structure Environment where
  yes : Bool
  quiet : Bool
  is_dir : List Text → Text → Bool
  is_file : List Text → Text → Bool
  inkey : List Text → Text → UInt8
  fopen : List Text → Text → Bool
  inode : Text → Nat
  flushed : Nat → List UInt8 → Nat
  exit : List (Text × List UInt8) → List (Text × List UInt8)
  exit_perm : ∀ streams, (exit streams).Perm streams

/-- What has been written goes to the standard output, and to each file since it was opened, the
latest first. -/
structure Decoder (Context : Type) where
  frame : Frame
  cipher : Context
  decoder : Mode
  frames : Nat
  stdout : List UInt8
  opened : List (Text × List UInt8)

/-- Why a decoding has ended before its time: `errexit`, or the report of a line that is too short,
or because it reads behind the end of `cbuf`. -/
inductive Stop
  | errexit (code : Nat)
  | interrupted
  | outside
  deriving DecidableEq

namespace Decoder

/-- `output` is the file that was opened last, if there is any. -/
def write (state : Decoder Context) (bytes : List UInt8) : Decoder Context :=
  match state.opened with
  | [] => { state with stdout := state.stdout ++ bytes }
  | (path, content) :: earlier =>
    { state with opened := (path, content ++ bytes) :: earlier }

/-- `fwrite` of a part of `cbuf`. -/
def fwrite (state : Decoder Context) (cbuf : Frame) (start size : Nat) :
    Except Stop (Decoder Context) :=
  if start + size ≤ cbuf.length then .ok (state.write ((cbuf.drop start).take size))
  else .error .outside

/-- `write` at a place of a file; a gap is filled with null bytes. -/
def pwrite (file : List UInt8) (start : Nat) (bytes : List UInt8) : List UInt8 :=
  if bytes = [] then file
  else Bytes.move (file ++ List.replicate (start - file.length) 0) start bytes

/-- What `exit` writes of a stream of a file. -/
def flush (environment : Environment) (file : Nat) (held : List UInt8)
    (stream : Text × List UInt8) : List UInt8 :=
  let flushed := environment.flushed file stream.2
  pwrite held flushed (stream.2.drop flushed)

/-- What a file holds in the end, if it was opened. The latest stream has truncated it. -/
def content (environment : Environment) (state : Decoder Context) (file : Nat) :
    Option (List UInt8) :=
  (state.opened.find? fun stream => environment.inode stream.1 = file).map fun latest =>
    ((environment.exit state.opened).filter fun stream => environment.inode stream.1 = file).foldl
      (flush environment file) (latest.2.take (environment.flushed file latest.2))

end Decoder

section Decoding

variable (decryption : Cipher Context) (environment : Environment)

def final (state : Decoder Context) : Except Stop (Decoder Context) :=
  match state.decoder with
  | .init => .ok state
  | .scan =>
    let (cbuf, cipher) := decryption.put state.cipher state.frame
    let state := { state with cipher := cipher }
    if cbuf.getD 4 0 > 0 then .ok state
    else
      let size := (cbuf.getD (frameSize - 1) 0).toNat
      if size ≠ 0 then state.fwrite cbuf 6 size else .ok state
  | _ =>
    let state := { state with decoder := .scan }
    let (cbuf, cipher) := decryption.put state.cipher state.frame
    let state := { state with cipher := cipher }
    let size := (cbuf.getD (frameSize - 1) 0).toNat
    if size ≠ 0 then state.fwrite cbuf 0 size else .ok state

/-- A path is opened unless it is a directory, or a file that is not to be overwritten, or cannot be
created. -/
def Environment.permits (opened : List Text) (path : Text) : Bool :=
  !environment.is_dir opened path &&
    (!environment.is_file opened path || environment.yes ||
      !environment.quiet && environment.inkey opened path ∈ ([0x79, 0x59] : Text)) &&
    environment.fopen opened path

/-- The part of `process` that opens a file. -/
def create (state : Decoder Context) (path : Text) : Except Stop (Decoder Context) :=
  if environment.permits (state.opened.map Prod.fst) path then
    .ok { state with opened := (path, []) :: state.opened }
  else .error (.errexit 8)

/-- A whole frame is written. -/
def copy (state : Decoder Context) : Except Stop (Decoder Context) :=
  let (cbuf, cipher) := decryption.put state.cipher state.frame
  { state with cipher := cipher }.fwrite cbuf 0 frameSize

def process (state : Decoder Context) : Except Stop (Decoder Context) :=
  match state.decoder with
  | .init => .ok { state with decoder := .scan }
  | .scan =>
    let (cbuf, cipher) := decryption.put state.cipher state.frame
    let state := { state with cipher := cipher }
    if cbuf.getD 4 0 = 0xff then .ok state
    else if cbuf.getD 4 0 = 0 then
      (state.fwrite cbuf 6 (frameSize - 6)).map fun state => { state with decoder := .text }
    else
      create environment { state with decoder := .file, frames := lsb_getlong cbuf / frameSize }
        (Bytes.string (cbuf.drop 6))
  | .file =>
    if state.frames = 0 then final decryption state
    else copy decryption { state with frames := state.frames - 1 }
  | .text => copy decryption state

/-- The loop of `binarydecode`. -/
def binaryLoop : Nat → Decoder Context → List UInt8 → Bool → Except Stop (Option (Decoder Context))
  | 0, _, _, _ => .ok none
  | fuel + 1, state, fp, feof =>
    if feof then (final decryption state).map some
    else if fp.length < frameSize then binaryLoop fuel state [] true
    else
      (process decryption environment state).bind fun state =>
        binaryLoop fuel { state with frame := fp.take frameSize } (fp.drop frameSize) false

/-- The decoder of a program that was just started. -/
def started : Decoder Context := ⟨cleared, decryption.set, .init, 0, [], []⟩

def binarydecode (fp : List UInt8) : Except Stop (Option (Decoder Context)) :=
  if fp.length < frameSize then .error (.errexit 6)
  else
    let frame := fp.take frameSize
    if frame.take 4 ≠ suffix ∨ frame.getD 4 0 ≠ 0xff then .error (.errexit 6)
    else
      binaryLoop decryption environment (fp.length + 1) { started decryption with frame := frame }
        (fp.drop frameSize) false

/-- The first loop of `streamdecode`: what is behind the first line of the wrapper. -/
def findStream : Nat → List UInt8 → Except Stop (Option (List UInt8))
  | 0, _ => .ok none
  | fuel + 1, fp =>
    let (buffer, fp, feof) := Keyfile.fgets 127 fp
    if feof then .error (.errexit 5)
    else if Bytes.string buffer = beginLine ++ [0x0a] then .ok (some fp)
    else findStream fuel fp

/-- The second loop of `streamdecode`. -/
def streamLoop : Nat → Decoder Context → List UInt8 → Bool → Except Stop (Option (Decoder Context))
  | 0, _, _, _ => .ok none
  | fuel + 1, state, fp, feof =>
    if feof then (final decryption state).map some
    else
      let (buffer, fp, feof) := Keyfile.fgets 127 fp
      if buffer = [] then streamLoop fuel state fp feof
      else if Bytes.string buffer = endLine ++ [0x0a] then (final decryption state).map some
      else if [0x3a, 0x20] <:+: Bytes.string buffer then streamLoop fuel state fp feof
      else
        (process decryption environment state).bind fun state =>
          let (bytes, len) := Base64.b64decode (buffer ++ [0]) frameSize false
          let state := { state with frame := Bytes.move state.frame 0 bytes }
          if len < frameSize then .error .interrupted
          else streamLoop fuel state fp feof

def streamdecode (fp : List UInt8) : Except Stop (Option (Decoder Context)) :=
  (findStream (fp.length + 1) fp).bind fun found =>
    match found with
    | some fp => streamLoop decryption environment (fp.length + 2) (started decryption) fp false
    | none => .ok none

/-- An archive is decoded as what it was written as. -/
def Format.decode (format : Format) (fp : List UInt8) : Except Stop (Option (Decoder Context)) :=
  match format with
  | .binary _ => binarydecode decryption environment fp
  | .text _ => streamdecode decryption environment fp

end Decoding

end Car

end CommonCpp
