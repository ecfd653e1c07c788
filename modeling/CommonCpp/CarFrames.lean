/-
This file gives the frames that `car` makes of a message or of a file, and shows that
the encoder puts these frames and no others.

The content of a file is cut into whole frames and one more, which may be empty, with
its length in the last byte. That of a message is cut in the same way behind the first
42 bytes; a message that is shorter has one frame, with its length in the last byte,
unless it is empty. The length is then found by a subtraction that goes below zero.
-/

import Mathlib.Data.List.GetD
import CommonCpp.Car

namespace CommonCpp

namespace Car

/-! ### Frames -/

/-- The last frame of some content. -/
def closing (content : List UInt8) : Frame :=
  content ++ List.replicate (frameSize - 1 - content.length) 0 ++ [UInt8.ofNat content.length]

/-- The frames of some content. -/
def body (content : List UInt8) : List Frame :=
  if content.length < frameSize then [closing content]
  else content.take frameSize :: body (content.drop frameSize)
termination_by content.length
decreasing_by
  rw [List.length_drop]
  exact Nat.sub_lt (Nat.lt_of_lt_of_le (Nat.succ_pos 47) (Nat.le_of_not_lt ‹_›)) (Nat.succ_pos 47)

/-- The length that is found for a message that ends in its first frame. -/
def pad (message : List UInt8) : UInt8 :=
  if message = [] then 250 else UInt8.ofNat message.length

/-- The frames of a message. -/
def messageFrames (message : List UInt8) : List Frame :=
  if message.length < 42 then
    [List.replicate 6 0 ++ message ++ List.replicate (41 - message.length) 0 ++ [pad message]]
  else (List.replicate 6 0 ++ message.take 42) :: body (message.drop 42)

theorem length_closing {content : List UInt8} (short : content.length < frameSize) :
    (closing content).length = frameSize := by
  unfold closing
  simp only [List.length_append, List.length_replicate, List.length_singleton, frameSize] at short ⊢
  omega

/-- Every frame has its size. -/
theorem length_of_mem_body {content : List UInt8} {frame : Frame} (member : frame ∈ body content) :
    frame.length = frameSize := by
  induction content using body.induct with
  | case1 content short =>
    rw [body, if_pos short, List.mem_singleton] at member
    rw [member]
    exact length_closing short
  | case2 content long inductionHypothesis =>
    rw [body, if_neg long] at member
    rcases List.mem_cons.mp member with rfl | later
    · exact List.length_take_of_le (Nat.le_of_not_lt long)
    · exact inductionHypothesis later

theorem length_of_mem_messageFrames {message : List UInt8} {frame : Frame}
    (member : frame ∈ messageFrames message) : frame.length = frameSize := by
  unfold messageFrames at member
  split at member
  next short =>
    rw [List.mem_singleton.mp member]
    simp only [List.length_append, List.length_replicate, List.length_singleton, frameSize]
    omega
  next long =>
    rcases List.mem_cons.mp member with rfl | later
    · rw [List.length_append, List.length_replicate, List.length_take_of_le (Nat.le_of_not_lt long)]
      rfl
    · exact length_of_mem_body later

/-! ### The encoder -/

section Encoder

variable {Context : Type} {encryption : Cipher Context} {binary : Bool} {state : Encoder Context}

/-- A `fread` into a frame of null bytes. -/
theorem move_cleared (offset : Nat) (read : List UInt8)
    (within : offset + read.length ≤ frameSize) :
    Bytes.move cleared offset read =
      List.replicate offset 0 ++ read ++ List.replicate (frameSize - (offset + read.length)) 0 := by
  unfold Bytes.move cleared
  rw [List.take_replicate, List.drop_replicate, Nat.min_eq_left (Nat.le_of_add_right_le within)]

/-- A call that fills the frame is followed by another one. -/
theorem encode_whole {offset : Nat} {fp : List UInt8} (small : offset < frameSize)
    (long : frameSize - offset ≤ fp.length) :
    encode encryption binary offset state fp =
      (true, putFrame encryption binary state
        (List.replicate offset 0 ++ fp.take (frameSize - offset)),
        fp.drop (frameSize - offset)) := by
  have read : (fp.take (frameSize - offset)).length = frameSize - offset :=
    List.length_take_of_le long
  have some_ : frameSize - offset ≠ 0 := Nat.sub_ne_zero_of_lt small
  have whole : frameSize - offset + offset = frameSize := Nat.sub_add_cancel (Nat.le_of_lt small)
  have filled : offset + (frameSize - offset) = frameSize :=
    Nat.add_sub_cancel' (Nat.le_of_lt small)
  unfold encode
  simp only [read, ne_eq, some_, not_false_eq_true, if_true, whole, Nat.lt_irrefl, if_false,
    decide_true]
  rw [move_cleared offset _ (by rw [read, filled]), read, filled, Nat.sub_self, List.replicate_zero,
    List.append_nil]

/-- The last byte of a frame that ends with null bytes is set. -/
theorem set_last (before : List UInt8) (byte : UInt8) (short : before.length < frameSize) :
    (before ++ List.replicate (frameSize - before.length) 0).set (frameSize - 1) byte =
      before ++ List.replicate (frameSize - 1 - before.length) 0 ++ [byte] := by
  obtain ⟨more, size⟩ : ∃ more, frameSize = before.length + more + 1 :=
    Nat.exists_eq_add_of_lt short
  have last : frameSize - 1 = (before ++ List.replicate more (0 : UInt8)).length := by
    rw [size, List.length_append, List.length_replicate]
    rfl
  have left : frameSize - before.length = more + 1 := by
    rw [size, Nat.add_assoc, Nat.add_sub_cancel_left]
  have behind : frameSize - 1 - before.length = more := by
    rw [last, List.length_append, List.length_replicate, Nat.add_sub_cancel_left]
  rw [left, List.replicate_succ', ← List.append_assoc, behind, last,
    List.set_append_right _ _ (Nat.le_refl _), Nat.sub_self]
  rfl

/-- The length that a call finds that does not fill the frame. -/
def found (offset : Nat) (fp : List UInt8) : UInt8 :=
  UInt8.ofNat (((if fp.length ≠ 0 then fp.length + offset else fp.length) + 2 ^ 64 - offset) %
    2 ^ 64)

theorem found_of_ne_nil {offset : Nat} {fp : List UInt8} (some_ : fp ≠ [])
    (short : offset + fp.length < frameSize) : found offset fp = UInt8.ofNat fp.length := by
  have counted : fp.length ≠ 0 := fun none_ => some_ (List.length_eq_zero_iff.mp none_)
  unfold found
  rw [if_pos counted]
  congr 1
  unfold frameSize at short
  omega

theorem found_zero {fp : List UInt8} (short : fp.length < frameSize) :
    found 0 fp = UInt8.ofNat fp.length := by
  by_cases none_ : fp = []
  · subst none_
    rfl
  · exact found_of_ne_nil none_ (by rwa [Nat.zero_add])

/-- A call that does not fill the frame is the last one. -/
theorem encode_short {offset : Nat} {fp : List UInt8} (short : offset + fp.length < frameSize) :
    encode encryption binary offset state fp =
      (false, putFrame encryption binary state
        (List.replicate offset 0 ++ fp ++ List.replicate (frameSize - 1 - (offset + fp.length)) 0 ++
          [found offset fp]), []) := by
  have room : fp.length ≤ frameSize - offset :=
    Nat.le_sub_of_add_le' (Nat.le_of_lt short)
  have length : (List.replicate offset (0 : UInt8) ++ fp).length = offset + fp.length := by
    rw [List.length_append, List.length_replicate]
  have last := fun byte => set_last (List.replicate offset 0 ++ fp) byte (length ▸ short)
  rw [length] at last
  have count : (if fp.length ≠ 0 then fp.length + offset else fp.length) < frameSize := by
    split
    · rwa [Nat.add_comm]
    · exact Nat.lt_of_le_of_lt (Nat.le_add_left _ _) short
  unfold encode found
  rw [List.take_of_length_le room, List.drop_of_length_le room]
  simp only [count, if_true, Nat.ne_of_lt count, decide_false]
  rw [move_cleared offset fp (Nat.le_of_lt short), last]

/-- From any frame on, the frames of what is left are put. -/
theorem encodeLoop_body {fuel : Nat} {fp : List UInt8} (enough : fp.length < fuel) :
    encodeLoop encryption binary fuel 0 state fp =
      some ((body fp).foldl (putFrame encryption binary) state) := by
  induction fp using body.induct generalizing fuel state with
  | case1 fp short =>
    obtain ⟨fuel, rfl⟩ := Nat.exists_eq_add_of_lt enough
    have shorter : 0 + fp.length < frameSize := by rwa [Nat.zero_add]
    rw [encodeLoop, encode_short shorter, found_zero short, body, if_pos short, Nat.zero_add]
    rfl
  | case2 fp long inductionHypothesis =>
    obtain ⟨fuel, rfl⟩ := Nat.exists_eq_add_of_lt enough
    have whole : frameSize - 0 ≤ fp.length := Nat.le_of_not_lt long
    have left : (fp.drop frameSize).length < fp.length + fuel := by
      rw [List.length_drop]
      unfold frameSize at long ⊢
      omega
    rw [encodeLoop, encode_whole (Nat.succ_pos 47) whole, body, if_neg long]
    exact inductionHypothesis left

/-- The frames of a message are put. -/
theorem encodestream_eq (message : List UInt8) :
    encodestream encryption binary state message =
      some ((messageFrames message).foldl (putFrame encryption binary)
        { state with frame := cleared }) := by
  unfold encodestream messageFrames
  rw [encodeLoop]
  by_cases short : message.length < 42
  · have room : 6 + message.length < frameSize := Nat.add_lt_add_left short 6
    have length : found 6 message = pad message := by
      unfold pad
      split
      next none_ =>
        rw [none_]
        rfl
      next some_ => exact found_of_ne_nil some_ room
    have behind : frameSize - 1 - (6 + message.length) = 41 - message.length :=
      (Nat.sub_sub 47 6 message.length).symm
    rw [encode_short room, length, behind, if_pos short]
    rfl
  · have long : frameSize - 6 ≤ message.length := Nat.le_of_not_lt short
    have left : (message.drop 42).length < message.length := by
      rw [List.length_drop]
      omega
    rw [encode_whole (by decide) long, if_neg short]
    exact encodeLoop_body left

/-- What has been written once some frames have been put. -/
theorem output_puts (frames : List Frame) :
    (frames.foldl (putFrame encryption binary) state).output =
      state.output ++ (encryption.puts state.cipher frames).1.flatMap (written binary) := by
  induction frames generalizing state with
  | nil => exact (List.append_nil _).symm
  | cons frame rest inductionHypothesis =>
    rw [List.foldl_cons, inductionHypothesis, Cipher.puts]
    exact List.append_assoc _ _ _

theorem length_frame_puts {frames : List Frame} (whole : state.frame.length = frameSize)
    (sized : ∀ frame ∈ frames, frame.length = frameSize) :
    (frames.foldl (putFrame encryption binary) state).frame.length = frameSize := by
  induction frames generalizing state with
  | nil => exact whole
  | cons frame rest inductionHypothesis =>
    obtain ⟨first, sized⟩ := List.forall_mem_cons.mp sized
    exact inductionHypothesis first sized

/-! ### Files -/

/-- A frame says that a file of this name and size follows. -/
structure Names (file : File) (frame : Frame) : Prop where
  length : frame.length = frameSize
  kind : frame.getD 4 0 = 1
  size : lsb_getlong frame = file.content.length
  path : Bytes.string (frame.drop 6) = file.name

/-- These are the frames of some files. -/
def Coded : List File → List Frame → Prop
  | [], frames => frames = []
  | file :: rest, frames => ∃ name more, Names file name ∧
      frames = name :: (body file.content ++ more) ∧ Coded rest more

/-- A number is read back from its four bytes. -/
theorem lsb_getlong_set {number : Nat} (small : number < 2 ^ 32) (rest : Frame) :
    lsb_getlong (UInt8.ofNat number :: UInt8.ofNat (number / 256) ::
      UInt8.ofNat (number / 65536) :: UInt8.ofNat (number / 16777216) :: rest) = number := by
  show (UInt8.ofNat (number / 16777216)).toNat * 16777216 +
    (UInt8.ofNat (number / 65536)).toNat * 65536 + (UInt8.ofNat (number / 256)).toNat * 256 +
      (UInt8.ofNat number).toNat = number
  simp only [UInt8.toNat_ofNat']
  omega

/-- A text with room for its null is set behind the first bytes of a frame. -/
theorem set_behind {first rest name : List UInt8} (noNull : 0 ∉ name) {size : Nat}
    (large : 2 ≤ size) (short : name.length < size) (whole : rest.length = size) :
    Bytes.set (first ++ rest) first.length size name =
      first ++ (name ++ 0 :: rest.drop (name.length + 1)) := by
  have length : Bytes.strlen name = name.length :=
    congrArg List.length (Bytes.string_eq_self noNull)
  have within : name.length < rest.length := whole ▸ short
  have place : (first ++ name).length = first.length + name.length := List.length_append
  unfold Bytes.set
  rw [if_neg (Nat.not_lt_of_le large)]
  simp only [length, ge_iff_le, Nat.not_le_of_lt short, if_false, List.take_length]
  rw [Bytes.move, List.take_left, List.drop_append,
    List.drop_of_length_le (Nat.le_add_right _ _), Nat.add_sub_cancel_left, List.nil_append,
    ← place, List.set_append_right _ _ (Nat.le_refl _), Nat.sub_self,
    List.drop_eq_getElem_cons within, List.set_cons_zero, List.append_assoc]

/-- The frame in front of a file names it, whatever was in the frame before. -/
theorem names_nameFrame {frame : Frame} (whole : frame.length = frameSize) (file : File) :
    Names file (nameFrame frame file) := by
  obtain ⟨byte₀, byte₁, byte₂, byte₃, byte₄, byte₅, rest, rfl⟩ : ∃ byte₀ byte₁ byte₂ byte₃ byte₄
      byte₅ rest, frame = byte₀ :: byte₁ :: byte₂ :: byte₃ :: byte₄ :: byte₅ :: rest := by
    match frame, whole with
    | byte₀ :: byte₁ :: byte₂ :: byte₃ :: byte₄ :: byte₅ :: rest, _ =>
      exact ⟨byte₀, byte₁, byte₂, byte₃, byte₄, byte₅, rest, rfl⟩
  have behind : rest.length = 42 := Nat.add_right_cancel (m := 6) whole
  let size := file.content.length
  let first : List UInt8 := [UInt8.ofNat size, UInt8.ofNat (size / 256), UInt8.ofNat (size / 65536),
    UInt8.ofNat (size / 16777216), 1, 0]
  have named : nameFrame (byte₀ :: byte₁ :: byte₂ :: byte₃ :: byte₄ :: byte₅ :: rest) file =
      first ++ (file.name ++ 0 :: rest.drop (file.name.length + 1)) :=
    @set_behind first rest file.name file.noNull 42 (by decide) file.short behind
  rw [named]
  constructor
  · have short := file.short
    simp only [first, List.length_append, List.length_cons, List.length_nil, List.length_drop,
      behind, frameSize]
    omega
  · rfl
  · exact lsb_getlong_set (Nat.lt_trans file.small (by decide)) _
  · show Bytes.string (file.name ++ 0 :: rest.drop (file.name.length + 1)) = file.name
    rw [Bytes.string_append file.noNull, Bytes.string_cons_zero, List.append_nil]

/-- The frames of some files are put. -/
theorem encodefiles_eq (whole : state.frame.length = frameSize) (files : List File) :
    ∃ frames, Coded files frames ∧ (∀ frame ∈ frames, frame.length = frameSize) ∧
      encodefiles encryption binary state files =
        some (frames.foldl (putFrame encryption binary) state) := by
  induction files generalizing state with
  | nil => exact ⟨[], rfl, nofun, rfl⟩
  | cons file rest inductionHypothesis =>
    have names := names_nameFrame whole file
    have encoded : encodefile encryption binary state file =
        some ((nameFrame state.frame file :: body file.content).foldl
          (putFrame encryption binary) state) := encodeLoop_body (Nat.lt_succ_self _)
    have sized : ∀ frame ∈ nameFrame state.frame file :: body file.content,
        frame.length = frameSize :=
      List.forall_mem_cons.mpr ⟨names.length, fun _ => length_of_mem_body⟩
    obtain ⟨more, coded, sizedMore, encodedMore⟩ :=
      inductionHypothesis (length_frame_puts whole sized)
    refine ⟨nameFrame state.frame file :: (body file.content ++ more),
      ⟨_, more, names, rfl, coded⟩, ?_, ?_⟩
    · intro frame member
      rw [← List.cons_append] at member
      exact (List.mem_append.mp member).elim (sized frame) (sizedMore frame)
    · rw [encodefiles, encoded, Option.bind_some, encodedMore, ← List.foldl_append,
        List.cons_append]

end Encoder

end Car

end CommonCpp
