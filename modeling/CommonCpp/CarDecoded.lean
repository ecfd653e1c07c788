/-
This file shows which messages and files come out of a `car` archive as they went in.

Both ways of reading an archive put the same frames through the same machine, which
decodes a frame when the next one is there. The frames that follow the name of a file
are counted down, so that the last of them is known before the archive ends; those of a
message are known to end where the archive does.

An empty message is the only one that is lost. For it the decoder writes 250 bytes from
the sixth of a frame on, which are not there. Files are recreated when each of them may
be opened, and those whose names are of one file have the same content.
-/

import CommonCpp.CarFrames

namespace CommonCpp

namespace Car

variable {Context : Type}

/-! ### The frames of an archive -/

section Run

variable (decryption : Cipher Context) (environment : Environment)

/-- What both loops do with the frames that follow the one at hand. -/
def run : Decoder Context → List Frame → Except Stop (Decoder Context)
  | state, [] => final decryption state
  | state, frame :: rest => (process decryption environment state).bind fun state =>
    run { state with frame := frame } rest

/-- What they do once the frame at hand has been decoded. -/
def goOn (state : Decoder Context) : List Frame → Except Stop (Decoder Context)
  | [] => .ok state
  | frame :: rest => run decryption environment { state with frame := frame } rest

end Run

variable {decryption : Cipher Context} {environment : Environment} {state after : Decoder Context}

/-! #### In binary -/

/-- The loop of `binarydecode` decodes the frames of the archive. -/
theorem binaryLoop_eq {frames : List Frame} (sized : ∀ frame ∈ frames, frame.length = frameSize)
    {fuel : Nat} (enough : frames.length + 1 < fuel) :
    binaryLoop decryption environment fuel state frames.flatten false =
      (run decryption environment state frames).map some := by
  induction frames generalizing state fuel with
  | nil =>
    obtain ⟨fuel, rfl⟩ := Nat.exists_eq_add_of_le' (show 2 ≤ fuel from enough)
    have short : ([] : List UInt8).length < frameSize := Nat.succ_pos 47
    rw [List.flatten_nil, binaryLoop, if_neg Bool.false_ne_true, if_pos short, binaryLoop,
      if_pos rfl]
    rfl
  | cons frame rest inductionHypothesis =>
    obtain ⟨whole, sized⟩ := List.forall_mem_cons.mp sized
    obtain ⟨fuel, rfl⟩ := Nat.exists_eq_succ_of_ne_zero (Nat.ne_zero_of_lt enough)
    have long : ¬ (frame ++ rest.flatten).length < frameSize := by
      rw [List.length_append, whole]
      exact Nat.not_lt_of_le (Nat.le_add_right _ _)
    rw [List.flatten_cons, binaryLoop, if_neg Bool.false_ne_true, if_neg long, run,
      List.take_left' whole, List.drop_left' whole]
    cases process decryption environment state with
    | error stop => rfl
    | ok state => exact inductionHypothesis sized (Nat.lt_of_succ_lt_succ enough)

/-- There are no more frames than bytes of them. -/
theorem length_le_flatten {frames : List Frame}
    (sized : ∀ frame ∈ frames, frame.length = frameSize) :
    frames.length ≤ frames.flatten.length := by
  induction frames with
  | nil => exact Nat.le_refl 0
  | cons frame rest inductionHypothesis =>
    obtain ⟨first, sized⟩ := List.forall_mem_cons.mp sized
    rw [List.flatten_cons, List.length_cons, List.length_append, first, Nat.add_comm]
    exact Nat.add_le_add (by decide) (inductionHypothesis sized)

/-- A text that is set behind the first bytes of a memory leaves these as they are. -/
theorem exists_set_behind (first : List UInt8) {rest : List UInt8} {size : Nat}
    (room : size ≤ rest.length) (s : Text) :
    ∃ rest', Bytes.set (first ++ rest) first.length size s = first ++ rest' ∧
      rest'.length = rest.length := by
  unfold Bytes.set
  split
  next => exact ⟨rest, rfl, rfl⟩
  next large =>
    generalize limit : (if Bytes.strlen s ≥ size then size - 1 else Bytes.strlen s) = l
    have within : l < rest.length := by
      split at limit <;> omega
    have taken : (s.take l).length ≤ rest.length :=
      (List.length_take_le _ _).trans (Nat.le_of_lt within)
    refine ⟨(s.take l ++ rest.drop (s.take l).length).set l 0, ?_, ?_⟩
    · dsimp only
      rw [Bytes.move, List.take_left, List.drop_append, List.drop_of_length_le
        (Nat.le_add_right _ _), Nat.add_sub_cancel_left, List.nil_append, List.append_assoc,
        List.set_append_right _ _ (Nat.le_add_right _ _), Nat.add_sub_cancel_left]
    · rw [List.length_set, List.length_append, List.length_drop, Nat.add_sub_cancel' taken]

/-- The frame in front of a binary archive is taken for one, whatever its tag. -/
theorem header_spec (tag : Text) :
    (header tag).length = frameSize ∧ (header tag).take 4 = suffix ∧
      (header tag).getD 4 0 = 0xff := by
  let first : List UInt8 := [0x2e, 0x63, 0x61, 0x72, 0xff, 1]
  have begun : ((Bytes.set cleared 0 6 suffix).set 5 1).set 4 0xff =
      first ++ List.replicate 42 0 := by decide
  obtain ⟨rest, tagged, length⟩ := @exists_set_behind first (List.replicate 42 0) 42
    (Nat.le_refl _) tag
  have whole : header tag = first ++ rest := by
    rw [header, begun]
    exact tagged
  rw [List.length_replicate] at length
  rw [whole]
  refine ⟨?_, rfl, rfl⟩
  rw [List.length_append, length]
  rfl

/-- An archive of frames behind a header is decoded frame by frame. -/
theorem binarydecode_eq (tag : Text) {frames : List Frame}
    (sized : ∀ frame ∈ frames, frame.length = frameSize) :
    binarydecode decryption environment (header tag ++ frames.flatten) =
      (run decryption environment { started decryption with frame := header tag } frames).map
        some := by
  obtain ⟨whole, starts, kind⟩ := header_spec tag
  have long : ¬ (header tag ++ frames.flatten).length < frameSize := by
    rw [List.length_append, whole]
    exact Nat.not_lt_of_le (Nat.le_add_right _ _)
  have known : ¬ ((header tag).take 4 ≠ suffix ∨ (header tag).getD 4 0 ≠ 0xff) := by
    rw [not_or, not_not, not_not]
    exact ⟨starts, kind⟩
  have fewer := length_le_flatten sized
  have enough : frames.length + 1 < (header tag ++ frames.flatten).length + 1 := by
    rw [List.length_append, whole]
    unfold frameSize
    omega
  rw [binarydecode, if_neg long]
  dsimp only
  rw [List.take_left' whole, List.drop_left' whole, if_neg known]
  exact binaryLoop_eq sized enough

/-! #### In text -/

theorem written_false (cbuf : Frame) : written false cbuf = Base64.code cbuf ++ [0x0a] := by
  have noNull : 0 ∉ Base64.code cbuf := fun member => (Base64.code_visible cbuf 0 member).1 rfl
  show Bytes.string (Base64.b64encode cbuf 0).1 ++ [0x0a] = _
  rw [(Base64.b64encode_default cbuf).1, Bytes.string_append noNull, Bytes.string_cons_zero,
    List.append_nil]

/-- A line of the code of a frame is read whole, and is no other line of the wrapper. -/
theorem code_line {cbuf : Frame} (whole : cbuf.length = frameSize) :
    0 ∉ Base64.code cbuf ++ [0x0a] ∧ 0x0a ∉ Base64.code cbuf ∧
      (Base64.code cbuf).length = 64 ∧ Base64.code cbuf ++ [0x0a] ≠ endLine ++ [0x0a] ∧
        ¬ [0x3a, 0x20] <:+: Base64.code cbuf ++ [0x0a] := by
  have plain : ∀ c ∈ Base64.code cbuf, c ≠ 0 ∧ c ≠ 0x0a ∧ c ≠ 0x3a ∧ c ≠ 0x2d :=
    Base64.forall_mem_code (by decide +kernel) (by decide) cbuf
  have length : (Base64.code cbuf).length = 64 := by
    rw [Base64.length_code, whole]
    rfl
  refine ⟨fun null => ?_, fun broken => (plain _ broken).2.1 rfl, length, fun same => ?_,
    fun marked => ?_⟩
  · rcases List.mem_append.mp null with inside | last
    · exact (plain _ inside).1 rfl
    · exact absurd (List.mem_singleton.mp last) (by decide)
  · have counted := congrArg List.length same
    rw [List.length_append, length] at counted
    exact absurd counted (by decide)
  · have colon : (0x3a : UInt8) ∈ Base64.code cbuf ++ [0x0a] := marked.subset List.mem_cons_self
    rcases List.mem_append.mp colon with inside | last
    · exact (plain _ inside).2.2.1 rfl
    · exact absurd (List.mem_singleton.mp last) (by decide)

/-- The frame is read back from its line. -/
theorem b64decode_line {cbuf : Frame} (whole : cbuf.length = frameSize) :
    Base64.b64decode (Base64.code cbuf ++ [0x0a] ++ [0]) frameSize false = (cbuf, 64) := by
  have dark := fun c member => (Base64.code_visible cbuf c member).2
  unfold Base64.b64decode
  rw [List.append_assoc, List.singleton_append, Base64.decodeLoop_space dark (by decide), ← whole]
  dsimp only
  rw [Base64.decodeEnd_code, Base64.count_code false (by rw [whole]; rfl), (code_line whole).2.2.1]

/-- What a step does has no effect on the frame that it finds. -/
theorem frame_fwrite {cbuf : Frame} {start size : Nat}
    (done : state.fwrite cbuf start size = .ok after) : after.frame = state.frame := by
  unfold Decoder.fwrite at done
  split at done
  next =>
    cases done
    unfold Decoder.write
    split <;> rfl
  next => cases done

theorem frame_final (done : final decryption state = .ok after) : after.frame = state.frame := by
  unfold final at done
  split at done
  · cases done
    rfl
  · dsimp only at done
    split at done
    · cases done
      rfl
    · split at done
      · have kept := frame_fwrite done
        exact kept
      · cases done
        rfl
  · dsimp only at done
    split at done
    · have kept := frame_fwrite done
      exact kept
    · cases done
      rfl

theorem frame_copy (done : copy decryption state = .ok after) : after.frame = state.frame := by
  have kept := frame_fwrite done
  exact kept

theorem exists_of_map_ok {First Second : Type} {first : Except Stop First} {onward : First → Second}
    {second : Second} (done : first.map onward = .ok second) :
    ∃ middle, first = .ok middle ∧ onward middle = second := by
  cases first with
  | error stop => cases done
  | ok middle => exact ⟨middle, rfl, Except.ok.inj done⟩

theorem frame_process (done : process decryption environment state = .ok after) :
    after.frame = state.frame := by
  unfold process at done
  split at done
  · cases done
    rfl
  · dsimp only at done
    split at done
    · cases done
      rfl
    · split at done
      · obtain ⟨middle, begun, rfl⟩ := exists_of_map_ok done
        have kept := frame_fwrite begun
        exact kept
      · unfold create at done
        split at done
        · cases done
          rfl
        · cases done
  · split at done
    · exact frame_final done
    · have kept := frame_copy done
      exact kept
  · exact frame_copy done

/-- The loop of `streamdecode` decodes the frames of the archive. -/
theorem streamLoop_eq {frames : List Frame} (sized : ∀ frame ∈ frames, frame.length = frameSize)
    (whole : state.frame.length = frameSize) {fuel : Nat} (enough : frames.length < fuel) :
    streamLoop decryption environment fuel state
        (frames.flatMap (written false) ++ (endLine ++ [0x0a])) false =
      (run decryption environment state frames).map some := by
  induction frames generalizing state fuel with
  | nil =>
    obtain ⟨fuel, rfl⟩ := Nat.exists_eq_succ_of_ne_zero (Nat.ne_zero_of_lt enough)
    have read : Keyfile.fgets 127 (endLine ++ [0x0a]) = (endLine ++ [0x0a], [], false) :=
      Keyfile.fgets_line (by decide) (by decide) []
    rw [List.flatMap_nil, List.nil_append, streamLoop, if_neg Bool.false_ne_true, read]
    dsimp only
    rw [if_neg (by decide), if_pos (by decide)]
    rfl
  | cons frame rest inductionHypothesis =>
    obtain ⟨length, sized⟩ := List.forall_mem_cons.mp sized
    obtain ⟨fuel, rfl⟩ := Nat.exists_eq_succ_of_ne_zero (Nat.ne_zero_of_lt enough)
    obtain ⟨noNull, unbroken, coded, other, unmarked⟩ := code_line length
    have read : Keyfile.fgets 127 ((frame :: rest).flatMap (written false) ++ (endLine ++ [0x0a])) =
        (Base64.code frame ++ [0x0a], rest.flatMap (written false) ++ (endLine ++ [0x0a]),
          false) := by
      rw [List.flatMap_cons, written_false, List.append_assoc, List.append_assoc,
        List.singleton_append]
      exact Keyfile.fgets_line unbroken (by rw [coded]; decide) _
    rw [streamLoop, if_neg Bool.false_ne_true, read]
    dsimp only
    rw [if_neg (List.append_ne_nil_of_right_ne_nil _ (List.cons_ne_nil _ _)),
      Bytes.string_eq_self noNull, if_neg other, if_neg unmarked, b64decode_line length, run]
    cases done : process decryption environment state with
    | error stop => rfl
    | ok after =>
      have kept : Bytes.move after.frame 0 frame = frame := by
        rw [frame_process done, Bytes.move, List.take_zero, List.nil_append, Nat.zero_add,
          length, ← whole, List.drop_length, List.append_nil]
      have whole_ : ¬ 64 < frameSize := by decide
      simp only [Except.bind, if_neg whole_, kept]
      exact inductionHypothesis sized length (Nat.lt_of_succ_lt_succ enough)

/-- The line of a tag is passed over. -/
theorem streamLoop_tag (tag : Tag) (fuel : Nat) (left : List UInt8) :
    streamLoop decryption environment (fuel + 1) state
        (tagLine (some tag) ++ left) false =
      streamLoop decryption environment fuel state left false := by
  let line : Text := [0x54, 0x61, 0x67, 0x3a, 0x20] ++ tag.text
  have unbroken : 0x0a ∉ line := fun broken =>
    (List.mem_append.mp broken).elim (by decide) tag.unbroken
  have noNull : 0 ∉ line ++ [0x0a] := fun null =>
    (List.mem_append.mp null).elim
      (fun inside => (List.mem_append.mp inside).elim (by decide) tag.noNull) (by decide)
  have fits : line.length < 127 := by
    rw [List.length_append]
    exact Nat.add_lt_add_left tag.short 5
  have other : line ++ [0x0a] ≠ endLine ++ [0x0a] := by
    intro same
    cases (List.cons.inj same).1
  have marked : [0x3a, 0x20] <:+: line ++ [0x0a] := ⟨[0x54, 0x61, 0x67], tag.text ++ [0x0a], rfl⟩
  have whole : tagLine (some tag) ++ left = line ++ 0x0a :: left := List.append_assoc _ _ _
  have read : Keyfile.fgets 127 (line ++ 0x0a :: left) = (line ++ [0x0a], left, false) :=
    Keyfile.fgets_line unbroken fits left
  rw [streamLoop, if_neg Bool.false_ne_true, whole, read]
  dsimp only
  rw [if_neg (List.append_ne_nil_of_right_ne_nil _ (List.cons_ne_nil _ _)),
    Bytes.string_eq_self noNull, if_neg other, if_pos marked]

/-- There are no more frames than characters of their lines. -/
theorem length_le_flatMap (frames : List Frame) :
    frames.length ≤ (frames.flatMap (written false)).length := by
  induction frames with
  | nil => exact Nat.le_refl 0
  | cons frame rest inductionHypothesis =>
    rw [List.flatMap_cons, List.length_cons, List.length_append, written_false, List.length_append,
      Nat.add_right_comm]
    exact Nat.add_le_add_right (inductionHypothesis.trans (Nat.le_add_left _ _)) 1

/-- An archive of frames in the wrapper is decoded frame by frame. -/
theorem streamdecode_eq (tag : Option Tag) {frames : List Frame}
    (sized : ∀ frame ∈ frames, frame.length = frameSize) :
    streamdecode decryption environment (beginLine ++ 0x0a :: (tagLine tag ++
        (frames.flatMap (written false) ++ (endLine ++ [0x0a])))) =
      (run decryption environment (started decryption) frames).map some := by
  generalize behind : tagLine tag ++ (frames.flatMap (written false) ++ (endLine ++ [0x0a])) = left
  have read : Keyfile.fgets 127 (beginLine ++ 0x0a :: left) = (beginLine ++ [0x0a], left, false) :=
    Keyfile.fgets_line (by decide) (by decide) left
  have enough : frames.length < left.length + 1 := by
    have fewer := length_le_flatMap frames
    rw [← behind]
    simp only [List.length_append]
    omega
  rw [streamdecode, findStream, read]
  dsimp only
  rw [if_neg Bool.false_ne_true, if_pos (by decide)]
  show streamLoop decryption environment (left.length + 1 + 1) _ left false = _
  generalize left.length + 1 = fuel at enough
  rw [← behind]
  cases tag with
  | none => exact streamLoop_eq sized List.length_replicate (Nat.lt_succ_of_lt enough)
  | some tag =>
    rw [streamLoop_tag]
    exact streamLoop_eq sized List.length_replicate enough

theorem length_of_mem_puts {cipher : Cipher Context} {context : Context} {frames : List Frame}
    (sized : ∀ frame ∈ frames, frame.length = frameSize) :
    ∀ cbuf ∈ (cipher.puts context frames).1, cbuf.length = frameSize := by
  induction frames generalizing context with
  | nil => exact nofun
  | cons frame rest inductionHypothesis =>
    obtain ⟨whole, sized⟩ := List.forall_mem_cons.mp sized
    exact List.forall_mem_cons.mpr
      ⟨cipher.length_put context frame whole, inductionHypothesis sized⟩

/-- What is written of some frames is decoded frame by frame, whatever the format. -/
theorem decode_ends {encryption : Cipher Context} (format : Format) {frames : List Frame}
    (sized : ∀ frame ∈ frames, frame.length = frameSize) {begun : Encoder Context}
    (cipher : begun.cipher = encryption.set)
    (output : begun.output = (format.begins encryption).output) :
    ∃ frame, format.decode decryption environment
        (format.ends (frames.foldl (putFrame encryption format.isBinary) begun)) =
      (run decryption environment { started decryption with frame := frame }
        (encryption.puts encryption.set frames).1).map some := by
  have coded := @length_of_mem_puts _ encryption encryption.set _ sized
  have put := @output_puts _ encryption format.isBinary begun frames
  rw [cipher, output] at put
  cases format with
  | binary tag =>
    refine ⟨header tag, ?_⟩
    have plain : written true = id := funext fun cbuf => rfl
    have put : (frames.foldl (putFrame encryption true) begun).output =
      header tag ++ (encryption.puts encryption.set frames).1.flatMap (written true) := put
    show binarydecode decryption environment
      (frames.foldl (putFrame encryption true) begun).output = _
    rw [← binarydecode_eq tag coded, put, plain, List.flatMap_id]
  | text tag =>
    refine ⟨cleared, ?_⟩
    have put : (frames.foldl (putFrame encryption false) begun).output =
      (Format.begins encryption (.text tag)).output ++
        (encryption.puts encryption.set frames).1.flatMap (written false) := put
    show streamdecode decryption environment
      ((frames.foldl (putFrame encryption false) begun).output ++ endLine ++ [0x0a]) = _
    rw [put]
    refine Eq.trans ?_ (streamdecode_eq tag coded)
    refine congrArg (streamdecode decryption environment) ?_
    simp only [Format.begins, List.append_assoc, List.cons_append]

/-! ### What comes out -/

/-- A state in which more has been written than in another one. -/
structure Wrote (content : List UInt8) (before after : Decoder Context) : Prop where
  stdout : after.stdout =
    match before.opened with
    | [] => before.stdout ++ content
    | _ :: _ => before.stdout
  opened : after.opened =
    match before.opened with
    | [] => []
    | (path, earlier) :: rest => (path, earlier ++ content) :: rest

theorem wrote_write (state : Decoder Context) (content : List UInt8) :
    Wrote content state (state.write content) := by
  cases files : state.opened with
  | nil => constructor <;> simp only [Decoder.write, files]
  | cons file earlier => constructor <;> simp only [Decoder.write, files]

theorem Wrote.nil (same : after.stdout = state.stdout) (opened : after.opened = state.opened) :
    Wrote [] state after := by
  constructor
  · rw [same]
    split
    · exact (List.append_nil _).symm
    · rfl
  · rw [opened]
    split
    next none_ => exact none_
    next some_ => rw [some_, List.append_nil]

theorem Wrote.append {first last : List UInt8} {middle : Decoder Context}
    (begun : Wrote first state middle) (ended : Wrote last middle after) :
    Wrote (first ++ last) state after := by
  obtain ⟨stdout, opened⟩ := begun
  obtain ⟨stdout', opened'⟩ := ended
  cases files : state.opened with
  | nil =>
    simp only [files] at stdout opened
    simp only [opened, stdout] at stdout' opened'
    constructor
    · rw [files, stdout', List.append_assoc]
    · rw [files, opened']
  | cons file earlier =>
    simp only [files] at stdout opened
    simp only [opened, stdout] at stdout' opened'
    constructor
    · rw [files, stdout']
    · rw [files, opened']
      simp only [List.append_assoc]

/-- A part of a frame is written. -/
theorem wrote_fwrite {cbuf : Frame} {start size : Nat} (within : start + size ≤ cbuf.length) :
    ∃ after, state.fwrite cbuf start size = .ok after ∧
      Wrote ((cbuf.drop start).take size) state after ∧ after.cipher = state.cipher ∧
        after.decoder = state.decoder ∧ after.frames = state.frames := by
  refine ⟨_, if_pos within, wrote_write state _, ?_⟩
  unfold Decoder.write
  split <;> exact ⟨rfl, rfl, rfl⟩

/-- The length that is in the last frame of some content, and the content in front of it. -/
theorem closing_spec {content : List UInt8} (short : content.length < frameSize) :
    ((closing content).getD (frameSize - 1) 0).toNat = content.length ∧
      (closing content).take content.length = content := by
  have last : frameSize - 1 = (content ++
      List.replicate (frameSize - 1 - content.length) (0 : UInt8)).length := by
    rw [List.length_append, List.length_replicate]
    unfold frameSize at short ⊢
    omega
  constructor
  · unfold closing
    generalize content ++ List.replicate (frameSize - 1 - content.length) 0 = before at last ⊢
    rw [last, List.getD_append_right _ _ _ _ (Nat.le_refl _), Nat.sub_self, List.getD_cons_zero,
      UInt8.toNat_ofNat']
    exact Nat.mod_eq_of_lt (Nat.lt_trans short (by decide))
  · unfold closing
    rw [List.append_assoc, List.take_left]

/-- The last frame is decoded. -/
theorem final_closing {content : List UInt8} (short : content.length < frameSize)
    (inside : state.decoder = .text ∨ state.decoder = .file)
    (plain : (decryption.put state.cipher state.frame).1 = closing content) :
    ∃ after, final decryption state = .ok after ∧ Wrote content state after ∧
      after.cipher = (decryption.put state.cipher state.frame).2 ∧ after.decoder = .scan := by
  obtain ⟨length, taken⟩ := closing_spec short
  have ended : final decryption state =
      if content.length ≠ 0 then
        Decoder.fwrite { state with
          decoder := .scan
          cipher := (decryption.put state.cipher state.frame).2 } (closing content) 0 content.length
      else .ok { state with
        decoder := .scan
        cipher := (decryption.put state.cipher state.frame).2 } := by
    unfold final
    rcases inside with text | file
    · simp only [text, plain, length]
    · simp only [file, plain, length]
  by_cases some_ : content.length ≠ 0
  · have within : 0 + content.length ≤ (closing content).length := by
      rw [length_closing short, Nat.zero_add]
      exact Nat.le_of_lt short
    obtain ⟨after, wrote, content_, cipher, decoder, _⟩ := wrote_fwrite within
    rw [List.drop_zero, taken] at content_
    exact ⟨after, ended.trans ((if_pos some_).trans wrote), ⟨content_.stdout, content_.opened⟩,
      cipher, decoder⟩
  · obtain rfl := List.length_eq_zero_iff.mp (not_not.mp some_)
    exact ⟨_, ended.trans (if_neg some_), Wrote.nil rfl rfl, rfl, rfl⟩

/-- A whole frame is decoded. -/
theorem copy_whole {bytes : List UInt8} (whole : bytes.length = frameSize)
    (plain : (decryption.put state.cipher state.frame).1 = bytes) :
    ∃ after, copy decryption state = .ok after ∧ Wrote bytes state after ∧
      after.cipher = (decryption.put state.cipher state.frame).2 ∧
        after.decoder = state.decoder ∧ after.frames = state.frames := by
  have within : 0 + frameSize ≤ (decryption.put state.cipher state.frame).1.length := by
    rw [plain, whole, Nat.zero_add]
  obtain ⟨after, wrote, content, cipher, decoder, frames⟩ := wrote_fwrite within
  rw [plain, List.drop_zero, ← whole, List.take_length] at content
  exact ⟨after, wrote, ⟨content.stdout, content.opened⟩, cipher, decoder, frames⟩

/-- There is a frame more for each frame that is decoded. -/
theorem puts_eq_cons {cipher : Cipher Context} {context : Context} {frames : List Frame}
    {plain : Frame} {plains : List Frame}
    (decoded : (cipher.puts context frames).1 = plain :: plains) :
    ∃ frame rest, frames = frame :: rest ∧ (cipher.put context frame).1 = plain ∧
      (cipher.puts (cipher.put context frame).2 rest).1 = plains := by
  cases frames with
  | nil => cases decoded
  | cons frame rest => exact ⟨frame, rest, rfl, List.cons.inj decoded⟩

theorem puts_eq_nil {cipher : Cipher Context} {context : Context} {frames : List Frame}
    (decoded : (cipher.puts context frames).1 = []) : frames = [] := by
  cases frames with
  | nil => rfl
  | cons frame rest => cases decoded

theorem puts_eq_append {cipher : Cipher Context} {context : Context} {frames : List Frame}
    {plains more : List Frame} (decoded : (cipher.puts context frames).1 = plains ++ more) :
    ∃ first last, frames = first ++ last ∧ (cipher.puts context first).1 = plains ∧
      (cipher.puts (cipher.puts context first).2 last).1 = more := by
  induction plains generalizing context frames with
  | nil => exact ⟨[], frames, rfl, rfl, decoded⟩
  | cons plain plains inductionHypothesis =>
    obtain ⟨frame, rest, rfl, put, later⟩ := puts_eq_cons decoded
    obtain ⟨first, last, rfl, puts, left⟩ := inductionHypothesis later
    refine ⟨frame :: first, last, rfl, ?_, left⟩
    show (cipher.put context frame).1 :: (cipher.puts (cipher.put context frame).2 first).1 = _
    rw [put, puts]

theorem body_ne_nil (content : List UInt8) : body content ≠ [] := by
  rw [body]
  split <;> exact List.cons_ne_nil _ _

/-- The frames of a message are decoded up to the end of the archive. -/
theorem run_text {content : List UInt8} {frames : List Frame} (text : state.decoder = .text)
    (plain : (decryption.puts state.cipher (state.frame :: frames)).1 = body content) :
    ∃ after, run decryption environment state frames = .ok after ∧ Wrote content state after := by
  induction content using body.induct generalizing state frames with
  | case1 content short =>
    rw [body, if_pos short] at plain
    obtain ⟨put, later⟩ := List.cons.inj plain
    obtain rfl := puts_eq_nil later
    obtain ⟨after, ended, wrote, _⟩ := final_closing short (Or.inl text) put
    exact ⟨after, ended, wrote⟩
  | case2 content long inductionHypothesis =>
    rw [body, if_neg long] at plain
    obtain ⟨put, later⟩ := List.cons.inj plain
    have whole : (content.take frameSize).length = frameSize :=
      List.length_take_of_le (Nat.le_of_not_lt long)
    obtain ⟨middle, copied, begun, cipher, decoder, _⟩ := copy_whole whole put
    cases frames with
    | nil => exact absurd later.symm (body_ne_nil _)
    | cons frame rest =>
      have still : ({ middle with frame := frame } : Decoder Context).decoder = .text :=
        decoder.trans text
      rw [← cipher] at later
      obtain ⟨after, ran, ended⟩ := inductionHypothesis still later
      refine ⟨after, ?_, ?_⟩
      · rw [run, process]
        simp only [text, copied]
        exact ran
      · rw [← List.take_append_drop frameSize content]
        exact begun.append ⟨ended.stdout, ended.opened⟩

/-- A frame of a file is the last one, or it is counted. -/
theorem process_file (file : state.decoder = .file) : process decryption environment state =
    if state.frames = 0 then final decryption state
    else copy decryption { state with frames := state.frames - 1 } := by
  unfold process
  split
  next other => cases file.symm.trans other
  next other => cases file.symm.trans other
  next => rfl
  next other => cases file.symm.trans other

/-- The frames of a file are decoded, whatever follows them. -/
theorem run_file {content : List UInt8} {frames : List Frame} (more : List Frame)
    (file : state.decoder = .file) (count : state.frames = content.length / frameSize)
    (plain : (decryption.puts state.cipher (state.frame :: frames)).1 = body content) :
    ∃ after, run decryption environment state (frames ++ more) =
        goOn decryption environment after more ∧ Wrote content state after ∧
      after.cipher = (decryption.puts state.cipher (state.frame :: frames)).2 ∧
        after.decoder = .scan := by
  induction content using body.induct generalizing state frames with
  | case1 content short =>
    rw [body, if_pos short] at plain
    obtain ⟨put, later⟩ := List.cons.inj plain
    obtain rfl := puts_eq_nil later
    obtain ⟨after, ended, wrote, cipher, decoder⟩ :=
      final_closing short (Or.inr file) put
    refine ⟨after, ?_, wrote, cipher, decoder⟩
    cases more with
    | nil => exact ended
    | cons frame more =>
      rw [Nat.div_eq_of_lt short] at count
      rw [List.nil_append, run, process_file file, if_pos count, ended]
      rfl
  | case2 content long inductionHypothesis =>
    rw [body, if_neg long] at plain
    obtain ⟨put, later⟩ := List.cons.inj plain
    have whole : (content.take frameSize).length = frameSize :=
      List.length_take_of_le (Nat.le_of_not_lt long)
    have counted :
        content.length / frameSize = (content.drop frameSize).length / frameSize + 1 := by
      rw [List.length_drop]
      exact Nat.div_eq_sub_div (Nat.succ_pos 47) (Nat.le_of_not_lt long)
    have some_ : state.frames ≠ 0 := by
      rw [count, counted]
      exact Nat.succ_ne_zero _
    obtain ⟨middle, copied, begun, cipher, decoder, left⟩ :=
      @copy_whole _ decryption { state with frames := state.frames - 1 } _ whole put
    cases frames with
    | nil => exact absurd later.symm (body_ne_nil _)
    | cons frame rest =>
      have still : ({ middle with frame := frame } : Decoder Context).decoder = .file :=
        decoder.trans file
      have fewer : ({ middle with frame := frame } : Decoder Context).frames =
          (content.drop frameSize).length / frameSize := by
        show middle.frames = _
        rw [left]
        show state.frames - 1 = _
        rw [count, counted, Nat.add_sub_cancel]
      have cipher : middle.cipher = (decryption.put state.cipher state.frame).2 := cipher
      have plains : (decryption.puts middle.cipher (frame :: rest)).1 =
          body (content.drop frameSize) := by
        rw [cipher]
        exact later
      obtain ⟨after, ran, ended, context, decoder'⟩ := inductionHypothesis still fewer plains
      refine ⟨after, ?_, ?_, ?_, decoder'⟩
      · rw [List.cons_append, run, process_file file, if_neg some_, copied]
        exact ran
      · rw [← List.take_append_drop frameSize content]
        exact Wrote.append ⟨begun.stdout, begun.opened⟩ ⟨ended.stdout, ended.opened⟩
      · rw [context]
        show (decryption.puts middle.cipher (frame :: rest)).2 = _
        rw [cipher]
        rfl

/-- The files are each permitted, once those before them have been created. -/
def Permitted (environment : Environment) : List Text → List File → Prop
  | _, [] => True
  | opened, file :: rest =>
    environment.permits opened file.name ∧ Permitted environment (file.name :: opened) rest

instance (environment : Environment) (opened : List Text) (files : List File) :
    Decidable (Permitted environment opened files) :=
  match files with
  | [] => inferInstanceAs (Decidable True)
  | file :: rest =>
    have : Decidable (Permitted environment (file.name :: opened) rest) :=
      instDecidablePermitted environment (file.name :: opened) rest
    inferInstanceAs (Decidable (_ ∧ _))

/-- The name of a file is decoded. -/
theorem process_name {file : File} {name : Frame} (scan : state.decoder = .scan)
    (names : Names file name) (put : (decryption.put state.cipher state.frame).1 = name) :
    process decryption environment state =
      if environment.permits (state.opened.map Prod.fst) file.name then
        .ok { state with
          cipher := (decryption.put state.cipher state.frame).2
          decoder := .file
          frames := file.content.length / frameSize
          opened := (file.name, []) :: state.opened }
      else .error (.errexit 8) := by
  have known : ¬ (1 : UInt8) = 0xff ∧ ¬ (1 : UInt8) = 0 := by decide
  rw [process]
  simp only [scan, put, names.kind, known.1, known.2, if_false, names.size, names.path, create]

/-- The frames of some files are decoded: each of them is opened and written, or the first that is
not permitted ends the decoding. -/
theorem goOn_files {files : List File} {frames plains : List Frame} (scan : state.decoder = .scan)
    (coded : Coded files plains) (plain : (decryption.puts state.cipher frames).1 = plains) :
    (Permitted environment (state.opened.map Prod.fst) files →
      ∃ after, goOn decryption environment state frames = .ok after ∧
        after.opened = (files.map fun file => (file.name, file.content)).reverse ++ state.opened) ∧
    (¬ Permitted environment (state.opened.map Prod.fst) files →
      goOn decryption environment state frames = .error (.errexit 8)) := by
  induction files generalizing state frames plains with
  | nil =>
    rw [Coded] at coded
    rw [coded] at plain
    obtain rfl := puts_eq_nil plain
    exact ⟨fun _ => ⟨state, rfl, rfl⟩, fun denied => absurd trivial denied⟩
  | cons file rest inductionHypothesis =>
    obtain ⟨name, more, names, split, coded⟩ := coded
    rw [split] at plain
    obtain ⟨frame, others, rfl, put, later⟩ := puts_eq_cons plain
    obtain ⟨first, last, rfl, bodies, mores⟩ := puts_eq_append later
    have processed := @process_name _ decryption environment { state with frame := frame } file name
      scan names put
    cases first with
    | nil => exact absurd bodies.symm (body_ne_nil _)
    | cons second first =>
      rw [goOn, List.cons_append, run, processed]
      by_cases permitted : environment.permits (state.opened.map Prod.fst) file.name
      · rw [if_pos permitted]
        have shown_ := @run_file _ decryption environment
          { frame := second
            cipher := (decryption.put state.cipher frame).2
            decoder := .file
            frames := file.content.length / frameSize
            stdout := state.stdout
            opened := (file.name, []) :: state.opened } file.content first last rfl rfl bodies
        obtain ⟨middle, ran, wrote, cipher, decoder⟩ := shown_
        have opened : middle.opened = (file.name, file.content) :: state.opened := wrote.opened
        have left : (decryption.puts middle.cipher last).1 = more := by
          rw [cipher]
          exact mores
        obtain ⟨created, refused⟩ := inductionHypothesis decoder coded left
        rw [opened] at created refused
        show (_ → ∃ after, run decryption environment _ (first ++ last) = .ok after ∧ _) ∧
          (_ → run decryption environment _ (first ++ last) = _)
        rw [ran]
        refine ⟨fun all => ?_, fun denied => refused fun later => denied ⟨permitted, later⟩⟩
        obtain ⟨after, done, files⟩ := created all.2
        refine ⟨after, done, ?_⟩
        rw [files, List.map_cons, List.reverse_cons, List.append_assoc, List.singleton_append]
      · have denied : ¬ Permitted environment (state.opened.map Prod.fst) (file :: rest) :=
          fun all => permitted all.1
        simp only [permitted]
        exact ⟨fun all => absurd all denied, fun _ => rfl⟩

/-- The only frame of a short message is of no file, and has the length in its last byte. -/
theorem opening_spec {message : List UInt8} (short : message.length < 42) {cbuf : Frame}
    (only : List.replicate 6 0 ++ message ++ List.replicate (41 - message.length) 0 ++
      [pad message] = cbuf) :
    cbuf.length = frameSize ∧ cbuf.getD 4 0 = 0 ∧ cbuf.getD (frameSize - 1) 0 = pad message ∧
      (cbuf.drop 6).take message.length = message := by
  have last : frameSize - 1 = (List.replicate 6 0 ++ message ++
      List.replicate (41 - message.length) (0 : UInt8)).length := by
    simp only [List.length_append, List.length_replicate, frameSize]
    omega
  subst only
  refine ⟨?_, rfl, ?_, ?_⟩
  · rw [List.length_append, ← last]
    rfl
  · generalize List.replicate 6 0 ++ message ++ List.replicate (41 - message.length) 0 = before
      at last ⊢
    rw [last, List.getD_append_right _ _ _ _ (Nat.le_refl _), Nat.sub_self, List.getD_cons_zero]
  · show (message ++ List.replicate (41 - message.length) 0 ++ [pad message]).take
      message.length = message
    rw [List.append_assoc, List.take_left]

/-- The end of an archive of one frame, which is that of a message. -/
theorem final_message {message : List UInt8} (short : message.length < 42)
    (scan : state.decoder = .scan) (plain : List.replicate 6 0 ++ message ++
      List.replicate (41 - message.length) 0 ++ [pad message] =
        (decryption.put state.cipher state.frame).1) :
    final decryption state =
      if (pad message).toNat ≠ 0 then
        Decoder.fwrite { state with cipher := (decryption.put state.cipher state.frame).2 }
          (decryption.put state.cipher state.frame).1 6 (pad message).toNat
      else .ok { state with cipher := (decryption.put state.cipher state.frame).2 } := by
  obtain ⟨_, kind, length, _⟩ := opening_spec short plain
  have message_ : ¬ (0 : UInt8) > 0 := by decide
  unfold final
  simp only [scan, kind, message_, if_false, length]

/-- The first frame of a message that goes on is decoded. -/
theorem process_message (scan : state.decoder = .scan)
    (kind : (decryption.put state.cipher state.frame).1.getD 4 0 = 0) :
    process decryption environment state =
      (Decoder.fwrite { state with cipher := (decryption.put state.cipher state.frame).2 }
        (decryption.put state.cipher state.frame).1 6 (frameSize - 6)).map fun state =>
          { state with decoder := .text } := by
  have message : ¬ (0 : UInt8) = 0xff := by decide
  unfold process
  split
  next other => cases scan.symm.trans other
  next =>
    dsimp only
    rw [kind, if_neg message, if_pos rfl]
  next other => cases scan.symm.trans other
  next other => cases scan.symm.trans other

/-- The frames of a message that is not empty are decoded. -/
theorem goOn_message {message : List UInt8} {frames : List Frame} (scan : state.decoder = .scan)
    (some_ : message ≠ [])
    (plain : (decryption.puts state.cipher frames).1 = messageFrames message) :
    ∃ after, goOn decryption environment state frames = .ok after ∧ Wrote message state after := by
  unfold messageFrames at plain
  split at plain
  next short =>
    obtain ⟨frame, rest, rfl, put, later⟩ := puts_eq_cons plain
    obtain rfl := puts_eq_nil later
    have ended := @final_message _ decryption { state with frame := frame } message short scan
      put.symm
    obtain ⟨whole, _, _, taken⟩ := opening_spec short put.symm
    have counted : (pad message).toNat = message.length := by
      rw [pad, if_neg some_, UInt8.toNat_ofNat']
      exact Nat.mod_eq_of_lt (Nat.lt_trans short (by decide))
    have long : message.length ≠ 0 := fun none_ => some_ (List.length_eq_zero_iff.mp none_)
    have within : 6 + message.length ≤ (decryption.put state.cipher frame).1.length := by
      rw [whole]
      exact Nat.le_of_lt (Nat.add_lt_add_left short 6)
    obtain ⟨after, wrote, content, _⟩ := @wrote_fwrite _
      { state with frame := frame, cipher := (decryption.put state.cipher frame).2 } _ _ _ within
    rw [taken] at content
    rw [counted, if_pos long] at ended
    exact ⟨after, ended.trans wrote, content.stdout, content.opened⟩
  next long =>
    obtain ⟨frame, rest, rfl, put, later⟩ := puts_eq_cons plain
    have whole : (message.take 42).length = 42 := List.length_take_of_le (Nat.le_of_not_lt long)
    have within : 6 + (frameSize - 6) ≤ (decryption.put state.cipher frame).1.length := by
      rw [put, List.length_append, whole]
      decide
    have taken : ((decryption.put state.cipher frame).1.drop 6).take (frameSize - 6) =
        message.take 42 := by
      rw [put]
      show (message.take 42).take 42 = message.take 42
      rw [List.take_take, Nat.min_self]
    obtain ⟨middle, wrote, content, cipher, _⟩ := @wrote_fwrite _
      { state with frame := frame, cipher := (decryption.put state.cipher frame).2 } _ _ _ within
    rw [taken] at content
    cases rest with
    | nil => exact absurd later.symm (body_ne_nil _)
    | cons second rest =>
      have kind : (decryption.put state.cipher frame).1.getD 4 0 = 0 := by
        rw [put]
        rfl
      have processed : process decryption environment { state with frame := frame } =
          .ok { middle with decoder := .text } := by
        refine (@process_message _ decryption environment { state with frame := frame } scan
          kind).trans ?_
        rw [wrote]
        rfl
      have plains :
          (decryption.puts middle.cipher (second :: rest)).1 = body (message.drop 42) := by
        rw [cipher]
        exact later
      obtain ⟨after, ran, ended⟩ := @run_text _ decryption environment
        { middle with decoder := .text, frame := second } _ rest rfl plains
      refine ⟨after, ?_, ?_⟩
      · rw [goOn, run, processed]
        exact ran
      · rw [← List.take_append_drop 42 message]
        exact Wrote.append ⟨content.stdout, content.opened⟩ ⟨ended.stdout, ended.opened⟩

/-- For an empty message the decoder reads behind the end of a frame. -/
theorem goOn_empty {frames : List Frame} (scan : state.decoder = .scan)
    (plain : (decryption.puts state.cipher frames).1 = messageFrames []) :
    goOn decryption environment state frames = .error .outside := by
  have short : ([] : List UInt8).length < 42 := Nat.succ_pos 41
  rw [messageFrames, if_pos short] at plain
  obtain ⟨frame, rest, rfl, put, later⟩ := puts_eq_cons plain
  obtain rfl := puts_eq_nil later
  have ended := @final_message _ decryption { state with frame := frame } [] short scan put.symm
  obtain ⟨whole, _⟩ := opening_spec short put.symm
  have counted : (pad []).toNat = 250 := rfl
  have outside : ¬ 6 + 250 ≤ (decryption.put state.cipher frame).1.length := by
    rw [whole]
    decide
  rw [counted, if_pos (by decide)] at ended
  exact ended.trans (if_neg outside)

/-! ### The round trip -/

/-- From the start, what there is of frames is decoded. -/
theorem run_started (frame : Frame) (frames : List Frame) (some_ : frames ≠ []) :
    run decryption environment { started decryption with frame := frame } frames =
      goOn decryption environment { started decryption with frame := frame, decoder := .scan }
        frames := by
  cases frames with
  | nil => exact absurd rfl some_
  | cons first rest => rfl

/-- A message is decoded to itself, and nothing more. -/
def Restores (ciphers : Ciphers Context) (environment : Environment) (format : Format)
    (message : List UInt8) : Prop :=
  ∃ archive state, archiveMessage ciphers.encryption format message = some archive ∧
    format.decode ciphers.decryption environment archive = .ok (some state) ∧
    state.stdout = message ∧ state.opened = []

/-- Every file is recreated with exactly its content. -/
def Recreates (ciphers : Ciphers Context) (environment : Environment) (format : Format)
    (files : List File) : Prop :=
  ∃ archive state, archiveFiles ciphers.encryption format files = some archive ∧
    format.decode ciphers.decryption environment archive = .ok (some state) ∧
    ∀ file ∈ files, state.content environment (environment.inode file.name) = some file.content

/-- Files whose names are of one file have the same content. -/
def Alike (environment : Environment) (files : List File) : Prop :=
  ∀ file ∈ files, ∀ other ∈ files, environment.inode file.name = environment.inode other.name →
    file.content = other.content

variable {ciphers : Ciphers Context} {format : Format}

theorem messageFrames_ne_nil (message : List UInt8) : messageFrames message ≠ [] := by
  unfold messageFrames
  split <;> exact List.cons_ne_nil _ _

theorem puts_ne_nil {cipher : Cipher Context} {context : Context} {frames : List Frame}
    (some_ : frames ≠ []) : (cipher.puts context frames).1 ≠ [] := by
  cases frames with
  | nil => exact absurd rfl some_
  | cons frame rest => exact List.cons_ne_nil _ _

theorem restores_iff (message : List UInt8) :
    Restores ciphers environment format message ↔ message ≠ [] := by
  have sized := fun frame => @length_of_mem_messageFrames message frame
  obtain ⟨frame, decoded⟩ := @decode_ends _ ciphers.decryption environment ciphers.encryption format
    (messageFrames message) sized { format.begins ciphers.encryption with frame := cleared }
    (by cases format <;> rfl) rfl
  rw [run_started frame _ (puts_ne_nil (messageFrames_ne_nil message))] at decoded
  have plain := ciphers.inverse (messageFrames message) sized
  have archived : archiveMessage ciphers.encryption format message =
      some (format.ends ((messageFrames message).foldl
        (putFrame ciphers.encryption format.isBinary)
          { format.begins ciphers.encryption with frame := cleared })) := by
    rw [archiveMessage, encodestream_eq]
    rfl
  constructor
  · rintro ⟨archive, state, made, read, _⟩ rfl
    rw [archived, Option.some_inj] at made
    have lost := @goOn_empty _ ciphers.decryption environment
      { started ciphers.decryption with frame := frame, decoder := .scan } _ rfl plain
    rw [← made, decoded, lost] at read
    cases read
  · intro some_
    obtain ⟨after, done, wrote⟩ := @goOn_message _ ciphers.decryption environment
      { started ciphers.decryption with frame := frame, decoder := .scan } _ _ rfl some_ plain
    rw [done] at decoded
    exact ⟨_, after, archived, decoded, wrote.stdout, wrote.opened⟩

/-- What is left of some content is written behind its start, or over itself. -/
theorem pwrite_drop {file content : List UInt8} {start : Nat}
    (held : file = content.take start ∨ file = content) :
    Decoder.pwrite file start (content.drop start) = content := by
  unfold Decoder.pwrite
  split
  next none_ =>
    rcases held with rfl | rfl
    · exact List.take_of_length_le (List.drop_eq_nil_iff.mp none_)
    · rfl
  next some_ =>
    have within : start ≤ content.length :=
      Nat.le_of_not_le fun short => some_ (List.drop_of_length_le short)
    have behind : start + (content.drop start).length = content.length := by
      rw [List.length_drop, Nat.add_sub_cancel' within]
    have filled : file ++ List.replicate (start - file.length) 0 = file := by
      rw [Nat.sub_eq_zero_of_le, List.replicate_zero, List.append_nil]
      rcases held with rfl | rfl
      · exact (List.length_take_of_le within).ge
      · exact within
    have short : file.length ≤ content.length := by
      rcases held with rfl | rfl
      · exact List.length_take_le' _ _
      · exact Nat.le_refl _
    have begun : file.take start = content.take start := by
      rcases held with rfl | rfl
      · exact List.take_take.trans (by rw [Nat.min_self])
      · rfl
    rw [filled, Bytes.move, behind, List.drop_of_length_le short, List.append_nil, begun,
      List.take_append_drop]

/-- Streams with the same content write it once and for all. -/
theorem foldl_flush {file : Nat} {content : List UInt8} {streams : List (Text × List UInt8)}
    (same : ∀ stream ∈ streams, stream.2 = content) :
    streams.foldl (Decoder.flush environment file) content = content := by
  induction streams with
  | nil => rfl
  | cons stream rest inductionHypothesis =>
    obtain ⟨rfl, same⟩ := List.forall_mem_cons.mp same
    rw [List.foldl_cons, Decoder.flush, pwrite_drop (.inr rfl)]
    exact inductionHypothesis same

/-- Every file has its content where those whose names are of one file have the same. -/
theorem content_iff {files : List File}
    (opened : state.opened = (files.map fun file => (file.name, file.content)).reverse) :
    (∀ file ∈ files,
        state.content environment (environment.inode file.name) = some file.content) ↔
      Alike environment files := by
  constructor
  · intro all file member other member' same
    exact Option.some_inj.mp ((all file member).symm.trans (same ▸ all other member'))
  · intro alike file member
    have stream : ∀ stream ∈ state.opened,
        ∃ other ∈ files, (other.name, other.content) = stream := by
      intro stream member
      rw [opened] at member
      exact List.mem_map.mp (List.mem_reverse.mp member)
    let names := fun stream : Text × List UInt8 =>
      decide (environment.inode stream.1 = environment.inode file.name)
    have same : ∀ stream ∈ state.opened, names stream → stream.2 = file.content := by
      intro opening member' named
      obtain ⟨other, named', rfl⟩ := stream opening member'
      exact alike other named' file member (of_decide_eq_true named)
    have here : (file.name, file.content) ∈ state.opened := by
      rw [opened]
      exact List.mem_reverse.mpr (List.mem_map_of_mem member)
    obtain ⟨latest, found⟩ := Option.isSome_iff_exists.mp
      (List.find?_isSome.mpr ⟨_, here, decide_eq_true rfl⟩ : (state.opened.find? names).isSome)
    have ended := environment.exit_perm state.opened
    have all : ∀ stream ∈ (environment.exit state.opened).filter names,
        stream.2 = file.content := by
      intro opening member
      obtain ⟨member, named⟩ := List.mem_filter.mp member
      exact same opening (ended.mem_iff.mp member) named
    obtain ⟨first, rest, streams⟩ := List.exists_cons_of_ne_nil (List.ne_nil_of_mem
      (List.mem_filter.mpr ⟨ended.mem_iff.mpr here, decide_eq_true rfl⟩ :
        _ ∈ (environment.exit state.opened).filter names))
    rw [streams] at all
    obtain ⟨head, all⟩ := List.forall_mem_cons.mp all
    have begun := same latest (List.mem_of_find?_eq_some found) (List.find?_some found)
    show (state.opened.find? names).map (fun latest =>
      ((environment.exit state.opened).filter names).foldl
        (Decoder.flush environment (environment.inode file.name))
        (latest.2.take (environment.flushed (environment.inode file.name) latest.2))) = _
    rw [found, Option.map_some, streams, List.foldl_cons, Decoder.flush, head, begun,
      pwrite_drop (.inl rfl), foldl_flush all]

/-- From the start, the frames of some files are decoded. -/
theorem run_files {files : List File} {frames plains : List Frame} (frame : Frame)
    (coded : Coded files plains)
    (plain : (decryption.puts decryption.set frames).1 = plains) :
    (Permitted environment [] files →
      ∃ after, run decryption environment { started decryption with frame := frame } frames =
          .ok after ∧
        after.opened = (files.map fun file => (file.name, file.content)).reverse) ∧
    (¬ Permitted environment [] files →
      run decryption environment { started decryption with frame := frame } frames =
        .error (.errexit 8)) := by
  cases files with
  | nil =>
    rw [Coded] at coded
    rw [coded] at plain
    obtain rfl := puts_eq_nil plain
    exact ⟨fun _ => ⟨_, rfl, rfl⟩, fun denied => absurd trivial denied⟩
  | cons file rest =>
    have some_ : frames ≠ [] := by
      rintro rfl
      obtain ⟨name, more, _, split, _⟩ := coded
      rw [split] at plain
      cases plain
    obtain ⟨created, refused⟩ := @goOn_files _ decryption environment
      { started decryption with frame := frame, decoder := .scan } _ _ _ rfl coded plain
    rw [run_started frame frames some_]
    refine ⟨fun permitted => ?_, refused⟩
    obtain ⟨after, done, opened⟩ := created permitted
    exact ⟨after, done, opened.trans (List.append_nil _)⟩

theorem recreates_iff (files : List File) :
    Recreates ciphers environment format files ↔
      Permitted environment [] files ∧ Alike environment files := by
  have whole : (format.begins ciphers.encryption).frame.length = frameSize := by
    cases format with
    | binary tag => exact (header_spec tag).1
    | text tag => exact List.length_replicate
  obtain ⟨frames, coded, sized, encoded⟩ :=
    @encodefiles_eq _ ciphers.encryption format.isBinary _ whole files
  obtain ⟨frame, decoded⟩ := @decode_ends _ ciphers.decryption environment ciphers.encryption format
    frames sized (format.begins ciphers.encryption) (by cases format <;> rfl) rfl
  have plain := ciphers.inverse frames sized
  have archived : archiveFiles ciphers.encryption format files = some (format.ends
      (frames.foldl (putFrame ciphers.encryption format.isBinary)
        (format.begins ciphers.encryption))) := by
    rw [archiveFiles, encoded, Option.map_some]
  obtain ⟨created, refused⟩ := @run_files _ ciphers.decryption environment files _ _ frame coded
    plain
  constructor
  · rintro ⟨archive, state, made, read, all⟩
    rw [archived, Option.some_inj] at made
    rw [← made, decoded] at read
    by_cases permitted : Permitted environment [] files
    · obtain ⟨after, done, opened⟩ := created permitted
      rw [done] at read
      cases read
      exact ⟨permitted, (content_iff opened).mp all⟩
    · rw [refused permitted] at read
      cases read
  · rintro ⟨permitted, alike⟩
    obtain ⟨after, done, opened⟩ := created permitted
    rw [done] at decoded
    exact ⟨_, after, archived, decoded, (content_iff opened).mpr alike⟩

/-- Messages and files come out of an archive as they went in, except for the empty message, and
for files that may not be created, and different ones whose names are of one file. -/
theorem car_decodes (ciphers : Ciphers Context) (environment : Environment) (format : Format) :
    (∀ message, Restores ciphers environment format message ↔ message ≠ []) ∧
      ∀ files, Recreates ciphers environment format files ↔
        Permitted environment [] files ∧ Alike environment files :=
  ⟨restores_iff, recreates_iff⟩

/-- A cipher that changes the bytes of each frame by another number. -/
def shifting : Cipher UInt8 where
  set := 0x5a
  put context frame := (frame.map fun byte => byte ^^^ context, context + 1)
  length_put _ _ whole := (List.length_map _).trans whole

theorem shifting_inverse (context : UInt8) (frames : List Frame) :
    (shifting.puts context (shifting.puts context frames).1).1 = frames := by
  induction frames generalizing context with
  | nil => rfl
  | cons frame rest inductionHypothesis =>
    have back : (frame.map fun byte => byte ^^^ context).map (fun byte => byte ^^^ context) =
        frame := by
      rw [List.map_map]
      refine (List.map_congr_left fun byte _ => ?_).trans (List.map_id frame)
      show byte ^^^ context ^^^ context = byte
      rw [UInt8.xor_assoc, UInt8.xor_self, UInt8.xor_zero]
    show (frame.map fun byte => byte ^^^ context).map (fun byte => byte ^^^ context) ::
      (shifting.puts (context + 1) (shifting.puts (context + 1) rest).1).1 = frame :: rest
    rw [back, inductionHypothesis]

def shifted : Ciphers UInt8 := ⟨shifting, shifting, fun frames _ => shifting_inverse _ frames⟩

/-- A file system in which any file may be created. -/
def permissive : Environment where
  yes := false
  quiet := true
  is_dir _ _ := false
  is_file _ _ := false
  inkey _ _ := 0
  fopen _ _ := true
  inode path := path.foldl (fun number byte => number * 256 + byte.toNat) 0
  flushed _ content := content.length
  exit := id
  exit_perm := List.Perm.refl

/-- The empty message is encoded into a frame for which the decoder leaves its buffer. -/
theorem car_loses_empty :
    ∃ archive, archiveMessage shifted.encryption (.binary []) [] = some archive ∧
      (Format.binary []).decode shifted.decryption permissive archive = .error .outside ∧
      ¬ Restores shifted permissive (.binary []) [] := by
  refine ⟨_, rfl, rfl, fun ⟨archive, state, made, read, _⟩ => ?_⟩
  cases made
  cases read

end Car

end CommonCpp
