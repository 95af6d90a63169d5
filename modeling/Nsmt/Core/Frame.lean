import Nsmt.Lib.Bytes

/-!
# Binary frames

`FrameCodec` of `nsmt-core`: a twelve byte header (magic, version, flags, type,
stream and payload length, the integers little-endian) followed by the payload.
`decode_encode_append` says that an encoded frame is read back whatever follows it.
-/

namespace Nsmt.Core

open Nsmt.Lib

def magic : UInt8 := 0x59
def protocolVersion : UInt8 := 1
def chunkSize : Nat := 1024 * 1024
def maxPayloadLen : Nat := 16 * 1024 * 1024

inductive FrameType
  | hello | helloAck | auth | ticket | register | registerAck
  | heartbeat | onlineList | onlineDelta
  | memoryRecall | memoryRecallResult | memoryCapture | memoryCaptureResult
  | fileTree | fileDiff | fileDiffResult | fileGet | filePut | fileChunk | filePutAck
  | lockAcquire | lockRenew | lockRelease | lockGranted | lockDenied | lockNotify
  | peerHello | peerAuth | peerAuthOk | peerHint
  | error
  deriving DecidableEq, Repr

/-- The enumeration's `repr(u8)` discriminants. -/
def FrameType.toRaw : FrameType → UInt8
  | .hello => 0x01 | .helloAck => 0x02 | .auth => 0x03 | .ticket => 0x04
  | .register => 0x05 | .registerAck => 0x06
  | .heartbeat => 0x10 | .onlineList => 0x11 | .onlineDelta => 0x12
  | .memoryRecall => 0x20 | .memoryRecallResult => 0x21
  | .memoryCapture => 0x22 | .memoryCaptureResult => 0x23
  | .fileTree => 0x30 | .fileDiff => 0x31 | .fileDiffResult => 0x32 | .fileGet => 0x33
  | .filePut => 0x34 | .fileChunk => 0x35 | .filePutAck => 0x36
  | .lockAcquire => 0x40 | .lockRenew => 0x41 | .lockRelease => 0x42
  | .lockGranted => 0x43 | .lockDenied => 0x44 | .lockNotify => 0x45
  | .peerHello => 0x50 | .peerAuth => 0x51 | .peerAuthOk => 0x52 | .peerHint => 0x53
  | .error => 0xF0

def FrameType.fromRaw (raw : UInt8) : Option FrameType :=
  match raw.toNat with
  | 0x01 => some .hello | 0x02 => some .helloAck | 0x03 => some .auth | 0x04 => some .ticket
  | 0x05 => some .register | 0x06 => some .registerAck
  | 0x10 => some .heartbeat | 0x11 => some .onlineList | 0x12 => some .onlineDelta
  | 0x20 => some .memoryRecall | 0x21 => some .memoryRecallResult
  | 0x22 => some .memoryCapture | 0x23 => some .memoryCaptureResult
  | 0x30 => some .fileTree | 0x31 => some .fileDiff | 0x32 => some .fileDiffResult
  | 0x33 => some .fileGet | 0x34 => some .filePut | 0x35 => some .fileChunk
  | 0x36 => some .filePutAck
  | 0x40 => some .lockAcquire | 0x41 => some .lockRenew | 0x42 => some .lockRelease
  | 0x43 => some .lockGranted | 0x44 => some .lockDenied | 0x45 => some .lockNotify
  | 0x50 => some .peerHello | 0x51 => some .peerAuth | 0x52 => some .peerAuthOk
  | 0x53 => some .peerHint
  | 0xF0 => some .error
  | _ => none

theorem FrameType.fromRaw_toRaw (t : FrameType) : fromRaw t.toRaw = some t := by
  cases t <;> rfl

theorem FrameType.toRaw_of_fromRaw (h : fromRaw raw = some t) : t.toRaw = raw := by
  unfold fromRaw at h
  split at h
  all_goals first
    | (obtain rfl := Option.some.inj h; rename_i hraw; exact (UInt8.toNat_inj.mp hraw).symm)
    | cases h

structure Frame where
  frameType : FrameType
  flags : UInt8
  streamId : UInt32
  payload : Bytes
  deriving DecidableEq, Repr

/-- The errors of `nsmt-core` that framing can raise, each with its data. -/
inductive NsmtError
  | protocol (message : String)
  | frameTooLarge (length : Nat)
  | invalidMagic (byte : UInt8)
  | unsupportedVersion (version : UInt8)
  deriving DecidableEq, Repr

namespace FrameCodec

def header (frame : Frame) : Bytes :=
  [magic, protocolVersion, frame.flags, frame.frameType.toRaw] ++
    le 4 frame.streamId.toNat ++ le 4 frame.payload.length

def encode (frame : Frame) : Except NsmtError Bytes :=
  if frame.payload.length > maxPayloadLen then .error (.frameTooLarge frame.payload.length)
  else .ok (header frame ++ frame.payload)

/-- `u32::from_le_bytes` of the four bytes at `at_`. -/
def u32At (buf : Bytes) (at_ : Nat) : Nat := ofLe ((buf.drop at_).take 4)

/-- The text `{:#x}` prints for a byte. -/
def hexPrefixed (b : UInt8) : String := "0x" ++ String.ofList (Nat.toDigits 16 b.toNat)

def decode (buf : Bytes) : Except NsmtError (Option Frame) :=
  if buf.length < 12 then .ok none
  else if buf[0]?.getD 0 ≠ magic then .error (.invalidMagic (buf[0]?.getD 0))
  else if buf[1]?.getD 0 ≠ protocolVersion then .error (.unsupportedVersion (buf[1]?.getD 0))
  else match FrameType.fromRaw (buf[3]?.getD 0) with
    | none => .error (.protocol ("unknown frame type " ++ hexPrefixed (buf[3]?.getD 0)))
    | some frameType =>
      let payloadLen := u32At buf 8
      if payloadLen > maxPayloadLen then .error (.frameTooLarge payloadLen)
      else if buf.length < 12 + payloadLen then .ok none
      else .ok (some
        { frameType
          flags := buf[2]?.getD 0
          streamId := UInt32.ofNat (u32At buf 4)
          payload := (buf.drop 12).take payloadLen })

@[simp] theorem length_header (frame : Frame) : (header frame).length = 12 := by
  simp [header]

theorem encode_ok (h : frame.payload.length ≤ maxPayloadLen) :
    encode frame = .ok (header frame ++ frame.payload) := by
  rw [encode, if_neg (by omega)]

theorem u32At_stream (frame : Frame) (rest : Bytes) :
    u32At (header frame ++ rest) 4 = frame.streamId.toNat := by
  have h : ((header frame ++ rest).drop 4).take 4 = le 4 frame.streamId.toNat := by
    simp [header]
  rw [u32At, h, ofLe_le, Nat.mod_eq_of_lt]
  exact frame.streamId.toNat_lt

theorem u32At_length (frame : Frame) (rest : Bytes) (h : frame.payload.length ≤ maxPayloadLen) :
    u32At (header frame ++ rest) 8 = frame.payload.length := by
  have hle : ((header frame ++ rest).drop 8).take 4 = le 4 frame.payload.length := by
    simp [header]
  rw [u32At, hle, ofLe_le, Nat.mod_eq_of_lt]
  unfold maxPayloadLen at h
  omega

/-- The codec is self-delimiting: an encoded frame is read back, whatever
bytes follow it. -/
theorem decode_encode_append (frame : Frame) (rest : Bytes)
    (h : frame.payload.length ≤ maxPayloadLen) :
    decode (header frame ++ frame.payload ++ rest) = .ok (some frame) := by
  have hlen : (header frame ++ frame.payload ++ rest).length =
      12 + frame.payload.length + rest.length := by
    simp only [List.length_append, length_header]
  have h0 : (header frame ++ frame.payload ++ rest)[0]? = some magic := rfl
  have h1 : (header frame ++ frame.payload ++ rest)[1]? = some protocolVersion := rfl
  have h2 : (header frame ++ frame.payload ++ rest)[2]? = some frame.flags := rfl
  have h3 : (header frame ++ frame.payload ++ rest)[3]? = some frame.frameType.toRaw := rfl
  have hp : ((header frame ++ frame.payload ++ rest).drop 12).take frame.payload.length =
      frame.payload := by
    rw [List.append_assoc, List.drop_left' (length_header frame), List.take_left' rfl]
  rw [decode, if_neg (by omega), h0, h1, h2, h3]
  simp only [Option.getD_some, ne_eq, not_true_eq_false, if_false, FrameType.fromRaw_toRaw,
    List.append_assoc, u32At_length _ _ h, u32At_stream]
  simp only [List.append_assoc] at hp hlen
  rw [if_neg (by omega), if_neg (by omega), hp, UInt32.ofNat_toNat]

-- ---------------------------------------------------------------------------
-- The format read from both ends
-- ---------------------------------------------------------------------------

theorem encode_error_iff (frame : Frame) :
    (∃ e, encode frame = .error e) ↔ maxPayloadLen < frame.payload.length := by
  unfold encode
  split
  · rename_i h
    exact ⟨fun _ => h, fun _ => ⟨_, rfl⟩⟩
  · rename_i h
    constructor
    · rintro ⟨e, he⟩
      cases he
    · intro hlarge
      exact absurd hlarge h

theorem decode_strict_start {held : Bytes} (h : frame.payload.length ≤ maxPayloadLen)
    (hsplit : held ++ rest = header frame ++ frame.payload) (hne : rest ≠ []) :
    decode held = .ok none := by
  have hlen := congrArg List.length hsplit
  simp only [List.length_append, length_header] at hlen
  have hpos := List.length_pos_iff.mpr hne
  by_cases hh : held.length < 12
  · rw [decode, if_pos hh]
  · -- The header is complete, so every check but the last one passes.
    have htake := congrArg (List.take 12) hsplit
    rw [List.take_append_of_le_length (by omega), List.take_left' (length_header frame)] at htake
    obtain ⟨got, rfl⟩ : ∃ got, held = header frame ++ got :=
      ⟨held.drop 12, by rw [← htake, List.take_append_drop]⟩
    have h0 : (header frame ++ got)[0]? = some magic := rfl
    have h1 : (header frame ++ got)[1]? = some protocolVersion := rfl
    have h3 : (header frame ++ got)[3]? = some frame.frameType.toRaw := rfl
    rw [decode, if_neg hh, h0, h1, h3]
    simp only [Option.getD_some, ne_eq, not_true_eq_false, if_false, FrameType.fromRaw_toRaw,
      u32At_length _ _ h]
    rw [if_neg (by omega), if_pos (by omega)]

/-- The twelve header bytes are the fields that `decode` reads from them. -/
theorem take_header {buf : Bytes} (hlen : 12 ≤ buf.length) :
    buf.take 12 = [buf[0]?.getD 0, buf[1]?.getD 0, buf[2]?.getD 0, buf[3]?.getD 0] ++
      le 4 (u32At buf 4) ++ le 4 (u32At buf 8) := by
  have hle (at_ : Nat) (h : at_ + 4 ≤ buf.length) :
      le 4 (u32At buf at_) = (buf.drop at_).take 4 := by
    have hl : ((buf.drop at_).take 4).length = 4 := by
      rw [List.length_take, List.length_drop]
      omega
    have h := le_ofLe ((buf.drop at_).take 4)
    rwa [hl] at h
  rw [hle 4 (by omega), hle 8 (by omega)]
  match buf, hlen with
  | b0 :: b1 :: b2 :: b3 :: b4 :: b5 :: b6 :: b7 :: b8 :: b9 :: b10 :: b11 :: rest, _ => rfl

/-- What `decode` accepts: the buffer starts with the frame's own encoding. -/
theorem decode_frame {buf : Bytes} (h : decode buf = .ok (some frame)) :
    frame.payload.length = u32At buf 8 ∧ frame.payload.length ≤ maxPayloadLen ∧
      buf.take (12 + u32At buf 8) = header frame ++ frame.payload := by
  unfold decode at h
  split at h; · cases h
  rename_i hlen
  split at h; · cases h
  rename_i hmagic
  split at h; · cases h
  rename_i hversion
  split at h; · cases h
  rename_i frameType htype
  simp only at h
  split at h; · cases h
  rename_i hmax
  split at h; · cases h
  rename_i hall
  obtain rfl := Option.some.inj (Except.ok.inj h)
  have hpayload : ((buf.drop 12).take (u32At buf 8)).length = u32At buf 8 := by
    rw [List.length_take, List.length_drop]
    omega
  have hstream : (UInt32.ofNat (u32At buf 4)).toNat = u32At buf 4 := by
    rw [UInt32.toNat_ofNat']
    have hlt := ofLe_lt ((buf.drop 4).take 4)
    have h4 : ((buf.drop 4).take 4).length = 4 := by
      rw [List.length_take, List.length_drop]
      omega
    rw [h4] at hlt
    exact Nat.mod_eq_of_lt hlt
  refine ⟨hpayload, by simp only [hpayload]; omega, ?_⟩
  have hheader : buf.take 12 = header
      { frameType, flags := buf[2]?.getD 0, streamId := UInt32.ofNat (u32At buf 4),
        payload := (buf.drop 12).take (u32At buf 8) } := by
    rw [take_header (by omega), header]
    simp only [hpayload, hstream, FrameType.toRaw_of_fromRaw htype, not_not.mp hmagic,
      not_not.mp hversion]
  rw [List.take_add, hheader]

/-- The codec is exact and self-delimiting. An encodable frame is read back
whatever follows it and asked for to the end when cut anywhere; only payloads
over the limit are refused; and every frame `decode` returns is the one whose
encoding the buffer starts with. -/
theorem codec_exact :
    (∀ frame : Frame, frame.payload.length ≤ maxPayloadLen →
      ∃ wire, encode frame = .ok wire ∧ (∀ rest, decode (wire ++ rest) = .ok (some frame)) ∧
        ∀ cut, cut <+: wire → cut ≠ wire → decode cut = .ok none) ∧
    (∀ frame : Frame, (∃ e, encode frame = .error e) ↔ maxPayloadLen < frame.payload.length) ∧
    ∀ (buf : Bytes) (frame : Frame), decode buf = .ok (some frame) →
      frame.payload.length = u32At buf 8 ∧ encode frame = .ok (buf.take (12 + u32At buf 8)) := by
  refine ⟨fun frame h => ?_, encode_error_iff, fun buf frame h => ?_⟩
  · refine ⟨_, encode_ok h, fun rest => decode_encode_append frame rest h, ?_⟩
    rintro cut ⟨rest, hsplit⟩ hne
    apply decode_strict_start h hsplit
    rintro rfl
    exact hne (by rwa [List.append_nil] at hsplit)
  · obtain ⟨hlen, hmax, hbuf⟩ := decode_frame h
    rw [encode_ok hmax, hbuf]
    exact ⟨hlen, rfl⟩

theorem codec_exact_hello :
    let frame : Frame := { frameType := .hello, flags := 0, streamId := 7, payload := [1, 2] }
    ∃ wire, encode frame = .ok wire ∧ (∀ rest, decode (wire ++ rest) = .ok (some frame)) ∧
      ∀ cut, cut <+: wire → cut ≠ wire → decode cut = .ok none :=
  codec_exact.1 _ (by decide)

end FrameCodec

end Nsmt.Core
