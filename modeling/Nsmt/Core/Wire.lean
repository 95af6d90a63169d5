import Nsmt.Core.Frame

/-!
# Reading frames from a stream

`FrameStream::recv` as a machine that is suspended at each of its two `read`
calls: `RecvState` is what the pending future holds, `RecvState.read` is one
read of that many bytes (no bytes is end of stream). What a suspended `recv`
has read so far lives nowhere else, so dropping the future drops it.

`RecvState.read_wire` is the machine's specification: fed the bytes of an
encoded frame, it holds exactly the bytes fed, until the last one makes it
return the frame.
-/

namespace Nsmt.Core

open Nsmt.Lib

def Frame.wire (frame : Frame) : Bytes := FrameCodec.header frame ++ frame.payload

theorem Frame.length_wire (frame : Frame) : frame.wire.length = 12 + frame.payload.length := by
  simp [Frame.wire]

theorem Frame.wire_ne_nil (frame : Frame) : frame.wire ≠ [] := by
  rw [ne_eq, ← List.length_eq_zero_iff, Frame.length_wire]
  omega

/-- A suspended `recv`: in the header loop, or in the payload loop behind a
header that passed its checks. -/
inductive RecvState
  | inHeader (got : Bytes)
  | inPayload (header got : Bytes)
  deriving DecidableEq, Repr

inductive RecvPoll
  | pending (state : RecvState)
  | ready (result : Except NsmtError (Option Frame))
  deriving DecidableEq, Repr

namespace RecvState

/-- `recv` right after the call. -/
def start : RecvState := .inHeader []

/-- The length of the buffer the pending `read` offers. -/
def want : RecvState → Nat
  | .inHeader got => 12 - got.length
  | .inPayload header got => FrameCodec.u32At header 8 - got.length

/-- The bytes taken from the stream that only this future holds. -/
def held : RecvState → Bytes
  | .inHeader got => got
  | .inPayload header got => header ++ got

/-- The end of `recv`: the buffer goes through `FrameCodec::decode` and the
payload read from the stream replaces the decoded copy. -/
def finish (header payload : Bytes) : RecvPoll :=
  match FrameCodec.decode (header ++ payload) with
  | .error e => .ready (.error e)
  | .ok none => .ready (.ok none)
  | .ok (some frame) => .ready (.ok (some { frame with payload }))

/-- Between the loops: magic, version and length are checked before a payload
buffer is allocated. An empty payload leaves the second loop at once. -/
def afterHeader (header : Bytes) : RecvPoll :=
  if header[0]?.getD 0 ≠ magic then .ready (.error (.invalidMagic (header[0]?.getD 0)))
  else if header[1]?.getD 0 ≠ protocolVersion then
    .ready (.error (.unsupportedVersion (header[1]?.getD 0)))
  else if FrameCodec.u32At header 8 > maxPayloadLen then
    .ready (.error (.frameTooLarge (FrameCodec.u32At header 8)))
  else if FrameCodec.u32At header 8 = 0 then finish header []
  else .pending (.inPayload header [])

def read (bytes : Bytes) : RecvState → RecvPoll
  | .inHeader got =>
    if bytes = [] then
      if got = [] then .ready (.ok none)
      else .ready (.error (.protocol "eof in frame header"))
    else if (got ++ bytes).length < 12 then .pending (.inHeader (got ++ bytes))
    else afterHeader (got ++ bytes)
  | .inPayload header got =>
    if bytes = [] then .ready (.error (.protocol "eof in frame payload"))
    else if (got ++ bytes).length < FrameCodec.u32At header 8 then
      .pending (.inPayload header (got ++ bytes))
    else finish header (got ++ bytes)

/-- Both loops stop as soon as their buffer is full. -/
def Suspended : RecvState → Prop
  | .inHeader got => got.length < 12
  | .inPayload header got => header.length = 12 ∧ got.length < FrameCodec.u32At header 8

@[simp] theorem held_start : start.held = [] := rfl

theorem start_suspended : start.Suspended := by simp [start, Suspended]

-- ---------------------------------------------------------------------------
-- What a read does to the bytes held
-- ---------------------------------------------------------------------------

theorem finish_pending : finish header payload ≠ .pending s := by
  unfold finish
  split <;> simp

theorem finish_frame (h : finish header payload = .ready (.ok (some frame))) :
    frame.payload = payload := by
  unfold finish at h
  split at h <;> simp only [RecvPoll.ready.injEq, Except.ok.injEq, Option.some.injEq,
    reduceCtorEq] at h
  subst h
  rfl

theorem afterHeader_pending (h : afterHeader header = .pending s) :
    s = .inPayload header [] ∧ FrameCodec.u32At header 8 ≠ 0 := by
  unfold afterHeader at h
  split at h; · cases h
  split at h; · cases h
  split at h; · cases h
  split at h
  · exact absurd h finish_pending
  · rename_i hlen
    cases h
    exact ⟨rfl, hlen⟩

theorem afterHeader_frame (h : afterHeader header = .ready (.ok (some frame))) :
    frame.payload = [] := by
  unfold afterHeader at h
  split at h; · cases h
  split at h; · cases h
  split at h; · cases h
  split at h
  · exact finish_frame h
  · cases h

/-- A read that fits the buffer and leaves `recv` pending adds its bytes to
those held. -/
theorem read_pending (hs : Suspended s) (hfit : bytes.length ≤ s.want)
    (h : read bytes s = .pending s') : Suspended s' ∧ s'.held = s.held ++ bytes := by
  cases s with
  | inHeader got =>
    simp only [read, Suspended, want] at h hs hfit
    split at h
    · split at h <;> cases h
    · split at h
      · rename_i hlen
        cases h
        exact ⟨hlen, rfl⟩
      · rename_i hlen
        obtain ⟨rfl, hpos⟩ := afterHeader_pending h
        simp only [List.length_append] at hlen
        refine ⟨⟨?_, ?_⟩, by simp [held]⟩
        · rw [List.length_append]
          omega
        · exact Nat.pos_of_ne_zero hpos
  | inPayload header got =>
    simp only [read, Suspended] at h hs
    split at h
    · cases h
    · split at h
      · rename_i hlen
        cases h
        exact ⟨⟨hs.1, hlen⟩, by simp [held]⟩
      · exact absurd h finish_pending

/-- A frame that `recv` returns is as long as the bytes it took for it. -/
theorem read_frame (hs : Suspended s) (hfit : bytes.length ≤ s.want)
    (h : read bytes s = .ready (.ok (some frame))) :
    frame.wire.length = s.held.length + bytes.length := by
  rw [Frame.length_wire]
  cases s with
  | inHeader got =>
    simp only [read, Suspended, want] at h hs hfit
    split at h
    · split at h <;> cases h
    · split at h
      · cases h
      · rename_i hlen
        rw [afterHeader_frame h]
        simp only [List.length_append, List.length_nil, held] at *
        omega
  | inPayload header got =>
    simp only [read, Suspended] at h hs
    split at h
    · cases h
    · split at h
      · cases h
      · rw [finish_frame h]
        simp only [List.length_append, held]
        omega

-- ---------------------------------------------------------------------------
-- Reading an encoded frame
-- ---------------------------------------------------------------------------

/-- The suspended `recv` that has taken these bytes of a frame. -/
def ofHeld (held : Bytes) : RecvState :=
  if held.length < 12 then .inHeader held else .inPayload (held.take 12) (held.drop 12)

theorem ofHeld_nil : ofHeld [] = start := rfl

theorem ofHeld_short {held : Bytes} (h : held.length < 12) : ofHeld held = .inHeader held := by
  rw [ofHeld, if_pos h]

theorem ofHeld_append (hlen : header.length = 12) (got : Bytes) :
    ofHeld (header ++ got) = .inPayload header got := by
  rw [ofHeld, if_neg (by rw [List.length_append]; omega), List.take_left' hlen,
    List.drop_left' hlen]

theorem u32At_header (hf : frame.payload.length ≤ maxPayloadLen) :
    FrameCodec.u32At (FrameCodec.header frame) 8 = frame.payload.length := by
  simpa using FrameCodec.u32At_length frame [] hf

/-- A start of a frame's bytes that covers the header is the header and a start
of the payload. -/
theorem split_wire {held : Bytes} (hsplit : held ++ rest = frame.wire) (hh : ¬ held.length < 12) :
    ∃ got, held = FrameCodec.header frame ++ got ∧ got ++ rest = frame.payload := by
  have htake := congrArg (List.take 12) hsplit
  rw [List.take_append_of_le_length (by omega), Frame.wire,
    List.take_left' (FrameCodec.length_header frame)] at htake
  have hheld : held = FrameCodec.header frame ++ held.drop 12 := by
    rw [← htake, List.take_append_drop]
  refine ⟨held.drop 12, hheld, ?_⟩
  rw [hheld, Frame.wire, List.append_assoc] at hsplit
  exact List.append_cancel_left hsplit

/-- The buffer offered never reaches beyond the frame, and is never empty
before its end. -/
theorem want_ofHeld {frame : Frame} {held : Bytes} (hf : frame.payload.length ≤ maxPayloadLen)
    (hsplit : held ++ rest = frame.wire) (hne : rest ≠ []) :
    0 < (ofHeld held).want ∧ (ofHeld held).want ≤ rest.length := by
  have hlen := congrArg List.length hsplit
  rw [List.length_append, Frame.length_wire] at hlen
  have hpos := List.length_pos_iff.mpr hne
  by_cases hh : held.length < 12
  · rw [ofHeld_short hh, want]
    omega
  · obtain ⟨got, rfl, hgot⟩ := split_wire hsplit hh
    have hglen := congrArg List.length hgot
    rw [List.length_append] at hglen
    rw [ofHeld_append (FrameCodec.length_header frame), want, u32At_header hf]
    omega

theorem finish_wire (hf : frame.payload.length ≤ maxPayloadLen) :
    finish (FrameCodec.header frame) frame.payload = .ready (.ok (some frame)) := by
  have h := FrameCodec.decode_encode_append frame [] hf
  rw [List.append_nil] at h
  rw [finish, h]

theorem afterHeader_wire (hf : frame.payload.length ≤ maxPayloadLen) :
    afterHeader (FrameCodec.header frame) =
      if frame.payload = [] then .ready (.ok (some frame))
      else .pending (.inPayload (FrameCodec.header frame) []) := by
  have h0 : (FrameCodec.header frame)[0]? = some magic := rfl
  have h1 : (FrameCodec.header frame)[1]? = some protocolVersion := rfl
  simp only [afterHeader, h0, h1, u32At_header hf, Option.getD_some, ne_eq, not_true_eq_false, if_false,
    List.length_eq_zero_iff]
  rw [if_neg (by omega)]
  split
  · rename_i hp
    have hfin := finish_wire hf
    rwa [hp] at hfin
  · rfl

/-- Fed the next bytes of a frame, `recv` holds them; fed the last of them, it
returns the frame. -/
theorem read_wire {held : Bytes} (hf : frame.payload.length ≤ maxPayloadLen)
    (hsplit : held ++ bytes ++ rest = frame.wire) (hne : bytes ≠ [])
    (hfit : bytes.length ≤ (ofHeld held).want) :
    read bytes (ofHeld held) =
      if rest = [] then .ready (.ok (some frame)) else .pending (ofHeld (held ++ bytes)) := by
  have hlen := congrArg List.length hsplit
  simp only [List.length_append, Frame.length_wire] at hlen
  by_cases hh : held.length < 12
  · rw [ofHeld_short hh] at hfit ⊢
    simp only [want] at hfit
    simp only [read, if_neg hne, List.length_append]
    by_cases hshort : held.length + bytes.length < 12
    · have hrest : rest ≠ [] := by
        rintro rfl
        simp only [List.length_nil] at hlen
        omega
      rw [if_pos hshort, if_neg hrest, ofHeld_short (by simpa using hshort)]
    · -- The read filled the header, so what remains is the payload.
      have hhead : (held ++ bytes).length = (FrameCodec.header frame).length := by
        rw [List.length_append, FrameCodec.length_header]
        omega
      obtain ⟨hheader, hpayload⟩ := List.append_inj hsplit hhead
      have hnil := ofHeld_append (FrameCodec.length_header frame) []
      rw [List.append_nil] at hnil
      rw [if_neg hshort, hheader, hpayload, afterHeader_wire hf, hnil]
  · rw [List.append_assoc] at hsplit
    obtain ⟨got, rfl, hgot⟩ := split_wire hsplit hh
    have hglen := congrArg List.length hgot
    simp only [List.length_append] at hglen
    rw [List.append_assoc, ofHeld_append (FrameCodec.length_header frame),
      ofHeld_append (FrameCodec.length_header frame)]
    simp only [read, if_neg hne, u32At_header hf, List.length_append]
    by_cases hrest : rest = []
    · subst hrest
      rw [List.append_nil] at hgot
      simp only [List.length_nil] at hglen
      rw [if_neg (by omega), if_pos rfl, hgot, finish_wire hf]
    · have hpos := List.length_pos_iff.mpr hrest
      rw [if_pos (by omega), if_neg hrest]

end RecvState

end Nsmt.Core
