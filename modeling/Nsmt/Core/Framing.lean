import Nsmt.Core.Wire

/-!
# Framing whatever the segmentation

The stream as the segments in which its bytes arrive: a `read` takes what fits
its buffer of the first segment, and no segment left is end of stream.
`FrameStream.recv` drives the machine of `RecvState` over it until it returns.

`segmentation_independent` says that repeated calls see only the frames, never
where the segments were cut.
-/

namespace Nsmt.Core

open Nsmt.Lib

/-- One `read` into a buffer of `want` bytes. -/
def readSegment (want : Nat) : List Bytes → Bytes × List Bytes
  | [] => ([], [])
  | segment :: rest =>
    if segment.length ≤ want then (segment, rest)
    else (segment.take want, segment.drop want :: rest)

theorem readSegment_flatten (want : Nat) (segments : List Bytes) :
    (readSegment want segments).1 ++ (readSegment want segments).2.flatten = segments.flatten := by
  cases segments with
  | nil => rfl
  | cons segment rest =>
    rw [readSegment]
    split
    · rfl
    · rw [List.flatten_cons, ← List.append_assoc, List.take_append_drop]
      rfl

theorem readSegment_fits (want : Nat) (segments : List Bytes) :
    (readSegment want segments).1.length ≤ want := by
  cases segments with
  | nil => exact Nat.zero_le _
  | cons segment rest =>
    rw [readSegment]
    split
    · assumption
    · exact List.length_take_le ..

/-- Before the end a read gives at least one byte, and no segment is used up
without being dropped. -/
theorem readSegment_ne_nil (hwant : 0 < want) {segments : List Bytes}
    (hne : ∀ segment ∈ segments, segment ≠ []) (hmore : segments ≠ []) :
    (readSegment want segments).1 ≠ [] ∧
      ∀ segment ∈ (readSegment want segments).2, segment ≠ [] := by
  obtain ⟨segment, rest, rfl⟩ := List.exists_cons_of_ne_nil hmore
  have hsegment := hne segment (List.mem_cons_self ..)
  have hrest (s : Bytes) (hs : s ∈ rest) : s ≠ [] := hne s (List.mem_cons_of_mem _ hs)
  rw [readSegment]
  split
  · exact ⟨hsegment, hrest⟩
  · rename_i hlong
    constructor
    · rw [ne_eq, List.take_eq_nil_iff]
      rintro (rfl | rfl)
      · omega
      · exact hsegment rfl
    · intro s hs
      rcases List.mem_cons.mp hs with rfl | hs
      · rw [ne_eq, List.drop_eq_nil_iff]
        exact hlong
      · exact hrest s hs

theorem RecvState.read_nil (s : RecvState) : ∃ result, s.read [] = .ready result := by
  cases s with
  | inHeader got =>
    rw [read, if_pos rfl]
    split
    · exact ⟨_, rfl⟩
    · exact ⟨_, rfl⟩
  | inPayload header got =>
    rw [read, if_pos rfl]
    exact ⟨_, rfl⟩

namespace FrameStream

/-- A pending `recv` run to its end: its result and what it leaves of the stream. -/
def recvFrom (s : RecvState) (segments : List Bytes) :
    Except NsmtError (Option Frame) × List Bytes :=
  match _h : s.read (readSegment s.want segments).1 with
  | .ready result => (result, (readSegment s.want segments).2)
  | .pending s' => recvFrom s' (readSegment s.want segments).2
termination_by segments.flatten.length
decreasing_by
  rw [← readSegment_flatten s.want segments, List.length_append]
  have hne : (readSegment s.want segments).1 ≠ [] := by
    intro hnil
    obtain ⟨result, hresult⟩ := s.read_nil
    rw [hnil, hresult] at _h
    cases _h
  have hpos := List.length_pos_iff.mpr hne
  omega

def recv (segments : List Bytes) : Except NsmtError (Option Frame) × List Bytes :=
  recvFrom .start segments

/-- The results of `calls` successive calls. -/
def recvTimes : (calls : Nat) → List Bytes → List (Except NsmtError (Option Frame))
  | 0, _ => []
  | calls + 1, segments => (recv segments).1 :: recvTimes calls (recv segments).2

theorem recvFrom_ready (h : s.read (readSegment s.want segments).1 = .ready result) :
    recvFrom s segments = (result, (readSegment s.want segments).2) := by
  rw [recvFrom]
  split
  · rename_i hr
    rw [h] at hr
    cases hr
    rfl
  · rename_i hr
    rw [h] at hr
    cases hr

theorem recvFrom_pending (h : s.read (readSegment s.want segments).1 = .pending s') :
    recvFrom s segments = recvFrom s' (readSegment s.want segments).2 := by
  rw [recvFrom]
  split
  · rename_i hr
    rw [h] at hr
    cases hr
  · rename_i hr
    rw [h] at hr
    cases hr
    rfl

-- ---------------------------------------------------------------------------
-- One call
-- ---------------------------------------------------------------------------

/-- A `recv` that has taken some of a frame's bytes and finds the others at the
front of the stream returns the frame and leaves the bytes behind it. -/
theorem recvFrom_frame {frame : Frame} {held rest after : Bytes} {segments : List Bytes}
    (hf : frame.payload.length ≤ maxPayloadLen) (hsplit : held ++ rest = frame.wire)
    (hrest : rest ≠ []) (hne : ∀ segment ∈ segments, segment ≠ [])
    (hstream : segments.flatten = rest ++ after) :
    (recvFrom (.ofHeld held) segments).1 = .ok (some frame) ∧
      (recvFrom (.ofHeld held) segments).2.flatten = after ∧
      ∀ segment ∈ (recvFrom (.ofHeld held) segments).2, segment ≠ [] := by
  -- The bytes still missing shrink with every read.
  induction hn : rest.length using Nat.strongRecOn generalizing held rest segments with
  | ind n ih =>
    obtain ⟨hpos, hwant⟩ := RecvState.want_ofHeld hf hsplit hrest
    have hmore : segments ≠ [] := by
      rintro rfl
      exact hrest (List.append_eq_nil_iff.mp hstream.symm).1
    obtain ⟨hread, hne'⟩ := readSegment_ne_nil hpos hne hmore
    have hfits := readSegment_fits (RecvState.ofHeld held).want segments
    have hflat := readSegment_flatten (RecvState.ofHeld held).want segments
    generalize hb : readSegment (RecvState.ofHeld held).want segments = r at *
    obtain ⟨bytes, segments'⟩ := r
    simp only at hread hne' hfits hflat
    rw [hstream] at hflat
    -- The read stays inside the frame.
    obtain ⟨rest', rfl⟩ : ∃ rest', rest = bytes ++ rest' := by
      obtain ⟨rest', hrest', -⟩ | ⟨spill, hspill, -⟩ := List.append_eq_append_iff.mp hflat
      · exact ⟨rest', hrest'⟩
      · have hlen := congrArg List.length hspill
        rw [List.length_append] at hlen
        have hnil : spill = [] := List.length_eq_zero_iff.mp (by omega)
        subst hnil
        exact ⟨[], by rw [hspill]; simp⟩
    rw [List.append_assoc] at hflat
    have hafter := List.append_cancel_left hflat
    rw [← List.append_assoc] at hsplit
    have hstep := RecvState.read_wire hf hsplit hread hfits
    by_cases hlast : rest' = []
    · subst hlast
      rw [if_pos rfl] at hstep
      rw [recvFrom_ready (by rw [hb]; exact hstep), hb]
      exact ⟨rfl, hafter, hne'⟩
    · rw [if_neg hlast] at hstep
      rw [recvFrom_pending (by rw [hb]; exact hstep), hb]
      have hlen := List.length_pos_iff.mpr hread
      rw [List.length_append] at hn
      exact ih rest'.length (by omega) hsplit hlast hne' hafter rfl

theorem recvFrom_cut {frame : Frame} {held rest missing : Bytes} {segments : List Bytes}
    (hf : frame.payload.length ≤ maxPayloadLen) (hsplit : held ++ rest ++ missing = frame.wire)
    (hmissing : missing ≠ []) (hstarted : held ++ rest ≠ [])
    (hne : ∀ segment ∈ segments, segment ≠ []) (hstream : segments.flatten = rest) :
    ∃ message, (recvFrom (.ofHeld held) segments).1 = .error (.protocol message) := by
  induction hn : rest.length using Nat.strongRecOn generalizing held rest segments with
  | ind n ih =>
    have hgoal : rest ++ missing ≠ [] := by simp [hmissing]
    obtain ⟨hpos, hwant⟩ :=
      RecvState.want_ofHeld hf (by rw [← List.append_assoc]; exact hsplit) hgoal
    by_cases hmore : segments = []
    · -- End of stream: some bytes are held, and not all of them.
      subst hmore
      subst hstream
      rw [List.flatten_nil, List.append_nil] at hstarted
      have hread : ∃ message, (RecvState.ofHeld held).read [] = .ready (.error (.protocol message)) := by
        unfold RecvState.ofHeld
        split
        · exact ⟨_, by rw [RecvState.read, if_pos rfl, if_neg hstarted]⟩
        · exact ⟨_, by rw [RecvState.read, if_pos rfl]⟩
      obtain ⟨message, hread⟩ := hread
      have hrecv : recvFrom (.ofHeld held) [] = (.error (.protocol message), []) :=
        recvFrom_ready hread
      exact ⟨message, by rw [hrecv]⟩
    · obtain ⟨hread, hne'⟩ := readSegment_ne_nil hpos hne hmore
      have hfits := readSegment_fits (RecvState.ofHeld held).want segments
      have hflat := readSegment_flatten (RecvState.ofHeld held).want segments
      generalize hb : readSegment (RecvState.ofHeld held).want segments = r at *
      obtain ⟨bytes, segments'⟩ := r
      simp only at hread hne' hfits hflat
      subst hstream
      rw [← hflat] at hsplit hn hstarted
      rw [← List.append_assoc, List.append_assoc] at hsplit
      have hleft : segments'.flatten ++ missing ≠ [] := by simp [hmissing]
      have hstep := RecvState.read_wire hf hsplit hread hfits
      rw [if_neg hleft] at hstep
      rw [recvFrom_pending (by rw [hb]; exact hstep), hb]
      have hlen := List.length_pos_iff.mpr hread
      rw [List.length_append] at hn
      refine ih segments'.flatten.length (by omega) ?_ ?_ hne' rfl rfl
      · rw [← hsplit]
        simp only [List.append_assoc]
      · simp [hread]

theorem recv_eof : recv [] = (.ok none, []) := recvFrom_ready rfl

-- ---------------------------------------------------------------------------
-- Repeated calls
-- ---------------------------------------------------------------------------

/-- The bytes of the frames one after another. -/
def wires (frames : List Frame) : Bytes := (frames.map Frame.wire).flatten

theorem wires_append (a b : List Frame) : wires (a ++ b) = wires a ++ wires b := by
  simp [wires]

@[simp] theorem wires_cons (frame : Frame) (frames : List Frame) :
    wires (frame :: frames) = frame.wire ++ wires frames := by
  simp [wires]

/-- The frames at the front of the stream come out one a call, and the calls
after them see the rest of the stream. -/
theorem recvTimes_frames {frames : List Frame} {segments : List Bytes}
    (hf : ∀ frame ∈ frames, frame.payload.length ≤ maxPayloadLen)
    (hne : ∀ segment ∈ segments, segment ≠ [])
    (hstream : segments.flatten = wires frames ++ after) :
    ∃ left : List Bytes, (∀ segment ∈ left, segment ≠ []) ∧ left.flatten = after ∧
      ∀ calls, recvTimes (frames.length + calls) segments =
        frames.map (fun frame => .ok (some frame)) ++ recvTimes calls left := by
  induction frames generalizing segments with
  | nil => exact ⟨segments, hne, hstream, fun calls => by simp⟩
  | cons frame frames ih =>
    rw [wires_cons, List.append_assoc] at hstream
    obtain ⟨hfirst, hleft, hne'⟩ := recvFrom_frame (hf frame (List.mem_cons_self ..))
      (List.nil_append _) frame.wire_ne_nil hne hstream
    rw [RecvState.ofHeld_nil] at hfirst hleft hne'
    obtain ⟨left, hnel, hafter, hcalls⟩ :=
      ih (fun f hmem => hf f (List.mem_cons_of_mem _ hmem)) hne' hleft
    refine ⟨left, hnel, hafter, fun calls => ?_⟩
    have hsucc : (frame :: frames).length + calls = (frames.length + calls) + 1 := by
      rw [List.length_cons]
      omega
    rw [hsucc, recvTimes, recv, hfirst, hcalls, List.map_cons, List.cons_append]

/-- A stream cut off anywhere but between two frames ends inside one of them. -/
theorem cut_inside {frames : List Frame} {stream : Bytes} (hcut : stream <+: wires frames)
    (hinside : ∀ k, stream ≠ wires (frames.take k)) :
    ∃ complete next rest part missing, frames = complete ++ next :: rest ∧
      stream = wires complete ++ part ∧ part ++ missing = next.wire ∧ part ≠ [] ∧ missing ≠ [] := by
  induction frames generalizing stream with
  | nil => exact absurd (List.prefix_nil.mp hcut) (hinside 0)
  | cons frame frames ih =>
    have hstarted : stream ≠ [] := hinside 0
    obtain ⟨lost, hlost⟩ := hcut
    rw [wires_cons] at hlost
    obtain ⟨missing, hwire, -⟩ | ⟨later, hlater, hrest⟩ := List.append_eq_append_iff.mp hlost
    · by_cases hall : missing = []
      · -- The cut is right behind this frame, which the hypothesis excludes.
        subst hall
        refine absurd ?_ (hinside 1)
        rw [List.append_nil] at hwire
        simp [wires, hwire]
      · exact ⟨[], frame, frames, stream, missing, rfl, rfl, hwire.symm, hstarted, hall⟩
    · subst hlater
      have hk (k : Nat) : later ≠ wires (frames.take k) := by
        intro h
        refine hinside (k + 1) ?_
        rw [List.take_succ_cons, wires_cons, ← h]
      obtain ⟨complete, next, rest, part, missing, rfl, rfl, hpart⟩ := ih ⟨lost, hrest.symm⟩ hk
      exact ⟨frame :: complete, next, rest, part, missing, rfl, by simp, hpart⟩

/-- However the bytes of the frames are cut into segments, repeated calls of
`recv` return the frames in order and then end of stream. A stream that ends
inside a frame gives the frames before it, and then an error. -/
theorem segmentation_independent (frames : List Frame) (segments : List Bytes)
    (hf : ∀ frame ∈ frames, frame.payload.length ≤ maxPayloadLen)
    (hne : ∀ segment ∈ segments, segment ≠ []) :
    (segments.flatten = wires frames →
      recvTimes (frames.length + 1) segments =
        frames.map (fun frame => .ok (some frame)) ++ [.ok none]) ∧
    (segments.flatten <+: wires frames → (∀ k, segments.flatten ≠ wires (frames.take k)) →
      ∃ complete next rest message, frames = complete ++ next :: rest ∧
        wires complete <+: segments.flatten ∧
        segments.flatten.length < (wires (complete ++ [next])).length ∧
        recvTimes (complete.length + 1) segments =
          complete.map (fun frame => .ok (some frame)) ++ [.error (.protocol message)]) := by
  constructor
  · intro hstream
    rw [← List.append_nil (wires frames)] at hstream
    obtain ⟨left, hnel, hend, hcalls⟩ := recvTimes_frames hf hne hstream
    have hnil : left = [] := by
      cases left with
      | nil => rfl
      | cons segment left =>
        exact absurd (List.append_eq_nil_iff.mp hend).1 (hnel segment (List.mem_cons_self ..))
    rw [hcalls 1, hnil, recvTimes, recvTimes, recv_eof]
  · intro hcut hinside
    obtain ⟨complete, next, rest, part, missing, rfl, hstream, hpart, hstarted, hmissing⟩ :=
      cut_inside hcut hinside
    obtain ⟨left, hnel, hend, hcalls⟩ :=
      recvTimes_frames (fun f hmem => hf f (List.mem_append_left _ hmem)) hne hstream
    obtain ⟨message, herror⟩ := recvFrom_cut (hf next (by simp)) (by rwa [List.nil_append])
      hmissing (by rwa [List.nil_append]) hnel hend
    rw [RecvState.ofHeld_nil] at herror
    refine ⟨complete, next, rest, message, rfl, ⟨part, hstream.symm⟩, ?_, ?_⟩
    · have hlen := congrArg List.length hpart
      rw [List.length_append] at hlen
      have hpos := List.length_pos_iff.mpr hmissing
      rw [hstream, wires_append, wires_cons, List.length_append, List.length_append,
        List.length_append]
      omega
    · rw [hcalls 1, recvTimes, recvTimes, recv, herror]

/-- A frame with two payload bytes. -/
def helloFrame : Frame := { frameType := .hello, flags := 0, streamId := 7, payload := [1, 2] }

/-- The frame in pieces of five, eight and one byte, and without the last piece. -/
theorem segmentation_independent_pieces :
    recvTimes 2 [helloFrame.wire.take 5, (helloFrame.wire.drop 5).take 8, helloFrame.wire.drop 13] =
      [.ok (some helloFrame), .ok none] ∧
    ∃ message, recvTimes 1 [helloFrame.wire.take 5, (helloFrame.wire.drop 5).take 8] =
      [.error (.protocol message)] := by
  refine ⟨(segmentation_independent [helloFrame] _ (by decide) (by decide)).1 rfl, ?_⟩
  have hinside (k : Nat) : [helloFrame.wire.take 5, (helloFrame.wire.drop 5).take 8].flatten ≠
      wires ([helloFrame].take k) := by
    cases k with
    | zero => decide
    | succ k =>
      rw [List.take_succ_cons, List.take_nil]
      decide
  obtain ⟨complete, next, rest, message, hframes, -, -, hcalls⟩ :=
    (segmentation_independent [helloFrame] _ (by decide) (by decide)).2 ⟨[2], rfl⟩ hinside
  have hnil : complete = [] := by
    have hlen := congrArg List.length hframes
    simp only [List.length_append, List.length_cons, List.length_nil] at hlen
    exact List.length_eq_zero_iff.mp (by omega)
  subst hnil
  exact ⟨message, hcalls⟩

end FrameStream

end Nsmt.Core
