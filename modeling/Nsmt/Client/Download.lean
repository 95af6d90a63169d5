import Nsmt.Core.E2e
import Nsmt.Core.Frame
import Nsmt.Core.Messages
import Nsmt.Lib.Sparse

/-!
# Downloading an object

`get_object`: one `FILE_GET` a chunk, until a chunk comes that is not full. The
client's stream is what has arrived and was not read yet; `arrives` says what
comes into it after each request. `fuel` bounds the requests, since nothing in
the loop does.
-/

namespace Nsmt.Client

open Nsmt.Lib Nsmt.Core

/-- The inner loop: it passes over every frame but a chunk or an error. `none`
is end of stream. -/
def awaitReply : List Frame → Option (Frame × List Frame)
  | [] => none
  | frame :: stream =>
    if frame.frameType = .fileChunk ∨ frame.frameType = .error then some (frame, stream)
    else awaitReply stream

/-- The frames the inner loop passes over. -/
def PassedOver (frame : Frame) : Prop := frame.frameType ≠ .fileChunk ∧ frame.frameType ≠ .error

structure GetState where
  idx : Nat
  out : Bytes
  requests : Nat
  stream : List Frame

def GetState.start (stream : List Frame) : GetState :=
  { idx := 0, out := [], requests := 0, stream }

section
variable (aead : Aead) (e2e : Option E2EKeys) (blobId : String)
  (arrives : Nat → FileGet → List Frame)

/-- `get_object` with the number of requests it has sent; `none` is a run that
has used up its fuel. -/
def getObject : (fuel : Nat) → GetState → Option (Except String (Option Bytes) × Nat)
  | 0, _ => none
  | fuel + 1, s =>
    let requests := s.requests + 1
    match awaitReply (s.stream ++ arrives s.requests { blobId, chunkIndex := some s.idx }) with
    | none => some (.error "eof", requests)
    | some (resp, stream) =>
      if resp.frameType = .error then some (.ok none, requests)
      else if resp.payload.length < 4 then some (.ok (some s.out), requests)
      -- A chunk of another index is dropped and asked for again.
      else if ofLe (resp.payload.take 4) ≠ s.idx then getObject fuel { s with requests, stream }
      else
        match openChunk aead e2e (resp.payload.drop 4) s.idx with
        | none => some (.error "decrypt failed (no key matched)", requests)
        | some data =>
          if data.length < chunkSize then some (.ok (some (s.out ++ data)), requests)
          else getObject fuel { idx := s.idx + 1, out := s.out ++ data, requests, stream }

/-- Each request is answered with the sealed chunk of its index, among frames
that the client passes over. -/
def Answered (sealed : Nat → Bytes) : Prop :=
  ∀ request idx, ∃ before reply after,
    arrives request { blobId, chunkIndex := some idx } = before ++ reply :: after ∧
    reply.frameType = .fileChunk ∧ reply.payload = le 4 idx ++ sealed idx ∧
    (∀ frame ∈ before, PassedOver frame) ∧ ∀ frame ∈ after, PassedOver frame

end

-- ---------------------------------------------------------------------------
-- One request
-- ---------------------------------------------------------------------------

theorem awaitReply_passedOver {before : List Frame} (h : ∀ frame ∈ before, PassedOver frame)
    (stream : List Frame) : awaitReply (before ++ stream) = awaitReply stream := by
  induction before with
  | nil => rfl
  | cons frame before ih =>
    obtain ⟨hchunk, herror⟩ := h frame (List.mem_cons_self ..)
    rw [List.cons_append, awaitReply, if_neg (not_or.mpr ⟨hchunk, herror⟩)]
    exact ih fun f hf => h f (List.mem_cons_of_mem _ hf)

variable {aead : Aead} {e2e : Option E2EKeys} {blobId : String}
  {arrives : Nat → FileGet → List Frame} {sealed : Nat → Bytes} {stream : List Frame}

/-- What an answered request comes to: the index did not survive as a `u32`, or
the chunk does not open, or it is the last one, or the loop goes on to the next. -/
theorem getObject_step (aead : Aead) (e2e : Option E2EKeys) (h : Answered blobId arrives sealed)
    (hstream : ∀ frame ∈ stream, PassedOver frame) (fuel idx requests : Nat) (out : Bytes) :
    ∃ after, (∀ frame ∈ after, PassedOver frame) ∧
      getObject aead e2e blobId arrives (fuel + 1) ⟨idx, out, requests, stream⟩ =
        if idx % 2 ^ 32 ≠ idx then
          getObject aead e2e blobId arrives fuel ⟨idx, out, requests + 1, after⟩
        else
          match openChunk aead e2e (sealed idx) idx with
          | none => some (.error "decrypt failed (no key matched)", requests + 1)
          | some data =>
            if data.length < chunkSize then some (.ok (some (out ++ data)), requests + 1)
            else getObject aead e2e blobId arrives fuel ⟨idx + 1, out ++ data, requests + 1, after⟩ := by
  obtain ⟨before, reply, after, harrives, htype, hpayload, hbefore, hafter⟩ := h requests idx
  refine ⟨after, hafter, ?_⟩
  have hreply : awaitReply (stream ++ arrives requests { blobId, chunkIndex := some idx }) =
      some (reply, after) := by
    rw [awaitReply_passedOver hstream, harrives, awaitReply_passedOver hbefore, awaitReply,
      if_pos (.inl htype)]
  have hindex : ofLe ((le 4 idx ++ sealed idx).take 4) = idx % 2 ^ 32 := by
    rw [List.take_left' (length_le 4 _), ofLe_le]
    rfl
  have hshort : ¬ (le 4 idx ++ sealed idx).length < 4 := by
    rw [List.length_append, length_le]
    omega
  rw [getObject, hreply]
  simp only [htype, hpayload, reduceCtorEq, if_false, hindex, if_neg hshort,
    List.drop_left' (length_le 4 idx)]

-- ---------------------------------------------------------------------------
-- A whole download
-- ---------------------------------------------------------------------------

/-- The loop ends at the first chunk that does not open or is not full, as long
as its index is a `u32`. -/
theorem getObject_ends (piece : Nat → Bytes) (h : Answered blobId arrives sealed)
    (hlast : last < 2 ^ 32)
    (hopen : ∀ i < last, openChunk aead e2e (sealed i) i = some (piece i))
    (hfull : ∀ i < last, chunkSize ≤ (piece i).length)
    (hstream : ∀ frame ∈ stream, PassedOver frame) (hfuel : last < fuel) :
    (openChunk aead e2e (sealed last) last = none →
      getObject aead e2e blobId arrives fuel (.start stream) =
        some (.error "decrypt failed (no key matched)", last + 1)) ∧
    ∀ data, openChunk aead e2e (sealed last) last = some data → data.length < chunkSize →
      getObject aead e2e blobId arrives fuel (.start stream) =
        some (.ok (some ((List.range last).flatMap piece ++ data)), last + 1) := by
  -- The loop at index `idx`, with the pieces before it in `out`.
  have hloop (idx : Nat) (hidx : idx ≤ last) : ∃ after, (∀ frame ∈ after, PassedOver frame) ∧
      getObject aead e2e blobId arrives fuel (.start stream) =
        getObject aead e2e blobId arrives (fuel - idx)
          ⟨idx, (List.range idx).flatMap piece, idx, after⟩ := by
    induction idx with
    | zero => exact ⟨stream, hstream, rfl⟩
    | succ idx ih =>
      obtain ⟨before, hbefore, hrun⟩ := ih (by omega)
      obtain ⟨after, hafter, hstep⟩ := getObject_step aead e2e h hbefore
        (fuel - (idx + 1)) idx idx ((List.range idx).flatMap piece)
      refine ⟨after, hafter, ?_⟩
      have hfuel' : fuel - idx = fuel - (idx + 1) + 1 := by omega
      have hpiece := hfull idx (by omega)
      rw [hrun, hfuel', hstep, if_neg (not_not.mpr (Nat.mod_eq_of_lt (by omega))),
        hopen idx (by omega)]
      simp only [if_neg (Nat.not_lt.mpr hpiece), List.range_succ, List.flatMap_append,
        List.flatMap_singleton]
  obtain ⟨before, hbefore, hrun⟩ := hloop last le_rfl
  obtain ⟨after, -, hstep⟩ := getObject_step aead e2e h hbefore
    (fuel - (last + 1)) last last ((List.range last).flatMap piece)
  have hfuel' : fuel - last = fuel - (last + 1) + 1 := by omega
  rw [hrun, hfuel', hstep, if_neg (not_not.mpr (Nat.mod_eq_of_lt hlast))]
  constructor
  · intro hnone
    rw [hnone]
  · intro data hdata hshort
    rw [hdata]
    simp only [if_pos hshort]

/-- A download whose chunks are full up to index `2^32` never ends: the answer
to that request carries index 0. -/
theorem getObject_endless (h : Answered blobId arrives sealed)
    (hopen : ∀ i < 2 ^ 32, ∃ data, openChunk aead e2e (sealed i) i = some data ∧
      chunkSize ≤ data.length)
    (hstream : ∀ frame ∈ stream, PassedOver frame) (fuel : Nat) :
    getObject aead e2e blobId arrives fuel (.start stream) = none := by
  have hloop (fuel : Nat) : ∀ idx out requests stream, idx ≤ 2 ^ 32 →
      (∀ frame ∈ stream, PassedOver frame) →
      getObject aead e2e blobId arrives fuel ⟨idx, out, requests, stream⟩ = none := by
    induction fuel with
    | zero => exact fun _ _ _ _ _ _ => rfl
    | succ fuel ih =>
      intro idx out requests stream hidx hstream
      obtain ⟨after, hafter, hstep⟩ := getObject_step aead e2e h hstream fuel idx
        requests out
      rw [hstep]
      by_cases hlt : idx < 2 ^ 32
      · obtain ⟨data, hdata, hfull⟩ := hopen idx hlt
        rw [if_neg (not_not.mpr (Nat.mod_eq_of_lt hlt)), hdata]
        simp only [if_neg (Nat.not_lt.mpr hfull)]
        exact ih (idx + 1) _ _ after (by omega) hafter
      · rw [if_pos (by omega)]
        exact ih idx _ _ after hidx hafter
  exact hloop fuel 0 [] 0 stream (Nat.zero_le _) hstream

-- ---------------------------------------------------------------------------
-- Downloads from whatever frames arrive
-- ---------------------------------------------------------------------------

theorem awaitReply_eq_some {stream rest : List Frame} {reply : Frame}
    (h : awaitReply stream = some (reply, rest)) :
    (reply.frameType = .fileChunk ∨ reply.frameType = .error) ∧
      ∃ before, stream = before ++ reply :: rest := by
  induction stream with
  | nil => cases h
  | cons frame stream ih =>
    rw [awaitReply] at h
    split at h
    · rename_i htype
      cases h
      exact ⟨htype, [], rfl⟩
    · obtain ⟨htype, before, rfl⟩ := ih h
      exact ⟨htype, frame :: before, rfl⟩

/-- Whatever frames the download reads, it ends. -/
theorem getObject_total (aead : Aead) (e2e : Option E2EKeys) (blobId : String) {s : GetState}
    (h : s.stream.length < fuel) :
    (getObject aead e2e blobId (fun _ _ => []) fuel s).isSome = true := by
  induction fuel generalizing s with
  | zero => omega
  | succ fuel ih =>
    rw [getObject, List.append_nil]
    cases hreply : awaitReply s.stream with
    | none => rfl
    | some found =>
      obtain ⟨reply, rest⟩ := found
      obtain ⟨-, before, hstream⟩ := awaitReply_eq_some hreply
      have hlen : rest.length < fuel := by
        rw [hstream, List.length_append, List.length_cons] at h
        omega
      simp only
      repeat' split
      all_goals first | rfl | exact ih hlen

/-- A chunk is the slice of the content that its index names, if it opens. -/
def GenuineFrame (aead : Aead) (e2e : Option E2EKeys) (content : Bytes) (frame : Frame) : Prop :=
  frame.frameType = .fileChunk → 4 ≤ frame.payload.length ∧
    ∀ data, openChunk aead e2e (frame.payload.drop 4) (ofLe (frame.payload.take 4)) = some data →
      data = (content.drop (ofLe (frame.payload.take 4) * chunkSize)).take chunkSize

/-- A download of genuine chunks is the content: what the loop has at an index are
the bytes in front of it. -/
theorem getObject_genuine {content out : Bytes} (h : ∀ frame ∈ stream, GenuineFrame aead e2e content frame)
    {idx requests requests' : Nat} (hrun : getObject aead e2e blobId (fun _ _ => []) fuel
      ⟨idx, content.take (idx * chunkSize), requests, stream⟩ = some (.ok (some out), requests')) :
    out = content := by
  induction fuel generalizing idx requests stream with
  | zero => cases hrun
  | succ fuel ih =>
    rw [getObject, List.append_nil] at hrun
    cases hreply : awaitReply stream with
    | none =>
      simp only [hreply] at hrun
      cases hrun
    | some found =>
      obtain ⟨reply, rest⟩ := found
      obtain ⟨htype, before, hstream⟩ := awaitReply_eq_some hreply
      have hrest : ∀ frame ∈ rest, GenuineFrame aead e2e content frame := fun frame hframe =>
        h frame (by rw [hstream]; exact List.mem_append_right _ (List.mem_cons_of_mem _ hframe))
      simp only [hreply] at hrun
      split at hrun
      · cases hrun
      · rename_i herror
        obtain ⟨hlong, hslice⟩ := h reply (by simp [hstream]) (htype.resolve_right herror)
        rw [if_neg (Nat.not_lt.mpr hlong)] at hrun
        split at hrun
        · exact ih hrest hrun
        · rename_i hindex
          rw [not_not.mp hindex] at hslice
          split at hrun
          · cases hrun
          · rename_i data hdata
            have hdata := hslice data hdata
            have hnext : content.take (idx * chunkSize) ++ data =
                content.take ((idx + 1) * chunkSize) := by
              rw [hdata, Nat.add_mul, Nat.one_mul, List.take_add]
            rw [hnext] at hrun
            split at hrun
            · rename_i hlast
              -- The slice is short, so the content ends in it.
              rw [hdata, List.length_take, List.length_drop] at hlast
              simp only [Option.some.injEq, Prod.mk.injEq, Except.ok.injEq] at hrun
              rw [← hrun.1]
              exact List.take_of_length_le (by rw [Nat.add_mul]; omega)
            · exact ih hrest hrun

end Nsmt.Client
