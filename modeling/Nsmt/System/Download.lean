import Nsmt.Client.Download
import Nsmt.Client.Fs
import Nsmt.Server.Session

/-!
# Downloads from the server and from peers

`get_object` against the two parties that answer a `FILE_GET`: a session of the
server and the peer service of another client. Both cut the chunk the request
asks for, and answer an index behind the end with an empty chunk, which is how
the client learns that the object ended at a full one.
-/

namespace Nsmt.System

open Nsmt.Lib Nsmt.Core Nsmt.Server Nsmt.Client

/-- `serve_peer`'s answer to a `FILE_GET`, from the peer's cache of objects. -/
def servePeer (aead : Aead) (e2e : Option E2EKeys) (objects : ObjectCache) (msg : FileGet) :
    ServerFrame :=
  match objects msg.blobId with
  | some data =>
    let idx := msg.chunkIndex.getD 0
    .fileChunk (chunkFlags e2e) (chunkPayload aead e2e (Session.chunkAt data idx) idx)
  | none => .error { code := "0xE020", message := "object not found", requestId := none }

def frameType : ServerFrame → FrameType
  | .fileDiffResult _ => .fileDiffResult
  | .fileChunk _ _ => .fileChunk
  | .filePutAck _ => .filePutAck
  | .lockGranted _ => .lockGranted
  | .lockDenied _ => .lockDenied
  | .lockNotify _ => .lockNotify
  | .onlineDelta _ => .onlineDelta
  | .peerHint _ => .peerHint
  | .error _ => .error

/-- A frame of the ready phase on the wire. A chunk frame carries its payload as
it is, every other one the JSON text of its message. -/
def toFrame (json : ServerFrame → Bytes) (frame : ServerFrame) : Frame :=
  match frame with
  | .fileChunk flags payload => { frameType := .fileChunk, flags, streamId := 0, payload }
  | _ => { frameType := frameType frame, flags := 0, streamId := 0, payload := json frame }

/-- The frame with which a holder of the object answers a request for it. -/
inductive Answer (cfg : Config) (domain blobId : String) (b : Bytes) (msg : FileGet) :
    ServerFrame → Prop
  | server (now : Nat) (server : ServerState) (session : Session)
      (member : session.userDomain = domain)
      (held : (server.store domain).getObject blobId = some b)
      (sent : (session.handle cfg now server (.fileGet msg)).effects = [.send frame]) :
      Answer cfg domain blobId b msg frame
  | peer (objects : ObjectCache) (held : objects blobId = some b) :
      Answer cfg domain blobId b msg (servePeer cfg.aead (cfg.e2e domain) objects msg)

/-- Every request is answered by a holder of the object, among frames that the
client passes over. -/
def Holding (cfg : Config) (domain blobId : String) (b : Bytes) (json : ServerFrame → Bytes)
    (arrives : Nat → FileGet → List Frame) : Prop :=
  ∀ request idx, ∃ before frame after,
    arrives request { blobId, chunkIndex := some idx } = before ++ toFrame json frame :: after ∧
    Answer cfg domain blobId b { blobId, chunkIndex := some idx } frame ∧
    (∀ other ∈ before, PassedOver other) ∧ ∀ other ∈ after, PassedOver other

/-- What the request's chunk is sealed to by a holder. -/
def sealedAt (cfg : Config) (domain : String) (b : Bytes) (idx : Nat) : Bytes :=
  sealChunk cfg.aead (cfg.e2e domain) (Session.chunkAt b idx) idx

variable {cfg : Config} {domain blobId : String} {b : Bytes}

theorem Answer.chunk
    (h : Answer cfg domain blobId b { blobId, chunkIndex := some idx } frame) :
    frame = .fileChunk (chunkFlags (cfg.e2e domain)) (le 4 idx ++ sealedAt cfg domain b idx) := by
  cases h with
  | server now server session member held sent =>
    subst member
    simp only [Session.handle, Session.onFileGet, Session.fs, held, Session.stay,
      List.cons.injEq, Effect.send.injEq, and_true] at sent
    exact sent.symm
  | peer objects held =>
    simp only [servePeer, held]
    rfl

/-- The chunk that was asked for, under its label, and the same from every holder. -/
def AnswersAsked (cfg : Config) (domain blobId : String) (b : Bytes) (idx : Nat) : Prop :=
  (∀ frame, Answer cfg domain blobId b { blobId, chunkIndex := some idx } frame →
    ∃ label bytes, frame = .fileChunk (chunkFlags (cfg.e2e domain))
        (label ++ sealChunk cfg.aead (cfg.e2e domain) bytes idx) ∧
      label.length = 4 ∧ ofLe label = idx ∧
      bytes = (b.take ((idx + 1) * chunkSize)).drop (idx * chunkSize)) ∧
  ∀ frame frame', Answer cfg domain blobId b { blobId, chunkIndex := some idx } frame →
    Answer cfg domain blobId b { blobId, chunkIndex := some idx } frame' → frame = frame'

theorem Holding.answered {json : ServerFrame → Bytes} {arrives : Nat → FileGet → List Frame}
    (h : Holding cfg domain blobId b json arrives) :
    Answered blobId arrives (sealedAt cfg domain b) := by
  intro request idx
  obtain ⟨before, frame, after, hframes, hframe, hbefore, hafter⟩ := h request idx
  obtain rfl := hframe.chunk
  exact ⟨before, _, after, hframes, rfl, rfl, hbefore, hafter⟩

/-- Below the index where `usize` arithmetic wraps, a chunk is a slice. -/
theorem chunkAt_eq_slice (b : Bytes) (h : idx < 2 ^ 44) :
    Session.chunkAt b idx = Sparse.slice chunkSize b idx := by
  have hmod : idx * chunkSize % 2 ^ 64 = idx * chunkSize := by
    apply Nat.mod_eq_of_lt
    unfold chunkSize
    omega
  simp only [Session.chunkAt, hmod, Sparse.slice]
  split
  · rfl
  · rw [List.drop_eq_nil_of_le (by omega), List.take_nil]

/-- From there on the chunks of the object come round again. -/
theorem chunkAt_wraps (b : Bytes) (idx : Nat) :
    Session.chunkAt b (idx + 2 ^ 44) = Session.chunkAt b idx := by
  have hmod : (idx + 2 ^ 44) * chunkSize % 2 ^ 64 = idx * chunkSize % 2 ^ 64 := by
    unfold chunkSize
    omega
  simp only [Session.chunkAt, hmod]

theorem AnswersAsked.index_lt (h : AnswersAsked cfg domain blobId b idx) : idx < 2 ^ 32 := by
  have hpeer : Answer cfg domain blobId b { blobId, chunkIndex := some idx } _ :=
    .peer (fun _ => some b) rfl
  obtain ⟨label, -, -, hlen, hlabel, -⟩ := h.1 _ hpeer
  have hlt := ofLe_lt label
  rw [hlabel, hlen] at hlt
  exact hlt

/-- A holder answers with what was asked for if and only if the index is a `u32`. -/
theorem answersAsked_iff (cfg : Config) (domain blobId : String) (b : Bytes) (idx : Nat) :
    AnswersAsked cfg domain blobId b idx ↔ idx < 2 ^ 32 := by
  refine ⟨AnswersAsked.index_lt, fun hidx => ⟨fun frame hframe => ?_, fun _ _ hframe hframe' => ?_⟩⟩
  · have hslice : Session.chunkAt b idx = (b.take ((idx + 1) * chunkSize)).drop (idx * chunkSize) := by
      rw [chunkAt_eq_slice b (by omega), Sparse.slice, List.drop_take, Nat.succ_mul,
        Nat.add_sub_cancel_left]
    refine ⟨le 4 idx, _, hframe.chunk, length_le 4 idx, ?_, hslice⟩
    rw [ofLe_le]
    exact Nat.mod_eq_of_lt hidx
  · rw [hframe.chunk, hframe'.chunk]

/-- The chunk of index `2^32` is labelled 0. -/
theorem label_truncated : ¬ ∀ idx < 2 ^ 64, AnswersAsked .default "acme" "x" [7] idx := by
  intro h
  exact absurd (h (2 ^ 32) (by decide)).index_lt (by decide)

/-- The slices of a text: full ones, then one that is not full and may be empty. -/
theorem length_slice_full (h : i < b.length / chunkSize) :
    chunkSize ≤ (Sparse.slice chunkSize b i).length := by
  have hpos : 0 < chunkSize := by decide
  have hend := (Nat.le_div_iff_mul_le hpos).mp (Nat.succ_le_of_lt h)
  rw [Nat.succ_mul] at hend
  rw [Sparse.length_slice]
  omega

theorem length_slice_last (b : Bytes) :
    (Sparse.slice chunkSize b (b.length / chunkSize)).length = b.length % chunkSize := by
  have hlt := Nat.mod_lt b.length (show 0 < chunkSize by decide)
  have hsplit := Nat.div_add_mod' b.length chunkSize
  rw [Sparse.length_slice]
  omega

theorem flatMap_slices (b : Bytes) :
    (List.range (b.length / chunkSize + 1)).flatMap (Sparse.slice chunkSize b) = b := by
  rw [Sparse.flatMap_slice, List.take_of_length_le]
  exact (Sparse.lt_succ_mul (by decide) b.length).le

/-- `get_object` returns the object, whatever other frames come between, after
one request more than the object has full chunks. -/
theorem get_object_exact (cfg : Config) (domain blobId : String) (b : Bytes)
    (hchunks : Sparse.chunkCount chunkSize b.length < 2 ^ 32)
    (json : ServerFrame → Bytes) (arrives : Nat → FileGet → List Frame)
    (harrives : Holding cfg domain blobId b json arrives)
    (stream : List Frame) (hstream : ∀ other ∈ stream, PassedOver other)
    (fuel : Nat) (hfuel : b.length / chunkSize < fuel) :
    getObject cfg.aead (cfg.e2e domain) blobId arrives fuel (.start stream) =
      some (.ok (some b), b.length / chunkSize + 1) := by
  have hanswered := harrives.answered
  have hlast : b.length / chunkSize < 2 ^ 32 := by
    have hle : b.length / chunkSize ≤ Sparse.chunkCount chunkSize b.length :=
      Nat.div_le_div_right (by unfold chunkSize; omega)
    omega
  have hopen (i : Nat) (hi : i ≤ b.length / chunkSize) :
      openChunk cfg.aead (cfg.e2e domain) (sealedAt cfg domain b i) i =
        some (Sparse.slice chunkSize b i) := by
    rw [sealedAt, openChunk_sealChunk, chunkAt_eq_slice b (by omega)]
  have hshort : (Sparse.slice chunkSize b (b.length / chunkSize)).length < chunkSize := by
    rw [length_slice_last]
    exact Nat.mod_lt _ (by decide)
  have hget := (getObject_ends _ hanswered hlast (fun i hi => hopen i hi.le)
    (fun i => length_slice_full) hstream hfuel).2 _ (hopen _ le_rfl) hshort
  rwa [← List.flatMap_singleton (f := Sparse.slice chunkSize b), ← List.flatMap_append,
    ← List.range_succ, flatMap_slices] at hget

/-- A one-byte object from a peer, behind a heartbeat. -/
theorem get_object_exact_one_byte :
    getObject .none none "x"
      (fun _ msg => [{ frameType := .heartbeat, flags := 0, streamId := 0, payload := [] },
        toFrame (fun _ => []) (servePeer .none none (fun _ => some [7]) msg)]) 1 (.start []) =
      some (.ok (some [7]), 1) := by
  refine get_object_exact .default "acme" "x" [7] (by decide) (fun _ => []) _
    (fun request idx => ?_) [] (fun other h => by cases h) 1 (by decide)
  refine ⟨[{ frameType := .heartbeat, flags := 0, streamId := 0, payload := [] }], _, [], rfl,
    .peer (fun _ => some [7]) rfl, ?_, fun other h => by cases h⟩
  intro other hother
  obtain rfl := List.mem_singleton.mp hother
  exact ⟨by decide, by decide⟩

end Nsmt.System
