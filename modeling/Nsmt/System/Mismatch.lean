import Nsmt.Client.Push
import Nsmt.Core.Rotation
import Nsmt.Lib.Runs
import Nsmt.Server.Chunks
import Nsmt.System.Download

/-!
# Transfers between differently keyed parties

Client and server each take their keys from their own environment, and the flag
that marks a chunk as encrypted is read by neither. An upload is what the
server's session makes of the frames that `push_entry` sends once it has the
lock, a download is `get_object` against a holder of the object.

`transfer_exact_iff` says when each of the two keeps the content or fails: a
sender with keys and a receiver without any never does.
-/

namespace Nsmt.System

open Nsmt.Lib Nsmt.Core Nsmt.Server Nsmt.Client

-- ---------------------------------------------------------------------------
-- The two transfers
-- ---------------------------------------------------------------------------

/-- The frames `push_entry` sends in its next `steps` steps, if it need not wait. -/
def sends (aead : Aead) (e2e : Option E2EKeys) (p : PushEntry) :
    (steps : Nat) → PushPhase → List ClientFrame
  | 0, _ => []
  | steps + 1, phase =>
    match p.work aead e2e phase with
    | some (some frame, phase) => frame :: sends aead e2e p steps phase
    | some (none, phase) => sends aead e2e p steps phase
    | none => []

/-- The loop over the chunks sends them all, when none is to be left out. -/
theorem sends_chunks (aead : Aead) (e2e : Option E2EKeys) (p : PushEntry) :
    sends aead e2e p (p.totalChunks + 1) (.sending [] 0) =
      (List.range p.totalChunks).map (p.fileChunk aead e2e) := by
  have hloop (left : Nat) : ∀ idx, idx + left = p.totalChunks →
      sends aead e2e p (left + 1) (.sending [] idx) =
        (List.range' idx left).map (p.fileChunk aead e2e) := by
    induction left with
    | zero =>
      intro idx hidx
      rw [sends, PushEntry.work, if_neg (by omega)]
      rfl
    | succ left ih =>
      intro idx hidx
      rw [sends, PushEntry.work, if_pos (by omega), if_neg List.not_mem_nil, List.range'_succ,
        List.map_cons]
      exact congrArg (p.fileChunk aead e2e idx :: ·) (ih (idx + 1) (by omega))
  rw [List.range_eq_range']
  exact hloop p.totalChunks 0 (Nat.zero_add _)

/-- One frame of the session, with what has been sent so far. -/
def serveStep (cfg : Config) (now : Nat) (r : Reaction) (frame : ClientFrame) : Reaction :=
  let r' := r.turn.handle cfg now r.server frame
  { r' with effects := r.effects ++ r'.effects }

/-- The session after the frames of one push. The client sends its chunks once
the `FILE_PUT` is acknowledged; no acknowledgement names chunks to leave out. -/
def upload (cfg : Config) (now : Nat) (server : ServerState) (session : Session)
    (client : Option E2EKeys) (p : PushEntry) : Reaction :=
  let r := serveStep cfg now { server, turn := .ready session, effects := [] } (.filePut p.filePut)
  if putAccepted p.entry.blobId ∈ r.effects then
    run (serveStep cfg now) r (sends cfg.aead client p (p.totalChunks + 1) (.sending [] 0))
  else r

/-- The session has ended, or the client has been sent an error. -/
def EndsInError (r : Reaction) : Prop :=
  r.turn = .failed ∨ r.turn = .panicked ∨ ∃ msg, .send (.error msg) ∈ r.effects

/-- The upload stores the bytes, or ends in an error and stores nothing. -/
def UploadKeepsContent (cfg : Config) (now : Nat) (server : ServerState) (session : Session)
    (client : Option E2EKeys) (p : PushEntry) : Prop :=
  let r := upload cfg now server session client p
  let stored := (r.server.store session.userDomain).objects p.entry.blobId
  stored = some p.bytes ∨ (EndsInError r ∧ stored = none)

/-- With enough requests the download returns, the bytes or an error. -/
def DownloadKeepsContent (aead : Aead) (client : Option E2EKeys) (blobId : String) (b : Bytes)
    (arrives : Nat → FileGet → List Frame) (stream : List Frame) : Prop :=
  ∃ enough, ∀ fuel ≥ enough, ∃ result requests,
    getObject aead client blobId arrives fuel (.start stream) = some (result, requests) ∧
    (result = .ok (some b) ∨ ∃ e, result = .error e)

def keysOf : Option E2EKeys → List Bytes
  | some keys => keys.all
  | none => []

/-- Ciphertexts are sixteen bytes longer than plaintexts. -/
def Expands (aead : Aead) (keys : List Bytes) : Prop :=
  ∀ key ∈ keys, ∀ nonce msg, (aead.encrypt key nonce msg).length = msg.length + 16

/-- When an upload that is not refused keeps its content: it has a chunk and no
index that a `u32` cuts, and the keys match or some chunk does not open. -/
def UploadFits (aead : Aead) (b : Bytes) : (sender receiver : Option E2EKeys) → Prop
  | none, none => b ≠ [] ∧ chunksOf b ≤ 2 ^ 32
  | some _, none => False
  | none, some keys =>
    ∃ i < min (chunksOf b) (2 ^ 32), keys.decrypt aead (Sparse.slice chunkSize b i) i = none
  | some keys, some keys' => b ≠ [] ∧ (keys.newest ∈ keys'.all → chunksOf b ≤ 2 ^ 32)

def DownloadFits (aead : Aead) (b : Bytes) : (sender receiver : Option E2EKeys) → Prop
  | none, none => b.length / chunkSize < 2 ^ 32
  | some _, none => False
  | none, some keys => keys.decrypt aead (Sparse.slice chunkSize b 0) 0 = none
  | some keys, some keys' => keys.newest ∈ keys'.all → b.length / chunkSize < 2 ^ 32

-- ---------------------------------------------------------------------------
-- What a chunk opens to
-- ---------------------------------------------------------------------------

/-- A chunk under the sender's configuration, read under the receiver's. -/
def opened (aead : Aead) (sender receiver : Option E2EKeys) (chunk : Bytes) (idx : Nat) :
    Option Bytes :=
  openChunk aead receiver (sealChunk aead sender chunk idx) idx

section
variable {aead : Aead} {sender receiver : Option E2EKeys} {keys keys' : E2EKeys} {chunk : Bytes}

theorem opened_unkeyed : opened aead none none chunk idx = some chunk := rfl

/-- Without keys the receiver takes the ciphertext for the chunk. -/
theorem opened_ciphertext (hexp : Expands aead keys.all) (chunk : Bytes) (idx : Nat) :
    ∃ data, opened aead (some keys) none chunk idx = some data ∧ data.length = chunk.length + 16 :=
  ⟨_, rfl, hexp _ (List.mem_cons_self ..) _ _⟩

/-- What a receiver with keys reads of an unencrypted chunk is shorter. -/
theorem opened_plain (ideal : aead.Ideal keys.all) (hexp : Expands aead keys.all)
    (h : opened aead none (some keys) chunk idx = some data) :
    data.length + 16 = chunk.length := by
  obtain ⟨before, key, after, hall, hdec, -⟩ := List.findSome?_eq_some_iff.mp h
  have hkey : key ∈ keys.all := by
    rw [hall]
    simp
  have hsealed := ideal.exact key hkey _ _ _ hdec
  rw [← hexp key hkey (E2EKeys.nonceFor idx) data, ← hsealed]
  rfl

theorem opened_keyed (ideal : aead.Ideal (keys.all ++ keys'.all)) (chunk : Bytes) (idx : Nat) :
    opened aead (some keys) (some keys') chunk idx =
      if keys.newest ∈ keys'.all then some chunk else none := by
  have hideal : aead.Ideal (keys.newest :: keys'.all) := by
    refine ideal.mono fun key hkey => ?_
    rcases List.mem_cons.mp hkey with rfl | hkey
    · exact List.mem_append_left _ (List.mem_cons_self ..)
    · exact List.mem_append_right _ hkey
  have h := E2EKeys.decrypt_encrypt_other hideal chunk idx idx
  simp only [and_true] at h
  exact h

end

theorem ne_nil_of_chunk {b : Bytes} (h : i < chunksOf b) : b ≠ [] := by
  rintro rfl
  exact absurd (lt_chunksOf.mp h) (Nat.not_lt_zero _)

-- ---------------------------------------------------------------------------
-- The chunks of an upload
-- ---------------------------------------------------------------------------

section
variable (session : Session) (p : PushEntry) (piece : Nat → Bytes)

/-- The upload has begun, and the first `k` chunks were read as these pieces. -/
structure Receiving (k : Nat) (r : Reaction) : Prop where
  turn : ∃ pu, r.turn = .ready { session with pendingUpload := some pu } ∧
    pu.blobId = p.entry.blobId ∧ pu.totalChunks = p.totalChunks ∧ pu.has = {i | i < k}
  file : ((r.server.store session.userDomain).tmp p.entry.blobId).getD [] =
    Sparse.assemble chunkSize piece k
  absent : (r.server.store session.userDomain).objects p.entry.blobId = none
  sent : r.effects = [putAccepted p.entry.blobId]

end

section
variable {cfg : Config} {now : Nat} {session : Session} {client : Option E2EKeys} {p : PushEntry}
  {piece : Nat → Bytes} {r : Reaction}

/-- The payload of chunk `k` as the server reads it. -/
theorem openChunk_chunkPayload_other (aead : Aead) (sender receiver : Option E2EKeys) (chunk : Bytes)
    (k : Nat) :
    openChunk aead receiver ((chunkPayload aead sender chunk k).drop 4) k =
      opened aead sender receiver chunk k := by
  rw [chunkPayload, List.drop_left' (length_le 4 k), opened]

theorem Receiving.fresh {pu : PendingUpload} (htotal : pu.totalChunks = p.totalChunks)
    (hhas : pu.has = {i | i < k}) (hk : k < p.totalChunks) : pu.received[k]? = some false := by
  refine pu.received_of_lt (by rwa [htotal]) ?_
  rw [hhas]
  exact lt_irrefl k

theorem serveStep_fileChunk (cfg : Config) (now : Nat) (client : Option E2EKeys) (p : PushEntry)
    {pu : PendingUpload}
    (hturn : r.turn = .ready { session with pendingUpload := some pu }) (k : Nat) :
    let handled := Session.onFileChunk cfg r.server { session with pendingUpload := some pu }
      (chunkPayload cfg.aead client (Sparse.slice chunkSize p.bytes k) k)
    serveStep cfg now r (p.fileChunk cfg.aead client k) =
      { handled with effects := r.effects ++ handled.effects } := by
  simp only [serveStep, hturn]
  rfl

theorem Receiving.step (h : Receiving session p piece k r) (hk : k < p.totalChunks)
    (hindex : k < 2 ^ 32)
    (hopen : opened cfg.aead client (cfg.e2e session.userDomain)
      (Sparse.slice chunkSize p.bytes k) k = some (piece k)) :
    (k + 1 < p.totalChunks →
      Receiving session p piece (k + 1) (serveStep cfg now r (p.fileChunk cfg.aead client k))) ∧
    (k + 1 = p.totalChunks →
      ((serveStep cfg now r (p.fileChunk cfg.aead client k)).server.store
        session.userDomain).objects p.entry.blobId =
          some (Sparse.assemble chunkSize piece (k + 1))) := by
  obtain ⟨⟨pu, hturn, hblob, htotal, hhas⟩, hfile, habsent, hsent⟩ := h
  have hf := Receiving.fresh htotal hhas hk
  have hidx : chunkIndex (chunkPayload cfg.aead client (Sparse.slice chunkSize p.bytes k) k) =
      some k := by
    rw [chunkIndex_chunkPayload, Nat.mod_eq_of_lt hindex]
  have hwrite : Sparse.writeAt (((r.server.store session.userDomain).tmp pu.blobId).getD [])
      (k * chunkSize) (piece k) = Sparse.assemble chunkSize piece (k + 1) := by
    rw [hblob, hfile, Sparse.assemble_succ]
  have hhandle := onFileChunk_fresh r.server { session with pendingUpload := some pu } rfl hf hidx
    ((openChunk_chunkPayload_other ..).trans hopen) hwrite
  have hmark : (pu.mark k hf).has = {i | i < k + 1} := by
    rw [PendingUpload.has_mark, hhas]
    ext i
    simp only [Set.mem_insert_iff, Set.mem_ofPred_eq]
    omega
  have hfull := (pu.mark k hf).full_iff
  rw [hmark, PendingUpload.mark_totalChunks, htotal] at hfull
  have hstep := serveStep_fileChunk cfg now client p hturn k
  simp only [hhandle, PendingUpload.mark_totalChunks, htotal] at hstep
  rw [hstep]
  constructor
  · intro hmore
    rw [if_neg (fun hcount => by simpa using hfull.mp hcount (k + 1) hmore)]
    refine ⟨⟨pu.mark k hf, rfl, hblob, htotal, hmark⟩, ?_, ?_, ?_⟩
    · have htemp : ((chunkWritten r.server { session with pendingUpload := some pu } (pu.mark k hf)
          (Sparse.assemble chunkSize piece (k + 1))).server.store session.userDomain).tmp pu.blobId =
            some (Sparse.assemble chunkSize piece (k + 1)) := chunkWritten_temp
      rw [hblob] at htemp
      exact congrArg (·.getD []) htemp
    · exact (congrFun chunkWritten_objects p.entry.blobId).trans habsent
    · rw [hsent]
      rfl
  · intro hlast
    rw [if_pos (hfull.mpr fun i hi => by simpa using (by omega : i < k + 1))]
    have hstored : ((uploadFinished r.server { session with pendingUpload := some pu }
        (pu.mark k hf) (Sparse.assemble chunkSize piece (k + 1))).server.store
          session.userDomain).objects pu.blobId = some (Sparse.assemble chunkSize piece (k + 1)) := by
      refine uploadFinished_absent ?_
      rw [PendingUpload.mark_blobId, hblob]
      exact habsent
    rw [hblob] at hstored
    exact hstored

/-- A chunk that does not open ends the session, and nothing is stored. -/
theorem Receiving.fail (h : Receiving session p piece k r) (now : Nat) (hk : k < p.totalChunks)
    (hindex : k < 2 ^ 32)
    (hopen : opened cfg.aead client (cfg.e2e session.userDomain)
      (Sparse.slice chunkSize p.bytes k) k = none) :
    (serveStep cfg now r (p.fileChunk cfg.aead client k)).turn = .failed ∧
      ((serveStep cfg now r (p.fileChunk cfg.aead client k)).server.store
        session.userDomain).objects p.entry.blobId = none := by
  obtain ⟨⟨pu, hturn, hblob, htotal, hhas⟩, -, habsent, -⟩ := h
  have hf := Receiving.fresh htotal hhas hk
  have hidx : chunkIndex (chunkPayload cfg.aead client (Sparse.slice chunkSize p.bytes k) k) =
      some k := by
    rw [chunkIndex_chunkPayload, Nat.mod_eq_of_lt hindex]
  have hnone := (openChunk_chunkPayload_other ..).trans hopen
  have hhandle : handleChunk cfg (r.server.store session.userDomain) pu
      (chunkPayload cfg.aead client (Sparse.slice chunkSize p.bytes k) k) session.userDomain =
        none := by
    rcases handleChunk_cases cfg (r.server.store session.userDomain) pu
        (chunkPayload cfg.aead client (Sparse.slice chunkSize p.bytes k) k) session.userDomain with
      ⟨hskip, -⟩ | ⟨_, -, -, -, hh⟩ | ⟨idx, data, hf', hidx', hopen', -⟩
    · obtain ⟨hlt, hnot⟩ := pu.not_mem_has hf
      exact absurd (hskip k hidx hlt) hnot
    · exact hh
    · rw [hidx] at hidx'
      obtain rfl := Option.some.inj hidx'
      rw [hnone] at hopen'
      cases hopen'
  have hstep := serveStep_fileChunk cfg now client p hturn k
  simp only [Session.onFileChunk, Session.fs, hhandle] at hstep
  rw [hstep]
  exact ⟨rfl, habsent⟩

/-- An index of more than 32 bits names a chunk received long ago. -/
theorem Receiving.wrapped (h : Receiving session p piece (2 ^ 32) r)
    (hlong : 2 ^ 32 < p.totalChunks) (k : Nat) :
    Receiving session p piece (2 ^ 32) (serveStep cfg now r (p.fileChunk cfg.aead client k)) := by
  obtain ⟨⟨pu, hturn, hblob, htotal, hhas⟩, hfile, habsent, hsent⟩ := h
  have hskip : ∀ idx, chunkIndex (chunkPayload cfg.aead client
      (Sparse.slice chunkSize p.bytes k) k) = some idx → idx < pu.totalChunks → idx ∈ pu.has := by
    intro idx hidx _
    rw [chunkIndex_chunkPayload] at hidx
    obtain rfl := Option.some.inj hidx
    rw [hhas]
    exact Nat.mod_lt k (by decide)
  have hfull : pu.receivedCount ≠ pu.totalChunks := by
    rw [ne_eq, pu.full_iff, hhas, htotal]
    exact fun hall => absurd (hall _ hlong) (by simp)
  have hstep := serveStep_fileChunk cfg now client p hturn k
  rw [onFileChunk_skip r.server { session with pendingUpload := some pu } rfl hfull hskip] at hstep
  rw [hstep]
  exact ⟨⟨pu, rfl, hblob, htotal, hhas⟩, hfile, habsent, by simpa [Session.stay] using hsent⟩

-- ---------------------------------------------------------------------------
-- The whole upload
-- ---------------------------------------------------------------------------

/-- The frames before chunk `k`, when every chunk up to there opens. -/
theorem Receiving.run (h : Receiving session p piece 0 r) (now : Nat) (hk : k < p.totalChunks)
    (hindex : k ≤ 2 ^ 32)
    (hopen : ∀ i < k, opened cfg.aead client (cfg.e2e session.userDomain)
      (Sparse.slice chunkSize p.bytes i) i = some (piece i)) :
    Receiving session p piece k
      (Lib.run (serveStep cfg now) r ((List.range k).map (p.fileChunk cfg.aead client))) := by
  induction k with
  | zero => exact h
  | succ k ih =>
    rw [List.range_succ, List.map_append, run_append]
    exact ((ih (by omega) (by omega) fun i hi => hopen i (by omega)).step (by omega) (by omega)
      (hopen k (by omega))).1 hk

theorem run_failed (hturn : r.turn = .failed) (frames : List ClientFrame) :
    Lib.run (serveStep cfg now) r frames = r := by
  induction frames generalizing r with
  | nil => rfl
  | cons frame frames ih =>
    have hsame : serveStep cfg now r frame = r := by
      rw [serveStep, hturn, Turn.handle, List.append_nil, ← hturn]
    rw [run_cons, hsame, ih hturn]

theorem range_split (h : k < n) :
    List.range n = List.range k ++ (k :: (List.range (n - (k + 1))).map (k + 1 + ·)) := by
  conv_lhs => rw [show n = k + 1 + (n - (k + 1)) by omega, List.range_add, List.range_succ]
  rw [List.append_assoc]
  rfl

/-- What becomes of an accepted upload, by the first chunk that does not open. -/
theorem run_chunks (now : Nat) (h : Receiving session p piece 0 r)
    (hopen : ∀ i < k, opened cfg.aead client (cfg.e2e session.userDomain)
      (Sparse.slice chunkSize p.bytes i) i = some (piece i)) :
    let r' := Lib.run (serveStep cfg now) r
      ((List.range p.totalChunks).map (p.fileChunk cfg.aead client))
    (k < min p.totalChunks (2 ^ 32) → opened cfg.aead client (cfg.e2e session.userDomain)
      (Sparse.slice chunkSize p.bytes k) k = none →
      r'.turn = .failed ∧ (r'.server.store session.userDomain).objects p.entry.blobId = none) ∧
    (k = p.totalChunks → 0 < k → k ≤ 2 ^ 32 →
      (r'.server.store session.userDomain).objects p.entry.blobId =
        some (Sparse.assemble chunkSize piece k)) ∧
    (k = 2 ^ 32 → k < p.totalChunks → Receiving session p piece k r') := by
  refine ⟨fun hk hnone => ?_, fun hk hpos hindex => ?_, fun hk hlong => ?_⟩
  · have hbefore := h.run now (k := k) (by omega) (by omega) hopen
    obtain ⟨hturn, hobject⟩ := hbefore.fail now (by omega) (by omega) hnone
    rw [range_split (show k < p.totalChunks by omega), List.map_append, run_append, List.map_cons,
      run_cons, run_failed hturn]
    exact ⟨hturn, hobject⟩
  · obtain ⟨m, rfl⟩ := Nat.exists_eq_succ_of_ne_zero hpos.ne'
    have hbefore := h.run now (k := m) (by omega) (by omega) fun i hi => hopen i (by omega)
    rw [← hk, List.range_succ, List.map_append, run_append]
    exact (hbefore.step (by omega) (by omega) (hopen m (by omega))).2 hk
  · have hbefore := h.run now (k := k) hlong hk.le hopen
    subst hk
    have hrest (frames : List Nat) : ∀ r, Receiving session p piece (2 ^ 32) r →
        Receiving session p piece (2 ^ 32)
          (Lib.run (serveStep cfg now) r (frames.map (p.fileChunk cfg.aead client))) := by
      induction frames with
      | nil => exact fun r hr => hr
      | cons k frames ih => exact fun r hr => ih _ (hr.wrapped hlong k)
    rw [range_split hlong, List.map_append, run_append]
    exact hrest _ _ hbefore

theorem serveStep_filePut (now : Nat) (server : ServerState) (msg : FilePut) :
    serveStep cfg now { server, turn := .ready session, effects := [] } (.filePut msg) =
      session.onFilePut cfg server msg := by
  simp only [serveStep, Turn.handle, Session.handle, List.nil_append]

theorem onFilePut_within (session : Session) {server : ServerState} (msg : FilePut)
    (hquota : (server.tryReserveQuota cfg session.userDomain msg.size).1 = true)
    (hchunks : ¬ msg.totalChunks > isizeMax) :
    (session.onFilePut cfg server msg).effects = [putAccepted msg.blobId] := by
  obtain ⟨server', hq⟩ : ∃ server',
      server.tryReserveQuota cfg session.userDomain msg.size = (true, server') :=
    ⟨_, Prod.ext hquota rfl⟩
  simp only [Session.onFilePut, hq, if_neg hchunks]
  rfl

theorem onFilePut_beyond (session : Session) {server : ServerState} (msg : FilePut)
    (hquota : (server.tryReserveQuota cfg session.userDomain msg.size).1 = false) :
    session.onFilePut cfg server msg =
      session.stay (server.tryReserveQuota cfg session.userDomain msg.size).2
        [.send (.error Session.quotaExceeded)] := by
  obtain ⟨server', hq⟩ : ∃ server',
      server.tryReserveQuota cfg session.userDomain msg.size = (false, server') :=
    ⟨_, Prod.ext hquota rfl⟩
  simp only [Session.onFilePut, hq]

theorem filePut_accepted (now : Nat) (piece : Nat → Bytes) {server : ServerState}
    (habsent : (server.store session.userDomain).objects p.entry.blobId = none)
    (hsize : p.bytes.length ≤ isizeMax)
    (hquota : (server.tryReserveQuota cfg session.userDomain p.bytes.length).1 = true) :
    Receiving session p piece 0
      (serveStep cfg now { server, turn := .ready session, effects := [] } (.filePut p.filePut)) := by
  have hchunks : ¬ p.filePut.totalChunks > isizeMax :=
    Nat.not_lt.mpr ((chunksOf_le p.bytes).trans hsize)
  have heffects := onFilePut_within session p.filePut hquota hchunks
  obtain ⟨hturn, hstore⟩ := onFilePut_acknowledged heffects
  rw [serveStep_filePut]
  refine ⟨⟨Session.newUpload p.filePut, hturn, rfl, rfl, ?_⟩, ?_, ?_, heffects⟩
  · rw [PendingUpload.has_newUpload]
    ext i
    simp
  · rw [hstore]
    simp [ServerFs.removeTemp, PushEntry.filePut]
  · rw [hstore]
    exact habsent

/-- An accepted upload keeps its content when a chunk does not open, or when
the pieces read, put where the chunks belong, are the bytes. -/
theorem upload_accepted_iff {server : ServerState}
    (habsent : (server.store session.userDomain).objects p.entry.blobId = none)
    (hsize : p.bytes.length ≤ isizeMax)
    (hquota : (server.tryReserveQuota cfg session.userDomain p.bytes.length).1 = true)
    {o : Nat → Option Bytes}
    (ho : ∀ i, opened cfg.aead client (cfg.e2e session.userDomain)
      (Sparse.slice chunkSize p.bytes i) i = o i) :
    UploadKeepsContent cfg now server session client p ↔
      (∃ i < min (chunksOf p.bytes) (2 ^ 32), o i = none) ∨
        (p.bytes ≠ [] ∧ chunksOf p.bytes ≤ 2 ^ 32 ∧
          Sparse.assemble chunkSize (fun i => (o i).getD []) (chunksOf p.bytes) = p.bytes) := by
  have hbegin := filePut_accepted now (fun i => (o i).getD []) habsent hsize hquota
  have hrun : upload cfg now server session client p =
      Lib.run (serveStep cfg now)
        (serveStep cfg now { server, turn := .ready session, effects := [] } (.filePut p.filePut))
        ((List.range p.totalChunks).map (p.fileChunk cfg.aead client)) := by
    have hsent := hbegin.sent
    simp only [upload]
    rw [if_pos (by rw [hsent]; exact List.mem_singleton_self _), sends_chunks]
  have hpiece (i : Nat) (hi : o i ≠ none) : opened cfg.aead client (cfg.e2e session.userDomain)
      (Sparse.slice chunkSize p.bytes i) i = some ((o i).getD []) := by
    rw [ho]
    obtain ⟨data, hdata⟩ := Option.ne_none_iff_exists'.mp hi
    rw [hdata, Option.getD_some]
  have hquiet {k : Nat} {r : Reaction}
      (h : Receiving session p (fun i => (o i).getD []) k r) : ¬ EndsInError r := by
    obtain ⟨⟨pu, hturn, -⟩, -, -, hsent⟩ := h
    rintro (hfailed | hpanicked | ⟨msg, hmsg⟩)
    · rw [hturn] at hfailed
      cases hfailed
    · rw [hturn] at hpanicked
      cases hpanicked
    · rw [hsent, List.mem_singleton] at hmsg
      cases hmsg
  simp only [UploadKeepsContent, hrun]
  by_cases hnone : ∃ i, i < min (chunksOf p.bytes) (2 ^ 32) ∧ o i = none
  · obtain ⟨hk, hopen⟩ := Nat.find_spec hnone
    have hbefore (i : Nat) (hi : i < Nat.find hnone) : o i ≠ none := fun h =>
      Nat.find_min hnone hi ⟨by omega, h⟩
    obtain ⟨hturn, hobject⟩ := (run_chunks now hbegin
      fun i hi => hpiece i (hbefore i hi)).1 hk ((ho _).trans hopen)
    exact iff_of_true (.inr ⟨.inl hturn, hobject⟩) (.inl hnone)
  · have hall (i : Nat) (hi : i < min (chunksOf p.bytes) (2 ^ 32)) : o i ≠ none :=
      fun h => hnone ⟨i, hi, h⟩
    rw [or_iff_right hnone]
    rcases Nat.eq_zero_or_pos (chunksOf p.bytes) with hzero | hpos
    · -- No chunk, so nothing completes the upload.
      have hempty : p.bytes = [] := by
        by_contra hne
        exact absurd (chunksOf_pos hne) (by omega)
      have hsame : p.totalChunks = 0 := hzero
      simp only [hsame, List.range_zero, List.map_nil, run_nil, hbegin.absent, hempty]
      simp [hquiet hbegin]
    · have hne : p.bytes ≠ [] := ne_nil_of_chunk hpos
      rcases Nat.lt_or_ge (2 ^ 32) (chunksOf p.bytes) with hlong | hfits
      · have hend := (run_chunks now (k := 2 ^ 32) hbegin
          fun i hi => hpiece i (hall i (by omega))).2.2 rfl hlong
        simp only [hend.absent, reduceCtorEq, false_or, hquiet hend, false_and, false_iff]
        exact fun h => absurd h.2.1 (by omega)
      · have hend := (run_chunks now (k := chunksOf p.bytes) hbegin fun i hi =>
          hpiece i (hall i (lt_min hi (lt_of_lt_of_le hi hfits)))).2.1 rfl hpos hfits
        simp only [hend, Option.some.injEq, reduceCtorEq, and_false, or_false, hne, hfits, ne_eq,
          not_false_eq_true, true_and]

-- ---------------------------------------------------------------------------
-- When the content is kept
-- ---------------------------------------------------------------------------

theorem upload_refused {server : ServerState}
    (habsent : (server.store session.userDomain).objects p.entry.blobId = none)
    (hquota : (server.tryReserveQuota cfg session.userDomain p.bytes.length).1 = false) :
    UploadKeepsContent cfg now server session client p := by
  have hstore := congrFun (ServerState.tryReserveQuota_store cfg server session.userDomain
    p.filePut.size) session.userDomain
  have hput := onFilePut_beyond session p.filePut hquota
  have hrun : upload cfg now server session client p =
      session.stay (server.tryReserveQuota cfg session.userDomain p.filePut.size).2
        [.send (.error Session.quotaExceeded)] := by
    simp only [upload, serveStep_filePut, hput]
    rw [if_neg (by simp [Session.stay, putAccepted])]
  refine .inr ⟨.inr (.inr ⟨Session.quotaExceeded, ?_⟩), ?_⟩
  · rw [hrun]
    exact List.mem_singleton_self _
  · rw [hrun]
    change ((server.tryReserveQuota cfg session.userDomain p.filePut.size).2.store
      session.userDomain).objects p.entry.blobId = none
    rw [hstore]
    exact habsent

theorem length_slice_add (b : Bytes) (h : i < chunksOf b) :
    i * chunkSize + (Sparse.slice chunkSize b i).length ≤ b.length := by
  have hlt := lt_chunksOf.mp h
  rw [Sparse.length_slice]
  omega

theorem length_slice_end (b : Bytes) (h : i + 1 = chunksOf b) :
    i * chunkSize + (Sparse.slice chunkSize b i).length = b.length := by
  have hlt := lt_chunksOf.mp (show i < chunksOf b by omega)
  have hend : ¬ (i + 1) * chunkSize < b.length := by
    rw [← lt_chunksOf]
    omega
  rw [Nat.succ_mul] at hend
  rw [Sparse.length_slice]
  omega

end

section
variable {aead : Aead} {sender receiver : Option E2EKeys}

theorem fits_of_slices {b : Bytes} {o : Nat → Option Bytes}
    (ho : ∀ i, o i = some (Sparse.slice chunkSize b i)) :
    (∃ i < min (chunksOf b) (2 ^ 32), o i = none) ∨
      (b ≠ [] ∧ chunksOf b ≤ 2 ^ 32 ∧
        Sparse.assemble chunkSize (fun i => (o i).getD []) (chunksOf b) = b) ↔
      b ≠ [] ∧ chunksOf b ≤ 2 ^ 32 := by
  constructor
  · rintro (⟨i, -, hnone⟩ | ⟨hne, hfits, -⟩)
    · rw [ho] at hnone
      cases hnone
    · exact ⟨hne, hfits⟩
  · rintro ⟨hne, hfits⟩
    have hpieces : (fun i => (o i).getD []) = Sparse.slice chunkSize b := by
      funext i
      rw [ho, Option.getD_some]
    refine .inr ⟨hne, hfits, ?_⟩
    rw [hpieces]
    exact Sparse.assemble_slice chunkSize_pos b

/-- What the pieces of an upload come to under each pair of configurations. -/
theorem uploadFits_iff (ideal : aead.Ideal (keysOf sender ++ keysOf receiver))
    (hexp : Expands aead (keysOf sender ++ keysOf receiver)) (b : Bytes) :
    (∃ i < min (chunksOf b) (2 ^ 32),
        opened aead sender receiver (Sparse.slice chunkSize b i) i = none) ∨
      (b ≠ [] ∧ chunksOf b ≤ 2 ^ 32 ∧
        Sparse.assemble chunkSize
          (fun i => (opened aead sender receiver (Sparse.slice chunkSize b i) i).getD [])
          (chunksOf b) = b) ↔
      UploadFits aead b sender receiver := by
  cases sender with
  | none =>
    cases receiver with
    | none => exact fits_of_slices fun _ => opened_unkeyed
    | some keys =>
      refine ⟨fun h => ?_, .inl⟩
      by_contra hall
      obtain ⟨hne, hfits, hsame⟩ := h.resolve_left hall
      -- Were every chunk to open, the file would end before the bytes do.
      have hend (i : Nat) (hi : i < chunksOf b) : i * chunkSize +
          ((opened aead none (some keys) (Sparse.slice chunkSize b i) i).getD []).length <
            b.length := by
        cases hopen : opened aead none (some keys) (Sparse.slice chunkSize b i) i with
        | none => exact absurd ⟨i, lt_min hi (lt_of_lt_of_le hi hfits), hopen⟩ hall
        | some data =>
          have hshort := opened_plain ideal hexp hopen
          have hslice := length_slice_add b hi
          rw [Option.getD_some]
          omega
      have hlt := Sparse.length_assemble_lt (List.length_pos_iff.mpr hne) hend
      rw [hsame] at hlt
      exact lt_irrefl _ hlt
  | some keys =>
    cases receiver with
    | none =>
      refine iff_of_false ?_ id
      rintro (⟨i, -, hnone⟩ | ⟨hne, hfits, hsame⟩)
      · cases hnone
      · -- The last ciphertext reaches behind the end of the bytes.
        obtain ⟨n, hn⟩ := Nat.exists_eq_succ_of_ne_zero (chunksOf_pos hne).ne'
        obtain ⟨data, hopen, hlong⟩ := opened_ciphertext
          (fun key hkey => hexp key (List.mem_append_left _ hkey)) (Sparse.slice chunkSize b n) n
        have hdata : data ≠ [] := by
          rw [ne_eq, ← List.length_eq_zero_iff]
          omega
        have hle := Sparse.le_length_assemble chunkSize (fun i =>
          (opened aead (some keys) none (Sparse.slice chunkSize b i) i).getD []) n
          (by rw [hopen]; exact hdata)
        rw [← Nat.succ_eq_add_one, ← hn, hsame, hopen, Option.getD_some] at hle
        have hslice := length_slice_end b hn.symm
        omega
    | some keys' =>
      rw [UploadFits]
      by_cases hmem : keys.newest ∈ keys'.all
      · have hopen (i : Nat) := (opened_keyed ideal (Sparse.slice chunkSize b i) i).trans (if_pos hmem)
        rw [forall_prop_of_true hmem]
        exact fits_of_slices hopen
      · have hopen (i : Nat) := (opened_keyed ideal (Sparse.slice chunkSize b i) i).trans (if_neg hmem)
        constructor
        · rintro (⟨i, hi, -⟩ | ⟨hne, -⟩)
          · exact ⟨ne_nil_of_chunk (lt_min_iff.mp hi).1, fun hin => absurd hin hmem⟩
          · exact ⟨hne, fun hin => absurd hin hmem⟩
        · rintro ⟨hne, -⟩
          exact .inl ⟨0, lt_min (chunksOf_pos hne) (by decide), hopen 0⟩

/-- An upload of bytes that are not stored yet keeps its content exactly when
it is refused or the configurations fit. -/
theorem upload_keeps_iff {cfg : Config} {now : Nat} {session : Session}
    {client : Option E2EKeys} {p : PushEntry} {server : ServerState}
    (habsent : (server.store session.userDomain).objects p.entry.blobId = none)
    (hsize : p.bytes.length ≤ isizeMax)
    (ideal : cfg.aead.Ideal (keysOf client ++ keysOf (cfg.e2e session.userDomain)))
    (hexp : Expands cfg.aead (keysOf client ++ keysOf (cfg.e2e session.userDomain))) :
    UploadKeepsContent cfg now server session client p ↔
      (server.tryReserveQuota cfg session.userDomain p.bytes.length).1 = false ∨
        UploadFits cfg.aead p.bytes client (cfg.e2e session.userDomain) := by
  cases hquota : (server.tryReserveQuota cfg session.userDomain p.bytes.length).1 with
  | false => exact iff_of_true (upload_refused habsent hquota) (.inl rfl)
  | true =>
    rw [upload_accepted_iff habsent hsize hquota fun _ => rfl, uploadFits_iff ideal hexp]
    simp

theorem length_ciphertexts (keys : E2EKeys) (hexp : Expands aead keys.all) (b : Bytes) (n : Nat)
    (piece : Nat → Bytes)
    (hpiece : ∀ i < n, piece i = keys.encrypt aead (Sparse.slice chunkSize b i) i) :
    ((List.range n).flatMap piece).length = (b.take (n * chunkSize)).length + 16 * n := by
  rw [← Sparse.flatMap_slice]
  induction n with
  | zero => rfl
  | succ n ih =>
    have hlen := hexp _ (List.mem_cons_self ..) (E2EKeys.nonceFor n) (Sparse.slice chunkSize b n)
    have hn := hpiece n (by omega)
    rw [List.range_succ, List.flatMap_append, List.flatMap_append, List.length_append,
      List.length_append, ih fun i hi => hpiece i (by omega), List.flatMap_singleton,
      List.flatMap_singleton, hn, E2EKeys.encrypt, hlen]
    omega

variable {blobId : String} {arrives : Nat → FileGet → List Frame} {stream : List Frame}
  {b : Bytes} {sealed : Nat → Bytes}

theorem keeps_iff_of_ends (last : Nat)
    (hget : ∀ fuel, last < fuel →
      getObject aead receiver blobId arrives fuel (.start stream) = some (result, requests)) :
    DownloadKeepsContent aead receiver blobId b arrives stream ↔
      result = .ok (some b) ∨ ∃ e, result = .error e := by
  constructor
  · rintro ⟨enough, henough⟩
    obtain ⟨result', requests', hrun, hresult⟩ :=
      henough (max enough (last + 1)) (le_max_left ..)
    rw [hget _ (lt_of_lt_of_le (Nat.lt_succ_self last) (le_max_right ..))] at hrun
    cases hrun
    exact hresult
  · intro hresult
    exact ⟨last + 1, fun fuel hfuel => ⟨result, requests, hget fuel hfuel, hresult⟩⟩

theorem not_keeps_of_endless
    (hget : ∀ fuel, getObject aead receiver blobId arrives fuel (.start stream) = none) :
    ¬ DownloadKeepsContent aead receiver blobId b arrives stream := by
  rintro ⟨enough, henough⟩
  obtain ⟨result, requests, hrun, -⟩ := henough enough le_rfl
  rw [hget] at hrun
  cases hrun

/-- Chunks that open to the slices of the object give the object, as long as
the last index is a `u32`. -/
theorem keeps_slices_iff (h : Answered blobId arrives sealed)
    (hstream : ∀ other ∈ stream, PassedOver other)
    (hopen : ∀ i < 2 ^ 44, openChunk aead receiver (sealed i) i = some (Sparse.slice chunkSize b i)) :
    DownloadKeepsContent aead receiver blobId b arrives stream ↔ b.length / chunkSize < 2 ^ 32 := by
  rcases Nat.lt_or_ge (b.length / chunkSize) (2 ^ 32) with hlast | hlong
  · have hshort : (Sparse.slice chunkSize b (b.length / chunkSize)).length < chunkSize := by
      rw [length_slice_last]
      exact Nat.mod_lt _ chunkSize_pos
    refine iff_of_true ((keeps_iff_of_ends _ fun fuel hfuel =>
      (getObject_ends _ h hlast (fun i hi => hopen i (by omega)) (fun i => length_slice_full)
        hstream hfuel).2 _ (hopen _ (by omega)) hshort).mpr (.inl ?_)) hlast
    rw [← List.flatMap_singleton (f := Sparse.slice chunkSize b), ← List.flatMap_append,
      ← List.range_succ, flatMap_slices]
  · refine iff_of_false (not_keeps_of_endless fun fuel => getObject_endless h ?_ hstream fuel)
      (Nat.not_lt.mpr hlong)
    exact fun i hi => ⟨_, hopen i (by omega), length_slice_full (by omega)⟩

theorem keeps_of_unopened (h : Answered blobId arrives sealed)
    (hstream : ∀ other ∈ stream, PassedOver other)
    (hopen : openChunk aead receiver (sealed 0) 0 = none) :
    DownloadKeepsContent aead receiver blobId b arrives stream := by
  refine (keeps_iff_of_ends 0 fun fuel hfuel =>
    (getObject_ends (fun _ => []) h (by decide) (fun i hi => absurd hi (Nat.not_lt_zero i))
      (fun i hi => absurd hi (Nat.not_lt_zero i)) hstream hfuel).1 hopen).mpr (.inr ⟨_, rfl⟩)

/-- A download without keys from a holder with keys gives something longer than
the object, if it ends. -/
theorem not_keeps_ciphertexts {keys : E2EKeys} (hexp : Expands aead keys.all)
    (h : Answered blobId arrives fun idx =>
      sealChunk aead (some keys) (Session.chunkAt b idx) idx)
    (hstream : ∀ other ∈ stream, PassedOver other) :
    ¬ DownloadKeepsContent aead none blobId b arrives stream := by
  have hlen (i : Nat) (hi : i < 2 ^ 44) :
      (keys.encrypt aead (Session.chunkAt b i) i).length =
        (Sparse.slice chunkSize b i).length + 16 := by
    rw [← chunkAt_eq_slice b hi]
    exact hexp _ (List.mem_cons_self ..) _ _
  by_cases hend : ∃ i, i < 2 ^ 32 ∧
      (keys.encrypt aead (Session.chunkAt b i) i).length < chunkSize
  · -- The loop ends at the first ciphertext that is not full.
    obtain ⟨hlast, hshort⟩ := Nat.find_spec hend
    generalize hfind : Nat.find hend = last at hlast hshort
    have hfull (i : Nat) (hi : i < last) :
        chunkSize ≤ (keys.encrypt aead (Session.chunkAt b i) i).length := by
      have hmin := Nat.find_min hend (hfind ▸ hi)
      exact Nat.not_lt.mp fun hlt => hmin ⟨by omega, hlt⟩
    have hcover : b.length ≤ (last + 1) * chunkSize := by
      have hnot : ¬ last < b.length / chunkSize := by
        intro hlt
        have hslice := length_slice_full hlt
        rw [hlen last (by omega)] at hshort
        omega
      have hmul := Nat.mul_le_mul_right chunkSize (Nat.succ_le_succ (Nat.not_lt.mp hnot))
      exact (Sparse.lt_succ_mul chunkSize_pos b.length).le.trans hmul
    rw [keeps_iff_of_ends last fun fuel hfuel =>
      (getObject_ends (fun i => keys.encrypt aead (Session.chunkAt b i) i) h hlast
        (fun i _ => rfl) hfull hstream hfuel).2 _ rfl hshort]
    rintro (hsame | ⟨e, he⟩)
    · simp only [Except.ok.injEq, Option.some.injEq] at hsame
      have hlong := length_ciphertexts keys hexp b (last + 1)
        (fun i => keys.encrypt aead (Session.chunkAt b i) i)
        fun i hi => by rw [chunkAt_eq_slice b (by omega)]
      rw [List.range_succ, List.flatMap_append, List.flatMap_singleton, List.take_of_length_le hcover]
        at hlong
      have hcontent := congrArg List.length hsame
      exact absurd (hlong.symm.trans hcontent) (by omega)
    · cases he
  · refine not_keeps_of_endless fun fuel => getObject_endless h (fun i hi => ⟨_, rfl, ?_⟩) hstream fuel
    exact Nat.not_lt.mp fun hlt => hend ⟨i, hi, hlt⟩

theorem download_keeps_iff
    (h : Answered blobId arrives fun idx => sealChunk aead sender (Session.chunkAt b idx) idx)
    (hstream : ∀ other ∈ stream, PassedOver other)
    (ideal : aead.Ideal (keysOf sender ++ keysOf receiver))
    (hexp : Expands aead (keysOf sender ++ keysOf receiver)) :
    DownloadKeepsContent aead receiver blobId b arrives stream ↔
      DownloadFits aead b sender receiver := by
  have hslice (i : Nat) (hi : i < 2 ^ 44) := chunkAt_eq_slice b hi
  cases sender with
  | none =>
    cases receiver with
    | none => exact keeps_slices_iff h hstream fun i hi => congrArg some (hslice i hi)
    | some keys =>
      cases hopen : opened aead none (some keys) (Session.chunkAt b 0) 0 with
      | none =>
        refine iff_of_true (keeps_of_unopened h hstream hopen) ?_
        rw [hslice 0 (by decide)] at hopen
        exact hopen
      | some data =>
        have hshort := opened_plain ideal hexp hopen
        rw [hslice 0 (by decide), Sparse.length_slice] at hshort
        refine iff_of_false ?_ ?_
        · rw [keeps_iff_of_ends 0 fun fuel hfuel =>
            (getObject_ends (fun _ => []) h (by decide)
              (fun i hi => absurd hi (Nat.not_lt_zero i)) (fun i hi => absurd hi (Nat.not_lt_zero i))
              hstream hfuel).2 data hopen (by omega)]
          rintro (hsame | ⟨e, he⟩)
          · simp only [Except.ok.injEq, Option.some.injEq] at hsame
            subst hsame
            simp at hshort
            omega
          · cases he
        · rw [hslice 0 (by decide)] at hopen
          intro hnone
          exact absurd (hopen.symm.trans hnone) (by simp)
  | some keys =>
    cases receiver with
    | none =>
      exact iff_of_false (not_keeps_ciphertexts
        (fun key hkey => hexp key (List.mem_append_left _ hkey)) h hstream) id
    | some keys' =>
      have hopen (i : Nat) : opened aead (some keys) (some keys') (Session.chunkAt b i) i =
          if keys.newest ∈ keys'.all then some (Session.chunkAt b i) else none :=
        opened_keyed ideal (Session.chunkAt b i) i
      simp only [DownloadFits]
      by_cases hmem : keys.newest ∈ keys'.all
      · simp only [hmem, forall_const]
        refine keeps_slices_iff h hstream fun i hi => ?_
        rw [← hslice i hi]
        exact (hopen i).trans (if_pos hmem)
      · exact iff_of_true (keeps_of_unopened h hstream ((hopen 0).trans (if_neg hmem)))
          fun hin => absurd hin hmem

end

/-- A transfer keeps the content or fails exactly when it is refused or the two
configurations fit. -/
theorem transfer_exact_iff (cfg : Config) (now : Nat) (server : ServerState) (session : Session)
    (client : Option E2EKeys) (p : PushEntry) (blobId : String) (b : Bytes)
    (json : ServerFrame → Bytes) (arrives : Nat → FileGet → List Frame) (stream : List Frame)
    (habsent : (server.store session.userDomain).objects p.entry.blobId = none)
    (hsize : p.bytes.length ≤ isizeMax)
    (hholding : Holding cfg session.userDomain blobId b json arrives)
    (hstream : ∀ other ∈ stream, PassedOver other)
    (ideal : cfg.aead.Ideal (keysOf client ++ keysOf (cfg.e2e session.userDomain)))
    (hexp : Expands cfg.aead (keysOf client ++ keysOf (cfg.e2e session.userDomain))) :
    (UploadKeepsContent cfg now server session client p ↔
      (server.tryReserveQuota cfg session.userDomain p.bytes.length).1 = false ∨
        UploadFits cfg.aead p.bytes client (cfg.e2e session.userDomain)) ∧
    (DownloadKeepsContent cfg.aead client blobId b arrives stream ↔
      DownloadFits cfg.aead b (cfg.e2e session.userDomain) client) := by
  refine ⟨upload_keeps_iff habsent hsize ideal hexp, ?_⟩
  have hswap : ∀ key ∈ keysOf (cfg.e2e session.userDomain) ++ keysOf client,
      key ∈ keysOf client ++ keysOf (cfg.e2e session.userDomain) := by
    intro key hkey
    rw [List.mem_append] at hkey ⊢
    exact hkey.symm
  exact download_keeps_iff hholding.answered hstream (ideal.mono hswap)
    fun key hkey => hexp key (hswap key hkey)

/-- A server without keys, a client with one, and a peer without any that holds
the byte 7. -/
def unkeyedServer : Config := { Config.default with aead := .tagged }

def keyedClient : Option E2EKeys := some { newest := [1], older := [] }

def unkeyedPeer (_request : Nat) (msg : FileGet) : List Frame :=
  [toFrame (fun _ => []) (servePeer .tagged none (fun _ => some [7]) msg)]

def keyedPush : PushEntry where
  entry := { path := "a", blobId := "x", mode := 0o644, size := 1, mtimeNs := 0 }
  requester := "acme/m1/a"
  bytes := [7]

/-- What is uploaded is not kept, and what is downloaded does not open. -/
theorem transfer_exact_iff_keyed_client :
    ¬ UploadKeepsContent unkeyedServer 0 .empty ⟨"acme", "m1", "127.0.0.1:9", none⟩ keyedClient
        keyedPush ∧
      DownloadKeepsContent .tagged keyedClient "x" [7] unkeyedPeer [] := by
  have hholding : Holding unkeyedServer "acme" "x" [7] (fun _ => []) unkeyedPeer := by
    intro request idx
    refine ⟨[], _, [], rfl, .peer (fun _ => some [7]) rfl, ?_, ?_⟩
    all_goals
      intro other h
      cases h
  have hideal : Aead.tagged.Ideal (keysOf keyedClient ++ keysOf (unkeyedServer.e2e "acme")) := by
    refine Aead.tagged_ideal fun key hkey key' hkey' _ => ?_
    rw [List.mem_singleton.mp hkey, List.mem_singleton.mp hkey']
  have hexp : Expands Aead.tagged (keysOf keyedClient ++ keysOf (unkeyedServer.e2e "acme")) := by
    intro key _ nonce msg
    simp [Aead.tagged, Aead.length_tag]
  have h := transfer_exact_iff unkeyedServer 0 .empty ⟨"acme", "m1", "127.0.0.1:9", none⟩
    keyedClient keyedPush "x" [7] (fun _ => []) unkeyedPeer [] rfl (by decide) hholding
    (fun other h => by cases h) hideal hexp
  have hunread : E2EKeys.decrypt .tagged ⟨[1], []⟩ (Sparse.slice chunkSize [7] 0) 0 = none := by
    decide +kernel
  refine ⟨fun hkeeps => ?_, h.2.mpr hunread⟩
  rcases h.1.mp hkeeps with hrefused | hfits
  · exact absurd hrefused (by decide +kernel)
  · exact hfits

/-- The ciphertext of the byte is stored in its place. -/
theorem ciphertext_is_stored :
    ¬ UploadKeepsContent unkeyedServer 0 .empty ⟨"acme", "m1", "127.0.0.1:9", none⟩ keyedClient
      keyedPush := by
  rintro (hstored | ⟨-, hnone⟩)
  · exact absurd hstored (by decide +kernel)
  · exact absurd hnone (by decide +kernel)

end Nsmt.System
