import Nsmt.Server.Session

/-!
# One chunk of an upload

What `handle_chunk` and the completion behind it do to the flags of an upload
and to its temporary file, whatever that file holds. `chunkIndex` is the index
a payload carries; `handleChunk_cases` says all that can happen.
-/

namespace Nsmt.Server

open Nsmt.Lib Nsmt.Core

theorem chunkSize_pos : 0 < chunkSize := by decide

def chunksOf (b : Bytes) : Nat := Sparse.chunkCount chunkSize b.length

theorem lt_chunksOf : i < chunksOf b ↔ i * chunkSize < b.length := Sparse.lt_chunkCount chunkSize_pos

theorem chunksOf_pos (hb : b ≠ []) : 0 < chunksOf b :=
  (Sparse.chunkCount_pos chunkSize_pos).mpr (List.length_pos_iff.mpr hb)

theorem chunksOf_le (b : Bytes) : chunksOf b ≤ b.length := by
  rcases Nat.eq_zero_or_pos (chunksOf b) with hzero | hpos
  · omega
  · have hlast : chunksOf b - 1 < chunksOf b := by omega
    have hmul := lt_chunksOf.mp hlast
    have hle := Nat.le_mul_of_pos_right (chunksOf b - 1) chunkSize_pos
    omega

def chunkIndex (payload : Bytes) : Option Nat :=
  if payload.length < 4 then none else some (ofLe (payload.take 4))

/-- A payload that does not harm an upload of `b`: too short, out of range, or
the right slice of `b` once it is decrypted. -/
def ValidChunk (cfg : Config) (domain : String) (b payload : Bytes) : Prop :=
  ∀ idx, chunkIndex payload = some idx → idx < chunksOf b →
    openChunk cfg.aead (cfg.e2e domain) (payload.drop 4) idx = some (Sparse.slice chunkSize b idx)

/-- The chunk frame of a client carries its index, as long as that is a `u32`. -/
theorem chunkIndex_chunkPayload (aead : Aead) (e2e : Option E2EKeys) (data : Bytes) (idx : Nat) :
    chunkIndex (chunkPayload aead e2e data idx) = some (idx % 2 ^ 32) := by
  rw [chunkIndex, chunkPayload, if_neg (by simp), List.take_left' (length_le 4 idx), ofLe_le,
    show 256 ^ 4 = 2 ^ 32 from rfl]

theorem openChunk_chunkPayload (aead : Aead) (e2e : Option E2EKeys) (data : Bytes) (idx : Nat) :
    openChunk aead e2e ((chunkPayload aead e2e data idx).drop 4) idx = some data := by
  rw [chunkPayload, List.drop_left' (length_le 4 idx), openChunk_sealChunk]

instance (cfg : Config) (domain : String) (b payload : Bytes) :
    Decidable (ValidChunk cfg domain b payload) :=
  match h : chunkIndex payload with
  | none => isTrue fun idx hidx => by rw [h] at hidx; cases hidx
  | some idx =>
    decidable_of_iff (idx < chunksOf b → openChunk cfg.aead (cfg.e2e domain) (payload.drop 4) idx =
        some (Sparse.slice chunkSize b idx))
      ⟨fun hv idx' hidx' => by rw [h] at hidx'; exact Option.some.inj hidx' ▸ hv,
        fun hv => hv idx h⟩

/-- The chunks an upload has flags for. -/
def PendingUpload.has (pu : PendingUpload) : Set Nat := { i | pu.received[i]? = some true }

namespace PendingUpload

theorem received_of_lt (pu : PendingUpload) (h : i < pu.totalChunks) (hi : i ∉ pu.has) :
    pu.received[i]? = some false := by
  have hlt : i < pu.received.length := by rw [pu.length_received]; exact h
  have hsome := List.getElem?_eq_getElem hlt
  cases hb : pu.received[i] with
  | false => rw [hsome, hb]
  | true => exact absurd (by rw [has, Set.mem_ofPred_eq, hsome, hb]) hi

theorem not_mem_has (pu : PendingUpload) (h : pu.received[i]? = some false) :
    i < pu.totalChunks ∧ i ∉ pu.has := by
  constructor
  · rw [← pu.length_received]
    exact (List.getElem?_eq_some_iff.mp h).1
  · simp [has, h]

@[simp] theorem has_mark (pu : PendingUpload) (h : pu.received[i]? = some false) :
    (pu.mark i h).has = insert i pu.has := by
  have hlt := (List.getElem?_eq_some_iff.mp h).1
  ext j
  by_cases hj : j = i
  · subst hj
    simp [has, mark, hlt]
  · simp [has, mark, Ne.symm hj, hj]

theorem has_newUpload (msg : FilePut) : (Session.newUpload msg).has = ∅ := by
  ext i
  simp [has, Session.newUpload, List.getElem?_replicate]

theorem full_iff (pu : PendingUpload) :
    pu.receivedCount = pu.totalChunks ↔ ∀ i < pu.totalChunks, i ∈ pu.has := by
  rw [pu.count_received, ← pu.length_received, List.count_eq_length]
  constructor
  · intro h i hi
    have hb := h _ (List.getElem_mem hi)
    simp [has, List.getElem?_eq_getElem hi, ← hb]
  · intro h b hb
    obtain ⟨i, hi, rfl⟩ := List.getElem_of_mem hb
    have hi' := h i hi
    rw [has, Set.mem_ofPred_eq, List.getElem?_eq_getElem hi] at hi'
    exact (Option.some.inj hi').symm

@[simp] theorem mark_blobId (pu : PendingUpload) (h : pu.received[i]? = some false) :
    (pu.mark i h).blobId = pu.blobId := rfl

@[simp] theorem mark_totalChunks (pu : PendingUpload) (h : pu.received[i]? = some false) :
    (pu.mark i h).totalChunks = pu.totalChunks := rfl

@[simp] theorem mark_tempPath (pu : PendingUpload) (h : pu.received[i]? = some false) :
    (pu.mark i h).tempPath = pu.tempPath := rfl

@[simp] theorem mark_size (pu : PendingUpload) (h : pu.received[i]? = some false) :
    (pu.mark i h).size = pu.size := rfl

end PendingUpload

/-- A payload is passed over, fails to decrypt, or writes the chunk it carries
into the temporary file. -/
theorem handleChunk_cases (cfg : Config) (fs : ServerFs) (pu : PendingUpload) (payload : Bytes)
    (domain : String) :
    ((∀ idx, chunkIndex payload = some idx → idx < pu.totalChunks → idx ∈ pu.has) ∧
      handleChunk cfg fs pu payload domain = some (fs, pu)) ∨
    (∃ idx, chunkIndex payload = some idx ∧ pu.received[idx]? = some false ∧
      openChunk cfg.aead (cfg.e2e domain) (payload.drop 4) idx = none ∧
      handleChunk cfg fs pu payload domain = none) ∨
    (∃ idx data, ∃ h : pu.received[idx]? = some false, chunkIndex payload = some idx ∧
      openChunk cfg.aead (cfg.e2e domain) (payload.drop 4) idx = some data ∧
      handleChunk cfg fs pu payload domain =
        some (fs.writeTemp pu.tempPath
          (Sparse.writeAt ((fs.tmp pu.tempPath).getD []) (idx * chunkSize) data), pu.mark idx h)) := by
  unfold handleChunk chunkIndex
  by_cases hshort : payload.length < 4
  · exact .inl (by simp [hshort])
  simp only [if_neg hshort]
  by_cases hfresh : pu.received[ofLe (payload.take 4)]? = some false
  · simp only [dif_pos hfresh]
    cases hopen : openChunk cfg.aead (cfg.e2e domain) (payload.drop 4) (ofLe (payload.take 4)) with
    | none => exact .inr (.inl ⟨_, rfl, hfresh, hopen, rfl⟩)
    | some data => exact .inr (.inr ⟨_, data, hfresh, rfl, hopen, rfl⟩)
  · refine .inl ⟨?_, by simp only [dif_neg hfresh]⟩
    intro idx hidx hlt
    obtain rfl := Option.some.inj hidx
    by_contra hnot
    exact hfresh (pu.received_of_lt hlt hnot)

/-- A valid payload in an upload of `b` is passed over, or it carries a slice of
`b` that has not been received. -/
theorem ValidChunk.cases (hv : ValidChunk cfg domain b payload) {pu : PendingUpload}
    (hn : pu.totalChunks = chunksOf b) :
    (∀ idx, chunkIndex payload = some idx → idx < pu.totalChunks → idx ∈ pu.has) ∨
    ∃ idx, pu.received[idx]? = some false ∧ chunkIndex payload = some idx ∧
      idx * chunkSize < b.length ∧
      openChunk cfg.aead (cfg.e2e domain) (payload.drop 4) idx = some (Sparse.slice chunkSize b idx) := by
  by_cases hskip : ∀ idx, chunkIndex payload = some idx → idx < pu.totalChunks → idx ∈ pu.has
  · exact .inl hskip
  · push Not at hskip
    obtain ⟨idx, hidx, hlt, hnot⟩ := hskip
    exact .inr ⟨idx, pu.received_of_lt hlt hnot, hidx, lt_chunksOf.mp (hn ▸ hlt), hv idx hidx (hn ▸ hlt)⟩

-- ---------------------------------------------------------------------------
-- The turn of a `FILE_PUT` within the quota
-- ---------------------------------------------------------------------------

/-- The acknowledgement of an accepted `FILE_PUT`. -/
def putAccepted (blobId : String) : Effect :=
  .send (.filePutAck { blobId, have_ := [], completed := false })

/-- The upload is reserved, starts anew and is acknowledged. -/
def uploadAccepted (server : ServerState) (session : Session) (msg : FilePut) : Reaction where
  server :=
    { server with
      usageBytes := Function.update server.usageBytes session.userDomain
        (server.usageBytes session.userDomain + msg.size) }.setStore session.userDomain
      ((server.store session.userDomain).removeTemp msg.blobId)
  turn := .ready { session with pendingUpload := some (Session.newUpload msg) }
  effects := [putAccepted msg.blobId]

theorem onFilePut_reserved {server : ServerState} (session : Session)
    (hquota : server.usageBytes session.userDomain + msg.size ≤ cfg.quotaFor session.userDomain)
    (hwrap : server.usageBytes session.userDomain + msg.size < 2 ^ 64)
    (hn : msg.totalChunks ≤ isizeMax) :
    session.onFilePut cfg server msg = uploadAccepted server session msg := by
  simp only [Session.onFilePut, ServerState.tryReserveQuota, Nat.mod_eq_of_lt hwrap,
    if_neg (Nat.not_lt.mpr hquota), if_neg (Nat.not_lt.mpr hn)]
  rfl

/-- A limit is a `u64`, so within it nothing wraps. -/
theorem onFilePut_accepted {server : ServerState} (session : Session)
    (hquota : server.usageBytes session.userDomain + msg.size ≤ cfg.quotaFor session.userDomain)
    (hlimit : cfg.quotaFor session.userDomain < 2 ^ 64) (hn : msg.totalChunks ≤ isizeMax) :
    session.onFilePut cfg server msg = uploadAccepted server session msg :=
  onFilePut_reserved session hquota (Nat.lt_of_le_of_lt hquota hlimit) hn

theorem onFilePut_acknowledged {session : Session}
    (h : (session.onFilePut cfg server msg).effects = [putAccepted msg.blobId]) :
    (session.onFilePut cfg server msg).turn =
        .ready { session with pendingUpload := some (Session.newUpload msg) } ∧
      (session.onFilePut cfg server msg).server.store session.userDomain =
        (server.store session.userDomain).removeTemp msg.blobId := by
  have hstore := congrFun (ServerState.tryReserveQuota_store cfg server session.userDomain msg.size)
    session.userDomain
  revert h
  unfold Session.onFilePut
  split
  · intro h
    simp [Session.stay, putAccepted] at h
  · rename_i server' hq
    rw [hq] at hstore
    simp only
    split
    · intro h
      cases h
    · intro _
      refine ⟨rfl, ?_⟩
      simp only [Session.stay]
      rw [← hstore, ServerState.store_setStore]
      rfl

-- ---------------------------------------------------------------------------
-- The turn of a chunk that has not been received yet
-- ---------------------------------------------------------------------------

section
variable (server : ServerState) (session : Session) (pu : PendingUpload) (file : Bytes)

/-- The chunk is written and others are missing. -/
def chunkWritten : Reaction where
  server := server.setStore session.userDomain ((session.fs server).writeTemp pu.blobId file)
  turn := .ready { session with pendingUpload := some pu }
  effects := []

/-- The chunk was the last one. -/
def uploadFinished : Reaction where
  server := (server.setStore session.userDomain
      (((session.fs server).putObject pu.blobId file).removeTemp pu.blobId)).recordObjectOwner
    session.userDomain pu.blobId session.machineId
  turn := .ready { session with pendingUpload := none }
  effects :=
    [.putObject pu.blobId file,
      .send (.filePutAck
        { blobId := pu.blobId, have_ := List.range pu.totalChunks, completed := true })]

end

section
variable {server : ServerState} {session : Session} {pu : PendingUpload} {file : Bytes}

theorem chunkWritten_objects :
    ((chunkWritten server session pu file).server.store session.userDomain).objects =
      (server.store session.userDomain).objects := by
  rw [chunkWritten, ServerState.store_setStore]
  rfl

theorem chunkWritten_temp :
    ((chunkWritten server session pu file).server.store session.userDomain).tmp pu.blobId =
      some file := by
  rw [chunkWritten, ServerState.store_setStore, ServerFs.writeTemp_tmp_self]

theorem uploadFinished_object :
    ((uploadFinished server session pu file).server.store session.userDomain).objects pu.blobId =
      some (((server.store session.userDomain).objects pu.blobId).getD file) := by
  rw [uploadFinished, ServerState.recordObjectOwner_store, ServerState.store_setStore,
    ServerFs.removeTemp_objects, ServerFs.putObject_self]
  rfl

theorem uploadFinished_absent (h : (server.store session.userDomain).objects pu.blobId = none) :
    ((uploadFinished server session pu file).server.store session.userDomain).objects pu.blobId =
      some file := by
  rw [uploadFinished_object, h, Option.getD_none]

theorem uploadFinished_present (h : (server.store session.userDomain).objects blobId = some old) :
    ((uploadFinished server session pu file).server.store session.userDomain).objects blobId =
      some old := by
  rw [uploadFinished, ServerState.recordObjectOwner_store, ServerState.store_setStore,
    ServerFs.removeTemp_objects]
  exact ServerFs.putObject_mono _ _ _ h

theorem uploadFinished_temp :
    ((uploadFinished server session pu file).server.store session.userDomain).tmp pu.blobId =
      none := by
  rw [uploadFinished, ServerState.recordObjectOwner_store, ServerState.store_setStore,
    ServerFs.removeTemp_tmp_self]

end

theorem putObject_writeTemp_removeTemp (fs : ServerFs) (blobId : String) (file : Bytes) :
    ((fs.writeTemp tempPath file).putObject blobId bytes).removeTemp tempPath =
      (fs.putObject blobId bytes).removeTemp tempPath := by
  simp only [ServerFs.removeTemp, ServerFs.putObject_tmp, ServerFs.putObject_trees]
  cases h : fs.objects blobId with
  | none => simp [ServerFs.putObject, ServerFs.writeTemp, h]
  | some old => simp [ServerFs.putObject, ServerFs.writeTemp, h]

theorem setStore_setStore (server : ServerState) (domain : String) (fs fs' : ServerFs) :
    (server.setStore domain fs).setStore domain fs' = server.setStore domain fs' := by
  simp [ServerState.setStore]

theorem setStore_store (server : ServerState) (domain : String) :
    server.setStore domain (server.store domain) = server := by
  simp [ServerState.setStore, ServerState.store]

theorem onFileChunk_skip (server : ServerState) (session : Session)
    (hp : session.pendingUpload = some pu) (hfull : pu.receivedCount ≠ pu.totalChunks)
    (hskip : ∀ idx, chunkIndex payload = some idx → idx < pu.totalChunks → idx ∈ pu.has) :
    session.onFileChunk cfg server payload = session.stay server [] := by
  have hh : handleChunk cfg (session.fs server) pu payload session.userDomain =
      some (session.fs server, pu) := by
    rcases handleChunk_cases cfg (session.fs server) pu payload session.userDomain with
      ⟨-, hh⟩ | ⟨idx, hidx, hf, -, -⟩ | ⟨idx, _, hf, hidx, -, -⟩
    · exact hh
    all_goals
      obtain ⟨hlt, hnot⟩ := pu.not_mem_has hf
      exact absurd (hskip idx hidx hlt) hnot
  have hsession : { session with pendingUpload := some pu } = session := by rw [← hp]
  simp only [Session.onFileChunk, hp, hh, if_neg hfull, hsession]
  rw [Session.fs, setStore_store]

theorem onFileChunk_fresh (server : ServerState) (session : Session)
    (hp : session.pendingUpload = some pu) (hf : pu.received[k]? = some false)
    (hidx : chunkIndex payload = some k)
    (hopen : openChunk cfg.aead (cfg.e2e session.userDomain) (payload.drop 4) k = some data)
    (hfile : Sparse.writeAt (((server.store session.userDomain).tmp pu.blobId).getD [])
      (k * chunkSize) data = file) :
    session.onFileChunk cfg server payload =
      if (pu.mark k hf).receivedCount = (pu.mark k hf).totalChunks then
        uploadFinished server session (pu.mark k hf) file
      else chunkWritten server session (pu.mark k hf) file := by
  have htemp : pu.tempPath = pu.blobId := pu.tempPath_eq
  have hh : handleChunk cfg (session.fs server) pu payload session.userDomain =
      some ((session.fs server).writeTemp pu.blobId file, pu.mark k hf) := by
    rcases handleChunk_cases cfg (session.fs server) pu payload session.userDomain with
      ⟨hskip, -⟩ | ⟨idx, hidx', -, hnone, -⟩ | ⟨idx, data', hf', hidx', hopen', hh⟩
    · obtain ⟨hlt, hnot⟩ := pu.not_mem_has hf
      exact absurd (hskip k hidx hlt) hnot
    · rw [hidx] at hidx'
      obtain rfl := Option.some.inj hidx'
      rw [hopen] at hnone
      cases hnone
    · rw [hidx] at hidx'
      obtain rfl := Option.some.inj hidx'
      rw [hopen] at hopen'
      obtain rfl := Option.some.inj hopen'
      rw [hh, htemp]
      exact congrArg (fun f => some ((session.fs server).writeTemp pu.blobId f, pu.mark k hf)) hfile
  simp only [Session.onFileChunk, hp, hh]
  by_cases hfull : (pu.mark k hf).receivedCount = (pu.mark k hf).totalChunks
  · rw [if_pos hfull, if_pos hfull]
    simp only [Session.complete, uploadFinished, Session.fs, ServerState.store_setStore,
      setStore_setStore, PendingUpload.mark_blobId, PendingUpload.mark_tempPath, htemp,
      ServerFs.writeTemp_tmp_self, putObject_writeTemp_removeTemp]
  · rw [if_neg hfull, if_neg hfull]
    rfl

/-- A chunk of `b` that was missing: either others still are, and the temporary
file holds one more, or the file is `b`. -/
theorem onFileChunk_assembles (server : ServerState) (session : Session)
    (hp : session.pendingUpload = some pu) (hn : pu.totalChunks = chunksOf b)
    (hholds : Sparse.Holds chunkSize b pu.has
      (((server.store session.userDomain).tmp pu.blobId).getD []))
    (hf : pu.received[k]? = some false) (hidx : chunkIndex payload = some k)
    (hopen : openChunk cfg.aead (cfg.e2e session.userDomain) (payload.drop 4) k =
      some (Sparse.slice chunkSize b k)) :
    ((∀ j < chunksOf b, j ∈ (pu.mark k hf).has) ∧
      session.onFileChunk cfg server payload = uploadFinished server session (pu.mark k hf) b) ∨
    (¬ ∀ j < chunksOf b, j ∈ (pu.mark k hf).has) ∧ ∃ file,
      Sparse.Holds chunkSize b (pu.mark k hf).has file ∧
        session.onFileChunk cfg server payload = chunkWritten server session (pu.mark k hf) file := by
  have hlt := lt_chunksOf.mp (hn ▸ (pu.not_mem_has hf).1)
  have hwritten := hholds.writeAt chunkSize_pos hlt
  rw [← pu.has_mark hf] at hwritten
  generalize hfile : (Sparse.writeAt _ _ _ : Bytes) = file at hwritten
  have hfull := (pu.mark k hf).full_iff
  rw [PendingUpload.mark_totalChunks, hn] at hfull
  rw [onFileChunk_fresh server session hp hf hidx hopen hfile, PendingUpload.mark_totalChunks, hn]
  by_cases hall : ∀ j < chunksOf b, j ∈ (pu.mark k hf).has
  · obtain rfl := hwritten.eq_of_all fun j hj => hall j (lt_chunksOf.mpr hj)
    exact .inl ⟨hall, if_pos (hfull.mpr hall)⟩
  · exact .inr ⟨hall, file, hwritten, if_neg (hfull.not.mpr hall)⟩

end Nsmt.Server
