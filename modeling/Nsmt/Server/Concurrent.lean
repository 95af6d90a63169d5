import Nsmt.Lib.Runs
import Nsmt.Server.Chunks

/-!
# Any number of sessions

The server as its sessions drive it, one frame at a time: `Sessions.step` hands
a frame to one session and logs what the turn did. `handle_untouched` is the
frame rule of the store: a turn that does not work on the temporary file of a
blob leaves that file and the object of that name as they are.
-/

namespace Nsmt.Server

open Nsmt.Lib Nsmt.Core

structure Event (ι : Type) where
  session : ι
  now : Nat
  frame : ClientFrame

/-- `log` records every effect with the session that caused it. -/
structure Sessions (ι : Type) where
  server : ServerState
  turn : ι → Turn
  log : List (ι × Effect)

namespace Sessions

variable {ι : Type} [DecidableEq ι]

def step (cfg : Config) (sys : Sessions ι) (e : Event ι) : Sessions ι :=
  let r := (sys.turn e.session).handle cfg e.now sys.server e.frame
  { server := r.server
    turn := Function.update sys.turn e.session r.turn
    log := sys.log ++ r.effects.map fun effect => (e.session, effect) }

def logOf (sys : Sessions ι) (i : ι) : List Effect :=
  (sys.log.filter fun entry => entry.1 = i).map Prod.snd

theorem step_logOf (cfg : Config) (sys : Sessions ι) (e : Event ι) (i : ι) :
    (sys.step cfg e).logOf i = sys.logOf i ++
      if e.session = i then ((sys.turn i).handle cfg e.now sys.server e.frame).effects else [] := by
  have hfilter (effects : List Effect) :
      ((effects.map fun effect => (e.session, effect)).filter fun entry => entry.1 = i).map Prod.snd =
        if e.session = i then effects else [] := by
    by_cases hi : e.session = i
    · simp [hi, List.filter_map, Function.comp_def]
    · simp [hi, List.filter_map, Function.comp_def]
  simp only [logOf, step, List.filter_append, List.map_append, hfilter]
  by_cases hi : e.session = i
  · simp [hi]
  · simp [hi]

theorem step_server (cfg : Config) (sys : Sessions ι) (e : Event ι) :
    (sys.step cfg e).server =
      ((sys.turn e.session).handle cfg e.now sys.server e.frame).server := rfl

theorem step_turn_self (cfg : Config) (sys : Sessions ι) (e : Event ι) :
    (sys.step cfg e).turn e.session =
      ((sys.turn e.session).handle cfg e.now sys.server e.frame).turn := Function.update_self ..

theorem step_turn_ne (cfg : Config) (sys : Sessions ι) {e : Event ι} (h : i ≠ e.session) :
    (sys.step cfg e).turn i = sys.turn i := Function.update_of_ne h ..

end Sessions

-- ---------------------------------------------------------------------------
-- What a turn does to the stores
-- ---------------------------------------------------------------------------

/-- All that a turn can do to the store of its tenant and to the session. -/
inductive StoreStep (cfg : Config) (session : Session) (fs : ServerFs) :
    ClientFrame → ServerFs → Turn → Prop
  | quiet : StoreStep cfg session fs frame fs (.ready session)
  | ended : turn = .failed ∨ turn = .panicked → StoreStep cfg session fs frame fs turn
  | saveTree (tree : FileTree) :
    StoreStep cfg session fs (.fileTree tree)
      (fs.saveTree { tree with treeHash := treeHash cfg.sha256 tree }) (.ready session)
  | filePut (msg : FilePut) :
    turn = .panicked ∨ turn = .ready { session with pendingUpload := some (Session.newUpload msg) } →
    StoreStep cfg session fs (.filePut msg) (fs.removeTemp (tempPathFor msg.blobId)) turn
  | chunk :
    session.pendingUpload = some pu →
    handleChunk cfg fs pu payload session.userDomain = some (fs', pu') →
    pu'.receivedCount ≠ pu'.totalChunks →
    StoreStep cfg session fs (.fileChunk payload) fs' (.ready { session with pendingUpload := some pu' })
  | completed :
    session.pendingUpload = some pu →
    handleChunk cfg fs pu payload session.userDomain = some (fs', pu') →
    pu'.receivedCount = pu'.totalChunks → fs'.tmp pu'.tempPath = some bytes →
    StoreStep cfg session fs (.fileChunk payload)
      ((fs'.putObject pu'.blobId bytes).removeTemp pu'.tempPath)
      (.ready { session with pendingUpload := none })
  | lost :
    session.pendingUpload = some pu →
    handleChunk cfg fs pu payload session.userDomain = some (fs', pu') →
    pu'.receivedCount = pu'.totalChunks → fs'.tmp pu'.tempPath = none →
    StoreStep cfg session fs (.fileChunk payload) fs' .failed

theorem setStore_fs_ne (server : ServerState) (fs : ServerFs) (h : dir ≠ sanitize domain) :
    (server.setStore domain fs).fs dir = server.fs dir := Function.update_of_ne h ..

theorem setStore_fs_self (server : ServerState) (domain : String) (fs : ServerFs) :
    (server.setStore domain fs).fs (sanitize domain) = fs := Function.update_self ..

theorem tryReserveQuota_fs (cfg : Config) (server : ServerState) (domain : String) (size : Nat) :
    (server.tryReserveQuota cfg domain size).2.fs = server.fs := by
  simp only [ServerState.tryReserveQuota]
  split <;> rfl

theorem complete_store (cfg : Config) {session : Session} {server : ServerState}
    (hp : session.pendingUpload = some pu)
    (hh : handleChunk cfg (session.fs server) pu payload session.userDomain = some (fs', pu'))
    (hfull : pu'.receivedCount = pu'.totalChunks) :
    let r := Session.complete (server.setStore session.userDomain fs')
      { session with pendingUpload := some pu' } pu'
    StoreStep cfg session (session.fs server) (.fileChunk payload)
        (r.server.fs (sanitize session.userDomain)) r.turn ∧
      ∀ dir ≠ sanitize session.userDomain, r.server.fs dir = server.fs dir := by
  simp only [Session.complete, Session.fs, ServerState.store_setStore]
  cases ht : fs'.tmp pu'.tempPath with
  | none =>
    refine ⟨?_, fun dir hdir => setStore_fs_ne _ _ hdir⟩
    simp only [setStore_fs_self]
    exact .lost hp hh hfull ht
  | some bytes =>
    refine ⟨?_, fun dir hdir => ?_⟩
    · simp only [ServerState.recordObjectOwner, setStore_fs_self]
      exact .completed hp hh hfull ht
    · simp only [ServerState.recordObjectOwner, setStore_fs_ne _ _ hdir]

theorem onFileChunk_store (cfg : Config) (server : ServerState) (session : Session)
    (payload : Bytes) :
    StoreStep cfg session (session.fs server) (.fileChunk payload)
        ((session.onFileChunk cfg server payload).server.fs (sanitize session.userDomain))
        (session.onFileChunk cfg server payload).turn ∧
      ∀ dir ≠ sanitize session.userDomain,
        (session.onFileChunk cfg server payload).server.fs dir = server.fs dir := by
  unfold Session.onFileChunk
  cases hp : session.pendingUpload with
  | none => exact ⟨.quiet, fun _ _ => rfl⟩
  | some pu =>
    simp only
    split
    · exact ⟨.ended (.inl rfl), fun _ _ => rfl⟩
    · rename_i fs' pu' hh
      split
      · rename_i hfull
        exact complete_store cfg hp hh hfull
      · rename_i hnot
        refine ⟨?_, fun dir hdir => setStore_fs_ne _ _ hdir⟩
        simp only [Session.stay, setStore_fs_self]
        exact .chunk hp hh hnot

theorem onFilePut_store (cfg : Config) (server : ServerState) (session : Session) (msg : FilePut) :
    StoreStep cfg session (session.fs server) (.filePut msg)
        ((session.onFilePut cfg server msg).server.fs (sanitize session.userDomain))
        (session.onFilePut cfg server msg).turn ∧
      ∀ dir ≠ sanitize session.userDomain,
        (session.onFilePut cfg server msg).server.fs dir = server.fs dir := by
  have hfs := tryReserveQuota_fs cfg server session.userDomain msg.size
  unfold Session.onFilePut
  split
  · rename_i server' hq
    replace hfs : server'.fs = server.fs := by rw [hq] at hfs; exact hfs
    refine ⟨?_, fun dir _ => congrFun hfs dir⟩
    simp only [Session.stay, hfs]
    exact .quiet
  · rename_i server' hq
    replace hfs : server'.fs = server.fs := by rw [hq] at hfs; exact hfs
    have hstore : session.fs server' = session.fs server := by
      simp only [Session.fs, ServerState.store, hfs]
    have hne (dir : String) (hdir : dir ≠ sanitize session.userDomain) :
        (server'.setStore session.userDomain
          ((session.fs server').removeTemp (tempPathFor msg.blobId))).fs dir = server.fs dir := by
      rw [setStore_fs_ne _ _ hdir, hfs]
    split
    · refine ⟨?_, hne⟩
      simp only [setStore_fs_self, hstore]
      exact .filePut msg (.inl rfl)
    · refine ⟨?_, hne⟩
      simp only [Session.stay, setStore_fs_self, hstore]
      exact .filePut msg (.inr rfl)

/-- A turn changes no store but its tenant's, and that one by a `StoreStep`. -/
theorem handle_store (cfg : Config) (now : Nat) (server : ServerState) (session : Session)
    (frame : ClientFrame) :
    StoreStep cfg session (session.fs server) frame
        ((session.handle cfg now server frame).server.fs (sanitize session.userDomain))
        (session.handle cfg now server frame).turn ∧
      ∀ dir ≠ sanitize session.userDomain,
        (session.handle cfg now server frame).server.fs dir = server.fs dir := by
  cases frame with
  | fileChunk payload => exact onFileChunk_store cfg server session payload
  | filePut msg => exact onFilePut_store cfg server session msg
  | fileTree tree =>
    simp only [Session.handle, Session.onFileTree]
    split
    · refine ⟨?_, fun dir hdir => setStore_fs_ne _ _ hdir⟩
      simp only [Session.stay, setStore_fs_self]
      exact .saveTree tree
    · exact ⟨.ended (.inr rfl), fun _ _ => rfl⟩
  | heartbeat =>
    simp only [Session.handle, Session.stay, ServerState.heartbeat]
    split <;> exact ⟨.quiet, fun _ _ => rfl⟩
  | fileDiff msg =>
    simp only [Session.handle, Session.onFileDiff]
    split
    · exact ⟨.quiet, fun _ _ => rfl⟩
    · exact ⟨.ended (.inr rfl), fun _ _ => rfl⟩
  | fileGet msg =>
    simp only [Session.handle, Session.onFileGet]
    split
    · exact ⟨.quiet, fun _ _ => rfl⟩
    · split <;> exact ⟨.quiet, fun _ _ => rfl⟩
  | lockAcquire msg =>
    simp only [Session.handle, Session.onLockAcquire]
    split <;> exact ⟨.quiet, fun _ _ => rfl⟩
  | lockRenew msg => exact ⟨.quiet, fun _ _ => rfl⟩
  | lockRelease msg => exact ⟨.quiet, fun _ _ => rfl⟩
  | malformed => exact ⟨.ended (.inl rfl), fun _ _ => rfl⟩
  | unhandled => exact ⟨.quiet, fun _ _ => rfl⟩

/-- The turn works on the temporary file of `blobId` in the store `dir`. -/
def Turn.touches (dir blobId : String) (turn : Turn) (frame : ClientFrame) : Prop :=
  ∃ session, turn = .ready session ∧ sanitize session.userDomain = dir ∧
    match frame with
    | .filePut msg => msg.blobId = blobId
    | .fileChunk _ => ∃ pu, session.pendingUpload = some pu ∧ pu.blobId = blobId
    | _ => False

/-- A chunk changes nothing but the temporary file of its own upload. -/
theorem handleChunk_other (blobId : String) {pu : PendingUpload}
    (h : handleChunk cfg fs pu payload domain = some (fs', pu')) :
    (blobId ≠ pu.blobId → fs'.tmp blobId = fs.tmp blobId) ∧ fs'.objects = fs.objects ∧
      fs'.trees = fs.trees ∧ pu'.blobId = pu.blobId := by
  rcases handleChunk_cases cfg fs pu payload domain with ⟨-, hh⟩ | ⟨idx, -, -, -, hh⟩ |
    ⟨idx, data, hf, -, -, hh⟩
  all_goals
    rw [hh] at h
    cases h
  · exact ⟨fun _ => rfl, rfl, rfl, rfl⟩
  · refine ⟨fun hb => ?_, rfl, rfl, rfl⟩
    have hne : blobId ≠ pu.tempPath := by
      rw [pu.tempPath_eq]
      exact hb
    exact ServerFs.writeTemp_tmp_ne _ _ hne

theorem handle_untouched (cfg : Config) (now : Nat) (server : ServerState) (turn : Turn)
    {frame : ClientFrame} (h : ¬ turn.touches dir blobId frame) :
    ((turn.handle cfg now server frame).server.fs dir).tmp blobId = (server.fs dir).tmp blobId ∧
      ((turn.handle cfg now server frame).server.fs dir).objects blobId =
        (server.fs dir).objects blobId := by
  cases turn with
  | failed => exact ⟨rfl, rfl⟩
  | panicked => exact ⟨rfl, rfl⟩
  | ready session =>
    obtain ⟨hstep, hother⟩ := handle_store cfg now server session frame
    by_cases hdir : dir = sanitize session.userDomain
    · subst hdir
      have htouch := fun hm => h ⟨session, rfl, rfl, hm⟩
      simp only [Turn.handle]
      generalize (session.handle cfg now server frame).server.fs (sanitize session.userDomain) = after
        at hstep
      generalize (session.handle cfg now server frame).turn = turn at hstep
      cases hstep with
      | quiet => exact ⟨rfl, rfl⟩
      | ended _ => exact ⟨rfl, rfl⟩
      | saveTree tree => exact ⟨rfl, rfl⟩
      | filePut msg _ =>
        have hne : blobId ≠ tempPathFor msg.blobId := fun heq => htouch heq.symm
        exact ⟨ServerFs.removeTemp_tmp_ne _ hne, rfl⟩
      | @chunk pu _ _ _ hp hh _ =>
        have hb : blobId ≠ pu.blobId := fun heq => htouch ⟨pu, hp, heq.symm⟩
        obtain ⟨htmp, hobj, -, -⟩ := handleChunk_other blobId hh
        exact ⟨htmp hb, congrFun hobj blobId⟩
      | @completed pu _ _ pu' bytes hp hh _ _ =>
        have hb : blobId ≠ pu.blobId := fun heq => htouch ⟨pu, hp, heq.symm⟩
        obtain ⟨htmp, hobj, -, hid⟩ := handleChunk_other blobId hh
        have hne : blobId ≠ pu'.tempPath := by
          rw [pu'.tempPath_eq, hid]
          exact hb
        refine ⟨?_, ?_⟩
        · rw [ServerFs.removeTemp_tmp_ne _ hne, ServerFs.putObject_tmp]
          exact htmp hb
        · rw [ServerFs.removeTemp_objects, ServerFs.putObject_ne _ bytes (hid ▸ hb)]
          exact congrFun hobj blobId
      | @lost pu _ _ _ hp hh _ _ =>
        have hb : blobId ≠ pu.blobId := fun heq => htouch ⟨pu, hp, heq.symm⟩
        obtain ⟨htmp, hobj, -, -⟩ := handleChunk_other blobId hh
        exact ⟨htmp hb, congrFun hobj blobId⟩
    · simp only [Turn.handle, hother dir hdir, and_self]

/-- Only a completed upload adds an object, and it is the upload's own. -/
theorem StoreStep.objects (h : StoreStep cfg session fs frame fs' turn)
    (hnew : fs'.objects blobId = some bytes) (hold : fs.objects blobId ≠ some bytes) :
    ∃ payload pu mid pu', frame = .fileChunk payload ∧ session.pendingUpload = some pu ∧
      handleChunk cfg fs pu payload session.userDomain = some (mid, pu') ∧
      pu'.receivedCount = pu'.totalChunks ∧ mid.tmp pu'.tempPath = some bytes ∧
      blobId = pu.blobId := by
  cases h with
  | quiet => exact absurd hnew hold
  | ended _ => exact absurd hnew hold
  | saveTree tree => exact absurd hnew hold
  | filePut msg _ => exact absurd hnew hold
  | chunk hp hh _ =>
    rw [(handleChunk_other blobId hh).2.1] at hnew
    exact absurd hnew hold
  | @completed pu payload mid pu' file hp hh hfull htmp =>
    obtain ⟨-, hobj, -, hid⟩ := handleChunk_other blobId hh
    rw [ServerFs.removeTemp_objects] at hnew
    by_cases hb : blobId = pu'.blobId
    · subst hb
      rw [ServerFs.putObject_self, hobj, Option.some.injEq] at hnew
      cases hfs : fs.objects pu'.blobId with
      | none =>
        rw [hfs, Option.getD_none] at hnew
        subst hnew
        exact ⟨payload, pu, mid, pu', rfl, hp, hh, hfull, htmp, hid⟩
      | some old =>
        rw [hfs, Option.getD_some] at hnew
        exact absurd (hnew ▸ hfs) hold
    · rw [ServerFs.putObject_ne _ file hb, hobj] at hnew
      exact absurd hnew hold
  | lost hp hh _ _ =>
    rw [(handleChunk_other blobId hh).2.1] at hnew
    exact absurd hnew hold

/-- The upload a session has behind a turn: the one it had, a new one, or the
one it had with a chunk more. -/
theorem StoreStep.pending (h : StoreStep cfg session fs frame fs' (.ready session'))
    (hp' : session'.pendingUpload = some pu') :
    session'.userDomain = session.userDomain ∧
      ((fs'.tmp pu'.blobId = fs.tmp pu'.blobId ∧ session.pendingUpload = some pu') ∨
        (∃ msg, frame = .filePut msg ∧ pu' = Session.newUpload msg ∧ fs'.tmp pu'.blobId = none) ∨
        ∃ payload pu, frame = .fileChunk payload ∧ session.pendingUpload = some pu ∧
          handleChunk cfg fs pu payload session.userDomain = some (fs', pu')) := by
  cases h with
  | quiet => exact ⟨rfl, .inl ⟨rfl, hp'⟩⟩
  | ended hturn => simp at hturn
  | saveTree tree => exact ⟨rfl, .inl ⟨rfl, hp'⟩⟩
  | filePut msg hturn =>
    rcases hturn with hturn | hturn
    · cases hturn
    · obtain rfl := Turn.ready.inj hturn
      obtain rfl := Option.some.inj hp'
      exact ⟨rfl, .inr (.inl ⟨msg, rfl, rfl, ServerFs.removeTemp_tmp_self _ _⟩)⟩
  | chunk hp hh _ =>
    obtain rfl := Option.some.inj hp'
    exact ⟨rfl, .inr (.inr ⟨_, _, rfl, hp, hh⟩)⟩
  | completed _ _ _ _ => cases hp'

theorem StoreStep.trees (h : StoreStep cfg session fs frame fs' turn) :
    fs'.trees = fs.trees ∨ ∃ tree, frame = .fileTree tree ∧
      fs' = fs.saveTree { tree with treeHash := treeHash cfg.sha256 tree } := by
  cases h with
  | saveTree tree => exact .inr ⟨tree, rfl, rfl⟩
  | chunk _ hh _ => exact .inl (handleChunk_other "" hh).2.2.1
  | completed _ hh _ _ =>
    rw [ServerFs.removeTemp_trees, ServerFs.putObject_trees]
    exact .inl (handleChunk_other "" hh).2.2.1
  | lost _ hh _ _ => exact .inl (handleChunk_other "" hh).2.2.1
  | _ => exact .inl rfl

theorem StoreStep.mono (h : StoreStep cfg session fs frame fs' turn)
    (hb : fs.objects blobId ≠ none) : fs'.objects blobId ≠ none := by
  obtain ⟨data, hdata⟩ := Option.ne_none_iff_exists'.mp hb
  suffices hkept : fs'.objects blobId = some data by simp [hkept]
  cases h with
  | chunk _ hh _ => rw [(handleChunk_other blobId hh).2.1, hdata]
  | completed _ hh _ _ =>
    rw [ServerFs.removeTemp_objects]
    apply ServerFs.putObject_mono
    rw [(handleChunk_other blobId hh).2.1, hdata]
  | lost _ hh _ _ => rw [(handleChunk_other blobId hh).2.1, hdata]
  | _ => exact hdata

theorem StoreStep.domain (h : StoreStep cfg session fs frame fs' (.ready session')) :
    session'.userDomain = session.userDomain := by
  cases h with
  | ended hturn => simp at hturn
  | filePut msg hturn =>
    rcases hturn with hturn | hturn
    · cases hturn
    · obtain rfl := Turn.ready.inj hturn
      rfl
  | _ => rfl

/-- A chunk of a pending upload leaves the session with the upload, or stores
the object and acknowledges it. -/
theorem onFileChunk_ready {session : Session} (hp : session.pendingUpload = some pu)
    (hready : (session.onFileChunk cfg server payload).turn = .ready session') :
    (∃ pu', session'.pendingUpload = some pu' ∧ pu'.blobId = pu.blobId ∧
      (session.onFileChunk cfg server payload).effects = []) ∨
    (session'.pendingUpload = none ∧
      (((session.onFileChunk cfg server payload).server.store session.userDomain).objects
        pu.blobId ≠ none) ∧
      ∃ bytes ack, (session.onFileChunk cfg server payload).effects =
        [.putObject pu.blobId bytes, .send (.filePutAck ack)]) := by
  simp only [Session.onFileChunk, hp] at hready ⊢
  split at hready
  · cases hready
  · rename_i fs' pu' hh
    obtain ⟨-, -, -, hid⟩ := handleChunk_other "" hh
    split at hready
    · rename_i hfull
      rw [if_pos hfull]
      revert hready
      unfold Session.complete
      split
      · intro hready
        cases hready
      · intro hready
        obtain rfl := Turn.ready.inj hready
        rename_i bytes _
        refine .inr ⟨rfl, ?_, bytes, _, by rw [hid]⟩
        rw [ServerState.recordObjectOwner_store, ServerState.store_setStore,
          ServerFs.removeTemp_objects, ← hid, ServerFs.putObject_self]
        simp
    · rename_i hnot
      rw [if_neg hnot]
      obtain rfl := Turn.ready.inj hready
      exact .inl ⟨pu', rfl, hid, rfl⟩

theorem handle_objects (cfg : Config) (now : Nat) {server : ServerState} (session : Session)
    (frame : ClientFrame) (h : (server.fs dir).objects blobId ≠ none) :
    ((session.handle cfg now server frame).server.fs dir).objects blobId ≠ none := by
  obtain ⟨hstep, hdirs⟩ := handle_store cfg now server session frame
  by_cases hdir : dir = sanitize session.userDomain
  · subst hdir
    exact hstep.mono h
  · rwa [hdirs dir hdir]

end Nsmt.Server
