import Nsmt.Lib.Totals
import Nsmt.Server.ContentAddress

/-!
# Quota usage and what is stored

`try_reserve_quota` adds the declared size of every `FILE_PUT` to the counter of
the tenant, and nothing is ever taken off it: not for an object that is stored
already, not for an upload that is replaced or given up. `usage_exact` says that
without these the counter is what is stored and being uploaded.
-/

namespace Nsmt.Server

open Nsmt.Lib Nsmt.Core

/-- The events of an upload. The clock is not read in any of them. -/
inductive UploadEvent (ι : Type)
  | put (session : ι) (msg : FilePut)
  | chunk (session : ι) (payload : Bytes)
  | disconnect (session : ι)

def storedSize (fs : ServerFs) (blobId : String) : Nat :=
  match fs.objects blobId with
  | some bytes => bytes.length
  | none => 0

def Turn.pendingSize : Turn → Nat
  | .ready session =>
    match session.pendingUpload with
    | some pu => pu.size
    | none => 0
  | .failed | .panicked => 0

theorem Truthful.empty (h : Truthful cfg content msg.blobId msg.totalChunks msg.size)
    (hfull : (Session.newUpload msg).receivedCount = (Session.newUpload msg).totalChunks) :
    (Session.newUpload msg).size = 0 := by
  have hzero : chunksOf (content msg.blobId) = 0 := h.total.symm.trans hfull.symm
  by_contra hne
  have hbytes : content msg.blobId ≠ [] := by
    intro hnil
    exact hne (h.size.trans (by rw [hnil]; rfl))
  exact absurd hzero (Nat.ne_of_gt (chunksOf_pos hbytes))

namespace Sessions

variable {ι : Type} [DecidableEq ι]

/-- A session that is disconnected reads no more frames; its upload is dropped. -/
def upload (cfg : Config) (sys : Sessions ι) : UploadEvent ι → Sessions ι
  | .put i msg => sys.step cfg { session := i, now := 0, frame := .filePut msg }
  | .chunk i payload => sys.step cfg { session := i, now := 0, frame := .fileChunk payload }
  | .disconnect i => { sys with turn := Function.update sys.turn i .failed }

/-- The counter of the tenant is the size of its objects and of the uploads in
progress. -/
def UsageExact (domain : String) (sys : Sessions ι) : Prop :=
  ∃ stored pending, Totals (storedSize (sys.server.store domain)) stored ∧
    Totals (fun i => (sys.turn i).pendingSize) pending ∧
    sys.server.usageBytes domain = stored + pending

/-- Uploads are announced as what they are, and their chunks are the right ones. -/
def HonestSizes (cfg : Config) (content : String → Bytes) (sys : Sessions ι) : UploadEvent ι → Prop
  | .put _ msg => Truthful cfg content msg.blobId msg.totalChunks msg.size
  | .chunk i payload => ∀ session pu, sys.turn i = .ready session → session.pendingUpload = some pu →
      ValidChunk cfg session.userDomain (content pu.blobId) payload
  | .disconnect _ => True

/-- Sizes are honest. A `FILE_PUT` that is accepted is for an object that is
neither stored nor being uploaded by another session, it replaces no upload, and
the counter does not wrap. No session leaves with an upload in progress. -/
def Accounted (cfg : Config) (content : String → Bytes) (sys : Sessions ι) (e : UploadEvent ι) : Prop :=
  sys.HonestSizes cfg content e ∧
    match e with
    | .put i msg => ∀ session, sys.turn i = .ready session →
        (sys.server.usageBytes session.userDomain + msg.size) % 2 ^ 64 ≤
            cfg.quotaFor session.userDomain →
          (sys.server.store session.userDomain).objects msg.blobId = none ∧
          (∀ j, j ≠ i → ¬ sys.Uploading j (sanitize session.userDomain) msg.blobId) ∧
          (∀ pu, session.pendingUpload = some pu → pu.size = 0) ∧
          sys.server.usageBytes session.userDomain + msg.size < 2 ^ 64 ∧
          msg.totalChunks ≤ isizeMax
    | .chunk _ _ => True
    | .disconnect i => ∀ session pu, sys.turn i = .ready session →
        session.pendingUpload = some pu → pu.size = 0

-- ---------------------------------------------------------------------------
-- The invariant
-- ---------------------------------------------------------------------------

/-- Objects and uploads are what they are named by, an upload in progress is not
stored yet and lacks a chunk, and the counter is exact. -/
structure Balanced (cfg : Config) (content : String → Bytes) (domain : String) (sys : Sessions ι) :
    Prop where
  addressed : Addressed cfg content sys
  tenant : ∀ i session, sys.turn i = .ready session → session.userDomain = domain
  absent : ∀ i session pu, sys.turn i = .ready session → session.pendingUpload = some pu →
    pu.size ≠ 0 → (sys.server.store domain).objects pu.blobId = none
  unfinished : ∀ i session pu, sys.turn i = .ready session → session.pendingUpload = some pu →
    pu.receivedCount = pu.totalChunks → pu.size = 0
  usage : UsageExact domain sys

section
variable {cfg : Config} {content : String → Bytes} {domain : String} {sys sys' : Sessions ι} {i : ι}
  {session : Session} {pu : PendingUpload}

omit [DecidableEq ι] in
/-- A turn of session `i` that changes no object but one, and the counter by as
much as what is stored and being uploaded. -/
theorem Balanced.change (h : Balanced cfg content domain sys) (blobId : String)
    (haddressed : Addressed cfg content sys')
    (hturn : ∀ j, j ≠ i → sys'.turn j = sys.turn j)
    (hobjects : ∀ b, b ≠ blobId →
      (sys'.server.store domain).objects b = (sys.server.store domain).objects b)
    (hblob : (sys'.server.store domain).objects blobId = (sys.server.store domain).objects blobId ∨
      ∀ j, j ≠ i → ¬ sys.Uploading j (sanitize domain) blobId)
    (htenant : ∀ session, sys'.turn i = .ready session → session.userDomain = domain)
    (hmine : ∀ session pu, sys'.turn i = .ready session → session.pendingUpload = some pu →
      (pu.size ≠ 0 → (sys'.server.store domain).objects pu.blobId = none) ∧
        (pu.receivedCount = pu.totalChunks → pu.size = 0))
    (husage : sys'.server.usageBytes domain + storedSize (sys.server.store domain) blobId +
        (sys.turn i).pendingSize =
      sys.server.usageBytes domain + storedSize (sys'.server.store domain) blobId +
        (sys'.turn i).pendingSize) : Balanced cfg content domain sys' := by
  refine ⟨haddressed, fun j session hready => ?_, fun j session pu hready hp hsize => ?_,
    fun j session pu hready hp => ?_, ?_⟩
  · by_cases hj : j = i
    · subst hj
      exact htenant session hready
    · exact h.tenant j session (hturn j hj ▸ hready)
  · by_cases hj : j = i
    · subst hj
      exact (hmine session pu hready hp).1 hsize
    · rw [hturn j hj] at hready
      have hbefore := h.absent j session pu hready hp hsize
      by_cases hb : pu.blobId = blobId
      · rcases hblob with hsame | hnobody
        · rw [hb, hsame, ← hb]
          exact hbefore
        · have hdir : sanitize session.userDomain = sanitize domain := by
            rw [h.tenant j session hready]
          exact absurd ⟨session, pu, hready, hdir, hp, hb⟩ (hnobody j hj)
      · rw [hobjects _ hb]
        exact hbefore
  · by_cases hj : j = i
    · subst hj
      exact (hmine session pu hready hp).2
    · exact h.unfinished j session pu (hturn j hj ▸ hready) hp
  · obtain ⟨stored, pending, hstored, hpending, hsum⟩ := h.usage
    obtain ⟨stored', hstored', hs⟩ := hstored.change (storedSize (sys'.server.store domain)) blobId
      fun b hb => by simp only [storedSize, hobjects b hb]
    obtain ⟨pending', hpending', hp⟩ := hpending.change (fun j => (sys'.turn j).pendingSize) i
      fun j hj => by rw [hturn j hj]
    exact ⟨stored', pending', hstored', hpending', by omega⟩

omit [DecidableEq ι] in
theorem Balanced.congr (h : Balanced cfg content domain sys) (hserver : sys'.server = sys.server)
    (hturn : sys'.turn = sys.turn) : Balanced cfg content domain sys' := by
  obtain ⟨server, turn, log⟩ := sys
  obtain ⟨server', turn', log'⟩ := sys'
  obtain rfl : server' = server := hserver
  obtain rfl : turn' = turn := hturn
  exact ⟨⟨h.addressed.object, h.addressed.pending, h.addressed.alone⟩, h.tenant, h.absent,
    h.unfinished, h.usage⟩

theorem step_ready (cfg : Config) (e : Event ι) (hready : sys.turn e.session = .ready session)
    (hr : session.handle cfg e.now sys.server e.frame = r) :
    (sys.step cfg e).server = r.server ∧
      (sys.step cfg e).turn = Function.update sys.turn e.session r.turn := by
  simp only [step, hready, Turn.handle, hr, and_self]

theorem step_ended (cfg : Config) (e : Event ι) (hended : ∀ session, sys.turn e.session ≠ .ready session) :
    (sys.step cfg e).server = sys.server ∧ (sys.step cfg e).turn = sys.turn := by
  cases hturn : sys.turn e.session with
  | ready session => exact absurd hturn (hended session)
  | failed | panicked => simp only [step, hturn, Turn.handle, Function.update_eq_self_iff, and_self]

/-- A frame that is answered and changes nothing else. -/
theorem Balanced.stay (h : Balanced cfg content domain sys) (e : Event ι)
    (hready : sys.turn e.session = .ready session)
    (hreact : session.handle cfg e.now sys.server e.frame = session.stay sys.server effects) :
    Balanced cfg content domain (sys.step cfg e) := by
  obtain ⟨hserver, hturn⟩ := step_ready cfg e hready hreact
  refine h.congr hserver (hturn.trans ?_)
  rw [Session.stay, ← hready]
  exact Function.update_eq_self e.session sys.turn

theorem pendingSize_eq_zero {turn : Turn}
    (h : ∀ session pu, turn = .ready session → session.pendingUpload = some pu → pu.size = 0) :
    turn.pendingSize = 0 := by
  cases turn with
  | ready session =>
    cases hp : session.pendingUpload with
    | none => simp only [Turn.pendingSize, hp]
    | some pu => simp only [Turn.pendingSize, hp, h session pu rfl hp]
  | failed | panicked => rfl

theorem Balanced.disconnect (h : Balanced cfg content domain sys)
    (hc : sys.Accounted cfg content (.disconnect i)) :
    Balanced cfg content domain (sys.upload cfg (.disconnect i)) := by
  have hturn (j : ι) (hj : j ≠ i) : (sys.upload cfg (.disconnect i)).turn j = sys.turn j :=
    Function.update_of_ne hj ..
  have hended (session : Session) : (sys.upload cfg (.disconnect i)).turn i ≠ .ready session := by
    simp [upload]
  refine h.change (i := i) "" ?_ hturn (fun _ _ => rfl) (.inl rfl) ?_ ?_ ?_
  · refine h.addressed.of_store hturn (fun _ _ _ => .inl) (fun _ _ _ _ _ => rfl) ?_
    exact fun session _ hready => absurd hready (hended session)
  · exact fun session hready => absurd hready (hended session)
  · exact fun session _ hready => absurd hready (hended session)
  · rw [pendingSize_eq_zero hc.2]
    simp only [upload, Function.update_self, Turn.pendingSize]

theorem Balanced.reserved (h : Balanced cfg content session.userDomain sys)
    (haddressed : Addressed cfg content sys') (hready : sys.turn i = .ready session)
    (hserver : sys'.server = (uploadAccepted sys.server session msg).server)
    (hturn : sys'.turn = Function.update sys.turn i
      (.ready { session with pendingUpload := some (Session.newUpload msg) }))
    (hhonest : Truthful cfg content msg.blobId msg.totalChunks msg.size)
    (habsent : (sys.server.store session.userDomain).objects msg.blobId = none)
    (hpending : ∀ pu, session.pendingUpload = some pu → pu.size = 0) :
    Balanced cfg content session.userDomain sys' := by
  have hobjects : (sys'.server.store session.userDomain).objects =
      (sys.server.store session.userDomain).objects := by
    rw [hserver, uploadAccepted, ServerState.store_setStore]
    rfl
  have hmine : sys'.turn i = .ready { session with pendingUpload := some (Session.newUpload msg) } := by
    rw [hturn, Function.update_self]
  refine h.change (i := i) msg.blobId haddressed (fun j hj => ?_)
    (fun b _ => by rw [hobjects]) (.inl (by rw [hobjects])) ?_ ?_ ?_
  · rw [hturn, Function.update_of_ne hj]
  · intro session' hs
    obtain rfl := Turn.ready.inj (hmine.symm.trans hs)
    rfl
  · intro session' pu hs hp
    obtain rfl := Turn.ready.inj (hmine.symm.trans hs)
    obtain rfl := Option.some.inj hp
    rw [hobjects]
    exact ⟨fun _ => habsent, hhonest.empty⟩
  · have hused : sys'.server.usageBytes session.userDomain =
        sys.server.usageBytes session.userDomain + msg.size := by
      rw [hserver, uploadAccepted, ServerState.setStore_usageBytes]
      exact Function.update_self ..
    have hstored : storedSize (sys'.server.store session.userDomain) msg.blobId =
        storedSize (sys.server.store session.userDomain) msg.blobId := by
      simp only [storedSize, hobjects]
    have hbefore : (sys.turn i).pendingSize = 0 := by
      refine pendingSize_eq_zero fun session' pu hs hp => ?_
      obtain rfl := Turn.ready.inj (hready.symm.trans hs)
      exact hpending pu hp
    rw [hused, hstored, hbefore, hmine]
    simp only [Turn.pendingSize, Session.newUpload]
    omega

theorem Balanced.put (h : Balanced cfg content domain sys)
    (hc : sys.Accounted cfg content (.put i msg)) :
    Balanced cfg content domain (sys.upload cfg (.put i msg)) := by
  cases hready : sys.turn i with
  | failed | panicked =>
    obtain ⟨hserver, hturn⟩ := step_ended cfg ⟨i, 0, .filePut msg⟩
      fun session hr => by cases hready.symm.trans hr
    exact h.congr hserver hturn
  | ready session =>
    obtain rfl := h.tenant i session hready
    by_cases hquota : (sys.server.usageBytes session.userDomain + msg.size) % 2 ^ 64 ≤
        cfg.quotaFor session.userDomain
    · obtain ⟨habsent, hnobody, hpending, hwrap, hn⟩ := hc.2 session hready hquota
      rw [Nat.mod_eq_of_lt hwrap] at hquota
      have hreact : session.onFilePut cfg sys.server msg = uploadAccepted sys.server session msg :=
        onFilePut_reserved session hquota hwrap hn
      obtain ⟨hserver, hturn⟩ := step_ready cfg ⟨i, 0, .filePut msg⟩ hready hreact
      have haddressed : Addressed cfg content (sys.step cfg ⟨i, 0, .filePut msg⟩) :=
        h.addressed.step fun session' hs => by
          obtain rfl := Turn.ready.inj (hready.symm.trans hs)
          exact ⟨hc.1, hnobody⟩
      exact h.reserved haddressed hready hserver hturn hc.1 habsent hpending
    · have hreact : session.onFilePut cfg sys.server msg =
          session.stay sys.server [.send (.error Session.quotaExceeded)] := by
        simp only [Session.onFilePut, ServerState.tryReserveQuota, if_pos (Nat.lt_of_not_le hquota)]
      exact h.stay ⟨i, 0, .filePut msg⟩ hready hreact

omit [DecidableEq ι] in
/-- The upload becomes the object, or the object was there and the upload empty. -/
theorem storedSize_finished {server : ServerState} {pu' : PendingUpload} {file : Bytes}
    (hid : pu'.blobId = pu.blobId) (hsize : file.length = pu.size)
    (habsent : pu.size ≠ 0 → (server.store session.userDomain).objects pu.blobId = none) :
    storedSize ((uploadFinished server session pu' file).server.store session.userDomain) pu.blobId =
      storedSize (server.store session.userDomain) pu.blobId + pu.size := by
  have hobject : ((uploadFinished server session pu' file).server.store session.userDomain).objects
      pu'.blobId = some (((server.store session.userDomain).objects pu'.blobId).getD file) :=
    uploadFinished_object
  rw [hid] at hobject
  simp only [storedSize, hobject]
  cases hold : (server.store session.userDomain).objects pu.blobId with
  | none => simp [hsize]
  | some old =>
    have hzero : pu.size = 0 := by
      by_contra hne
      cases hold.symm.trans (habsent hne)
    simp [hzero]

theorem Balanced.finished {pu' : PendingUpload} {file : Bytes}
    (h : Balanced cfg content session.userDomain sys) (haddressed : Addressed cfg content sys')
    (hready : sys.turn i = .ready session) (hp : session.pendingUpload = some pu)
    (hserver : sys'.server = (uploadFinished sys.server session pu' file).server)
    (hturn : sys'.turn = Function.update sys.turn i (.ready { session with pendingUpload := none }))
    (hid : pu'.blobId = pu.blobId) (hsize : file.length = pu.size) :
    Balanced cfg content session.userDomain sys' := by
  have hmine : sys'.turn i = .ready { session with pendingUpload := none } := by
    rw [hturn, Function.update_self]
  refine h.change (i := i) pu.blobId haddressed (fun j hj => ?_) (fun b hb => ?_)
    (.inr fun j hj hu => ?_) (fun session' hs => ?_) (fun session' pu' hs hp' => ?_) ?_
  · rw [hturn, Function.update_of_ne hj]
  · rw [hserver, uploadFinished, ServerState.recordObjectOwner_store, ServerState.store_setStore,
      ServerFs.removeTemp_objects, ServerFs.putObject_ne _ _ (hid ▸ hb)]
    rfl
  · exact hj (h.addressed.alone j i _ _ hu ⟨session, pu, hready, rfl, hp, rfl⟩)
  · obtain rfl := Turn.ready.inj (hmine.symm.trans hs)
    rfl
  · obtain rfl := Turn.ready.inj (hmine.symm.trans hs)
    cases hp'
  · have hused : sys'.server.usageBytes = sys.server.usageBytes := by
      rw [hserver]
      rfl
    rw [hused, hserver, storedSize_finished hid hsize (h.absent i session pu hready hp), hmine, hready]
    simp only [Turn.pendingSize, hp]
    omega

theorem Balanced.written {idx : Nat} {file : Bytes} {hf : pu.received[idx]? = some false}
    (h : Balanced cfg content session.userDomain sys) (haddressed : Addressed cfg content sys')
    (hready : sys.turn i = .ready session) (hp : session.pendingUpload = some pu)
    (hserver : sys'.server = (chunkWritten sys.server session (pu.mark idx hf) file).server)
    (hturn : sys'.turn = Function.update sys.turn i
      (.ready { session with pendingUpload := some (pu.mark idx hf) }))
    (hmissing : (pu.mark idx hf).receivedCount ≠ (pu.mark idx hf).totalChunks) :
    Balanced cfg content session.userDomain sys' := by
  have hmine : sys'.turn i = .ready { session with pendingUpload := some (pu.mark idx hf) } := by
    rw [hturn, Function.update_self]
  have hobjects : (sys'.server.store session.userDomain).objects =
      (sys.server.store session.userDomain).objects := by
    rw [hserver]
    exact chunkWritten_objects
  refine h.change (i := i) pu.blobId haddressed (fun j hj => ?_) (fun b _ => by rw [hobjects])
    (.inl (by rw [hobjects])) (fun session' hs => ?_) (fun session' pu' hs hp' => ?_) ?_
  · rw [hturn, Function.update_of_ne hj]
  · obtain rfl := Turn.ready.inj (hmine.symm.trans hs)
    rfl
  · obtain rfl := Turn.ready.inj (hmine.symm.trans hs)
    obtain rfl := Option.some.inj hp'
    rw [hobjects]
    exact ⟨h.absent i session pu hready hp, fun hfull => absurd hfull hmissing⟩
  · have hused : sys'.server.usageBytes = sys.server.usageBytes := by
      rw [hserver]
      rfl
    simp only [hused, storedSize, hobjects, hmine, hready, Turn.pendingSize, hp,
      PendingUpload.mark_size]

/-- An empty upload is dropped with its session. -/
theorem Balanced.lost (h : Balanced cfg content session.userDomain sys)
    (haddressed : Addressed cfg content sys') (hready : sys.turn i = .ready session)
    (hp : session.pendingUpload = some pu) (hserver : sys'.server = sys.server)
    (hturn : sys'.turn = Function.update sys.turn i .failed) (hzero : pu.size = 0) :
    Balanced cfg content session.userDomain sys' := by
  have hmine : sys'.turn i = .failed := by rw [hturn, Function.update_self]
  refine h.change (i := i) pu.blobId haddressed (fun j hj => ?_) (fun b _ => by rw [hserver])
    (.inl (by rw [hserver])) (fun session' hs => ?_) (fun session' pu' hs _ => ?_) ?_
  · rw [hturn, Function.update_of_ne hj]
  · cases hmine.symm.trans hs
  · cases hmine.symm.trans hs
  · simp only [hserver, hmine, hready, Turn.pendingSize, hp, hzero]

theorem onFileChunk_full (cfg : Config) (server : ServerState) (session : Session) (payload : Bytes)
    (hp : session.pendingUpload = some pu) (hfull : pu.receivedCount = pu.totalChunks) :
    session.onFileChunk cfg server payload = session.complete server pu := by
  have hall := pu.full_iff.mp hfull
  have hh : handleChunk cfg (session.fs server) pu payload session.userDomain =
      some (session.fs server, pu) := by
    rcases handleChunk_cases cfg (session.fs server) pu payload session.userDomain with
      ⟨-, hh⟩ | ⟨idx, -, hf, -⟩ | ⟨idx, _, hf, -⟩
    · exact hh
    all_goals
      obtain ⟨hlt, hnot⟩ := pu.not_mem_has hf
      exact absurd (hall idx hlt) hnot
  have hsession : { session with pendingUpload := some pu } = session := by rw [← hp]
  simp only [Session.onFileChunk, hp, hh, if_pos hfull, hsession]
  rw [Session.fs, setStore_store]

theorem complete_finished {server : ServerState}
    (htmp : (server.store session.userDomain).tmp pu.blobId = some file) :
    session.complete server pu = uploadFinished server session pu file := by
  have htemp : pu.tempPath = pu.blobId := pu.tempPath_eq
  simp only [Session.complete, Session.fs, htemp, htmp, uploadFinished]

theorem Balanced.chunk (h : Balanced cfg content domain sys)
    (hc : sys.Accounted cfg content (.chunk i payload)) :
    Balanced cfg content domain (sys.upload cfg (.chunk i payload)) := by
  have haddressed : Addressed cfg content (sys.step cfg ⟨i, 0, .fileChunk payload⟩) :=
    h.addressed.step fun session hs pu hp => hc.1 session pu hs hp
  cases hready : sys.turn i with
  | failed | panicked =>
    obtain ⟨hserver, hturn⟩ := step_ended cfg ⟨i, 0, .fileChunk payload⟩
      fun session hr => by cases hready.symm.trans hr
    exact h.congr hserver hturn
  | ready session =>
    obtain rfl := h.tenant i session hready
    cases hp : session.pendingUpload with
    | none =>
      have hreact : session.onFileChunk cfg sys.server payload = session.stay sys.server [] := by
        simp only [Session.onFileChunk, hp]
      exact h.stay ⟨i, 0, .fileChunk payload⟩ hready hreact
    | some pu =>
      obtain ⟨htrue, hholds⟩ := h.addressed.pending i session pu hready hp
      have hv := hc.1 session pu hready hp
      by_cases hfull : pu.receivedCount = pu.totalChunks
      · -- Only an empty upload lacks nothing: its file is empty or was never written.
        have hzero := h.unfinished i session pu hready hp hfull
        have hreact := onFileChunk_full cfg sys.server session payload hp hfull
        cases htmp : (sys.server.store session.userDomain).tmp pu.blobId with
        | none =>
          have hlost : session.complete sys.server pu =
              { server := sys.server, turn := .failed, effects := [] } := by
            have htemp : pu.tempPath = pu.blobId := pu.tempPath_eq
            simp only [Session.complete, Session.fs, htemp, htmp]
          obtain ⟨hserver, hturn⟩ := step_ready cfg ⟨i, 0, .fileChunk payload⟩ hready
            (hreact.trans hlost)
          exact h.lost haddressed hready hp hserver hturn hzero
        | some file =>
          obtain ⟨hserver, hturn⟩ := step_ready cfg ⟨i, 0, .fileChunk payload⟩ hready
            (hreact.trans (complete_finished htmp))
          rw [show (sys.server.fs (sanitize session.userDomain)).tmp pu.blobId = some file from htmp,
            Option.getD_some] at hholds
          have hfile : file = content pu.blobId := hholds.eq_of_all fun k hk => by
            rw [← htrue.size, hzero] at hk
            exact absurd hk (Nat.not_lt_zero _)
          exact h.finished haddressed hready hp hserver hturn rfl (by rw [hfile, htrue.size])
      · rcases hv.cases htrue.total with hskip | ⟨idx, hf, hidx, hlt, hopen⟩
        · exact h.stay ⟨i, 0, .fileChunk payload⟩ hready
            (onFileChunk_skip sys.server session hp hfull hskip)
        rcases onFileChunk_assembles sys.server session hp htrue.total hholds hf hidx hopen with
          ⟨-, hreact⟩ | ⟨hmissing, file, -, hreact⟩
        · obtain ⟨hserver, hturn⟩ := step_ready cfg ⟨i, 0, .fileChunk payload⟩ hready hreact
          exact h.finished haddressed hready hp hserver hturn rfl htrue.size.symm
        · obtain ⟨hserver, hturn⟩ := step_ready cfg ⟨i, 0, .fileChunk payload⟩ hready hreact
          refine h.written haddressed hready hp hserver hturn fun hfull => hmissing ?_
          rw [← htrue.total]
          exact (pu.mark idx hf).full_iff.mp hfull

theorem Balanced.upload (h : Balanced cfg content domain sys) {e : UploadEvent ι}
    (hc : sys.Accounted cfg content e) : Balanced cfg content domain (sys.upload cfg e) := by
  cases e with
  | put i msg => exact h.put hc
  | chunk i payload => exact h.chunk hc
  | disconnect i => exact h.disconnect hc

omit [DecidableEq ι] in
theorem balanced_of_unused (h : Unused sys) (cfg : Config) (content : String → Bytes)
    (hdomain : ∀ i session, sys.turn i = .ready session → session.userDomain = domain)
    (husage : sys.server.usageBytes domain = 0) : Balanced cfg content domain sys where
  addressed := h.addressed cfg content
  tenant := hdomain
  absent _ _ _ _ _ _ := h.object _ _
  unfinished i session pu hready hp := by cases (h.pending i session hready).symm.trans hp
  usage := by
    refine ⟨0, 0, .zero fun blobId => ?_, .zero fun i => pendingSize_eq_zero fun session pu hready hp => ?_,
      husage⟩
    · simp only [storedSize, ServerState.store, h.object]
    · cases (h.pending i session hready).symm.trans hp

/-- In every run of a tenant that is accounted for, its counter is the size of its
objects and of its uploads in progress. -/
theorem usage_exact (h : Unused sys)
    (hdomain : ∀ i session, sys.turn i = .ready session → session.userDomain = domain)
    (husage : sys.server.usageBytes domain = 0) {events : List (UploadEvent ι)}
    (hall : AllSteps (Sessions.upload cfg) (Accounted cfg content) sys events) :
    UsageExact domain (run (Sessions.upload cfg) sys events) :=
  (run_invariant (Balanced cfg content domain) (fun _ _ h hc => h.upload hc)
    (balanced_of_unused h cfg content hdomain husage) hall).usage

end

/-- The single byte `0xFF` is uploaded, and the session leaves. -/
theorem usage_exact_one_byte :
    UsageExact "acme" (run (Sessions.upload .default) oneSession
      [.put () ⟨"a8100ae6aa1940d0b663bb31cd466142ebbdbd5187131b92d93818987832eb89", 1, 1⟩,
        .chunk () [0, 0, 0, 0, 0xFF], .disconnect ()]) := by
  refine usage_exact oneSession_unused ?_ rfl (?_ : AllSteps _ (Accounted .default fun _ => [0xFF]) _ _)
  · intro _ session hready
    obtain rfl := Turn.ready.inj hready
    rfl
  refine ⟨⟨?_, ?_⟩, ⟨?_, trivial⟩, ⟨trivial, ?_⟩, trivial⟩
  · exact ⟨by decide +kernel, by decide, rfl⟩
  · intro session hready _
    obtain rfl := Turn.ready.inj hready
    refine ⟨rfl, fun j hj => absurd rfl hj, fun pu hp => ?_, by decide, by decide⟩
    cases hp
  · rintro session pu - - idx hidx -
    obtain rfl : 0 = idx := by simpa [chunkIndex, ofLe] using hidx
    exact (by decide : openChunk .none none [0xFF] 0 = some (Sparse.slice chunkSize [0xFF] 0))
  · intro session pu hready hp
    have hturn : (run (Sessions.upload .default) oneSession
        [.put () ⟨"a8100ae6aa1940d0b663bb31cd466142ebbdbd5187131b92d93818987832eb89", 1, 1⟩,
          .chunk () [0, 0, 0, 0, 0xFF]]).turn () =
        .ready ⟨"acme", "m1", "127.0.0.1:9", none⟩ := by decide +kernel
    obtain rfl := Turn.ready.inj (hturn.symm.trans hready)
    cases hp

/-- An upload that is given up stays on the account. -/
theorem abandoned_upload_counted : ¬ ∀ events,
    AllSteps (Sessions.upload .default) (HonestSizes .default fun _ => [0xFF]) oneSession events →
      UsageExact "acme" (run (Sessions.upload .default) oneSession events) := by
  intro h
  obtain ⟨stored, pending, hstored, hpending, hsum⟩ := h
    [.put () ⟨"a8100ae6aa1940d0b663bb31cd466142ebbdbd5187131b92d93818987832eb89", 1, 1⟩, .disconnect ()]
    ⟨⟨by decide +kernel, by decide, rfl⟩, trivial, trivial⟩
  obtain rfl := hstored.unique (.zero fun _ => rfl)
  obtain rfl := hpending.unique (.zero fun _ => rfl)
  exact absurd hsum (by decide +kernel)

end Sessions

end Nsmt.Server
