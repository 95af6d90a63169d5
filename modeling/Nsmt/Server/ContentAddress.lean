import Nsmt.Server.Concurrent

/-!
# Content addressing of the object store

An object is stored under the name its `FILE_PUT` gave, with the bytes its
chunks brought; neither the hash nor the declared size is compared with them.
`content_addressed` says what clients and schedule have to contribute: uploads
are announced as what they are, their chunks are the right ones, and a blob is
not put while another session is uploading it.
-/

namespace Nsmt.Server

open Nsmt.Lib Nsmt.Core

variable {ι : Type} [DecidableEq ι]

/-- An event of the run created the object, in an upload declared with `size`. -/
def Created (cfg : Config) (sys : Sessions ι) (events : List (Event ι)) (dir blobId : String)
    (size : Nat) : Prop :=
  ∃ before e after, events = before ++ e :: after ∧
    ((run (Sessions.step cfg) sys before).server.fs dir).objects blobId = none ∧
    ((run (Sessions.step cfg) sys (before ++ [e])).server.fs dir).objects blobId ≠ none ∧
    ∃ session pu, (run (Sessions.step cfg) sys before).turn e.session = .ready session ∧
      session.pendingUpload = some pu ∧ pu.size = size

/-- Every object has the bytes its name is the hash of, as many as the `FILE_PUT`
that created it declared. -/
def ContentAddressed (cfg : Config) (sys : Sessions ι) (events : List (Event ι)) : Prop :=
  ∀ dir blobId bytes,
    ((run (Sessions.step cfg) sys events).server.fs dir).objects blobId = some bytes →
    objectId cfg.sha256 bytes = blobId ∧
      ∀ size, Created cfg sys events dir blobId size → bytes.length = size

/-- The upload is one of `content blobId`, announced truthfully. -/
structure Truthful (cfg : Config) (content : String → Bytes) (blobId : String)
    (totalChunks size : Nat) : Prop where
  hash : objectId cfg.sha256 (content blobId) = blobId
  total : totalChunks = chunksOf (content blobId)
  size : size = (content blobId).length

/-- Session `i` is uploading the blob into the store `dir`. -/
def Sessions.Uploading (sys : Sessions ι) (i : ι) (dir blobId : String) : Prop :=
  ∃ session pu, sys.turn i = .ready session ∧ sanitize session.userDomain = dir ∧
    session.pendingUpload = some pu ∧ pu.blobId = blobId

/-- The frame announces truthfully a blob that no other session is uploading, or
brings a chunk that is right for the upload it belongs to. -/
def HonestUpload (cfg : Config) (content : String → Bytes) (sys : Sessions ι) (e : Event ι) : Prop :=
  ∀ session, sys.turn e.session = .ready session →
    match e.frame with
    | .filePut msg => Truthful cfg content msg.blobId msg.totalChunks msg.size ∧
        ∀ j ≠ e.session, ¬ sys.Uploading j (sanitize session.userDomain) msg.blobId
    | .fileChunk payload => ∀ pu, session.pendingUpload = some pu →
        ValidChunk cfg session.userDomain (content pu.blobId) payload
    | _ => True

-- ---------------------------------------------------------------------------
-- The invariant
-- ---------------------------------------------------------------------------

structure Addressed (cfg : Config) (content : String → Bytes) (sys : Sessions ι) : Prop where
  object : ∀ dir blobId bytes, (sys.server.fs dir).objects blobId = some bytes →
    bytes = content blobId ∧ objectId cfg.sha256 (content blobId) = blobId
  pending : ∀ i session pu, sys.turn i = .ready session → session.pendingUpload = some pu →
    Truthful cfg content pu.blobId pu.totalChunks pu.size ∧
      Sparse.Holds chunkSize (content pu.blobId) pu.has
        (((sys.server.fs (sanitize session.userDomain)).tmp pu.blobId).getD [])
  alone : ∀ i j dir blobId, sys.Uploading i dir blobId → sys.Uploading j dir blobId → i = j

theorem handleChunk_holds {pu : PendingUpload} (hv : ValidChunk cfg domain b payload)
    (hn : pu.totalChunks = chunksOf b)
    (hholds : Sparse.Holds chunkSize b pu.has ((fs.tmp pu.blobId).getD []))
    (hh : handleChunk cfg fs pu payload domain = some (fs', pu')) :
    Sparse.Holds chunkSize b pu'.has ((fs'.tmp pu'.blobId).getD []) ∧
      pu'.totalChunks = pu.totalChunks ∧ pu'.size = pu.size := by
  have htemp : pu.tempPath = pu.blobId := pu.tempPath_eq
  rcases handleChunk_cases cfg fs pu payload domain with ⟨-, heq⟩ | ⟨idx, -, -, -, heq⟩ |
    ⟨idx, data, hf, hidx, hopen, heq⟩
  · rw [heq] at hh
    cases hh
    exact ⟨hholds, rfl, rfl⟩
  · rw [heq] at hh
    cases hh
  · have hlt := (pu.not_mem_has hf).1
    rw [hv idx hidx (hn ▸ hlt)] at hopen
    obtain rfl := Option.some.inj hopen
    have hwritten := hholds.writeAt chunkSize_pos (lt_chunksOf.mp (hn ▸ hlt))
    rw [htemp] at heq
    generalize (Sparse.writeAt _ _ _ : Bytes) = file at heq hwritten
    rw [heq] at hh
    cases hh
    rw [PendingUpload.has_mark, PendingUpload.mark_blobId, ServerFs.writeTemp_tmp_self,
      Option.getD_some]
    exact ⟨hwritten, rfl, rfl⟩

/-- What a turn does to the store and the session is enough to keep the
invariant, given that nobody else works on the blob concerned. -/
theorem Addressed.of_store {sys sys' : Sessions ι} (h : Addressed cfg content sys) {i : ι}
    (hturn : ∀ j ≠ i, sys'.turn j = sys.turn j)
    (hobj : ∀ dir blobId bytes, (sys'.server.fs dir).objects blobId = some bytes →
      (sys.server.fs dir).objects blobId = some bytes ∨
        (bytes = content blobId ∧ objectId cfg.sha256 (content blobId) = blobId))
    (htmp : ∀ j ≠ i, ∀ dir blobId, sys.Uploading j dir blobId →
      (sys'.server.fs dir).tmp blobId = (sys.server.fs dir).tmp blobId)
    (hmine : ∀ session pu, sys'.turn i = .ready session → session.pendingUpload = some pu →
      (Truthful cfg content pu.blobId pu.totalChunks pu.size ∧
        Sparse.Holds chunkSize (content pu.blobId) pu.has
          (((sys'.server.fs (sanitize session.userDomain)).tmp pu.blobId).getD [])) ∧
      ∀ j ≠ i, ¬ sys.Uploading j (sanitize session.userDomain) pu.blobId) :
    Addressed cfg content sys' := by
  have hother {j : ι} (hj : j ≠ i) {dir blobId : String} :
      sys'.Uploading j dir blobId ↔ sys.Uploading j dir blobId := by
    simp only [Sessions.Uploading, hturn j hj]
  refine ⟨fun dir blobId bytes hb => ?_, fun j session pu hready hp => ?_, ?_⟩
  · rcases hobj dir blobId bytes hb with hold | hnew
    · exact h.object dir blobId bytes hold
    · exact hnew
  · by_cases hj : j = i
    · subst hj
      exact (hmine session pu hready hp).1
    · rw [hturn j hj] at hready
      rw [htmp j hj _ _ ⟨session, pu, hready, rfl, hp, rfl⟩]
      exact h.pending j session pu hready hp
  · -- Two uploads of one blob: neither can be the one just handled and the other not.
    intro j k dir blobId huj huk
    by_cases hj : j = i
    · subst hj
      by_contra hk
      obtain ⟨session, pu, hready, rfl, hp, rfl⟩ := huj
      exact (hmine session pu hready hp).2 k (Ne.symm hk) ((hother (Ne.symm hk)).mp huk)
    · by_cases hk : k = i
      · subst hk
        obtain ⟨session, pu, hready, rfl, hp, rfl⟩ := huk
        exact absurd ((hother hj).mp huj) ((hmine session pu hready hp).2 j hj)
      · exact h.alone j k dir blobId ((hother hj).mp huj) ((hother hk).mp huk)

omit [DecidableEq ι] in
/-- A chunk of an honest upload keeps it truthful and in step with its file. -/
theorem Addressed.chunk {sys : Sessions ι} (h : Addressed cfg content sys) {e : Event ι}
    (hc : HonestUpload cfg content sys e) (hready : sys.turn e.session = .ready session)
    (hframe : e.frame = .fileChunk payload) (hp : session.pendingUpload = some pu)
    (hh : handleChunk cfg (session.fs sys.server) pu payload session.userDomain = some (fs', pu')) :
    Truthful cfg content pu'.blobId pu'.totalChunks pu'.size ∧
      Sparse.Holds chunkSize (content pu'.blobId) pu'.has ((fs'.tmp pu'.blobId).getD []) := by
  have hvalid := hc session hready
  rw [hframe] at hvalid
  obtain ⟨htrue, hholds⟩ := h.pending e.session session pu hready hp
  obtain ⟨hholds', htotal, hsize⟩ := handleChunk_holds (hvalid pu hp) htrue.total hholds hh
  have hid : pu'.blobId = pu.blobId := (handleChunk_other pu.blobId hh).2.2.2
  rw [htotal, hsize]
  rw [hid] at hholds' ⊢
  exact ⟨htrue, hholds'⟩

omit [DecidableEq ι] in
/-- A new object is the completed upload's file, and that is its content. -/
theorem Addressed.completed {sys : Sessions ι} (h : Addressed cfg content sys) {e : Event ι}
    (hc : HonestUpload cfg content sys e) (hready : sys.turn e.session = .ready session)
    (hframe : e.frame = .fileChunk payload) (hp : session.pendingUpload = some pu)
    (hh : handleChunk cfg (session.fs sys.server) pu payload session.userDomain = some (fs', pu'))
    (hfull : pu'.receivedCount = pu'.totalChunks) (htmp : fs'.tmp pu'.tempPath = some bytes) :
    bytes = content pu.blobId ∧ objectId cfg.sha256 (content pu.blobId) = pu.blobId := by
  rw [← show pu'.blobId = pu.blobId from (handleChunk_other pu.blobId hh).2.2.2]
  obtain ⟨htrue, hholds⟩ := h.chunk hc hready hframe hp hh
  rw [pu'.tempPath_eq] at htmp
  rw [show fs'.tmp pu'.blobId = some bytes from htmp, Option.getD_some] at hholds
  have hall := pu'.full_iff.mp hfull
  rw [htrue.total] at hall
  exact ⟨hholds.eq_of_all fun k hk => hall k (lt_chunksOf.mpr hk), htrue.hash⟩

theorem Addressed.step {sys : Sessions ι} (h : Addressed cfg content sys) {e : Event ι}
    (hc : HonestUpload cfg content sys e) : Addressed cfg content (sys.step cfg e) := by
  have hturn (j : ι) (hj : j ≠ e.session) : (sys.step cfg e).turn j = sys.turn j :=
    Sessions.step_turn_ne cfg sys hj
  -- A session that has stopped changes nothing.
  have hstopped (hserver : (sys.step cfg e).server = sys.server)
      (hnot : ∀ session, (sys.step cfg e).turn e.session ≠ .ready session) :
      Addressed cfg content (sys.step cfg e) := by
    refine h.of_store hturn (fun dir blobId bytes hb => .inl ?_) (fun j hj dir blobId hu => ?_) ?_
    · rwa [hserver] at hb
    · rw [hserver]
    · intro session pu hs
      exact absurd hs (hnot session)
  cases hready : sys.turn e.session with
  | failed =>
    refine hstopped (by rw [Sessions.step_server, hready]; rfl) fun session hs => ?_
    rw [Sessions.step_turn_self, hready] at hs
    cases hs
  | panicked =>
    refine hstopped (by rw [Sessions.step_server, hready]; rfl) fun session hs => ?_
    rw [Sessions.step_turn_self, hready] at hs
    cases hs
  | ready session =>
    obtain ⟨hstep, hdirs⟩ := handle_store cfg e.now sys.server session e.frame
    have hframes := hc session hready
    have hserver : (sys.step cfg e).server = (session.handle cfg e.now sys.server e.frame).server := by
      rw [Sessions.step_server, hready]
      rfl
    have hown : (sys.step cfg e).turn e.session = (session.handle cfg e.now sys.server e.frame).turn := by
      rw [Sessions.step_turn_self, hready]
      rfl
    have halone {pu : PendingUpload} (hp : session.pendingUpload = some pu) (j : ι)
        (hj : j ≠ e.session) : ¬ sys.Uploading j (sanitize session.userDomain) pu.blobId :=
      fun hu => hj (h.alone j e.session _ _ hu ⟨session, pu, hready, rfl, hp, rfl⟩)
    refine h.of_store hturn (fun dir blobId bytes hb => ?_) (fun j hj dir blobId hu => ?_)
      fun session' pu' hready' hp' => ?_
    · rw [hserver] at hb
      by_cases hold : (sys.server.fs dir).objects blobId = some bytes
      · exact .inl hold
      by_cases hdir : dir = sanitize session.userDomain
      · subst hdir
        obtain ⟨payload, pu, mid, pu', hframe, hp, hh, hfull, htmp, rfl⟩ := hstep.objects hb hold
        exact .inr (h.completed hc hready hframe hp hh hfull htmp)
      · rw [hdirs dir hdir] at hb
        exact absurd hb hold
    · rw [hserver]
      refine (handle_untouched cfg e.now sys.server (.ready session) ?_).1
      rintro ⟨session', hsame, hdir, htouch⟩
      obtain rfl := Turn.ready.inj hsame
      subst hdir
      cases hframe : e.frame with
      | filePut msg =>
        rw [hframe] at hframes htouch
        subst htouch
        exact hframes.2 j hj hu
      | fileChunk payload =>
        rw [hframe] at htouch
        obtain ⟨pu, hp, rfl⟩ := htouch
        exact halone hp j hj hu
      | _ =>
        rw [hframe] at htouch
        exact htouch
    · -- The upload the session has now: the old one, a new one, or one chunk further.
      rw [hown] at hready'
      rw [hserver]
      rw [hready'] at hstep
      obtain ⟨hdom, hcases⟩ := hstep.pending hp'
      rw [hdom]
      rcases hcases with ⟨htmp, hp⟩ | ⟨msg, hframe, rfl, htmp⟩ | ⟨payload, pu, hframe, hp, hh⟩
      · rw [htmp]
        exact ⟨h.pending e.session session pu' hready hp, halone hp⟩
      · rw [hframe] at hframes
        rw [htmp, PendingUpload.has_newUpload, Option.getD_none]
        exact ⟨⟨hframes.1, Sparse.Holds.empty _ _⟩, hframes.2⟩
      · refine ⟨h.chunk hc hready hframe hp hh, ?_⟩
        rw [(handleChunk_other pu.blobId hh).2.2.2]
        exact halone hp

/-- A server without objects, and sessions that have not started an upload. -/
structure Unused (sys : Sessions ι) : Prop where
  object : ∀ dir blobId, (sys.server.fs dir).objects blobId = none
  pending : ∀ i session, sys.turn i = .ready session → session.pendingUpload = none

omit [DecidableEq ι] in
theorem Unused.addressed {sys : Sessions ι} (h : Unused sys) (cfg : Config)
    (content : String → Bytes) : Addressed cfg content sys where
  object dir blobId bytes hb := by
    rw [h.object] at hb
    cases hb
  pending i session pu hready hp := by
    rw [h.pending i session hready] at hp
    cases hp
  alone i j dir blobId hu := by
    obtain ⟨session, pu, hready, -, hp, -⟩ := hu
    rw [h.pending i session hready] at hp
    cases hp

theorem run_addressed {sys : Sessions ι} (h : Unused sys) {events : List (Event ι)}
    (hall : AllSteps (Sessions.step cfg) (HonestUpload cfg content) sys events) :
    Addressed cfg content (run (Sessions.step cfg) sys events) :=
  run_invariant (Addressed cfg content) (fun _ _ hinv hc => hinv.step hc) (h.addressed cfg content) hall

/-- The upload that creates an object in an allowed step declares the length of
its content. -/
theorem Addressed.created {sys : Sessions ι} (h : Addressed cfg content sys) (e : Event ι)
    (hnone : (sys.server.fs dir).objects blobId = none)
    (hsome : ((sys.step cfg e).server.fs dir).objects blobId ≠ none)
    (hready : sys.turn e.session = .ready session) (hp : session.pendingUpload = some pu) :
    pu.size = (content blobId).length := by
  obtain ⟨bytes, hbytes⟩ := Option.ne_none_iff_exists'.mp hsome
  obtain ⟨hstep, hdirs⟩ := handle_store cfg e.now sys.server session e.frame
  have hserver : (sys.step cfg e).server = (session.handle cfg e.now sys.server e.frame).server := by
    rw [Sessions.step_server, hready]
    rfl
  rw [hserver] at hbytes
  by_cases hdir : dir = sanitize session.userDomain
  · subst hdir
    obtain ⟨_, pu', _, _, _, hp', _, _, _, rfl⟩ := hstep.objects hbytes (by
      show (sys.server.fs _).objects blobId ≠ _
      rw [hnone]
      simp)
    rw [hp] at hp'
    obtain rfl := Option.some.inj hp'
    exact (h.pending e.session session pu hready hp).1.size
  · rw [hdirs dir hdir, hnone] at hbytes
    cases hbytes

/-- In every run whose steps are honest uploads that do not overlap, every object
has the hash it is named by and the size it was declared with. -/
theorem content_addressed {sys : Sessions ι} {events : List (Event ι)} (h : Unused sys)
    (content : String → Bytes)
    (hall : AllSteps (Sessions.step cfg) (HonestUpload cfg content) sys events) :
    ContentAddressed cfg sys events := by
  intro dir blobId bytes hbytes
  obtain ⟨rfl, hhash⟩ := (run_addressed h hall).object dir blobId bytes hbytes
  refine ⟨hhash, ?_⟩
  rintro size ⟨before, e, after, rfl, hnone, hsome, session, pu, hready, hp, rfl⟩
  rw [run_append] at hsome
  have hbefore := run_addressed h (AllSteps.append.mp hall).1
  exact (hbefore.created e hnone hsome hready hp).symm

def oneSession : Sessions Unit :=
  { server := .empty, turn := fun _ => .ready ⟨"acme", "m1", "127.0.0.1:9", none⟩, log := [] }

theorem oneSession_unused : Unused oneSession where
  object _ _ := rfl
  pending _ session hready := by
    obtain rfl := Turn.ready.inj hready
    rfl

/-- A truthful upload of the single byte `0xFF`. -/
theorem content_addressed_one_byte :
    ContentAddressed .default oneSession
      [⟨(), 0, .filePut ⟨"a8100ae6aa1940d0b663bb31cd466142ebbdbd5187131b92d93818987832eb89", 1, 1⟩⟩,
        ⟨(), 1, .fileChunk [0, 0, 0, 0, 0xFF]⟩] := by
  refine content_addressed oneSession_unused (fun _ => [0xFF]) ⟨?_, ?_, trivial⟩
  · rintro session -
    exact ⟨⟨by decide +kernel, by decide, rfl⟩, fun j hj => absurd rfl hj⟩
  · rintro session - pu - idx hidx -
    obtain rfl : 0 = idx := by simpa [chunkIndex, ofLe] using hidx
    exact (by decide : openChunk .none none [0xFF] 0 = some (Sparse.slice chunkSize [0xFF] 0))

/-- The byte `0xFF` uploaded as the blob of the byte `0x00`. -/
theorem wrong_bytes_are_stored : ¬ ∀ events, ContentAddressed .default oneSession events := by
  intro h
  have hbytes := h [⟨(), 0, .filePut ⟨"6e340b9cffb37a989ca544e6bb780a2c78901d3fb33738768511a30617afa01d", 1, 1⟩⟩,
    ⟨(), 1, .fileChunk [0, 0, 0, 0, 0xFF]⟩] "acme"
    "6e340b9cffb37a989ca544e6bb780a2c78901d3fb33738768511a30617afa01d" [0xFF] (by decide +kernel)
  exact absurd hbytes.1 (by decide +kernel)

end Nsmt.Server
