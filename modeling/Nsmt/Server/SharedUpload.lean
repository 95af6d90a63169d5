import Nsmt.Server.Upload
import Mathlib.Data.List.Induction
import Mathlib.Tactic.IntervalCases

/-!
# Several sessions upload one object

Sessions of one tenant each send a `FILE_PUT` for the same blob and then the
chunks of `b`. They have flags of their own but share the temporary file, which
every `FILE_PUT` and every completion removes. The first completion decides
what is stored, and it stores the chunks sent since the last `FILE_PUT`:
`intact_iff` says when that is `b`.
-/

namespace Nsmt.Server

open Nsmt.Lib Nsmt.Core

variable {ι : Type}

def SentAll (b : Bytes) (i : ι) (events : List (Event ι)) : Prop := ∀ k < chunksOf b, Occurs i k events

/-- The events behind the last `FILE_PUT`. -/
def sincePut (events : List (Event ι)) : List (Event ι) :=
  events.foldl (fun acc e => match e.frame with
    | .filePut _ => []
    | _ => acc ++ [e]) []

/-- The chunks, of whichever session, sent since the last `FILE_PUT`. -/
def chunksSincePut (events : List (Event ι)) : Set Nat := { k | ∃ j, Occurs j k (sincePut events) }

def reserved (events : List (Event ι)) : Nat :=
  (events.map fun e => match e.frame with
    | .filePut msg => msg.size
    | _ => 0).sum

/-- Each session sends one `FILE_PUT` for the blob and behind it chunks of `b`,
none of them twice. -/
def Uploads (cfg : Config) (domain blobId : String) (b : Bytes) (events : List (Event ι)) : Prop :=
  ∀ before e after, events = before ++ e :: after →
    (∃ size, e.frame = .filePut ⟨blobId, chunksOf b, size⟩ ∧ ∀ d ∈ before, d.session ≠ e.session) ∨
    ∃ payload k, e.frame = .fileChunk payload ∧ chunkIndex payload = some k ∧ k < chunksOf b ∧
      openChunk cfg.aead (cfg.e2e domain) (payload.drop 4) k = some (Sparse.slice chunkSize b k) ∧
      ¬ Occurs e.session k before ∧ ∃ d ∈ before, d.session = e.session

/-- At the first completion of a session, the last chunk has been sent since the
last `FILE_PUT`, and every chunk that has not been consists of zeros. -/
def WholeAtFirstCompletion (b : Bytes) (events : List (Event ι)) : Prop :=
  ∀ before e after, events = before ++ e :: after → SentAll b e.session (before ++ [e]) →
    (∀ i, ¬ SentAll b i before) →
    chunksOf b - 1 ∈ chunksSincePut (before ++ [e]) ∧
      ∀ k, k ∉ chunksSincePut (before ++ [e]) → ∀ x ∈ Sparse.slice chunkSize b k, x = 0

-- ---------------------------------------------------------------------------
-- Events one by one
-- ---------------------------------------------------------------------------

theorem Occurs.snoc_put {i : ι} {e : Event ι} (he : e.frame = .filePut msg) :
    Occurs i k (events ++ [e]) ↔ Occurs i k events := by
  simp [Occurs, he]

theorem Occurs.snoc_chunk {i : ι} {e : Event ι} (he : e.frame = .fileChunk payload)
    (hk : chunkIndex payload = some k) :
    Occurs i m (events ++ [e]) ↔ Occurs i m events ∨ (e.session = i ∧ m = k) := by
  have hlast : Occurs i m [e] ↔ e.session = i ∧ m = k := by
    simp [Occurs, he, hk, eq_comm]
  rw [Occurs.append, hlast]

theorem sincePut_snoc_put {e : Event ι} (he : e.frame = .filePut msg) :
    sincePut (events ++ [e]) = [] := by
  simp [sincePut, he]

theorem sincePut_snoc_chunk {e : Event ι} (he : e.frame = .fileChunk payload) :
    sincePut (events ++ [e]) = sincePut events ++ [e] := by
  simp [sincePut, he]

theorem chunksSincePut_put {e : Event ι} (he : e.frame = .filePut msg) :
    chunksSincePut (events ++ [e]) = ∅ := by
  ext k
  simp [chunksSincePut, sincePut_snoc_put he, Occurs]

theorem chunksSincePut_chunk {e : Event ι} (he : e.frame = .fileChunk payload)
    (hk : chunkIndex payload = some k) :
    chunksSincePut (events ++ [e]) = insert k (chunksSincePut events) := by
  ext m
  simp only [chunksSincePut, sincePut_snoc_chunk he, Occurs.snoc_chunk he hk, Set.mem_insert_iff,
    Set.mem_ofPred_eq]
  constructor
  · rintro ⟨j, hj | ⟨-, rfl⟩⟩
    · exact .inr ⟨j, hj⟩
    · exact .inl rfl
  · rintro (rfl | ⟨j, hj⟩)
    · exact ⟨e.session, .inr ⟨rfl, rfl⟩⟩
    · exact ⟨j, .inl hj⟩

theorem reserved_append (a b : List (Event ι)) : reserved (a ++ b) = reserved a + reserved b := by
  simp [reserved]

theorem Uploads.append {a c : List (Event ι)} (h : Uploads cfg domain blobId b (a ++ c)) :
    Uploads cfg domain blobId b a := by
  rintro before d after rfl
  exact h before d (after ++ c) (by simp)

theorem SentAll.mono {i : ι} (h : SentAll b i events) (more : List (Event ι)) :
    SentAll b i (events ++ more) := fun k hk => Occurs.append.mpr (.inl (h k hk))

/-- If any session has sent everything, there was a first one to do so. -/
theorem exists_first_completion {i : ι} (hn : 0 < chunksOf b) (h : SentAll b i events) :
    ∃ before e after, events = before ++ e :: after ∧ SentAll b e.session (before ++ [e]) ∧
      ∀ j, ¬ SentAll b j before := by
  induction events using List.reverseRecOn generalizing i with
  | nil =>
    obtain ⟨e, he, -⟩ := h 0 hn
    cases he
  | append_singleton events e ih =>
    by_cases hbefore : ∃ j, SentAll b j events
    · obtain ⟨j, hj⟩ := hbefore
      obtain ⟨before, d, after, rfl, hfirst⟩ := ih hj
      exact ⟨before, d, after ++ [e], by simp, hfirst⟩
    · push Not at hbefore
      refine ⟨events, e, [], rfl, ?_, hbefore⟩
      -- Session `i` was not complete before `e`, so `e` is one of its frames.
      have hi : e.session = i := by
        by_contra hne
        refine hbefore i fun k hk => ?_
        rcases Occurs.append.mp (h k hk) with hk | ⟨d, hd, hs, -⟩
        · exact hk
        · rw [List.mem_singleton.mp hd] at hs
          exact absurd hs hne
      rw [hi]
      exact h

/-- The chunk frame a client without keys sends. -/
def chunkFrame (b : Bytes) (k : Nat) : ClientFrame :=
  .fileChunk (chunkPayload .none none (Sparse.slice chunkSize b k) k)

theorem Uploads.snoc (h : Uploads cfg domain blobId b events) {e : Event ι}
    (he : (∃ size, e.frame = .filePut ⟨blobId, chunksOf b, size⟩ ∧ ∀ d ∈ events, d.session ≠ e.session) ∨
      ∃ payload k, e.frame = .fileChunk payload ∧ chunkIndex payload = some k ∧ k < chunksOf b ∧
        openChunk cfg.aead (cfg.e2e domain) (payload.drop 4) k = some (Sparse.slice chunkSize b k) ∧
        ¬ Occurs e.session k events ∧ ∃ d ∈ events, d.session = e.session) :
    Uploads cfg domain blobId b (events ++ [e]) := by
  intro before d after heq
  rcases snoc_eq_append_cons heq with ⟨rfl, rfl, rfl⟩ | ⟨rest, rfl, hsplit⟩
  · exact he
  · exact h before d rest hsplit

theorem occurs_chunkFrame {i : ι} (hk : k < 2 ^ 32) :
    Occurs i m (⟨j, now, chunkFrame b k⟩ :: events) ↔ (j = i ∧ m = k) ∨ Occurs i m events := by
  rw [Occurs.cons]
  have hidx : (∃ payload, chunkFrame b k = .fileChunk payload ∧ chunkIndex payload = some m) ↔
      m = k := by
    simp only [chunkFrame, ClientFrame.fileChunk.injEq, exists_eq_left', chunkIndex_chunkPayload,
      Nat.mod_eq_of_lt hk, Option.some.injEq]
    exact eq_comm
  rw [hidx]

theorem occurs_filePut {i : ι} :
    Occurs i m (⟨j, now, .filePut msg⟩ :: events) ↔ Occurs i m events := by
  simp [Occurs.cons]

theorem occurs_nil (i : ι) (m : Nat) : ¬ Occurs i m [] := by simp [Occurs]

theorem Uploads.put_snoc (h : Uploads cfg domain blobId b events) {i : ι} (size now : Nat)
    (hi : ∀ d ∈ events, d.session ≠ i) :
    Uploads cfg domain blobId b (events ++ [⟨i, now, .filePut ⟨blobId, chunksOf b, size⟩⟩]) :=
  h.snoc (.inl ⟨size, rfl, hi⟩)

theorem Uploads.chunk_snoc (h : Uploads .default domain blobId b events) {i : ι} (now : Nat)
    (hk : k < chunksOf b) (hu32 : k < 2 ^ 32) (hnew : ¬ Occurs i k events)
    (hi : ∃ d ∈ events, d.session = i) :
    Uploads .default domain blobId b (events ++ [⟨i, now, chunkFrame b k⟩]) := by
  refine h.snoc (.inr ⟨_, k, rfl, ?_, hk, ?_, hnew, hi⟩)
  · rw [chunkIndex_chunkPayload, Nat.mod_eq_of_lt hu32]
  · exact openChunk_chunkPayload .none none _ k

-- ---------------------------------------------------------------------------
-- The state behind a list of events
-- ---------------------------------------------------------------------------

/-- The acknowledgement of a completed upload of `b`. -/
def completionAck (blobId : String) (b : Bytes) : Effect :=
  .send (.filePutAck { blobId, have_ := List.range (chunksOf b), completed := true })

variable [DecidableEq ι]

/-- Until the first completion the temporary file holds the chunks sent since
the last `FILE_PUT`; from then on the object is what it held there. -/
structure Tracked (domain blobId : String) (b : Bytes) (used : Nat) (events : List (Event ι))
    (sys : Sessions ι) : Prop where
  usage : sys.server.usageBytes domain = used + reserved events
  turn : ∀ i, ∃ session, sys.turn i = .ready session ∧ session.userDomain = domain ∧
    ((∃ d ∈ events, d.session = i) → ¬ SentAll b i events →
      ∃ pu, session.pendingUpload = some pu ∧ pu.blobId = blobId ∧ pu.totalChunks = chunksOf b ∧
        ∀ k < chunksOf b, k ∈ pu.has ↔ Occurs i k events)
  acked : ∀ i, completionAck blobId b ∈ sys.logOf i ↔ SentAll b i events
  absent : (∀ i, ¬ SentAll b i events) → (sys.server.store domain).objects blobId = none
  temp : (∀ i, ¬ SentAll b i events) → events ≠ [] →
    Sparse.Holds chunkSize b (chunksSincePut events) (((sys.server.store domain).tmp blobId).getD [])
  object : ∀ before e after, events = before ++ e :: after → SentAll b e.session (before ++ [e]) →
    (∀ i, ¬ SentAll b i before) →
    ∃ file, (sys.server.store domain).objects blobId = some file ∧
      Sparse.Holds chunkSize b (chunksSincePut (before ++ [e])) file

theorem Tracked.nil {sys : Sessions ι} (hn : 0 < chunksOf b)
    (hturn : ∀ i, ∃ session, sys.turn i = .ready session ∧ session.userDomain = domain)
    (hlog : sys.log = []) (habsent : (sys.server.store domain).objects blobId = none) :
    Tracked domain blobId b (sys.server.usageBytes domain) [] sys where
  usage := rfl
  turn i := by
    obtain ⟨session, hready, hdomain⟩ := hturn i
    exact ⟨session, hready, hdomain, by simp⟩
  acked i := by
    have hnot : ¬ SentAll b i ([] : List (Event ι)) := fun h => by simpa [Occurs] using h 0 hn
    simp [Sessions.logOf, hlog, hnot]
  absent _ := habsent
  temp _ hne := absurd rfl hne
  object := by simp

theorem Tracked.turn_other (h : Tracked domain blobId b used events sys) {e : Event ι} {i : ι}
    (hi : e.session ≠ i) (hoccurs : ∀ k, Occurs i k (events ++ [e]) ↔ Occurs i k events) :
    ∃ session, (sys.step cfg e).turn i = .ready session ∧ session.userDomain = domain ∧
      ((∃ d ∈ events ++ [e], d.session = i) → ¬ SentAll b i (events ++ [e]) →
        ∃ pu, session.pendingUpload = some pu ∧ pu.blobId = blobId ∧ pu.totalChunks = chunksOf b ∧
          ∀ k < chunksOf b, k ∈ pu.has ↔ Occurs i k (events ++ [e])) := by
  obtain ⟨session, hready, hdomain, hpending⟩ := h.turn i
  refine ⟨session, (Sessions.step_turn_ne cfg sys (Ne.symm hi)).trans hready, hdomain, ?_⟩
  simp only [SentAll, hoccurs]
  rintro ⟨d, hd, hs⟩ hnot
  have hd : d ∈ events := by
    rcases List.mem_append.mp hd with hd | hd
    · exact hd
    · exact absurd (List.mem_singleton.mp hd ▸ hs) hi
  exact hpending ⟨d, hd, hs⟩ hnot

theorem Tracked.put (h : Tracked domain blobId b used events sys) {e : Event ι}
    (he : e.frame = .filePut ⟨blobId, chunksOf b, size⟩) (hfirst : ∀ d ∈ events, d.session ≠ e.session)
    (hsize : chunksOf b ≤ isizeMax)
    (hquota : used + reserved (events ++ [e]) ≤ cfg.quotaFor domain)
    (hlimit : cfg.quotaFor domain < 2 ^ 64) :
    Tracked domain blobId b used (events ++ [e]) (sys.step cfg e) := by
  obtain ⟨session, hready, hdomain, -⟩ := h.turn e.session
  subst hdomain
  have hres : reserved (events ++ [e]) = reserved events + size := by
    simp [reserved, he]
  have hhandle : (sys.turn e.session).handle cfg e.now sys.server e.frame =
      uploadAccepted sys.server session ⟨blobId, chunksOf b, size⟩ := by
    rw [hready, he]
    refine onFilePut_accepted session ?_ hlimit hsize
    rw [h.usage, Nat.add_assoc, ← hres]
    exact hquota
  have hoccurs (i : ι) : SentAll b i (events ++ [e]) ↔ SentAll b i events := by
    simp only [SentAll, Occurs.snoc_put he]
  have hserver : (sys.step cfg e).server =
      (uploadAccepted sys.server session ⟨blobId, chunksOf b, size⟩).server :=
    congrArg Reaction.server hhandle
  have hstore : (sys.step cfg e).server.store session.userDomain =
      (sys.server.store session.userDomain).removeTemp blobId := by
    rw [hserver, uploadAccepted, ServerState.store_setStore]
  refine ⟨?_, fun i => ?_, fun i => ?_, fun hnot => ?_, fun hnot _ => ?_, ?_⟩
  · rw [hserver, uploadAccepted, ServerState.setStore_usageBytes]
    simp only [Function.update_self]
    rw [h.usage, hres, Nat.add_assoc]
  · by_cases hi : e.session = i
    · subst hi
      refine ⟨_, (Sessions.step_turn_self cfg sys e).trans (congrArg Reaction.turn hhandle), rfl, ?_⟩
      intro _ _
      refine ⟨_, rfl, rfl, rfl, fun k _ => ?_⟩
      have hno : ¬ Occurs e.session k events := fun ⟨d, hd, hs, _⟩ => hfirst d hd hs
      rw [Occurs.snoc_put he, PendingUpload.has_newUpload]
      simp [hno]
    · exact h.turn_other hi fun k => Occurs.snoc_put he
  · rw [Sessions.step_logOf, hoccurs, ← h.acked i]
    split
    · rename_i hi
      rw [← hi, hhandle]
      simp [uploadAccepted, putAccepted, completionAck]
    · rw [List.append_nil]
  · rw [hstore]
    exact h.absent fun i => (hoccurs i).not.mp (hnot i)
  · rw [hstore, ServerFs.removeTemp_tmp_self, Option.getD_none, chunksSincePut_put he]
    exact Sparse.Holds.empty chunkSize b
  · intro before d after heq hall hnone
    rcases snoc_eq_append_cons heq with ⟨rfl, rfl, rfl⟩ | ⟨rest, rfl, hsplit⟩
    · exact absurd ((hoccurs _).mp hall) (hnone _)
    · rw [hstore]
      exact h.object before d rest hsplit hall hnone

theorem Tracked.chunk (h : Tracked domain blobId b used events sys) {e : Event ι}
    (he : e.frame = .fileChunk payload) (hidx : chunkIndex payload = some k) (hk : k < chunksOf b)
    (hopen : openChunk cfg.aead (cfg.e2e domain) (payload.drop 4) k = some (Sparse.slice chunkSize b k))
    (hnew : ¬ Occurs e.session k events) (hsome : ∃ d ∈ events, d.session = e.session) :
    Tracked domain blobId b used (events ++ [e]) (sys.step cfg e) := by
  obtain ⟨session, hready, hdomain, hpending⟩ := h.turn e.session
  obtain ⟨pu, hp, rfl, htotal, hhas⟩ := hpending hsome fun hall => hnew (hall k hk)
  subst hdomain
  have hf : pu.received[k]? = some false :=
    pu.received_of_lt (htotal ▸ hk) fun hmem => hnew ((hhas k hk).mp hmem)
  have hlt := lt_chunksOf.mp hk
  generalize hfile : (Sparse.writeAt (((sys.server.store session.userDomain).tmp pu.blobId).getD [])
    (k * chunkSize) (Sparse.slice chunkSize b k) : Bytes) = file
  have hreact : (sys.turn e.session).handle cfg e.now sys.server e.frame =
      if (pu.mark k hf).receivedCount = (pu.mark k hf).totalChunks then
        uploadFinished sys.server session (pu.mark k hf) file
      else chunkWritten sys.server session (pu.mark k hf) file := by
    rw [hready, he]
    exact onFileChunk_fresh sys.server session hp hf hidx hopen hfile
  have hmark (m : Nat) (hm : m < chunksOf b) :
      m ∈ (pu.mark k hf).has ↔ Occurs e.session m (events ++ [e]) := by
    rw [PendingUpload.has_mark, Set.mem_insert_iff, hhas m hm, Occurs.snoc_chunk he hidx]
    tauto
  have hfull : (pu.mark k hf).receivedCount = (pu.mark k hf).totalChunks ↔
      SentAll b e.session (events ++ [e]) := by
    rw [(pu.mark k hf).full_iff, PendingUpload.mark_totalChunks, htotal]
    exact forall₂_congr hmark
  have hother (i : ι) (hi : e.session ≠ i) : SentAll b i (events ++ [e]) ↔ SentAll b i events := by
    simp only [SentAll, Occurs.snoc_chunk he hidx, hi, false_and, or_false]
  have hres : reserved (events ++ [e]) = reserved events := by
    simp [reserved, he]
  have hwritten (hnone : ∀ i, ¬ SentAll b i events) :
      Sparse.Holds chunkSize b (chunksSincePut (events ++ [e])) file := by
    obtain ⟨d, hd, -⟩ := hsome
    have hholds := (h.temp hnone (List.ne_nil_of_mem hd)).writeAt chunkSize_pos hlt
    rwa [hfile, ← chunksSincePut_chunk he hidx] at hholds
  refine ⟨?_, fun i => ?_, fun i => ?_, fun hnot => ?_, fun hnot _ => ?_, ?_⟩
  · rw [hres, ← h.usage, Sessions.step_server, hreact]
    split <;> rfl
  · by_cases hi : e.session = i
    · subst hi
      refine ⟨{ session with
          pendingUpload := if (pu.mark k hf).receivedCount = (pu.mark k hf).totalChunks then none
            else some (pu.mark k hf) }, ?_, rfl, fun _ hnot => ?_⟩
      · rw [Sessions.step_turn_self, hreact]
        split <;> rfl
      · exact ⟨pu.mark k hf, if_neg (hfull.not.mpr hnot), rfl, htotal, hmark⟩
    · exact h.turn_other hi fun m => (Occurs.snoc_chunk he hidx).trans (by simp [hi])
  · rw [Sessions.step_logOf]
    by_cases hi : e.session = i
    · subst hi
      have hnot : ¬ SentAll b e.session events := fun hall => hnew (hall k hk)
      rw [if_pos rfl, hreact, List.mem_append, h.acked, ← hfull]
      by_cases hall : (pu.mark k hf).receivedCount = (pu.mark k hf).totalChunks
      · rw [if_pos hall]
        simp [hall, uploadFinished, completionAck, htotal]
      · rw [if_neg hall]
        simp only [chunkWritten, List.not_mem_nil, or_false, hnot, hall]
    · rw [if_neg hi, List.append_nil, hother i hi]
      exact h.acked i
  · rw [Sessions.step_server, hreact, if_neg (hfull.not.mpr (hnot e.session)), chunkWritten_objects]
    exact h.absent fun i hall => hnot i (hall.mono [e])
  · have htemp : ((chunkWritten sys.server session (pu.mark k hf) file).server.store
        session.userDomain).tmp pu.blobId = some file := chunkWritten_temp
    rw [Sessions.step_server, hreact, if_neg (hfull.not.mpr (hnot e.session)), htemp,
      Option.getD_some]
    exact hwritten fun i hall => hnot i (hall.mono [e])
  · intro before d after heq hall hnone
    rw [Sessions.step_server, hreact]
    rcases snoc_eq_append_cons heq with ⟨rfl, rfl, rfl⟩ | ⟨rest, rfl, hsplit⟩
    · -- The first completion: the object is absent, so this file becomes the object.
      rw [if_pos (hfull.mpr hall)]
      exact ⟨file, uploadFinished_absent (h.absent hnone), hwritten hnone⟩
    · obtain ⟨first, hfirst, hholds⟩ := h.object before d rest hsplit hall hnone
      refine ⟨first, ?_, hholds⟩
      split
      · exact uploadFinished_present hfirst
      · rw [chunkWritten_objects]
        exact hfirst

theorem run_tracked {sys : Sessions ι} (events : List (Event ι)) (hn : 0 < chunksOf b)
    (hsize : chunksOf b ≤ isizeMax)
    (hturn : ∀ i, ∃ session, sys.turn i = .ready session ∧ session.userDomain = domain)
    (hlog : sys.log = []) (habsent : (sys.server.store domain).objects blobId = none)
    (hquota : sys.server.usageBytes domain + reserved events ≤ cfg.quotaFor domain)
    (hlimit : cfg.quotaFor domain < 2 ^ 64) (hup : Uploads cfg domain blobId b events) :
    Tracked domain blobId b (sys.server.usageBytes domain) events
      (run (Sessions.step cfg) sys events) := by
  induction events using List.reverseRecOn with
  | nil => exact Tracked.nil hn hturn hlog habsent
  | append_singleton events e ih =>
    have hih := ih (by rw [reserved_append] at hquota; omega) hup.append
    rw [run_append]
    rcases hup events e [] rfl with ⟨size, he, hfirst⟩ | ⟨payload, k, he, hidx, hk, hopen, hnew, hsome⟩
    · exact hih.put he hfirst hsize hquota hlimit
    · exact hih.chunk he hidx hk hopen hnew hsome

-- ---------------------------------------------------------------------------
-- When the object is intact
-- ---------------------------------------------------------------------------

/-- At every point of the run every session is still served, and once a session
has its completion acknowledged the stored object is `b`. -/
def Intact (cfg : Config) (domain blobId : String) (b : Bytes) (sys : Sessions ι)
    (events : List (Event ι)) : Prop :=
  ∀ before after, events = before ++ after →
    (∀ i, ∃ session, (run (Sessions.step cfg) sys before).turn i = .ready session) ∧
    ∀ i, completionAck blobId b ∈ (run (Sessions.step cfg) sys before).logOf i →
      ((run (Sessions.step cfg) sys before).server.store domain).objects blobId = some b

/-- Sessions of one tenant at the start: all served, nothing logged, the object
not there, and quota for every `FILE_PUT` to come. -/
structure FreshUpload (cfg : Config) (domain blobId : String) (b : Bytes) (sys : Sessions ι)
    (events : List (Event ι)) : Prop where
  nonempty : b ≠ []
  length : b.length ≤ isizeMax
  turn : ∀ i, ∃ session, sys.turn i = .ready session ∧ session.userDomain = domain
  log : sys.log = []
  absent : (sys.server.store domain).objects blobId = none
  quota : sys.server.usageBytes domain + reserved events ≤ cfg.quotaFor domain
  limit : cfg.quotaFor domain < 2 ^ 64
  uploads : Uploads cfg domain blobId b events

theorem FreshUpload.tracked {sys : Sessions ι} {before after : List (Event ι)}
    (h : FreshUpload cfg domain blobId b sys (before ++ after)) :
    Tracked domain blobId b (sys.server.usageBytes domain) before
      (run (Sessions.step cfg) sys before) := by
  refine run_tracked before (chunksOf_pos h.nonempty) ((chunksOf_le b).trans h.length) h.turn h.log
    h.absent ?_ h.limit h.uploads.append
  have hquota := h.quota
  rw [reserved_append] at hquota
  omega

theorem whole_of_intact {sys : Sessions ι} (h : FreshUpload cfg domain blobId b sys events)
    (hi : Intact cfg domain blobId b sys events) : WholeAtFirstCompletion b events := by
  rintro before e after rfl hall hnone
  have hsplit : before ++ e :: after = (before ++ [e]) ++ after := by simp
  rw [hsplit] at h
  have ht := h.tracked
  obtain ⟨file, hfile, hholds⟩ := ht.object before e [] rfl hall hnone
  have hb := (hi (before ++ [e]) after hsplit).2 e.session ((ht.acked e.session).mpr hall)
  rw [hfile] at hb
  exact (hholds.eq_iff chunkSize_pos h.nonempty).mp (Option.some.inj hb)

theorem intact_of_whole {sys : Sessions ι} (h : FreshUpload cfg domain blobId b sys events)
    (hw : WholeAtFirstCompletion b events) : Intact cfg domain blobId b sys events := by
  rintro before after rfl
  have ht := h.tracked
  refine ⟨fun i => ?_, fun i hack => ?_⟩
  · obtain ⟨session, hready, -⟩ := ht.turn i
    exact ⟨session, hready⟩
  · obtain ⟨first, e, rest, rfl, hall, hnone⟩ :=
      exists_first_completion (chunksOf_pos h.nonempty) ((ht.acked i).mp hack)
    obtain ⟨file, hfile, hholds⟩ := ht.object first e rest rfl hall hnone
    have hwhole := hw first e (rest ++ after) (by simp) hall hnone
    rw [hfile, (hholds.eq_iff chunkSize_pos h.nonempty).mpr hwhole]

/-- No session ever fails on account of the others; the object is `b` whenever
an upload completes, exactly if at the first completion the chunks sent since
the last `FILE_PUT` leave out nothing but zeros before the last chunk. -/
theorem intact_iff {sys : Sessions ι} (h : FreshUpload cfg domain blobId b sys events) :
    Intact cfg domain blobId b sys events ↔ WholeAtFirstCompletion b events :=
  ⟨whole_of_intact h, intact_of_whole h⟩

-- ---------------------------------------------------------------------------
-- Two sessions
-- ---------------------------------------------------------------------------

def twoSessions : Sessions Bool :=
  { server := .empty, turn := fun _ => .ready ⟨"acme", "m1", "127.0.0.1:9", none⟩, log := [] }

/-- Two uploads of a single chunk, one behind the other's `FILE_PUT`. -/
theorem intact_iff_three_bytes :
    let events : List (Event Bool) :=
      [⟨true, 0, .filePut ⟨"x", chunksOf [1, 2, 3], 3⟩⟩, ⟨false, 1, .filePut ⟨"x", chunksOf [1, 2, 3], 3⟩⟩,
        ⟨true, 2, chunkFrame [1, 2, 3] 0⟩, ⟨false, 3, chunkFrame [1, 2, 3] 0⟩]
    Intact .default "acme" "x" [1, 2, 3] twoSessions events ↔
      WholeAtFirstCompletion [1, 2, 3] events := by
  intro events
  have hup : Uploads .default "acme" "x" [1, 2, 3] events := by
    have h0 : Uploads .default "acme" "x" [1, 2, 3] ([] : List (Event Bool)) := by
      intro before e after heq
      simp at heq
    have h1 := h0.put_snoc (i := true) 3 0 (by simp)
    have h2 := h1.put_snoc (i := false) 3 1 (by simp)
    have h3 := h2.chunk_snoc (i := true) (k := 0) 2 (by decide) (by decide)
      (by simp [occurs_filePut, occurs_nil]) (by simp)
    exact h3.chunk_snoc (i := false) 3 (by decide) (by decide)
      (by simp [occurs_filePut, occurs_chunkFrame, occurs_nil]) (by simp)
  exact intact_iff
    { nonempty := by decide
      length := by decide
      turn := fun _ => ⟨_, rfl, rfl⟩
      log := rfl
      absent := rfl
      quota := by decide
      limit := by decide
      uploads := hup }

/-- One chunk and one byte, all ones. -/
def overOneChunk : Bytes := List.replicate (chunkSize + 1) 1

theorem chunksOf_overOneChunk : chunksOf overOneChunk = 2 := by
  rw [chunksOf, overOneChunk, List.length_replicate]
  decide

theorem one_mem_slice_overOneChunk : 1 ∈ Sparse.slice chunkSize overOneChunk 0 := by
  rw [Sparse.mem_slice_iff chunkSize_pos]
  refine ⟨0, Nat.zero_div chunkSize, ?_⟩
  rw [overOneChunk, List.getElem?_replicate, if_pos (Nat.succ_pos chunkSize)]

/-- The second `FILE_PUT` removes the first chunk the other session has already
sent; that session completes with zeros in its place. -/
theorem second_put_corrupts_object :
    ¬ ∀ (cfg : Config) (domain blobId : String) (b : Bytes) (sys : Sessions Bool)
      (events : List (Event Bool)), FreshUpload cfg domain blobId b sys events →
      (∀ i, SentAll b i events) → Intact cfg domain blobId b sys events := by
  intro h
  obtain ⟨b, hb⟩ : ∃ b, b = overOneChunk := ⟨_, rfl⟩
  have hn : chunksOf b = 2 := hb ▸ chunksOf_overOneChunk
  have hlen : b.length = chunkSize + 1 := by rw [hb, overOneChunk, List.length_replicate]
  let put : ClientFrame := .filePut ⟨objectId Digest.sha256 b, chunksOf b, chunkSize + 1⟩
  let before : List (Event Bool) := [⟨true, 0, put⟩, ⟨true, 1, chunkFrame b 0⟩, ⟨false, 2, put⟩]
  let last : Event Bool := ⟨true, 3, chunkFrame b 1⟩
  let after : List (Event Bool) := [⟨false, 4, chunkFrame b 0⟩, ⟨false, 5, chunkFrame b 1⟩]
  have hup : Uploads .default "acme" (objectId Digest.sha256 b) b (before ++ last :: after) := by
    have h0 : Uploads .default "acme" (objectId Digest.sha256 b) b ([] : List (Event Bool)) := by
      intro before e after heq
      simp at heq
    have h1 := h0.put_snoc (i := true) (chunkSize + 1) 0 (by simp)
    have h2 := h1.chunk_snoc (i := true) (k := 0) 1 (by omega) (by decide)
      (by simp [occurs_filePut, occurs_nil]) (by simp)
    have h3 := h2.put_snoc (i := false) (chunkSize + 1) 2 (by simp)
    have h4 := h3.chunk_snoc (i := true) (k := 1) 3 (by omega) (by decide)
      (by simp [occurs_filePut, occurs_chunkFrame, occurs_nil]) (by simp)
    have h5 := h4.chunk_snoc (i := false) (k := 0) 4 (by omega) (by decide)
      (by simp [occurs_filePut, occurs_chunkFrame, occurs_nil]) (by simp)
    exact h5.chunk_snoc (i := false) (k := 1) 5 (by omega) (by decide)
      (by simp [occurs_filePut, occurs_chunkFrame, occurs_nil]) (by simp)
  have hquota : 0 + reserved (before ++ last :: after) ≤ 1024 * 1024 * 1024 := by
    have hsum : reserved (before ++ last :: after) = (chunkSize + 1) + (chunkSize + 1) := by
      simp [reserved, before, last, after, put, chunkFrame]
    rw [hsum, chunkSize]
    omega
  have hfresh : FreshUpload .default "acme" (objectId Digest.sha256 b) b twoSessions
      (before ++ last :: after) :=
    { nonempty := List.ne_nil_of_length_pos (by omega)
      length := by rw [hlen, chunkSize, isizeMax]; omega
      turn := fun _ => ⟨_, rfl, rfl⟩
      log := rfl
      absent := rfl
      quota := hquota
      limit := by decide
      uploads := hup }
  have hall (i : Bool) : SentAll b i (before ++ last :: after) := by
    intro k hk
    rw [hn] at hk
    interval_cases k <;> cases i <;>
      simp [before, last, after, put, occurs_filePut, occurs_chunkFrame]
  have hwhole := whole_of_intact hfresh (h _ _ _ _ _ _ hfresh hall)
  have hlast : SentAll b last.session (before ++ [last]) := by
    intro k hk
    rw [hn] at hk
    interval_cases k <;> simp [before, last, put, occurs_filePut, occurs_chunkFrame]
  have hnone (i : Bool) : ¬ SentAll b i before := by
    intro hsent
    have h1 := hsent 1 (by omega)
    simp [before, put, occurs_filePut, occurs_chunkFrame, occurs_nil] at h1
  have hzero := (hwhole before last after rfl hlast hnone).2 0 (by
    rintro ⟨j, hj⟩
    have hsince : sincePut (before ++ [last]) = [last] := rfl
    rw [hsince] at hj
    simp [last, occurs_chunkFrame, occurs_nil] at hj)
  have hone := hzero 1 (hb ▸ one_mem_slice_overOneChunk)
  exact absurd hone (by decide)

end Nsmt.Server
