import Nsmt.Server.Concurrent

/-!
# Reassembling an upload

One session uploads an object `b` behind an accepted `FILE_PUT` while no other
session touches the blob. Its chunks may come in any order, repeatedly, and
among payloads that are too short or out of range. `upload_assembles` says what
that amounts to: the object is stored and acknowledged once, at the chunk that
makes the indices complete.
-/

namespace Nsmt.Server

open Nsmt.Lib Nsmt.Core

variable {ι : Type}

def Occurs (i : ι) (k : Nat) (events : List (Event ι)) : Prop :=
  ∃ e ∈ events, e.session = i ∧ ∃ payload, e.frame = .fileChunk payload ∧ chunkIndex payload = some k

theorem Occurs.cons {i : ι} {e : Event ι} :
    Occurs i k (e :: events) ↔
      (e.session = i ∧ ∃ payload, e.frame = .fileChunk payload ∧ chunkIndex payload = some k) ∨
        Occurs i k events := by
  simp [Occurs]

theorem Occurs.append {i : ι} {a b : List (Event ι)} :
    Occurs i k (a ++ b) ↔ Occurs i k a ∨ Occurs i k b := by
  simp [Occurs, or_and_right, exists_or]

/-- What completing an upload of `b` does: one `put_object` and one
acknowledgement that lists every chunk. -/
def putCompleted (blobId : String) (b : Bytes) : List Effect :=
  [.putObject blobId b,
    .send (.filePutAck { blobId, have_ := List.range (chunksOf b), completed := true })]

-- ---------------------------------------------------------------------------
-- The two states of the upload
-- ---------------------------------------------------------------------------

section
variable (sys : Sessions ι) (i : ι) (session : Session) (blobId : String) (b : Bytes)

/-- The upload runs: the temporary file holds the chunks that are flagged. -/
structure Assembling (pu : PendingUpload) : Prop where
  turn : sys.turn i = .ready { session with pendingUpload := some pu }
  blob : pu.blobId = blobId
  total : pu.totalChunks = chunksOf b
  absent : (sys.server.store session.userDomain).objects blobId = none
  holds : Sparse.Holds chunkSize b pu.has (((sys.server.store session.userDomain).tmp blobId).getD [])

structure Assembled : Prop where
  turn : sys.turn i = .ready { session with pendingUpload := none }
  object : (sys.server.store session.userDomain).objects blobId = some b
  temp : (sys.server.store session.userDomain).tmp blobId = none

end

variable [DecidableEq ι] {sys : Sessions ι} {i : ι}

theorem step_other (cfg : Config) (session : Session) {e : Event ι} (hi : e.session ≠ i)
    (hno : ¬ (sys.turn e.session).touches (sanitize session.userDomain) blobId e.frame) :
    (sys.step cfg e).turn i = sys.turn i ∧
      ((sys.step cfg e).server.store session.userDomain).objects blobId =
        (sys.server.store session.userDomain).objects blobId ∧
      ((sys.step cfg e).server.store session.userDomain).tmp blobId =
        (sys.server.store session.userDomain).tmp blobId ∧
      (sys.step cfg e).logOf i = sys.logOf i := by
  obtain ⟨htmp, hobj⟩ := handle_untouched cfg e.now sys.server (sys.turn e.session) hno
  refine ⟨Sessions.step_turn_ne cfg sys (Ne.symm hi), hobj, htmp, ?_⟩
  rw [Sessions.step_logOf, if_neg hi, List.append_nil]

theorem Assembling.chunk (h : Assembling sys i session blobId b pu)
    (hnot : ¬ ∀ k < chunksOf b, k ∈ pu.has) (now : Nat)
    (hv : ValidChunk cfg session.userDomain b payload) :
    (∃ pu', Assembling (sys.step cfg ⟨i, now, .fileChunk payload⟩) i session blobId b pu' ∧
      (∀ k < chunksOf b, k ∈ pu'.has ↔ k ∈ pu.has ∨ chunkIndex payload = some k) ∧
      (¬ ∀ k < chunksOf b, k ∈ pu'.has) ∧
      (sys.step cfg ⟨i, now, .fileChunk payload⟩).logOf i = sys.logOf i) ∨
    (Assembled (sys.step cfg ⟨i, now, .fileChunk payload⟩) i session blobId b ∧
      (∀ k < chunksOf b, k ∈ pu.has ∨ chunkIndex payload = some k) ∧
      (sys.step cfg ⟨i, now, .fileChunk payload⟩).logOf i =
        sys.logOf i ++ putCompleted blobId b) := by
  obtain ⟨hturn, rfl, htotal, habsent, hholds⟩ := h
  have hhandle : (sys.turn i).handle cfg now sys.server (.fileChunk payload) =
      Session.onFileChunk cfg sys.server { session with pendingUpload := some pu } payload := by
    rw [hturn]
    rfl
  rw [Sessions.step_logOf, if_pos rfl, hhandle]
  simp only [Sessions.step, hhandle]
  rcases hv.cases htotal with hskip | ⟨idx, hf, hidx, hlt, hopen⟩
  · -- The payload is passed over: an upload that is not complete stays so.
    have hfull : pu.receivedCount ≠ pu.totalChunks := by
      rw [ne_eq, pu.full_iff, htotal]
      exact hnot
    rw [onFileChunk_skip sys.server { session with pendingUpload := some pu } rfl hfull hskip]
    refine .inl ⟨pu, ⟨Function.update_self .., rfl, htotal, habsent, hholds⟩, ?_, hnot,
      List.append_nil _⟩
    intro k hk
    exact ⟨.inl, fun hor => hor.elim id fun hidx => hskip k hidx (htotal ▸ hk)⟩
  · have hmem (k : Nat) : k ∈ (pu.mark idx hf).has ↔ k ∈ pu.has ∨ chunkIndex payload = some k := by
      rw [PendingUpload.has_mark, Set.mem_insert_iff, hidx, Option.some.injEq]
      tauto
    rcases onFileChunk_assembles sys.server { session with pendingUpload := some pu } rfl htotal
      hholds hf hidx hopen with ⟨hall, hreact⟩ | ⟨hmissing, file, hwritten, hreact⟩
    · rw [hreact]
      refine .inr ⟨⟨Function.update_self .., ?_, ?_⟩, fun k hk => (hmem k).mp (hall k hk), ?_⟩
      · exact uploadFinished_absent habsent
      · exact uploadFinished_temp
      · rw [uploadFinished, putCompleted, PendingUpload.mark_blobId, PendingUpload.mark_totalChunks,
          htotal]
    · have hstored (temp : Option Bytes) (htemp : temp = some file) :
          Sparse.Holds chunkSize b (pu.mark idx hf).has (temp.getD []) := by
        rw [htemp, Option.getD_some]
        exact hwritten
      rw [hreact]
      refine .inl ⟨pu.mark idx hf, ⟨Function.update_self .., rfl, htotal, ?_, ?_⟩, fun k _ => hmem k,
        hmissing, List.append_nil _⟩
      · exact (congrFun chunkWritten_objects pu.blobId).trans habsent
      · exact hstored _ chunkWritten_temp

theorem Assembled.chunk (h : Assembled sys i session blobId b) (cfg : Config) (now : Nat)
    (payload : Bytes) :
    sys.step cfg ⟨i, now, .fileChunk payload⟩ = sys := by
  have hhandle : (sys.turn i).handle cfg now sys.server (.fileChunk payload) =
      { server := sys.server, turn := sys.turn i, effects := [] } := by
    rw [h.turn]
    rfl
  simp [Sessions.step, hhandle]

-- ---------------------------------------------------------------------------
-- Whole uploads
-- ---------------------------------------------------------------------------

/-- The frames of session `i` are chunks that do `b` no harm. -/
def SendsChunks (cfg : Config) (i : ι) (domain : String) (b : Bytes) (events : List (Event ι)) : Prop :=
  ∀ e ∈ events, e.session = i → ∃ payload, e.frame = .fileChunk payload ∧ ValidChunk cfg domain b payload

def Undisturbed (i : ι) (dir blobId : String) (sys : Sessions ι) (e : Event ι) : Prop :=
  e.session ≠ i → ¬ (sys.turn e.session).touches dir blobId e.frame

theorem run_assembled (h : Assembled sys i session blobId b) (events : List (Event ι))
    (hmine : SendsChunks cfg i session.userDomain b events)
    (hothers : AllSteps (Sessions.step cfg) (Undisturbed i (sanitize session.userDomain) blobId)
      sys events) :
    Assembled (run (Sessions.step cfg) sys events) i session blobId b ∧
      (run (Sessions.step cfg) sys events).logOf i = sys.logOf i := by
  induction events generalizing sys with
  | nil => exact ⟨h, rfl⟩
  | cons e events ih =>
    have hmine' : SendsChunks cfg i session.userDomain b events :=
      fun d hd => hmine d (List.mem_cons_of_mem e hd)
    rw [run_cons]
    by_cases hi : e.session = i
    · obtain ⟨payload, hframe, -⟩ := hmine e (List.mem_cons_self ..) hi
      have hsame : sys.step cfg e = sys := by
        obtain ⟨_, now, _⟩ := e
        obtain rfl := hi.symm
        obtain rfl := hframe
        exact h.chunk cfg now payload
      have hothers' := hothers.2
      rw [hsame] at hothers' ⊢
      exact ih h hmine' hothers'
    · obtain ⟨hturn, hobj, htmp, hlog⟩ := step_other cfg session hi (hothers.1 hi)
      rw [← hlog]
      exact ih ⟨hturn.trans h.turn, hobj.trans h.object, htmp.trans h.temp⟩ hmine' hothers.2

theorem run_assembling (h : Assembling sys i session blobId b pu)
    (hnot : ¬ ∀ k < chunksOf b, k ∈ pu.has) (events : List (Event ι))
    (hmine : SendsChunks cfg i session.userDomain b events)
    (hothers : AllSteps (Sessions.step cfg) (Undisturbed i (sanitize session.userDomain) blobId)
      sys events)
    (hall : ∀ k < chunksOf b, k ∈ pu.has ∨ Occurs i k events) :
    ∃ before last after, events = before ++ last :: after ∧
      (¬ ∀ k < chunksOf b, k ∈ pu.has ∨ Occurs i k before) ∧
      (∀ k < chunksOf b, k ∈ pu.has ∨ Occurs i k (before ++ [last])) ∧
      (run (Sessions.step cfg) sys before).logOf i = sys.logOf i ∧
      (run (Sessions.step cfg) sys (before ++ [last])).logOf i =
        sys.logOf i ++ putCompleted blobId b ∧
      Assembled (run (Sessions.step cfg) sys (before ++ [last])) i session blobId b := by
  induction events generalizing sys pu with
  | nil =>
    refine absurd (fun k hk => ?_) hnot
    exact (hall k hk).resolve_right (by simp [Occurs])
  | cons e events ih =>
    have hmine' : SendsChunks cfg i session.userDomain b events :=
      fun d hd => hmine d (List.mem_cons_of_mem e hd)
    by_cases hi : e.session = i
    · obtain ⟨payload, hframe, hv⟩ := hmine e (List.mem_cons_self ..) hi
      obtain ⟨_, now, _⟩ := e
      obtain rfl := hi.symm
      obtain rfl := hframe
      have hocc (k : Nat) (es : List (Event ι)) : Occurs i k (⟨i, now, .fileChunk payload⟩ :: es) ↔
          chunkIndex payload = some k ∨ Occurs i k es := by
        simp [Occurs.cons]
      rcases h.chunk hnot now hv with ⟨pu', h', hhas, hnot', hlog⟩ | ⟨hdone, hcover, hlog⟩
      · -- One chunk more: go on from the larger set.
        have hstep (k : Nat) (hk : k < chunksOf b) (es : List (Event ι)) :
            (k ∈ pu.has ∨ Occurs i k (⟨i, now, .fileChunk payload⟩ :: es)) ↔
              (k ∈ pu'.has ∨ Occurs i k es) := by
          rw [hhas k hk, hocc, or_assoc]
        obtain ⟨before, last, after, rfl, hfirst, hlast, hquiet, hput, hend⟩ :=
          ih h' hnot' hmine' hothers.2 fun k hk => (hstep k hk events).mp (hall k hk)
        refine ⟨⟨i, now, .fileChunk payload⟩ :: before, last, after, rfl, ?_, ?_, ?_, ?_, hend⟩
        · exact fun hcov => hfirst fun k hk => (hstep k hk before).mp (hcov k hk)
        · exact fun k hk => (hstep k hk (before ++ [last])).mpr (hlast k hk)
        · exact hquiet.trans hlog
        · exact hput.trans (by rw [hlog])
      · -- This is the chunk that was missing.
        refine ⟨[], ⟨i, now, .fileChunk payload⟩, events, rfl, ?_, ?_, rfl, hlog, hdone⟩
        · exact fun hcov => hnot fun k hk => (hcov k hk).resolve_right (by simp [Occurs])
        · exact fun k hk => (hcover k hk).imp_right fun hidx => (hocc k []).mpr (.inl hidx)
    · have hocc (k : Nat) (es : List (Event ι)) : Occurs i k (e :: es) ↔ Occurs i k es := by
        simp [Occurs.cons, hi]
      obtain ⟨hturn, hobj, htmp, hlog⟩ := step_other cfg session hi (hothers.1 hi)
      have h' : Assembling (sys.step cfg e) i session blobId b pu :=
        ⟨hturn.trans h.turn, h.blob, h.total, hobj.trans h.absent, htmp ▸ h.holds⟩
      obtain ⟨before, last, after, rfl, hfirst, hlast, hquiet, hput, hend⟩ :=
        ih h' hnot hmine' hothers.2 fun k hk => (hall k hk).imp_right (hocc k events).mp
      refine ⟨e :: before, last, after, rfl, ?_, ?_, ?_, ?_, hend⟩
      · exact fun hcov => hfirst fun k hk => (hcov k hk).imp_right (hocc k before).mp
      · exact fun k hk => (hlast k hk).imp_right (hocc k (before ++ [last])).mpr
      · exact hquiet.trans hlog
      · exact hput.trans (by rw [hlog])

end Nsmt.Server
