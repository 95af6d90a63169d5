import Nsmt.Client.Push
import Nsmt.Lib.Runs
import Nsmt.System.Download

/-!
# The lock of a push

One call of `push_entry` against any server: the frames it reads are raw, so a
payload may fail to parse, and every send and every read may fail. A rejected
upload is the one way in which the call returns without an error and keeps the
lock: `push_entry_releases_iff`.
-/

namespace Nsmt.System

open Nsmt.Lib Nsmt.Core Nsmt.Client

/-- `payload_json` for the two messages `push_entry` parses. -/
structure PayloadJson where
  ack : Bytes → Option FilePutAck
  error : Bytes → Option ErrorMsg

/-- A call of `push_entry`: where it stands, whether it has returned an error,
the frames it has sent, newest first, and whether the lock was granted. -/
structure PushCall where
  phase : PushPhase
  failed : Bool
  sent : List ClientFrame
  granted : Option Bool

/-- The call does what it can do without waiting, or reads a frame, or the send
or read it is at fails. -/
inductive PushEvent
  | go
  | recv (frame : Frame)
  | fail

namespace PushCall

def start : PushCall := { phase := .acquire, failed := false, sent := [], granted := none }

/-- What a frame does to a call that waits for one; `none` is an error of `payload_json`. -/
def receive (json : PayloadJson) (phase : PushPhase) (frame : Frame) : Option PushPhase :=
  match phase, frame.frameType with
  | .waitLock, .lockDenied => some .returned
  | .waitLock, .lockGranted => some .put
  | .waitAck, .filePutAck => (json.ack frame.payload).map fun ack => .sending ack.have_ 0
  | .waitAck, .error => (json.error frame.payload).map fun _ => .returned
  | .waitDone, .filePutAck => (json.ack frame.payload).map fun _ => .release
  | phase, _ => some phase

/-- The answer to the lock request. -/
def lockAnswer : FrameType → Option Bool
  | .lockGranted => some true
  | .lockDenied => some false
  | _ => none

section
variable (json : PayloadJson) (aead : Aead) (e2e : Option E2EKeys) (p : PushEntry)

def step (c : PushCall) : PushEvent → PushCall
  | .go =>
    if c.failed then c
    else
      match p.work aead e2e c.phase with
      | some (frame, phase) => { c with phase, sent := frame.toList ++ c.sent }
      | none => c
  | .recv frame =>
    if c.failed ∨ c.phase.waiting = false then c
    else
      match receive json c.phase frame with
      | some phase =>
        { c with
          phase
          granted := if c.phase = .waitLock then lockAnswer frame.frameType else c.granted }
      | none => { c with failed := true }
  | .fail => if c.phase = .returned then c else { c with failed := true }

end

def isRelease : ClientFrame → Bool
  | .lockRelease _ => true
  | _ => false

def releases (c : PushCall) : List ClientFrame := c.sent.filter isRelease

/-- `push_entry` has returned `Ok`. -/
def ReturnedOk (c : PushCall) : Prop := c.phase = .returned ∧ c.failed = false

/-- A call that has returned `Ok` with the lock granted has released it once; a
call that was denied it has released nothing. -/
def ReleasesLock (p : PushEntry) (c : PushCall) : Prop :=
  (c.ReturnedOk → c.granted = some true → c.releases = [p.lockRelease]) ∧
    (c.granted = some false → c.releases = [])

/-- The event is no well-formed `ERROR` in reply to `FILE_PUT`. -/
def NotRejected (json : PayloadJson) (c : PushCall) : PushEvent → Prop
  | .recv frame => c.failed = false → c.phase = .waitAck → frame.frameType = .error →
      json.error frame.payload = none
  | .go | .fail => True

/-- On the messages of a server, the call is the one of `PushPhase.recv`. -/
theorem receive_toFrame {json : PayloadJson} {text : ServerFrame → Bytes}
    (hack : ∀ ack, json.ack (text (.filePutAck ack)) = some ack)
    (herror : ∀ e, json.error (text (.error e)) = some e) (phase : PushPhase) (frame : ServerFrame) :
    receive json phase (toFrame text frame) = some (phase.recv frame) := by
  cases phase <;> cases frame <;> simp [receive, toFrame, frameType, PushPhase.recv, hack, herror]

-- ---------------------------------------------------------------------------
-- The lock, phase by phase
-- ---------------------------------------------------------------------------

/-- Who has the lock in a phase, and what was released. -/
def Held (p : PushEntry) (phase : PushPhase) (granted : Option Bool) (releases : List ClientFrame) :
    Prop :=
  match phase with
  | .acquire | .waitLock => granted = none ∧ releases = []
  | .put | .waitAck | .sending _ _ | .waitDone | .release => granted = some true ∧ releases = []
  | .returned =>
    granted = some false ∧ releases = [] ∨ granted = some true ∧ releases = [p.lockRelease]

def Inv (p : PushEntry) (c : PushCall) : Prop := Held p c.phase c.granted c.releases

variable {json : PayloadJson} {aead : Aead} {e2e : Option E2EKeys} {p : PushEntry} {c : PushCall}
  {next : PushPhase} {frame : Frame}

theorem Inv.releasesLock (h : Inv p c) : ReleasesLock p c := by
  refine ⟨fun hok hgranted => ?_, fun hdenied => ?_⟩
  · rw [Inv, hok.1, Held, hgranted] at h
    simpa using h
  · revert h
    unfold Inv Held
    split <;> simp +contextual [hdenied]

theorem Inv.work {sent : Option ClientFrame} (h : Inv p c)
    (hwork : p.work aead e2e c.phase = some (sent, next)) :
    Held p next c.granted ((sent.toList ++ c.sent).filter isRelease) := by
  unfold Inv releases at h
  cases hphase : c.phase with
  | acquire | put =>
    rw [hphase] at h hwork
    cases hwork
    exact h
  | release =>
    rw [hphase] at h hwork
    cases hwork
    exact .inr ⟨h.1, congrArg (p.lockRelease :: ·) h.2⟩
  | sending have_ idx =>
    rw [hphase] at h
    simp only [hphase, PushEntry.work] at hwork
    split at hwork
    · split at hwork <;> cases hwork <;> exact h
    · cases hwork
      exact h
  | waitLock | waitAck | waitDone | returned => simp [hphase, PushEntry.work] at hwork

/-- A phase moves on a frame in the ways it waits for, or stays. -/
theorem receive_cases {phase : PushPhase} (h : receive json phase frame = some next) :
    (phase = .waitLock ∧ frame.frameType = .lockDenied ∧ next = .returned) ∨
    (phase = .waitLock ∧ frame.frameType = .lockGranted ∧ next = .put) ∨
    (phase = .waitAck ∧ frame.frameType = .filePutAck ∧ ∃ have_, next = .sending have_ 0) ∨
    (phase = .waitAck ∧ frame.frameType = .error ∧ json.error frame.payload ≠ none ∧
      next = .returned) ∨
    (phase = .waitDone ∧ frame.frameType = .filePutAck ∧ next = .release) ∨
    (next = phase ∧ (phase = .waitLock → lockAnswer frame.frameType = none)) := by
  unfold receive at h
  split at h
  · cases h
    simp [*]
  · cases h
    simp [*]
  · obtain ⟨ack, -, rfl⟩ := Option.map_eq_some_iff.mp h
    simp [*]
  · obtain ⟨e, he, rfl⟩ := Option.map_eq_some_iff.mp h
    simp [*]
  · obtain ⟨ack, -, rfl⟩ := Option.map_eq_some_iff.mp h
    simp [*]
  · rename_i phase _ _ hdenied hgranted _ _ _
    have hnone (hwait : phase = .waitLock) : lockAnswer frame.frameType = none := by
      unfold lockAnswer
      split
      · exact absurd ‹_› (hgranted hwait)
      · exact absurd ‹_› (hdenied hwait)
      · rfl
    exact .inr (.inr (.inr (.inr (.inr ⟨(Option.some.inj h).symm, hnone⟩))))

/-- A frame keeps the account of the lock, but for a rejection. -/
theorem Inv.receive (h : Inv p c) (hphase : receive json c.phase frame = some next)
    (hreject : c.phase = .waitAck → frame.frameType = .error → json.error frame.payload = none) :
    Held p next (if c.phase = .waitLock then lockAnswer frame.frameType else c.granted)
      c.releases := by
  unfold Inv at h
  obtain ⟨hwait, htype, rfl⟩ | ⟨hwait, htype, rfl⟩ | ⟨hwait, -, have_, rfl⟩ |
    ⟨hwait, htype, herror, -⟩ | ⟨hwait, -, rfl⟩ | ⟨rfl, hsame⟩ := receive_cases hphase
  · rw [hwait] at h
    rw [if_pos hwait, htype]
    exact .inl ⟨rfl, h.2⟩
  · rw [hwait] at h
    rw [if_pos hwait, htype]
    exact ⟨rfl, h.2⟩
  · rw [hwait] at h
    rw [if_neg (by simp [hwait])]
    exact h
  · exact absurd (hreject hwait htype) herror
  · rw [hwait] at h
    rw [if_neg (by simp [hwait])]
    exact h
  · split
    · rename_i hwait
      rw [hsame hwait, hwait]
      rw [hwait] at h
      exact ⟨rfl, h.2⟩
    · exact h

theorem Inv.step {e : PushEvent} (h : Inv p c) (he : c.NotRejected json e) :
    Inv p (c.step json aead e2e p e) := by
  cases e with
  | go =>
    simp only [PushCall.step]
    split
    · exact h
    · split
      · exact h.work ‹_›
      · exact h
  | recv frame =>
    simp only [PushCall.step]
    split
    · exact h
    · rename_i hlive
      split
      · exact h.receive ‹_› (he (by simpa using (not_or.mp hlive).1))
      · exact h
  | fail =>
    simp only [PushCall.step]
    split <;> exact h

/-- A rejected upload: `Ok`, and the lock is kept. -/
theorem Inv.rejected {e : PushEvent} (h : Inv p c) (he : ¬ c.NotRejected json e) :
    ¬ ReleasesLock p (c.step json aead e2e p e) := by
  cases e with
  | go | fail => exact absurd trivial he
  | recv frame =>
    simp only [NotRejected, Classical.not_imp] at he
    obtain ⟨hlive, hwait, htype, herror⟩ := he
    obtain ⟨msg, hmsg⟩ := Option.ne_none_iff_exists'.mp herror
    have hnext : PushCall.receive json c.phase frame = some .returned := by
      simp [PushCall.receive, hwait, htype, hmsg]
    have hstep : c.step json aead e2e p (.recv frame) = { c with phase := .returned } := by
      simp only [PushCall.step, hnext]
      simp [hlive, hwait, PushPhase.waiting]
    unfold Inv at h
    rw [hwait] at h
    intro hreleases
    rw [hstep] at hreleases
    have hone : c.releases = [p.lockRelease] := hreleases.1 ⟨rfl, hlive⟩ h.1
    rw [h.2] at hone
    cases hone

/-- Every state of a run has released the lock as it should if and only if no
`ERROR` ever answers the `FILE_PUT`. -/
theorem push_entry_releases_iff (json : PayloadJson) (aead : Aead) (e2e : Option E2EKeys)
    (p : PushEntry) (events : List PushEvent) :
    AllSteps (step json aead e2e p) (fun c e => ReleasesLock p (c.step json aead e2e p e)) start events ↔
      AllSteps (step json aead e2e p) (NotRejected json) start events := by
  have hstart : Inv p start := ⟨rfl, rfl⟩
  refine AllSteps.iff_of_invariant (Inv p) (fun c e h => ?_) (fun c e h he => h.step he) hstart
  constructor
  · intro hreleases
    by_contra he
    exact h.rejected he hreleases
  · exact fun he => (h.step he).releasesLock

/-- An upload that exceeds the quota. -/
theorem rejected_keeps_lock : ¬ ∀ (json : PayloadJson) (p : PushEntry) (events : List PushEvent),
    ReleasesLock p (run (step json .none none p) start events) := by
  intro h
  have hreleases := (h ⟨fun _ => none, fun _ => some Server.Session.quotaExceeded⟩
    ⟨⟨"a", "x", 0o644, 1, 0⟩, "acme/0/0", [7]⟩
    [.go, .recv ⟨.lockGranted, 0, 0, []⟩, .go, .recv ⟨.error, 0, 0, []⟩]).1 ⟨rfl, rfl⟩ rfl
  cases hreleases

end PushCall

end Nsmt.System
