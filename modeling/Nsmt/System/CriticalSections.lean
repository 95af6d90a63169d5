import Nsmt.Server.Leases
import Nsmt.System.Publish

/-!
# Critical sections of pushes

Between `LOCK_GRANTED` and `LOCK_RELEASE` a client has the path to itself as
long as its lease runs: it never renews it, and it does not ask whether it still
has it. `critical_exclusive` says that this is all there is to it: if no lock is
asked for that another client holds under an expired lease, no two clients are in
the critical section of a path.
-/

namespace Nsmt.System

open Nsmt.Lib Nsmt.Core Nsmt.Server Nsmt.Client

/-- `push_entry` has received `LOCK_GRANTED` and has neither sent `LOCK_RELEASE`
nor returned. -/
def inSection : PushPhase → Bool
  | .put | .waitAck | .sending _ _ | .waitDone | .release => true
  | .acquire | .waitLock | .returned => false

def Critical (path : String) : SyncPush → Prop
  | .pushing _ _ entry phase _ => entry.path = path ∧ inSection phase = true
  | _ => False

instance (path : String) (client : SyncPush) : Decidable (Critical path client) :=
  match client with
  | .pushing _ _ _ _ _ => inferInstanceAs (Decidable (_ ∧ _))
  | .idle | .publishing _ => inferInstanceAs (Decidable False)

/-- The client is in the critical section of the path, or the grant is on its
way to it. -/
def Holds (path : String) (client : SyncPush) (down : List ServerFrame) : Prop :=
  match client with
  | .pushing _ _ entry phase _ => entry.path = path ∧
      (inSection phase = true ∨ phase = .waitLock ∧ ∃ msg, .lockGranted msg ∈ down)
  | _ => False

/-- Clients and server under one clock. `lease` is when the lock expires that a
client was granted last. -/
structure Contest (ι : Type) where
  pubs : Publishers ι
  clock : Nat
  lease : ι → Nat

/-- `cleanup_loop` may have read the clock some time ago. -/
inductive ContestEvent (ι : Type)
  | elapse (ms : Nat)
  | push (i : ι) (tree : FileTree) (content : FileTreeEntry → Bytes)
  | work (i : ι)
  | receive (i : ι)
  | serve (i : ι)
  | broadcast (i : ι) (frame : ServerFrame)
  | cleanup (age : Nat)

def isLockReply : ServerFrame → Bool
  | .lockGranted _ | .lockDenied _ => true
  | _ => false

/-- The answers to lock requests that are on their way. -/
def lockReplies (down : List ServerFrame) : List ServerFrame := down.filter isLockReply

namespace Contest

variable {ι : Type} [DecidableEq ι] (cfg : Config) (who : ι → String)

/-- The lease of client `i` once its next frame has been served. -/
def leaseBehind (s : Contest ι) (i : ι) : Nat :=
  match s.pubs.turn i, s.pubs.up i with
  | .ready session, frame :: _ =>
    match lockReplies (sent (session.handle cfg s.clock s.pubs.server frame).effects) with
    | [.lockGranted msg] => msg.expiresAt
    | _ => s.lease i
  | _, _ => s.lease i

def step (s : Contest ι) : ContestEvent ι → Contest ι
  | .elapse ms => { s with clock := s.clock + ms }
  | .push i tree content => { s with pubs := s.pubs.step cfg who (.push i tree content) }
  | .work i => { s with pubs := s.pubs.step cfg who (.work i) }
  | .receive i => { s with pubs := s.pubs.step cfg who (.receive i) }
  | .serve i =>
    { s with
      pubs := s.pubs.step cfg who (.serve i s.clock)
      lease := Function.update s.lease i (s.leaseBehind cfg i) }
  | .broadcast i frame => { s with pubs := s.pubs.step cfg who (.broadcast i frame) }
  | .cleanup age => { s with pubs := s.pubs.step cfg who (.cleanup (s.clock - age)) }

/-- When a client asks for a path that another one holds, the lease of that one
still runs. -/
def LeaseRuns (s : Contest ι) : ContestEvent ι → Prop
  | .serve j => ∀ session msg up, s.pubs.turn j = .ready session →
      s.pubs.up j = .lockAcquire msg :: up →
        ∀ i, i ≠ j → Holds msg.path (s.pubs.client i) (s.pubs.down i) → s.clock < s.lease i
  | _ => True

end Contest

-- ---------------------------------------------------------------------------
-- The lock frames of one connection
-- ---------------------------------------------------------------------------

/-- The frame neither takes nor gives back a lock. -/
def LockFree : ClientFrame → Prop
  | .lockAcquire _ | .lockRenew _ | .lockRelease _ => False
  | _ => True

/-- The frame takes no lock, and gives back none but one of `who`. -/
def Releasing (who : String) : ClientFrame → Prop
  | .lockRelease msg => msg.requester = who
  | frame => LockFree frame

/-- The client neither waits for a lock nor has one. -/
def Away : SyncPush → Prop
  | .pushing _ _ _ phase _ => phase = .acquire ∨ phase = .returned
  | _ => True

/-- How the client stands to the lock frames on their way: `up` is its queue, the
last argument the answers to lock requests. -/
inductive Tidy (who : String) : SyncPush → List ClientFrame → List ServerFrame → Prop
  | away : Away client → (∀ f ∈ up, Releasing who f) → Tidy who client up []
  | asked : (∀ f ∈ up, Releasing who f) →
    Tidy who (.pushing tree content e .waitLock rest)
      (up ++ [PushEntry.lockAcquire { entry := e, requester := who, bytes := content e }]) []
  | granted : Tidy who (.pushing tree content e .waitLock rest) [] [.lockGranted msg]
  | denied : Tidy who (.pushing tree content e .waitLock rest) [] [.lockDenied msg]
  | critical : inSection phase = true → (∀ f ∈ up, LockFree f) →
    Tidy who (.pushing tree content e phase rest) up []

section
variable {who : String} {client client' : SyncPush} {up : List ClientFrame} {down : List ServerFrame}
  {frame : ClientFrame} {phase : PushPhase}

theorem lockReplies_append (a b : List ServerFrame) :
    lockReplies (a ++ b) = lockReplies a ++ lockReplies b :=
  List.filter_append ..

theorem holds_lockReplies (path : String) (client : SyncPush) (down : List ServerFrame) :
    Holds path client (lockReplies down) ↔ Holds path client down := by
  cases client with
  | pushing tree content e phase rest => simp [Holds, lockReplies, isLockReply]
  | idle => exact .rfl
  | publishing tree => exact .rfl

theorem Away.not_holds (h : Away client) : ¬ Holds path client down := by
  cases client with
  | pushing tree content e phase rest =>
    rintro ⟨-, hsection | ⟨hwait, -⟩⟩
    · rcases h with rfl | rfl <;> cases hsection
    · rcases h with rfl | rfl <;> cases hwait
  | idle => exact id
  | publishing tree => exact id

/-- A client that waits holds nothing until the grant is on its way. -/
theorem not_holds_waitLock (h : ∀ msg, .lockGranted msg ∉ down) :
    ¬ Holds path (.pushing tree content e .waitLock rest) down := by
  rintro ⟨-, hsection | ⟨-, msg, hmsg⟩⟩
  · cases hsection
  · exact h msg hmsg

theorem LockFree.releasing (h : LockFree frame) : Releasing who frame := by
  cases frame with
  | lockAcquire _ | lockRenew _ | lockRelease _ => cases h
  | _ => trivial

theorem inSection_work (hphase : inSection phase = true)
    (hw : PushEntry.work aead e2e p phase = some (out, phase')) :
    (inSection phase' = true ∧ ∀ f ∈ out.toList, LockFree f) ∨
      (phase' = .returned ∧ out = some p.lockRelease) := by
  cases phase with
  | put =>
    cases hw
    exact .inl ⟨rfl, by simp [LockFree]⟩
  | sending have_ idx =>
    simp only [PushEntry.work] at hw
    split at hw
    · split at hw
      · cases hw
        exact .inl ⟨rfl, by simp⟩
      · cases hw
        exact .inl ⟨rfl, by simp [PushEntry.fileChunk, LockFree]⟩
    · cases hw
      exact .inl ⟨rfl, by simp⟩
  | release =>
    cases hw
    exact .inr ⟨rfl, rfl⟩
  | waitAck | waitDone => cases hw
  | acquire | waitLock | returned => cases hphase

theorem Away.next (tree : FileTree) (content : FileTreeEntry → Bytes) (rest : List FileTreeEntry) :
    Away (.next tree content rest) := by
  cases rest with
  | nil => trivial
  | cons e rest => exact .inl rfl

theorem Tidy.start (h : Tidy who .idle up down) (tree : FileTree) (content : FileTreeEntry → Bytes) :
    Tidy who (.start tree content) up down ∧ ∀ path, ¬ Holds path (.start tree content) down := by
  have hstart := Away.next tree content tree.entries
  cases h with
  | away _ hup => exact ⟨.away hstart hup, fun _ => hstart.not_holds⟩

theorem Tidy.work (h : Tidy who client up down)
    (hw : client.work aead e2e who = some (out, client')) :
    Tidy who client' (up ++ out.toList) down ∧
      ∀ path, Holds path client' down → Holds path client down := by
  cases h with
  | @away _ up haway hup =>
    cases client with
    | idle => cases hw
    | publishing tree =>
      cases hw
      exact ⟨.away trivial (List.forall_mem_append.mpr ⟨hup, by simp [Releasing, LockFree]⟩),
        fun _ hholds => hholds.elim⟩
    | pushing tree content e phase rest =>
      rcases haway with rfl | rfl
      · cases hw
        exact ⟨.asked hup, fun _ hholds => absurd hholds (not_holds_waitLock (by simp))⟩
      · cases hw
        have hnext := Away.next tree content rest
        rw [Option.toList_none, List.append_nil]
        exact ⟨.away hnext hup, fun _ hholds => absurd hholds hnext.not_holds⟩
  | @critical phase up tree content e rest hphase hup =>
    have hne : phase ≠ .returned := by
      rintro rfl
      cases hphase
    simp only [SyncPush.work, if_neg hne, Option.map_eq_some_iff] at hw
    obtain ⟨⟨out', phase'⟩, hw, hout⟩ := hw
    cases hout
    have hup' : ∀ f ∈ up, Releasing who f := fun f hf => (hup f hf).releasing
    refine ⟨?_, fun _ hholds => ⟨hholds.1, .inl hphase⟩⟩
    rcases inSection_work hphase hw with ⟨hphase', hfree⟩ | ⟨rfl, rfl⟩
    · exact .critical hphase' (List.forall_mem_append.mpr ⟨hup, hfree⟩)
    · exact .away (.inr rfl) (List.forall_mem_append.mpr
        ⟨hup', by simp [PushEntry.lockRelease, Releasing]⟩)
  | asked | granted | denied => cases hw

theorem waitLock_recv {frame : ServerFrame} (h : isLockReply frame = false) :
    PushPhase.recv .waitLock frame = .waitLock := by
  cases frame with
  | lockGranted _ | lockDenied _ => cases h
  | _ => rfl

theorem inSection_recv (hphase : inSection phase = true) (frame : ServerFrame) :
    inSection (phase.recv frame) = true ∨ phase.recv frame = .returned := by
  cases phase with
  | waitAck =>
    cases frame with
    | error _ => exact .inr rfl
    | _ => exact .inl rfl
  | waitDone => cases frame <;> exact .inl rfl
  | put | sending _ _ | release => exact .inl rfl
  | acquire | waitLock | returned => cases hphase

theorem Tidy.receive {frame : ServerFrame} (h : Tidy who client up (lockReplies (frame :: down)))
    (hwait : client.waiting = true) :
    Tidy who (client.recv frame) up (lockReplies down) ∧
      ∀ path, Holds path (client.recv frame) (lockReplies down) →
        Holds path client (lockReplies (frame :: down)) := by
  cases hb : isLockReply frame with
  | true =>
    simp only [lockReplies, List.filter_cons, hb, if_true] at h ⊢
    generalize List.filter isLockReply down = replies at h ⊢
    generalize hframes : frame :: replies = frames at h ⊢
    cases h with
    | granted =>
      cases hframes
      exact ⟨.critical rfl (by simp), fun _ hholds =>
        ⟨hholds.1, .inr ⟨rfl, _, List.mem_singleton_self _⟩⟩⟩
    | denied =>
      cases hframes
      exact ⟨.away (.inr rfl) (by simp), fun _ hholds => absurd hholds (Away.not_holds (.inr rfl))⟩
    | away | asked | critical => cases hframes
  | false =>
    simp only [lockReplies, List.filter_cons, hb, Bool.false_eq_true, if_false] at h ⊢
    generalize List.filter isLockReply down = replies at h ⊢
    cases h with
    | away haway hup =>
      cases client with
      | idle | publishing _ => cases hwait
      | pushing tree content e phase rest => rcases haway with rfl | rfl <;> cases hwait
    | asked hup =>
      rw [SyncPush.recv, waitLock_recv hb]
      exact ⟨.asked hup, fun _ => id⟩
    | granted =>
      rw [SyncPush.recv, waitLock_recv hb]
      exact ⟨.granted, fun _ => id⟩
    | denied =>
      rw [SyncPush.recv, waitLock_recv hb]
      exact ⟨.denied, fun _ => id⟩
    | critical hphase hup =>
      refine ⟨?_, fun _ hholds => ⟨hholds.1, .inl hphase⟩⟩
      rcases inSection_recv hphase frame with hnext | hnext
      · exact .critical hnext hup
      · exact .away (.inr hnext) fun f hf => (hup f hf).releasing

/-- The frame the server handles next: it has nothing to do with locks, it gives
one back that the client does not hold, or it asks for one and is the last. -/
theorem Tidy.head (h : Tidy who client (frame :: up) down) :
    (Tidy who client up down ∧ (LockFree frame ∨
      (∃ msg, frame = .lockRelease msg ∧ msg.requester = who) ∧ ∀ path, ¬ Holds path client down)) ∨
    ∃ tree content e rest, client = .pushing tree content e .waitLock rest ∧ up = [] ∧ down = [] ∧
      frame = PushEntry.lockAcquire { entry := e, requester := who, bytes := content e } := by
  have hreleasing (hf : Releasing who frame) :
      LockFree frame ∨ ∃ msg, frame = .lockRelease msg ∧ msg.requester = who := by
    cases frame with
    | lockRelease msg => exact .inr ⟨msg, rfl, hf⟩
    | _ => exact .inl hf
  generalize hframes : frame :: up = frames at h
  cases h with
  | away haway hup =>
    subst hframes
    obtain ⟨hf, hup⟩ := List.forall_mem_cons.mp hup
    exact .inl ⟨.away haway hup, (hreleasing hf).imp_right fun hmsg => ⟨hmsg, fun _ => haway.not_holds⟩⟩
  | @asked before _ _ _ _ hup =>
    cases before with
    | nil =>
      cases hframes
      exact .inr ⟨_, _, _, _, rfl, rfl, rfl, rfl⟩
    | cons f before =>
      cases hframes
      obtain ⟨hf, hup⟩ := List.forall_mem_cons.mp hup
      exact .inl ⟨.asked hup, (hreleasing hf).imp_right fun hmsg => ⟨hmsg, fun _ => not_holds_waitLock (by simp)⟩⟩
  | critical hphase hup =>
    subst hframes
    obtain ⟨hf, hup⟩ := List.forall_mem_cons.mp hup
    exact .inl ⟨.critical hphase hup, .inl hf⟩
  | granted | denied => cases hframes

-- ---------------------------------------------------------------------------
-- One turn of the server
-- ---------------------------------------------------------------------------

theorem complete_locks (server : ServerState) (session : Session) (pu : PendingUpload) :
    (session.complete server pu).server.locks = server.locks ∧
      lockReplies (sent (session.complete server pu).effects) = [] := by
  unfold Session.complete
  split
  · exact ⟨rfl, rfl⟩
  · exact ⟨rfl, rfl⟩

theorem LockFree.handle (h : LockFree frame) (cfg : Config) (now : Nat) (session : Session)
    (server : ServerState) :
    (session.handle cfg now server frame).server.locks = server.locks ∧
      lockReplies (sent (session.handle cfg now server frame).effects) = [] := by
  cases frame with
  | lockAcquire _ | lockRenew _ | lockRelease _ => cases h
  | fileChunk payload =>
    simp only [Session.handle, Session.onFileChunk]
    split
    · exact ⟨rfl, rfl⟩
    · split
      · exact ⟨rfl, rfl⟩
      · split
        · exact complete_locks ..
        · exact ⟨rfl, rfl⟩
  | heartbeat =>
    refine ⟨?_, rfl⟩
    simp only [Session.handle, Session.stay, ServerState.heartbeat]
    split <;> rfl
  | fileTree tree =>
    simp only [Session.handle, Session.onFileTree]
    split <;> exact ⟨rfl, rfl⟩
  | fileDiff msg =>
    simp only [Session.handle, Session.onFileDiff]
    split <;> exact ⟨rfl, rfl⟩
  | fileGet msg =>
    simp only [Session.handle, Session.onFileGet]
    split
    · exact ⟨rfl, rfl⟩
    · split <;> exact ⟨rfl, rfl⟩
  | filePut msg =>
    have hlocks := ServerState.tryReserveQuota_locks cfg server session.userDomain msg.size
    simp only [Session.handle, Session.onFilePut]
    split
    · rename_i heq
      rw [heq] at hlocks
      exact ⟨hlocks, rfl⟩
    · rename_i heq
      rw [heq] at hlocks
      split <;> exact ⟨hlocks, rfl⟩
  | malformed => exact ⟨rfl, rfl⟩
  | unhandled => exact ⟨rfl, rfl⟩

/-- A lock that is granted was free, expired, or the requester's own. -/
theorem handle_acquire (cfg : Config) (now : Nat) (server : ServerState) (session : Session)
    (msg : LockAcquire) :
    let r := session.handle cfg now server (.lockAcquire msg)
    (∃ expiresAt, r.server.locks = Function.update server.locks msg.path
        (some { holder := msg.requester, expiresAt }) ∧
      lockReplies (sent r.effects) = [.lockGranted { path := msg.path, expiresAt }] ∧
      ∀ held, server.locks msg.path = some held → now < held.expiresAt →
        held.holder = msg.requester) ∨
    ∃ holder, r.server.locks = server.locks ∧
      lockReplies (sent r.effects) = [.lockDenied { path := msg.path, holder }] := by
  by_cases hfree : ∀ held, server.locks msg.path = some held → now < held.expiresAt →
      held.holder = msg.requester
  · simp only [Session.handle, Session.onLockAcquire, LockRegistry.acquire_granted hfree]
    exact .inl ⟨_, rfl, rfl, hfree⟩
  · push Not at hfree
    obtain ⟨⟨holder, expiresAt⟩, hl, hlease, hne⟩ := hfree
    simp only [Session.handle, Session.onLockAcquire,
      LockRegistry.acquire_denied hl hlease (Ne.symm hne)]
    exact .inr ⟨holder, rfl, rfl⟩

theorem release_foreign {locks : LockRegistry} {path requester : String} (p : String)
    (h : ∀ held, locks path = some held → held.holder ≠ requester) :
    (locks.release p requester).2 path = locks path := by
  by_cases hp : path = p
  · subst hp
    cases hl : locks path with
    | none => simp only [LockRegistry.release, hl]
    | some held =>
      rw [LockRegistry.release_denied hl (Ne.symm (h held hl))]
      exact hl
  · exact LockRegistry.release_other hp requester

end

-- ---------------------------------------------------------------------------
-- Runs
-- ---------------------------------------------------------------------------

namespace Contest

variable {ι : Type} [DecidableEq ι] {cfg : Config} {who : ι → String}

def Held (s : Contest ι) (i : ι) (path : String) : Prop :=
  Holds path (s.pubs.client i) (lockReplies (s.pubs.down i))

/-- The invariant: a path has one holder at most, whose entry stays in the
registry until its lease has expired. -/
structure Exclusive (who : ι → String) (s : Contest ι) : Prop where
  tidy : ∀ i, Tidy (who i) (s.pubs.client i) (s.pubs.up i) (lockReplies (s.pubs.down i))
  alone : ∀ i j path, s.Held i path → s.Held j path → i = j
  leased : ∀ i path, s.Held i path →
    s.pubs.server.locks path = some { holder := who i, expiresAt := s.lease i } ∨
      (s.pubs.server.locks path = none ∧ s.lease i ≤ s.clock)

omit [DecidableEq ι] in
/-- Changes on the side of one client, and in the registry of paths that nobody
holds. -/
theorem Exclusive.of_client {s s' : Contest ι} (h : Exclusive who s) (i : ι)
    (hlocks : ∀ j path, s.Held j path → s'.pubs.server.locks path = s.pubs.server.locks path)
    (hclock : s'.clock = s.clock) (hlease : s'.lease = s.lease)
    (hother : ∀ j, j ≠ i → s'.pubs.client j = s.pubs.client j ∧ s'.pubs.up j = s.pubs.up j ∧
      s'.pubs.down j = s.pubs.down j)
    (hmine : Tidy (who i) (s'.pubs.client i) (s'.pubs.up i) (lockReplies (s'.pubs.down i)) ∧
      ∀ path, s'.Held i path → s.Held i path) : Exclusive who s' := by
  have hheld (j : ι) (path : String) (hj : s'.Held j path) : s.Held j path := by
    by_cases hij : j = i
    · subst hij
      exact hmine.2 path hj
    · obtain ⟨hclient, -, hdown⟩ := hother j hij
      rwa [Held, hclient, hdown] at hj
  refine ⟨fun j => ?_, fun j k path hj hk => h.alone j k path (hheld j path hj) (hheld k path hk),
    fun j path hj => ?_⟩
  · by_cases hij : j = i
    · subst hij
      exact hmine.1
    · obtain ⟨hclient, hup, hdown⟩ := hother j hij
      rw [hclient, hup, hdown]
      exact h.tidy j
  · rw [hlocks j path (hheld j path hj), hclock, hlease]
    exact h.leased j path (hheld j path hj)

theorem Exclusive.cleanup {s : Contest ι} (h : Exclusive who s) (age : Nat) :
    Exclusive who (s.step cfg who (.cleanup age)) := by
  refine ⟨h.tidy, h.alone, fun i path hi => ?_⟩
  simp only [step, Publishers.step, LockRegistry.cleanup]
  rcases h.leased i path hi with hl | ⟨hl, hexpired⟩
  · rw [hl, Option.filter_some]
    split
    · exact .inl rfl
    · rename_i hexpired
      simp only [decide_eq_true_eq] at hexpired
      exact .inr ⟨rfl, by omega⟩
  · exact .inr ⟨by rw [hl, Option.filter_none], hexpired⟩

theorem step_serve (cfg : Config) (who : ι → String) {s : Contest ι} (hready : s.pubs.turn i = .ready session)
    (hup : s.pubs.up i = frame :: up) :
    let r := session.handle cfg s.clock s.pubs.server frame
    let s' := s.step cfg who (.serve i)
    s'.pubs.server = r.server ∧ s'.pubs.client = s.pubs.client ∧
      s'.pubs.up = Function.update s.pubs.up i up ∧
      s'.pubs.down = Function.update s.pubs.down i (s.pubs.down i ++ sent r.effects) ∧
      s'.clock = s.clock ∧
      s'.lease = Function.update s.lease i (match lockReplies (sent r.effects) with
        | [.lockGranted msg] => msg.expiresAt
        | _ => s.lease i) := by
  simp only [step, Publishers.step, leaseBehind, hready, hup, and_self]

/-- A frame that asks for no lock changes nothing about who holds what. -/
theorem Exclusive.serve_quiet {s : Contest ι} (h : Exclusive who s)
    (hwho : ∀ i j, who i = who j → i = j) (hready : s.pubs.turn i = .ready session)
    (hup : s.pubs.up i = frame :: up)
    (htidy : Tidy (who i) (s.pubs.client i) up (lockReplies (s.pubs.down i)))
    (hquiet : LockFree frame ∨ (∃ msg, frame = .lockRelease msg ∧ msg.requester = who i) ∧
      ∀ path, ¬ s.Held i path) : Exclusive who (s.step cfg who (.serve i)) := by
  obtain ⟨hserver, hclient, hup', hdown, hclock, hlease⟩ :=
    step_serve cfg who hready hup
  generalize s.step cfg who (.serve i) = s' at hserver hclient hup' hdown hclock hlease ⊢
  -- There is no answer about a lock, and the entries of holders stay.
  obtain ⟨hnone, hlocks⟩ : lockReplies (sent (session.handle cfg s.clock s.pubs.server frame).effects) = [] ∧
      ∀ j path, s.Held j path → s'.pubs.server.locks path = s.pubs.server.locks path := by
    rw [hserver]
    rcases hquiet with hfree | ⟨⟨msg, rfl, hmsg⟩, hnot⟩
    · obtain ⟨hlocks, hnone⟩ := hfree.handle cfg s.clock session s.pubs.server
      exact ⟨hnone, fun _ _ _ => by rw [hlocks]⟩
    · refine ⟨rfl, fun j path hj => release_foreign msg.path fun held hl hholder => ?_⟩
      rcases h.leased j path hj with hentry | ⟨hentry, -⟩
      · obtain rfl := Option.some.inj (hl.symm.trans hentry)
        obtain rfl := hwho j i (hholder.trans hmsg)
        exact hnot path hj
      · cases hl.symm.trans hentry
  rw [hnone, Function.update_eq_self] at hlease
  refine h.of_client i hlocks hclock hlease (fun j hj => ?_) ?_
  · rw [hclient, hup', hdown, Function.update_of_ne hj, Function.update_of_ne hj]
    exact ⟨rfl, rfl, rfl⟩
  · have hreplies : lockReplies (s'.pubs.down i) = lockReplies (s.pubs.down i) := by
      rw [hdown, Function.update_self, lockReplies_append, hnone, List.append_nil]
    rw [hclient, hup', Function.update_self, hreplies]
    refine ⟨htidy, fun path hheld => ?_⟩
    rwa [Held, hclient, hreplies] at hheld

theorem Exclusive.serve_acquire {s : Contest ι} (h : Exclusive who s)
    (hwho : ∀ i j, who i = who j → i = j) (hready : s.pubs.turn i = .ready session)
    (hclient : s.pubs.client i = .pushing tree content e .waitLock rest)
    (hup : s.pubs.up i = [PushEntry.lockAcquire { entry := e, requester := who i, bytes := content e }])
    (hnone : lockReplies (s.pubs.down i) = [])
    (hruns : s.LeaseRuns (.serve i)) : Exclusive who (s.step cfg who (.serve i)) := by
  have hruns := hruns session _ [] hready hup
  obtain ⟨hserver, hclient', hup', hdown, hclock, hlease⟩ :=
    step_serve cfg who hready hup
  have hacquire := handle_acquire cfg s.clock s.pubs.server session
    { path := e.path, requester := who i, ttlMs := 30000 }
  simp only [PushEntry.lockAcquire] at hserver hdown hlease
  generalize s.step cfg who (.serve i) = s' at hserver hclient' hup' hdown hclock hlease ⊢
  generalize session.handle cfg s.clock s.pubs.server
    (.lockAcquire { path := e.path, requester := who i, ttlMs := 30000 }) = r at hserver hdown hlease hacquire
  have hreplies : lockReplies (s'.pubs.down i) = lockReplies (sent r.effects) := by
    rw [hdown, Function.update_self, lockReplies_append, hnone, List.nil_append]
  have hother {j : ι} (hj : j ≠ i) (path : String) : s'.Held j path ↔ s.Held j path := by
    rw [Held, Held, hclient', hdown, Function.update_of_ne hj]
  have htidy {j : ι} (hj : j ≠ i) :
      Tidy (who j) (s'.pubs.client j) (s'.pubs.up j) (lockReplies (s'.pubs.down j)) := by
    rw [hclient', hup', hdown, Function.update_of_ne hj, Function.update_of_ne hj]
    exact h.tidy j
  rcases hacquire with ⟨expiresAt, hlocks, hgranted, hfree⟩ | ⟨holder, hlocks, hdenied⟩
  · -- Nobody else holds the path: its entry would still be there.
    have hsole {j : ι} (hj : j ≠ i) : ¬ s.Held j e.path := by
      intro hheld
      have hrunning := hruns j hj ((holds_lockReplies ..).mp hheld)
      rcases h.leased j e.path hheld with hentry | ⟨-, hexpired⟩
      · exact hj (hwho j i (hfree _ hentry hrunning))
      · omega
    rw [hgranted] at hreplies
    have hmine (path : String) (hi : s'.Held i path) : path = e.path := by
      rw [Held, hclient', hclient] at hi
      exact hi.1.symm
    refine ⟨fun j => ?_, fun j k path hj hk => ?_, fun j path hj => ?_⟩
    · by_cases hj : j = i
      · subst hj
        rw [hclient', hclient, hreplies, hup', Function.update_self]
        exact .granted
      · exact htidy hj
    · by_cases hji : j = i
      · subst hji
        by_contra hne
        obtain rfl := hmine path hj
        exact hsole (Ne.symm hne) ((hother (Ne.symm hne) _).mp hk)
      · by_cases hki : k = i
        · subst hki
          obtain rfl := hmine path hk
          exact absurd ((hother hji _).mp hj) (hsole hji)
        · exact h.alone j k path ((hother hji path).mp hj) ((hother hki path).mp hk)
    · rw [hserver, hlocks, hlease, hclock]
      by_cases hji : j = i
      · subst hji
        obtain rfl := hmine path hj
        rw [Function.update_self, Function.update_self, hgranted]
        exact .inl rfl
      · have hheld := (hother hji path).mp hj
        have hpath : path ≠ e.path := by
          rintro rfl
          exact hsole hji hheld
        rw [Function.update_of_ne hpath, Function.update_of_ne hji]
        exact h.leased j path hheld
  · rw [hdenied] at hreplies hlease
    refine h.of_client i (fun _ _ _ => by rw [hserver, hlocks]) hclock
      (hlease.trans (Function.update_eq_self ..)) (fun j hj => ?_) ?_
    · rw [hclient', hup', hdown, Function.update_of_ne hj, Function.update_of_ne hj]
      exact ⟨rfl, rfl, rfl⟩
    · simp only [Held, hclient', hclient, hreplies, hup', Function.update_self]
      exact ⟨.denied, fun path hholds => absurd hholds (not_holds_waitLock (by simp))⟩

theorem Exclusive.serve {s : Contest ι} (h : Exclusive who s) (hwho : ∀ i j, who i = who j → i = j)
    (hruns : s.LeaseRuns (.serve i)) : Exclusive who (s.step cfg who (.serve i)) := by
  cases hready : s.pubs.turn i with
  | failed | panicked =>
    simp only [step, Publishers.step, leaseBehind, hready, Function.update_eq_self]
    exact h
  | ready session =>
    cases hup : s.pubs.up i with
    | nil =>
      simp only [step, Publishers.step, leaseBehind, hready, hup, Function.update_eq_self]
      exact h
    | cons frame up =>
      have htidy := h.tidy i
      rw [hup] at htidy
      rcases htidy.head with ⟨htidy, hquiet⟩ | ⟨tree, content, e, rest, hclient, rfl, hnone, rfl⟩
      · exact h.serve_quiet hwho hready hup htidy hquiet
      · exact h.serve_acquire hwho hready hclient hup hnone hruns

theorem Exclusive.step {s : Contest ι} (h : Exclusive who s) (hwho : ∀ i j, who i = who j → i = j)
    {event : ContestEvent ι} (hruns : s.LeaseRuns event) : Exclusive who (s.step cfg who event) := by
  cases event with
  | elapse ms =>
    refine ⟨h.tidy, h.alone, fun i path hi => ?_⟩
    exact (h.leased i path hi).imp_right fun ⟨hl, hexpired⟩ => ⟨hl, Nat.le_add_right_of_le hexpired⟩
  | push i tree content =>
    simp only [Contest.step, Publishers.step]
    split
    · rename_i hidle
      have htidy := h.tidy i
      rw [hidle] at htidy
      obtain ⟨htidy, hnot⟩ := htidy.start tree content
      refine h.of_client i (fun _ _ _ => rfl) rfl rfl (fun j hj => by simp [hj]) ?_
      simp only [Held, Function.update_self]
      exact ⟨htidy, fun path hholds => absurd hholds (hnot path)⟩
    · exact h
  | work i =>
    simp only [Contest.step, Publishers.step]
    split
    · exact h
    · rename_i out client hw
      obtain ⟨htidy, hheld⟩ := (h.tidy i).work hw
      refine h.of_client i (fun _ _ _ => rfl) rfl rfl (fun j hj => by simp [hj]) ?_
      simp only [Held, Function.update_self]
      exact ⟨htidy, hheld⟩
  | receive i =>
    simp only [Contest.step, Publishers.step]
    split
    · rename_i frame down hwait hdown
      have htidy := h.tidy i
      rw [hdown] at htidy
      obtain ⟨htidy, hheld⟩ := htidy.receive hwait
      refine h.of_client i (fun _ _ _ => rfl) rfl rfl (fun j hj => by simp [hj]) ?_
      simp only [Held, Function.update_self, hdown]
      exact ⟨htidy, hheld⟩
    · exact h
  | serve i => exact h.serve hwho hruns
  | broadcast i frame =>
    simp only [Contest.step, Publishers.step]
    split
    · rename_i hb
      have hsame : lockReplies (s.pubs.down i ++ [frame]) = lockReplies (s.pubs.down i) := by
        rw [lockReplies_append]
        cases frame with
        | lockNotify _ | onlineDelta _ | peerHint _ => exact List.append_nil _
        | _ => cases hb
      refine h.of_client i (fun _ _ _ => rfl) rfl rfl (fun j hj => by simp [hj]) ?_
      simp only [Held, Function.update_self, hsame]
      exact ⟨h.tidy i, fun _ => id⟩
    · exact h
  | cleanup age => exact h.cleanup age

structure Fresh (s : Contest ι) : Prop where
  client : ∀ i, s.pubs.client i = .idle
  up : ∀ i, s.pubs.up i = []
  down : ∀ i, s.pubs.down i = []

omit [DecidableEq ι] in
theorem Fresh.exclusive {s : Contest ι} (h : Fresh s) (who : ι → String) : Exclusive who s := by
  have hnot (i : ι) (path : String) : ¬ s.Held i path := by
    rw [Held, h.client]
    exact Away.not_holds trivial
  refine ⟨fun i => ?_, fun i j path hi => absurd hi (hnot i path), fun i path hi => absurd hi (hnot i path)⟩
  rw [h.client, h.up, h.down]
  exact .away trivial (by simp)

omit [DecidableEq ι] in
theorem Held.of_critical {s : Contest ι} (h : Critical path (s.pubs.client i)) : s.Held i path := by
  rw [Held]
  cases hclient : s.pubs.client i with
  | pushing tree content e phase rest =>
    rw [hclient] at h
    exact ⟨h.1, .inl h.2⟩
  | idle | publishing _ =>
    rw [hclient] at h
    exact h.elim

/-- In every run in which no client asks for a path that another one holds under
an expired lease, no two clients are in the critical section of a path. -/
theorem critical_exclusive {s : Contest ι} (hwho : ∀ i j, i ≠ j → who i ≠ who j) (hstart : Fresh s)
    (hall : AllSteps (step cfg who) LeaseRuns s events) (hne : i ≠ j) (path : String) :
    let after := run (step cfg who) s events
    ¬ (Critical path (after.pubs.client i) ∧ Critical path (after.pubs.client j)) := by
  have hinj (i j : ι) (h : who i = who j) : i = j := by
    by_contra hne
    exact hwho i j hne h
  have hinv := run_invariant (Exclusive who) (fun s _ h hruns => h.step hinj hruns)
    (hstart.exclusive who) hall
  rintro after ⟨hi, hj⟩
  exact hne (hinv.alone i j path (Held.of_critical hi) (Held.of_critical hj))

def newcomers : Contest Bool where
  pubs := Publishers.twoClients
  clock := 0
  lease := fun _ => 0

theorem newcomers_fresh : Fresh newcomers where
  client _ := rfl
  up _ := rfl
  down _ := rfl

/-- One client is granted `a`; the other one asks for it `ms` later. -/
def askedBehind (ms : Nat) : List (ContestEvent Bool) :=
  [.push true (Publishers.byteTree 1) (fun _ => [1]), .work true, .serve true, .receive true,
    .elapse ms, .push false (Publishers.byteTree 2) (fun _ => [2]), .work false, .serve false,
    .receive false]

theorem critical_exclusive_asked_in_time :
    let after := run (step .default Publishers.twoRequesters) newcomers (askedBehind 100)
    ¬ (Critical "a" (after.pubs.client true) ∧ Critical "a" (after.pubs.client false)) := by
  refine critical_exclusive (by decide) newcomers_fresh ?_ (by decide) "a"
  refine ⟨trivial, trivial, ?_, trivial, trivial, trivial, trivial, ?_, trivial, trivial⟩
  · rintro session msg up - - i hi hholds
    cases i with
    | true => exact absurd rfl hi
    | false => exact hholds.elim
  · rintro session msg up - - i hi -
    cases i with
    | true => decide +kernel
    | false => exact absurd rfl hi

/-- The first client is still at it when its lease expires, and the other one is
granted the path as well. -/
theorem expired_lease_shared : ¬ ∀ (events : List (ContestEvent Bool)) (path : String),
    let after := run (step .default Publishers.twoRequesters) newcomers events
    ¬ (Critical path (after.pubs.client true) ∧ Critical path (after.pubs.client false)) := by
  intro h
  exact h (askedBehind 30000) "a" (by decide +kernel)

end Contest

end Nsmt.System
