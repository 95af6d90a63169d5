import Nsmt.Server.Concurrent
import Nsmt.System.PushProtocol

/-!
# Publishing trees

Any number of clients run `sync_push` against one server, each over its own
connection. A push that is denied its lock or its quota returns like one that
stored the object, and the tree is published all the same. `run_published` says
that this is the only way to a dangling entry: if whatever is refused is stored
already, every entry of every latest tree has its object.
-/

namespace Nsmt.System

open Nsmt.Lib Nsmt.Core Nsmt.Server Nsmt.Client

structure Publishers (ι : Type) where
  server : ServerState
  turn : ι → Turn
  client : ι → SyncPush
  up : ι → List ClientFrame
  down : ι → List ServerFrame

inductive PublishAction (ι : Type)
  | push (i : ι) (tree : FileTree) (content : FileTreeEntry → Bytes)
  | work (i : ι)
  | receive (i : ι)
  | serve (i : ι) (now : Nat)
  | broadcast (i : ι) (frame : ServerFrame)
  | cleanup (now : Nat)

/-- The tree of a tenant names only objects that are stored. -/
def Published (fs : ServerFs) : Prop :=
  ∀ tree, fs.latestTree = some tree → ∀ e ∈ tree.entries, fs.objects e.blobId ≠ none

namespace Publishers

variable {ι : Type} [DecidableEq ι] (cfg : Config) (who : ι → String)

/-- `who i` is the requester of client `i`. Broadcasts may come from any session
at any time, so what a turn broadcasts is not tracked. -/
def step (s : Publishers ι) : PublishAction ι → Publishers ι
  | .push i tree content =>
    match s.client i with
    | .idle => { s with client := Function.update s.client i (.start tree content) }
    | _ => s
  | .work i =>
    match (s.client i).work cfg.aead (cfg.e2e (domainOf (who i))) (who i) with
    | none => s
    | some (frame, client) =>
      { s with
        client := Function.update s.client i client
        up := Function.update s.up i (s.up i ++ frame.toList) }
  | .receive i =>
    match (s.client i).waiting, s.down i with
    | true, frame :: down =>
      { s with
        client := Function.update s.client i ((s.client i).recv frame)
        down := Function.update s.down i down }
    | _, _ => s
  | .serve i now =>
    match s.turn i, s.up i with
    | .ready session, frame :: up =>
      let r := session.handle cfg now s.server frame
      { s with
        server := r.server
        turn := Function.update s.turn i r.turn
        up := Function.update s.up i up
        down := Function.update s.down i (s.down i ++ sent r.effects) }
    | _, _ => s
  | .broadcast i frame =>
    if frame.isBroadcast then { s with down := Function.update s.down i (s.down i ++ [frame]) }
    else s
  | .cleanup now => { s with server := { s.server with locks := s.server.locks.cleanup now } }

/-- The server refuses a lock or an upload only for an entry whose object it
has already. -/
def RefusesOnlyStored (s : Publishers ι) : PublishAction ι → Prop
  | .serve i now => ∀ session, s.turn i = .ready session →
    match s.up i with
    | .lockAcquire msg :: _ => ∀ held, s.server.locks msg.path = some held → held.expiresAt > now →
      held.holder ≠ msg.requester → ∀ e, (s.client i).entry = some e →
        (s.server.store session.userDomain).objects e.blobId ≠ none
    | .filePut msg :: _ =>
      (s.server.usageBytes session.userDomain + msg.size) % 2 ^ 64 > cfg.quotaFor session.userDomain →
        (s.server.store session.userDomain).objects msg.blobId ≠ none
    | _ => True
  | _ => True

end Publishers

-- ---------------------------------------------------------------------------
-- The invariant of one connection
-- ---------------------------------------------------------------------------

section
variable (has : String → Prop)

/-- Frames that get no reply when no upload is pending. -/
def Quiet : ClientFrame → Prop
  | .lockRelease _ | .fileChunk _ => True
  | .fileTree tree => ∀ e ∈ tree.entries, has e.blobId
  | _ => False

def IsChunk : ClientFrame → Prop
  | .fileChunk _ => True
  | _ => False

/-- The phases in which the chunks are on their way. -/
def Transfers : PushPhase → Prop
  | .sending _ _ | .waitDone => True
  | _ => False

/-- Entries of the tree that are not yet to come are stored. -/
def Left (tree : FileTree) (e : FileTreeEntry) (rest : List FileTreeEntry) : Prop :=
  ∀ d ∈ tree.entries, d = e ∨ d ∈ rest ∨ has d.blobId

/-- How client, session and queues fit together: `pending` is the upload of the
session, the last argument the replies on their way. -/
inductive Connected (who : String) :
    SyncPush → Option PendingUpload → List ClientFrame → List ServerFrame → Prop
  | idle : (∀ f ∈ up, Quiet has f) → Connected who .idle none up []
  | publishing : (∀ e ∈ tree.entries, has e.blobId) → (∀ f ∈ up, Quiet has f) →
    Connected who (.publishing tree) none up []
  | sends : phase = .acquire ∨ phase = .put → Left has tree e rest → (∀ f ∈ up, Quiet has f) →
    Connected who (.pushing tree content e phase rest) none up []
  | asked : Left has tree e rest → (∀ f ∈ up, Quiet has f) →
    Connected who (.pushing tree content e .waitLock rest) none
      (up ++ [PushEntry.lockAcquire { entry := e, requester := who, bytes := content e }]) []
  | granted : Left has tree e rest →
    Connected who (.pushing tree content e .waitLock rest) none [] [.lockGranted granted]
  | denied : Left has tree e rest → has e.blobId →
    Connected who (.pushing tree content e .waitLock rest) none [] [.lockDenied denied]
  | offered : Left has tree e rest → (∀ f ∈ up, Quiet has f) →
    Connected who (.pushing tree content e .waitAck rest) none
      (up ++ [.filePut (PushEntry.filePut { entry := e, requester := who, bytes := content e })]) []
  | accepted : Left has tree e rest → pu.blobId = e.blobId →
    Connected who (.pushing tree content e .waitAck rest) (some pu) [] [.filePutAck reply]
  | rejected : Left has tree e rest → has e.blobId →
    Connected who (.pushing tree content e .waitAck rest) none [] [.error error]
  | uploading : Transfers phase → Left has tree e rest →
    pu.blobId = e.blobId → (∀ f ∈ up, IsChunk f) →
    Connected who (.pushing tree content e phase rest) (some pu) up []
  | stored : Transfers phase → Left has tree e rest →
    has e.blobId → (∀ f ∈ up, IsChunk f) →
    Connected who (.pushing tree content e phase rest) none up [.filePutAck reply]
  | ends : phase = .release ∨ phase = .returned → Left has tree e rest → has e.blobId →
    (∀ f ∈ up, Quiet has f) →
    Connected who (.pushing tree content e phase rest) none up []

end

section
variable {has : String → Prop} {requester : String} {client : SyncPush}
  {pending : Option PendingUpload} {up : List ClientFrame} {down : List ServerFrame}

theorem Quiet.mono {has' : String → Prop} (hsub : ∀ b, has b → has' b) {f : ClientFrame}
    (h : Quiet has f) : Quiet has' f := by
  cases f with
  | fileTree tree => exact fun e he => hsub _ (h e he)
  | lockRelease _ | fileChunk _ => trivial
  | _ => exact h

theorem Left.mono {has' : String → Prop} (hsub : ∀ b, has b → has' b) (h : Left has tree e rest) :
    Left has' tree e rest :=
  fun d hd => (h d hd).imp_right (Or.imp_right (hsub _))

theorem Connected.mono {has' : String → Prop} (hsub : ∀ b, has b → has' b)
    (h : Connected has requester client pending up down) :
    Connected has' requester client pending up down := by
  have hquiet {up : List ClientFrame} (h : ∀ f ∈ up, Quiet has f) : ∀ f ∈ up, Quiet has' f :=
    fun f hf => (h f hf).mono hsub
  cases h with
  | idle hup => exact .idle (hquiet hup)
  | publishing hall hup => exact .publishing (fun e he => hsub _ (hall e he)) (hquiet hup)
  | sends hphase hleft hup => exact .sends hphase (hleft.mono hsub) (hquiet hup)
  | asked hleft hup => exact .asked (hleft.mono hsub) (hquiet hup)
  | granted hleft => exact .granted (hleft.mono hsub)
  | denied hleft hhas => exact .denied (hleft.mono hsub) (hsub _ hhas)
  | offered hleft hup => exact .offered (hleft.mono hsub) (hquiet hup)
  | accepted hleft hblob => exact .accepted (hleft.mono hsub) hblob
  | rejected hleft hhas => exact .rejected (hleft.mono hsub) (hsub _ hhas)
  | uploading hphase hleft hblob hup => exact .uploading hphase (hleft.mono hsub) hblob hup
  | stored hphase hleft hhas hup => exact .stored hphase (hleft.mono hsub) (hsub _ hhas) hup
  | ends hphase hleft hhas hup => exact .ends hphase (hleft.mono hsub) (hsub _ hhas) (hquiet hup)

theorem Connected.next (content : FileTreeEntry → Bytes)
    (hleft : ∀ d ∈ tree.entries, d ∈ rest ∨ has d.blobId) (hup : ∀ f ∈ up, Quiet has f) :
    Connected has requester (.next tree content rest) none up [] := by
  cases rest with
  | nil => exact .publishing (fun e he => (hleft e he).resolve_left (by simp)) hup
  | cons e rest =>
    refine .sends (.inl rfl) (fun d hd => ?_) hup
    rcases hleft d hd with hmem | hhas
    · exact (List.mem_cons.mp hmem).imp_right .inl
    · exact .inr (.inr hhas)

theorem IsChunk.quiet {f : ClientFrame} (h : IsChunk f) : Quiet has f := by
  cases f with
  | fileChunk _ => trivial
  | _ => cases h

theorem Transfers.work (h : Transfers phase)
    (hw : SyncPush.work aead e2e requester (.pushing tree content e phase rest) =
      some (frame, client')) :
    ∃ phase', client' = .pushing tree content e phase' rest ∧ Transfers phase' ∧
      ∀ f ∈ frame.toList, IsChunk f := by
  cases phase with
  | sending have_ idx =>
    simp only [SyncPush.work, PushEntry.work, reduceCtorEq, if_false] at hw
    split at hw
    · split at hw
      · cases hw
        exact ⟨_, rfl, trivial, by simp⟩
      · cases hw
        exact ⟨_, rfl, trivial, by simp [PushEntry.fileChunk, IsChunk]⟩
    · cases hw
      exact ⟨_, rfl, trivial, by simp⟩
  | waitDone => cases hw
  | _ => cases h

theorem Connected.work (h : Connected has requester client pending up down)
    (hw : client.work aead e2e requester = some (frame, client')) :
    Connected has requester client' pending (up ++ frame.toList) down := by
  cases h with
  | idle hup => cases hw
  | publishing hall hup =>
    cases hw
    exact .idle (List.forall_mem_append.mpr ⟨hup, by simpa [Quiet] using hall⟩)
  | sends hphase hleft hup =>
    rcases hphase with rfl | rfl
    · cases hw
      exact .asked hleft hup
    · cases hw
      exact .offered hleft hup
  | @ends phase tree e rest up content hphase hleft hhas hup =>
    rcases hphase with rfl | rfl
    · cases hw
      exact .ends (.inr rfl) hleft hhas
        (List.forall_mem_append.mpr ⟨hup, by simp [PushEntry.lockRelease, Quiet]⟩)
    · cases hw
      rw [Option.toList_none, List.append_nil]
      refine .next content (fun d hd => ?_) hup
      rcases hleft d hd with rfl | hrest
      · exact .inr hhas
      · exact hrest
  | uploading hphase hleft hblob hup =>
    obtain ⟨phase', rfl, hphase', hchunk⟩ := hphase.work hw
    exact .uploading hphase' hleft hblob (List.forall_mem_append.mpr ⟨hup, hchunk⟩)
  | stored hphase hleft hhas hup =>
    obtain ⟨phase', rfl, hphase', hchunk⟩ := hphase.work hw
    exact .stored hphase' hleft hhas (List.forall_mem_append.mpr ⟨hup, hchunk⟩)
  | asked | granted | denied | offered | accepted | rejected => cases hw

theorem Connected.recv (h : Connected has requester client pending up (frame :: down))
    (hwait : client.waiting = true) :
    Connected has requester (client.recv frame) pending up down := by
  cases h with
  | granted hleft => exact .sends (.inr rfl) hleft (by simp)
  | denied hleft hhas => exact .ends (.inr rfl) hleft hhas (by simp)
  | accepted hleft hblob => exact .uploading trivial hleft hblob (by simp)
  | rejected hleft hhas => exact .ends (.inr rfl) hleft hhas (by simp)
  | @stored phase _ _ _ _ _ _ hphase hleft hhas hup =>
    cases phase with
    | waitDone => exact .ends (.inl rfl) hleft hhas fun f hf => (hup f hf).quiet
    | sending have_ idx => cases hwait
    | _ => cases hphase

theorem Connected.start (h : Connected has requester .idle pending up down) (tree : FileTree)
    (content : FileTreeEntry → Bytes) :
    Connected has requester (.start tree content) pending up down := by
  cases h with
  | idle hup => exact .next content (fun _ hd => .inl hd) hup

/-- A frame off the queue: broadcasts are passed over. -/
theorem Connected.receive (h : Connected has requester client pending up (replies (frame :: down)))
    (hwait : client.waiting = true) :
    Connected has requester (client.recv frame) pending up (replies down) := by
  cases hb : frame.isBroadcast with
  | true =>
    rw [client.recv_broadcast hb]
    simpa [replies, hb] using h
  | false =>
    simp only [replies, List.filter_cons, hb, Bool.not_false, if_true] at h
    exact h.recv hwait

theorem Connected.head (h : Connected has requester client pending (frame :: up) down) :
    (pending = none ∧ Quiet has frame ∧ Connected has requester client none up down) ∨
    (∃ tree content e rest, client = .pushing tree content e .waitLock rest ∧ Left has tree e rest ∧
      pending = none ∧ up = [] ∧ down = [] ∧
      frame = PushEntry.lockAcquire { entry := e, requester, bytes := content e }) ∨
    (∃ tree content e rest, client = .pushing tree content e .waitAck rest ∧ Left has tree e rest ∧
      pending = none ∧ up = [] ∧ down = [] ∧
      frame = .filePut (PushEntry.filePut { entry := e, requester, bytes := content e })) ∨
    (∃ tree content e phase rest pu, client = .pushing tree content e phase rest ∧
      Left has tree e rest ∧ Transfers phase ∧ pending = some pu ∧ pu.blobId = e.blobId ∧
      (∀ f ∈ up, IsChunk f) ∧ down = [] ∧ ∃ payload, frame = .fileChunk payload) := by
  generalize hframes : frame :: up = frames at h
  cases h with
  | idle hup =>
    subst hframes
    obtain ⟨hf, hup⟩ := List.forall_mem_cons.mp hup
    exact .inl ⟨rfl, hf, .idle hup⟩
  | publishing hall hup =>
    subst hframes
    obtain ⟨hf, hup⟩ := List.forall_mem_cons.mp hup
    exact .inl ⟨rfl, hf, .publishing hall hup⟩
  | sends hphase hleft hup =>
    subst hframes
    obtain ⟨hf, hup⟩ := List.forall_mem_cons.mp hup
    exact .inl ⟨rfl, hf, .sends hphase hleft hup⟩
  | @asked _ _ _ before _ hleft hup =>
    cases before with
    | nil =>
      cases hframes
      exact .inr (.inl ⟨_, _, _, _, rfl, hleft, rfl, rfl, rfl, rfl⟩)
    | cons f before =>
      cases hframes
      obtain ⟨hf, hup⟩ := List.forall_mem_cons.mp hup
      exact .inl ⟨rfl, hf, .asked hleft hup⟩
  | @offered _ _ _ before _ hleft hup =>
    cases before with
    | nil =>
      cases hframes
      exact .inr (.inr (.inl ⟨_, _, _, _, rfl, hleft, rfl, rfl, rfl, rfl⟩))
    | cons f before =>
      cases hframes
      obtain ⟨hf, hup⟩ := List.forall_mem_cons.mp hup
      exact .inl ⟨rfl, hf, .offered hleft hup⟩
  | uploading hphase hleft hblob hup =>
    subst hframes
    obtain ⟨hf, hup⟩ := List.forall_mem_cons.mp hup
    refine .inr (.inr (.inr ⟨_, _, _, _, _, _, rfl, hleft, hphase, rfl, hblob, hup, rfl, ?_⟩))
    cases frame with
    | fileChunk payload => exact ⟨payload, rfl⟩
    | _ => cases hf
  | stored hphase hleft hhas hup =>
    subst hframes
    obtain ⟨hf, hup⟩ := List.forall_mem_cons.mp hup
    exact .inl ⟨rfl, hf.quiet, .stored hphase hleft hhas hup⟩
  | ends hphase hleft hhas hup =>
    subst hframes
    obtain ⟨hf, hup⟩ := List.forall_mem_cons.mp hup
    exact .inl ⟨rfl, hf, .ends hphase hleft hhas hup⟩
  | granted | denied | accepted | rejected => cases hframes

theorem Connected.tree {tree : FileTree}
    (h : Connected has requester client pending (.fileTree tree :: up) down) :
    ∀ e ∈ tree.entries, has e.blobId := by
  rcases h.head with ⟨-, hquiet, -⟩ | ⟨_, _, _, _, _, _, _, _, _, hframe⟩ |
    ⟨_, _, _, _, _, _, _, _, _, hframe⟩ | ⟨_, _, _, _, _, _, _, _, _, _, _, _, _, _, hframe⟩
  · exact hquiet
  all_goals cases hframe

end

-- ---------------------------------------------------------------------------
-- One turn of the server
-- ---------------------------------------------------------------------------

def HasObject (server : ServerState) (domain blobId : String) : Prop :=
  (server.store domain).objects blobId ≠ none

section
variable {cfg : Config} {now : Nat} {server : ServerState} {session session' : Session}
  {requester : String} {client : SyncPush} {frame : ClientFrame} {up : List ClientFrame}
  {down : List ServerFrame}

theorem Quiet.handle (hq : Quiet has frame) (hp : session.pendingUpload = none)
    (hready : (session.handle cfg now server frame).turn = .ready session') :
    session' = session ∧ sent (session.handle cfg now server frame).effects = [] := by
  cases frame with
  | fileChunk payload =>
    simp only [Session.handle, Session.onFileChunk, hp, Session.stay] at hready ⊢
    exact ⟨(Turn.ready.inj hready).symm, rfl⟩
  | lockRelease msg => exact ⟨(Turn.ready.inj hready).symm, rfl⟩
  | fileTree tree =>
    revert hready
    simp only [Session.handle, Session.onFileTree]
    split
    · exact fun hready => ⟨(Turn.ready.inj hready).symm, rfl⟩
    · intro hready
      cases hready
  | _ => cases hq

theorem onFilePut_ready (hready : (session.onFilePut cfg server msg).turn = .ready session') :
    ((server.usageBytes session.userDomain + msg.size) % 2 ^ 64 > cfg.quotaFor session.userDomain ∧
      session' = session ∧
      (session.onFilePut cfg server msg).effects = [.send (.error Session.quotaExceeded)]) ∨
    (session'.pendingUpload = some (Session.newUpload msg) ∧
      (session.onFilePut cfg server msg).effects = [putAccepted msg.blobId]) := by
  revert hready
  simp only [Session.onFilePut, ServerState.tryReserveQuota]
  by_cases hquota : (server.usageBytes session.userDomain + msg.size) % 2 ^ 64 >
      cfg.quotaFor session.userDomain
  · rw [if_pos hquota]
    exact fun hready => .inl ⟨hquota, (Turn.ready.inj hready).symm, rfl⟩
  · rw [if_neg hquota]
    simp only
    split
    · intro hready
      cases hready
    · intro hready
      obtain rfl := Turn.ready.inj hready
      exact .inr ⟨rfl, rfl⟩

/-- A turn keeps the latest trees published, if a tree it saves is stored. -/
theorem handle_published (hpub : ∀ dir, Published (server.fs dir))
    (htree : ∀ tree, frame = .fileTree tree →
      ∀ e ∈ tree.entries, HasObject server session.userDomain e.blobId) (dir : String) :
    Published ((session.handle cfg now server frame).server.fs dir) := by
  intro tree hlatest e he
  obtain ⟨hstep, hdirs⟩ := handle_store cfg now server session frame
  by_cases hdir : dir = sanitize session.userDomain
  · subst hdir
    apply handle_objects
    rcases hstep.trees with hsame | ⟨tree', hframe, hsaved⟩
    · rw [ServerFs.latestTree, ServerFs.getTree, hsame] at hlatest
      exact hpub _ tree hlatest e he
    · rw [hsaved, ServerFs.latestTree_saveTree] at hlatest
      obtain rfl := Option.some.inj hlatest
      exact htree tree' hframe e he
  · rw [hdirs dir hdir] at hlatest ⊢
    exact hpub dir tree hlatest e he

/-- A turn of a session that goes on keeps its connection, given that what it
refuses is stored. -/
theorem Connected.serve
    (h : Connected (HasObject server session.userDomain) requester client session.pendingUpload
      (frame :: up) down)
    (hlock : ∀ msg held, frame = .lockAcquire msg → server.locks msg.path = some held →
      held.expiresAt > now → held.holder ≠ msg.requester → ∀ e, client.entry = some e →
        HasObject server session.userDomain e.blobId)
    (hquota : ∀ msg, frame = .filePut msg → (server.usageBytes session.userDomain + msg.size) % 2 ^ 64 >
      cfg.quotaFor session.userDomain → HasObject server session.userDomain msg.blobId)
    (hready : (session.handle cfg now server frame).turn = .ready session') :
    Connected (HasObject (session.handle cfg now server frame).server session'.userDomain) requester
      client session'.pendingUpload up
      (down ++ replies (sent (session.handle cfg now server frame).effects)) := by
  have hdomain : session'.userDomain = session.userDomain := by
    have hstep := (handle_store cfg now server session frame).1
    rw [hready] at hstep
    exact hstep.domain
  have hmono (b : String) (hb : HasObject server session.userDomain b) :
      HasObject (session.handle cfg now server frame).server session'.userDomain b := by
    rw [hdomain]
    exact handle_objects cfg now session frame hb
  rcases h.head with ⟨hp, hquiet, htail⟩ | ⟨tree, content, e, rest, rfl, hleft, hp, rfl, rfl, rfl⟩ |
    ⟨tree, content, e, rest, rfl, hleft, hp, rfl, rfl, rfl⟩ |
    ⟨tree, content, e, phase, rest, pu, rfl, hleft, hphase, hp, hblob, hup, rfl, payload, rfl⟩
  · obtain ⟨hsame, hsent⟩ := hquiet.handle hp hready
    rw [hsent, hsame, hp]
    rw [hsame] at hmono
    simpa [replies] using htail.mono hmono
  · have hleft := hleft.mono hmono
    rcases LockRegistry.acquire_cases server.locks now e.path requester 30000 with
      ⟨expiresAt, locks, hacq⟩ | ⟨held, hheld, hexpires, hother, hacq⟩
    · simp only [PushEntry.lockAcquire, Session.handle, Session.onLockAcquire, hacq, Session.stay]
        at hready hleft ⊢
      obtain rfl := Turn.ready.inj hready
      rw [hp]
      exact .granted hleft
    · have hhas := hmono _ (hlock _ held rfl hheld hexpires hother e rfl)
      simp only [PushEntry.lockAcquire, Session.handle, Session.onLockAcquire, hacq, Session.stay]
        at hready hleft hhas ⊢
      obtain rfl := Turn.ready.inj hready
      rw [hp]
      exact .denied hleft hhas
  · have hleft := hleft.mono hmono
    rcases onFilePut_ready hready with ⟨hover, hsame, heff⟩ | ⟨hpending, heff⟩
    · have hhas := hmono _ (hquota _ rfl hover)
      rw [Session.handle, heff, hsame, hp]
      rw [Session.handle, hsame] at hleft hhas
      exact .rejected hleft hhas
    · rw [Session.handle, heff, hpending]
      rw [Session.handle] at hleft
      exact .accepted hleft rfl
  · have hleft := hleft.mono hmono
    rcases onFileChunk_ready hp hready with ⟨pu', hp', hid, heff⟩ | ⟨hp', hhas, bytes, ack, heff⟩
    · rw [Session.handle, heff, hp']
      rw [Session.handle] at hleft
      exact .uploading hphase hleft (hid.trans hblob) hup
    · rw [Session.handle, heff, hp']
      rw [Session.handle] at hleft
      refine .stored hphase hleft ?_ hup
      rw [← hblob, hdomain]
      exact hhas

end

-- ---------------------------------------------------------------------------
-- Runs
-- ---------------------------------------------------------------------------

namespace Publishers

variable {ι : Type} [DecidableEq ι] {cfg : Config} {who : ι → String}

/-- The invariant: no latest tree dangles, and every session that still runs is
connected to its client. -/
structure Sound (who : ι → String) (s : Publishers ι) : Prop where
  published : ∀ dir, Published (s.server.fs dir)
  connected : ∀ i session, s.turn i = .ready session →
    Connected (HasObject s.server session.userDomain) (who i) (s.client i) session.pendingUpload
      (s.up i) (replies (s.down i))

omit [DecidableEq ι] in
theorem Sound.of_client {s s' : Publishers ι} (h : Sound who s) (i : ι)
    (hserver : s'.server.fs = s.server.fs) (hturn : s'.turn = s.turn)
    (hother : ∀ j ≠ i, s'.client j = s.client j ∧ s'.up j = s.up j ∧ s'.down j = s.down j)
    (hmine : ∀ session, s.turn i = .ready session →
      Connected (HasObject s.server session.userDomain) (who i) (s'.client i) session.pendingUpload
        (s'.up i) (replies (s'.down i))) : Sound who s' := by
  refine ⟨fun dir => hserver ▸ h.published dir, fun j session hready => ?_⟩
  rw [hturn] at hready
  have hhas : HasObject s'.server session.userDomain = HasObject s.server session.userDomain := by
    funext b
    simp only [HasObject, ServerState.store, hserver]
  rw [hhas]
  by_cases hj : j = i
  · subst hj
    exact hmine session hready
  · obtain ⟨hclient, hup, hdown⟩ := hother j hj
    rw [hclient, hup, hdown]
    exact h.connected j session hready

theorem Sound.serve {s : Publishers ι} (h : Sound who s)
    (hok : s.RefusesOnlyStored cfg (.serve i now)) : Sound who (s.step cfg who (.serve i now)) := by
  simp only [Publishers.step]
  split
  · rename_i session frame up hready hup
    have hconn := h.connected i session hready
    have hok := hok session hready
    rw [hup] at hconn hok
    refine ⟨handle_published h.published ?_, fun j session' hready' => ?_⟩
    · rintro tree rfl
      exact hconn.tree
    · by_cases hj : j = i
      · subst hj
        simp only [Function.update_self, PushLink.replies_append] at hready' ⊢
        refine hconn.serve ?_ ?_ hready'
        · rintro msg held rfl
          exact hok held
        · rintro msg rfl
          exact hok
      · simp only [Function.update_of_ne hj] at hready' ⊢
        exact (h.connected j session' hready').mono fun b hb =>
          handle_objects cfg now session frame hb
  · exact h

theorem Sound.step {s : Publishers ι} (h : Sound who s) {action : PublishAction ι}
    (hok : s.RefusesOnlyStored cfg action) : Sound who (s.step cfg who action) := by
  cases action with
  | push i tree content =>
    simp only [Publishers.step]
    split
    · rename_i hidle
      refine h.of_client i rfl rfl (fun j hj => by simp [hj]) fun session hready => ?_
      have hconn := h.connected i session hready
      rw [hidle] at hconn
      simp only [Function.update_self]
      exact hconn.start tree content
    · exact h
  | work i =>
    simp only [Publishers.step]
    split
    · exact h
    · rename_i frame client hw
      refine h.of_client i rfl rfl (fun j hj => by simp [hj]) fun session hready => ?_
      simp only [Function.update_self]
      exact (h.connected i session hready).work hw
  | receive i =>
    simp only [Publishers.step]
    split
    · rename_i frame down hwait hdown
      refine h.of_client i rfl rfl (fun j hj => by simp [hj]) fun session hready => ?_
      have hconn := h.connected i session hready
      simp only [Function.update_self]
      rw [hdown] at hconn
      exact hconn.receive hwait
    · exact h
  | serve i now => exact h.serve hok
  | broadcast i frame =>
    simp only [Publishers.step]
    split
    · rename_i hb
      refine h.of_client i rfl rfl (fun j hj => by simp [hj]) fun session hready => ?_
      simpa [replies, hb] using h.connected i session hready
    · exact h
  | cleanup now => exact ⟨h.published, h.connected⟩

/-- A server that publishes no dangling tree, idle clients and empty queues. -/
structure Initial (s : Publishers ι) : Prop where
  published : ∀ dir, Published (s.server.fs dir)
  pending : ∀ i session, s.turn i = .ready session → session.pendingUpload = none
  client : ∀ i, s.client i = .idle
  up : ∀ i, s.up i = []
  down : ∀ i, s.down i = []

omit [DecidableEq ι] in
theorem Initial.sound {s : Publishers ι} (h : Initial s) (who : ι → String) : Sound who s := by
  refine ⟨h.published, fun i session hready => ?_⟩
  rw [h.client, h.up, h.down, h.pending i session hready]
  exact .idle (by simp)

/-- In every run in which the server refuses only what it has stored, no latest
tree ever dangles. -/
theorem run_published {s : Publishers ι} (h : Initial s) {actions : List (PublishAction ι)}
    (hall : AllSteps (step cfg who) (RefusesOnlyStored cfg) s actions) (dir : String) :
    Published ((run (step cfg who) s actions).server.fs dir) :=
  (run_invariant (Sound who) (fun _ _ hs hok => hs.step hok) (h.sound who) hall).published dir

/-- A tree with the byte `b` in the file `a`. -/
def byteTree (b : UInt8) : FileTree :=
  let entries := [⟨"a", objectId Digest.sha256 [b], 0o644, 1, 0⟩]
  { treeHash := treeHash Digest.sha256 { treeHash := "", entries }, entries }

def twoClients : Publishers Bool where
  server := .empty
  turn := fun i => .ready ⟨"acme", if i then "m1" else "m2", "127.0.0.1:9", none⟩
  client := fun _ => .idle
  up := fun _ => []
  down := fun _ => []

theorem twoClients_initial : Initial twoClients where
  published _ _ h := nomatch h
  pending i session h := by
    cases h
    rfl
  client _ := rfl
  up _ := rfl
  down _ := rfl

def twoRequesters (i : Bool) : String := if i then "acme/m1/maka" else "acme/m2/maka"

/-- One client pushes its file and sends its tree. -/
def onePush : List (PublishAction Bool) :=
  [.push true (byteTree 1) (fun _ => [1]), .work true, .serve true 0, .receive true, .work true,
    .serve true 1, .receive true, .work true, .work true, .serve true 2, .receive true, .work true,
    .work true, .work true]

theorem run_published_one_push :
    let actions := onePush ++ [.serve true 3, .serve true 4]
    AllSteps (step .default twoRequesters) (RefusesOnlyStored .default) twoClients actions ∧
      Published ((run (step .default twoRequesters) twoClients actions).server.fs "acme") := by
  have hpush : AllSteps (step .default twoRequesters) (RefusesOnlyStored .default) twoClients
      onePush := by
    refine ⟨trivial, trivial, ?_, trivial, trivial, ?_, trivial, trivial, trivial, ?_, trivial,
      trivial, trivial, trivial, trivial⟩
    · exact fun _ _ _ hheld => nomatch hheld
    · exact fun session hready hover => absurd hover (by cases hready; decide)
    · exact fun _ _ => trivial
  have hrelease : (run (step .default twoRequesters) twoClients onePush).up true =
      [.lockRelease ⟨"a", "acme/m1/maka"⟩, .fileTree (byteTree 1)] := by decide +kernel
  have htree : ((run (step .default twoRequesters) twoClients onePush).step .default twoRequesters
      (.serve true 3)).up true = [.fileTree (byteTree 1)] := by decide +kernel
  have hall : AllSteps (step .default twoRequesters) (RefusesOnlyStored .default) twoClients
      (onePush ++ [.serve true 3, .serve true 4]) := by
    refine AllSteps.append.mpr ⟨hpush, fun _ _ => ?_, fun _ _ => ?_, trivial⟩
    · rw [hrelease]
      trivial
    · rw [htree]
      trivial
  exact ⟨hall, run_published twoClients_initial hall "acme"⟩

/-- While one client holds the lock of `a`, another is denied it and publishes
its own tree all the same. -/
def deniedPush : List (PublishAction Bool) :=
  [.push true (byteTree 1) (fun _ => [1]), .work true, .serve true 0,
    .push false (byteTree 2) (fun _ => [2]), .work false, .serve false 1, .receive false,
    .work false, .work false, .serve false 2]

theorem denied_push_dangles : ¬ ∀ actions : List (PublishAction Bool),
    Published ((run (step .default twoRequesters) twoClients actions).server.fs "acme") := by
  intro h
  have hlatest : ((run (step .default twoRequesters) twoClients deniedPush).server.fs
      "acme").latestTree = some (byteTree 2) := by decide +kernel
  exact h deniedPush _ hlatest _ (List.mem_singleton_self _) (by decide +kernel)

end Publishers

end Nsmt.System
