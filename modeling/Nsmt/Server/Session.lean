import Nsmt.Core.Frame
import Nsmt.Lib.Sparse
import Nsmt.Server.State

/-!
# Dispatch of a frame in the ready loop

`session::handle` once a frame has been received: what it changes in the shared
state, what becomes of the session, and what goes out. `Session.handle` is one
turn of the loop; the clock is read once a turn.
-/

namespace Nsmt.Server

open Nsmt.Lib Nsmt.Core

/-- `ServerFs::temp_path_for`, without the directory and the extension. -/
def tempPathFor (blobId : String) : String := blobId

/-- `received` has one flag a chunk, and `receivedCount` of them are set. -/
structure PendingUpload where
  blobId : String
  size : Nat
  totalChunks : Nat
  tempPath : String
  received : List Bool
  receivedCount : Nat
  length_received : received.length = totalChunks
  count_received : receivedCount = received.count true
  tempPath_eq : tempPath = tempPathFor blobId
  deriving DecidableEq

/-- Chunk `idx` has arrived for the first time. -/
def PendingUpload.mark (pu : PendingUpload) (idx : Nat) (h : pu.received[idx]? = some false) :
    PendingUpload :=
  { pu with
    received := pu.received.set idx true
    receivedCount := pu.receivedCount + 1
    length_received := by rw [List.length_set, pu.length_received]
    count_received := by
      obtain ⟨hlt, hidx⟩ := List.getElem?_eq_some_iff.mp h
      rw [List.count_set hlt, hidx, pu.count_received]
      simp }

/-- A session behind its handshake. -/
structure Session where
  userDomain : String
  machineId : String
  remoteAddress : String
  pendingUpload : Option PendingUpload
  deriving DecidableEq

/-- What a turn does beyond the shared state, in the order it does it.
`broadcastExcept` goes to every other session of the tenant. -/
inductive Effect
  | putObject (blobId : String) (bytes : Bytes)
  | send (frame : ServerFrame)
  | broadcast (frame : ServerFrame)
  | broadcastExcept (frame : ServerFrame)
  deriving DecidableEq, Repr

/-- The loop goes on, returns an error through `?`, or panics. -/
inductive Turn
  | ready (session : Session)
  | failed
  | panicked
  deriving DecidableEq

structure Reaction where
  server : ServerState
  turn : Turn
  effects : List Effect

def isizeMax : Nat := 2 ^ 63 - 1

/-- `handle_chunk`; `none` is a chunk that does not decrypt. -/
def handleChunk (cfg : Config) (fs : ServerFs) (pu : PendingUpload) (payload : Bytes)
    (userDomain : String) : Option (ServerFs × PendingUpload) :=
  if payload.length < 4 then some (fs, pu)
  else
    let idx := ofLe (payload.take 4)
    -- Neither out of range nor received before.
    if h : pu.received[idx]? = some false then
      match openChunk cfg.aead (cfg.e2e userDomain) (payload.drop 4) idx with
      | none => none
      | some data =>
        some
          (fs.writeTemp pu.tempPath
            (Sparse.writeAt ((fs.tmp pu.tempPath).getD []) (idx * chunkSize) data), pu.mark idx h)
    else some (fs, pu)

namespace Session

variable (cfg : Config) (now : Nat) (server : ServerState) (session : Session)

def fs : ServerFs := server.store session.userDomain

def stay (effects : List Effect) : Reaction := { server, turn := .ready session, effects }

/-- The upload is complete: the temporary file becomes the object. -/
def complete (pu : PendingUpload) : Reaction :=
  match (session.fs server).tmp pu.tempPath with
  | none => { server, turn := .failed, effects := [] }
  | some bytes =>
    let stored := ((session.fs server).putObject pu.blobId bytes).removeTemp pu.tempPath
    { server := (server.setStore session.userDomain stored).recordObjectOwner session.userDomain
        pu.blobId session.machineId
      turn := .ready { session with pendingUpload := none }
      effects :=
        [.putObject pu.blobId bytes,
          .send (.filePutAck
            { blobId := pu.blobId, have_ := List.range pu.totalChunks, completed := true })] }

def onFileChunk (payload : Bytes) : Reaction :=
  match session.pendingUpload with
  | none => session.stay server []
  | some pu =>
    match handleChunk cfg (session.fs server) pu payload session.userDomain with
    | none => { server, turn := .failed, effects := [] }
    | some (fs, pu) =>
      let server := server.setStore session.userDomain fs
      let session := { session with pendingUpload := some pu }
      if pu.receivedCount = pu.totalChunks then session.complete server pu
      else session.stay server []

/-- The tree is hashed again and saved unconditionally. Logging the first
twelve bytes of the client's own hash panics off a character boundary. -/
def onFileTree (tree : FileTree) : Reaction :=
  let saved := { tree with treeHash := treeHash cfg.sha256 tree }
  if isCharBoundary tree.treeHash 12 then
    session.stay (server.setStore session.userDomain ((session.fs server).saveTree saved)) []
  else { server, turn := .panicked, effects := [] }

/-- The tree's hash can be logged. -/
def loggable (tree : Option FileTree) : Bool := tree.all fun t => isCharBoundary t.treeHash 12

/-- The answer to a diff request, from the two trees read. -/
def diffResult (old latest : Option FileTree) : FileDiffResult :=
  { changed := (ServerFs.diff old latest).1, removed := (ServerFs.diff old latest).2, tree := latest }

def onFileDiff (msg : FileDiff) : Reaction :=
  let old := (session.fs server).getTree msg.oldTree
  let latest := (session.fs server).latestTree
  if loggable old && loggable latest then
    session.stay server [.send (.fileDiffResult (diffResult old latest))]
  else { server, turn := .panicked, effects := [] }

/-- The chunk of an object at an index, as `usize` arithmetic cuts it. -/
def chunkAt (data : Bytes) (idx : Nat) : Bytes :=
  let start := idx * chunkSize % 2 ^ 64
  if start < data.length then (data.drop start).take chunkSize else []

def notFound (peer : String) : ErrorMsg :=
  { code := "0xE020"
    message := if peer = "" then "object not found" else "object not found; peer=" ++ peer
    requestId := none }

def peerHint (owner : Option String) : String :=
  match owner with
  | some machine => ((server.onlineMachine session.userDomain machine).map MachineInfo.peerAddr).getD ""
  | none => ""

def onFileGet (msg : FileGet) : Reaction :=
  match (session.fs server).getObject msg.blobId with
  | some data =>
    let idx := msg.chunkIndex.getD 0
    let e2e := cfg.e2e session.userDomain
    session.stay server
      [.send (.fileChunk (chunkFlags e2e) (chunkPayload cfg.aead e2e (chunkAt data idx) idx))]
  | none =>
    let owner := server.objectOwner session.userDomain msg.blobId
    let reply := Effect.send (.error (notFound (session.peerHint server owner)))
    let hint := Effect.broadcast
      (.peerHint { blobId := msg.blobId, requesterAddr := session.remoteAddress })
    if owner.any (· ≠ session.machineId) then session.stay server [reply, hint]
    else session.stay server [reply]

def quotaExceeded : ErrorMsg := { code := "0xE040", message := "quota_exceeded", requestId := none }

def newUpload (msg : FilePut) : PendingUpload where
  blobId := msg.blobId
  size := msg.size
  totalChunks := msg.totalChunks
  tempPath := tempPathFor msg.blobId
  received := List.replicate msg.totalChunks false
  receivedCount := 0
  length_received := List.length_replicate
  count_received := by simp [List.count_replicate]
  tempPath_eq := rfl

/-- The quota is reserved before the upload, and the flags are allocated after
the old temporary file is gone. -/
def onFilePut (msg : FilePut) : Reaction :=
  match server.tryReserveQuota cfg session.userDomain msg.size with
  | (false, server) => session.stay server [.send (.error quotaExceeded)]
  | (true, server) =>
    let server := server.setStore session.userDomain
      ((session.fs server).removeTemp (tempPathFor msg.blobId))
    if msg.totalChunks > isizeMax then { server, turn := .panicked, effects := [] }
    else
      { session with pendingUpload := some (newUpload msg) }.stay server
        [.send (.filePutAck { blobId := msg.blobId, have_ := [], completed := false })]

def onLockAcquire (msg : LockAcquire) : Reaction :=
  match server.locks.acquire now msg.path msg.requester msg.ttlMs with
  | (.ok expiresAt, locks) =>
    session.stay { server with locks }
      [.send (.lockGranted { path := msg.path, expiresAt }),
        .broadcastExcept
          (.lockNotify { path := msg.path, event := "locked", holder := some msg.requester })]
  | (.error holder, locks) =>
    session.stay { server with locks } [.send (.lockDenied { path := msg.path, holder })]

/-- Whether the lock was renewed does not show in the answer. -/
def onLockRenew (msg : LockRenew) : Reaction :=
  session.stay { server with locks := (server.locks.renew now msg.path msg.requester 30000).2 }
    [.send (.lockGranted { path := msg.path, expiresAt := (now + 30000) % 2 ^ 64 })]

def onLockRelease (msg : LockRelease) : Reaction :=
  session.stay { server with locks := (server.locks.release msg.path msg.requester).2 }
    [.broadcastExcept (.lockNotify { path := msg.path, event := "unlocked", holder := none })]

def handle : ClientFrame → Reaction
  | .fileChunk payload => session.onFileChunk cfg server payload
  | .heartbeat => session.stay (server.heartbeat now session.userDomain session.machineId) []
  | .fileTree tree => session.onFileTree cfg server tree
  | .fileDiff msg => session.onFileDiff server msg
  | .fileGet msg => session.onFileGet cfg server msg
  | .filePut msg => session.onFilePut cfg server msg
  | .lockAcquire msg => session.onLockAcquire now server msg
  | .lockRenew msg => session.onLockRenew now server msg
  | .lockRelease msg => session.onLockRelease server msg
  | .malformed => { server, turn := .failed, effects := [] }
  | .unhandled => session.stay server []

end Session

/-- A session that has ended reads no more frames. -/
def Turn.handle (cfg : Config) (now : Nat) (server : ServerState) (turn : Turn)
    (frame : ClientFrame) : Reaction :=
  match turn with
  | .ready session => session.handle cfg now server frame
  | .failed | .panicked => { server, turn, effects := [] }

end Nsmt.Server
