import Nsmt.Core.Tree

/-!
# Messages of the ready phase

The payloads of the file and lock frames, of the broadcasts a session forwards
and of the error frame, and the frames that carry them. A chunk frame has a
binary payload; every other frame holds the JSON of one message.
-/

namespace Nsmt.Core

open Nsmt.Lib

structure LockAcquire where
  path : String
  requester : String
  ttlMs : Nat
  deriving DecidableEq, Repr

structure LockRenew where
  path : String
  requester : String
  deriving DecidableEq, Repr

structure LockRelease where
  path : String
  requester : String
  deriving DecidableEq, Repr

structure LockGranted where
  path : String
  expiresAt : Nat
  deriving DecidableEq, Repr

structure LockDenied where
  path : String
  holder : String
  deriving DecidableEq, Repr

structure LockNotify where
  path : String
  event : String
  holder : Option String
  deriving DecidableEq, Repr

structure FileDiff where
  oldTree : String
  newTree : Option String
  deriving DecidableEq, Repr

structure FileDiffResult where
  changed : List String
  removed : List String
  tree : Option FileTree
  deriving DecidableEq, Repr

structure FileGet where
  blobId : String
  chunkIndex : Option Nat
  deriving DecidableEq, Repr

structure FilePut where
  blobId : String
  totalChunks : Nat
  size : Nat
  deriving DecidableEq, Repr

structure FilePutAck where
  blobId : String
  have_ : List Nat
  completed : Bool
  deriving DecidableEq, Repr

structure PeerHint where
  blobId : String
  requesterAddr : String
  deriving DecidableEq, Repr

structure MachineInfo where
  machineId : String
  agents : List String
  addr : String
  peerAddr : String
  machinePubkey : String
  lastSeen : Nat
  deriving DecidableEq, Repr

inductive OnlineDeltaKind
  | join | leave | agentChange
  deriving DecidableEq, Repr

structure OnlineDelta where
  kind : OnlineDeltaKind
  machine : MachineInfo
  deriving DecidableEq, Repr

structure ErrorMsg where
  code : String
  message : String
  requestId : Option String
  deriving DecidableEq, Repr

/-- A frame as the ready loop dispatches it. `malformed` is a frame of one of
the JSON types whose payload does not parse; `unhandled` is any type the loop
only logs. -/
inductive ClientFrame
  | fileChunk (payload : Bytes)
  | heartbeat
  | fileTree (tree : FileTree)
  | fileDiff (msg : FileDiff)
  | fileGet (msg : FileGet)
  | filePut (msg : FilePut)
  | lockAcquire (msg : LockAcquire)
  | lockRenew (msg : LockRenew)
  | lockRelease (msg : LockRelease)
  | malformed
  | unhandled
  deriving DecidableEq, Repr

/-- A frame the server sends to a client in the ready phase. -/
inductive ServerFrame
  | fileDiffResult (msg : FileDiffResult)
  | fileChunk (flags : UInt8) (payload : Bytes)
  | filePutAck (msg : FilePutAck)
  | lockGranted (msg : LockGranted)
  | lockDenied (msg : LockDenied)
  | lockNotify (msg : LockNotify)
  | onlineDelta (msg : OnlineDelta)
  | peerHint (msg : PeerHint)
  | error (msg : ErrorMsg)
  deriving DecidableEq, Repr

/-- What other sessions push into a client's stream at any time. -/
def ServerFrame.isBroadcast : ServerFrame → Bool
  | .lockNotify _ | .onlineDelta _ | .peerHint _ => true
  | _ => false

end Nsmt.Core
