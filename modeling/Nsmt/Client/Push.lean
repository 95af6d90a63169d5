import Nsmt.Core.E2e
import Nsmt.Core.Frame
import Nsmt.Core.Messages
import Nsmt.Lib.Sparse

/-!
# Pushing one entry

`push_entry` as a coroutine over the connection: `work` is what it does without
waiting, `recv` what it makes of the next frame once it waits. Both waits pass
over the frames they are not waiting for, so broadcasts may come between.
-/

namespace Nsmt.Client

open Nsmt.Lib Nsmt.Core

/-- `requester.split('/').next()`: the tenant of a requester. -/
def domainOf (requester : String) : String := String.ofList (requester.toList.takeWhile (· ≠ '/'))

/-- Where `push_entry` stands. In `sending` the loop is at chunk `idx`, with the
chunks `have_` of the first acknowledgement left out. -/
inductive PushPhase
  | acquire
  | waitLock
  | put
  | waitAck
  | sending (have_ : List Nat) (idx : Nat)
  | waitDone
  | release
  | returned
  deriving DecidableEq, Repr

/-- What one call of `push_entry` works on. `bytes` is what it reads once the lock
is granted, from the object cache or else from the share directory. -/
structure PushEntry where
  entry : FileTreeEntry
  requester : String
  bytes : Bytes

namespace PushEntry

variable (aead : Aead) (e2e : Option E2EKeys) (p : PushEntry)

def totalChunks : Nat := Sparse.chunkCount chunkSize p.bytes.length

def lockAcquire : ClientFrame :=
  .lockAcquire { path := p.entry.path, requester := p.requester, ttlMs := 30000 }

def filePut : FilePut :=
  { blobId := p.entry.blobId, totalChunks := p.totalChunks, size := p.bytes.length }

def fileChunk (idx : Nat) : ClientFrame :=
  .fileChunk (chunkPayload aead e2e (Sparse.slice chunkSize p.bytes idx) idx)

def lockRelease : ClientFrame := .lockRelease { path := p.entry.path, requester := p.requester }

/-- The next step that needs no frame: what is sent, and the phase behind it. -/
def work : PushPhase → Option (Option ClientFrame × PushPhase)
  | .acquire => some (some p.lockAcquire, .waitLock)
  | .put => some (some (.filePut p.filePut), .waitAck)
  | .sending have_ idx =>
    if idx < p.totalChunks then
      if idx ∈ have_ then some (none, .sending have_ (idx + 1))
      else some (some (p.fileChunk aead e2e idx), .sending have_ (idx + 1))
    else some (none, .waitDone)
  | .release => some (some p.lockRelease, .returned)
  | .waitLock | .waitAck | .waitDone | .returned => none

end PushEntry

namespace PushPhase

def waiting : PushPhase → Bool
  | .waitLock | .waitAck | .waitDone => true
  | _ => false

/-- A denied lock and a rejected upload both end the push without an error, and
a rejected one without releasing the lock. -/
def recv : PushPhase → ServerFrame → PushPhase
  | .waitLock, .lockDenied _ => .returned
  | .waitLock, .lockGranted _ => .put
  | .waitAck, .filePutAck ack => .sending ack.have_ 0
  | .waitAck, .error _ => .returned
  | .waitDone, .filePutAck _ => .release
  | phase, _ => phase

theorem recv_broadcast (phase : PushPhase) {frame : ServerFrame} (h : frame.isBroadcast = true) :
    phase.recv frame = phase := by
  cases frame with
  | lockNotify _ => cases phase <;> rfl
  | onlineDelta _ => cases phase <;> rfl
  | peerHint _ => cases phase <;> rfl
  | _ => cases h

end PushPhase

-- ---------------------------------------------------------------------------
-- Pushing a tree
-- ---------------------------------------------------------------------------

/-- `sync_push`: the entries of the tree one after the other, then the tree.
`content` is what reading an entry's object gives. -/
inductive SyncPush
  | idle
  | pushing (tree : FileTree) (content : FileTreeEntry → Bytes) (entry : FileTreeEntry)
    (phase : PushPhase) (rest : List FileTreeEntry)
  | publishing (tree : FileTree)

namespace SyncPush

/-- The head of the loop. -/
def next (tree : FileTree) (content : FileTreeEntry → Bytes) : List FileTreeEntry → SyncPush
  | [] => .publishing tree
  | entry :: rest => .pushing tree content entry .acquire rest

def start (tree : FileTree) (content : FileTreeEntry → Bytes) : SyncPush :=
  next tree content tree.entries

/-- However `push_entry` came to return, the loop goes on. -/
def work (aead : Aead) (e2e : Option E2EKeys) (requester : String) :
    SyncPush → Option (Option ClientFrame × SyncPush)
  | .idle => none
  | .pushing tree content entry phase rest =>
    if phase = .returned then some (none, next tree content rest)
    else
      (PushEntry.work aead e2e { entry, requester, bytes := content entry } phase).map
        fun (frame, phase) => (frame, .pushing tree content entry phase rest)
  | .publishing tree => some (some (.fileTree tree), .idle)

def waiting : SyncPush → Bool
  | .pushing _ _ _ phase _ => phase.waiting
  | _ => false

def recv : SyncPush → ServerFrame → SyncPush
  | .pushing tree content entry phase rest, frame =>
    .pushing tree content entry (phase.recv frame) rest
  | client, _ => client

/-- The entry being pushed. -/
def entry : SyncPush → Option FileTreeEntry
  | .pushing _ _ entry _ _ => some entry
  | _ => none

theorem recv_broadcast (client : SyncPush) {frame : ServerFrame} (h : frame.isBroadcast = true) :
    client.recv frame = client := by
  cases client with
  | pushing tree content entry phase rest => rw [recv, phase.recv_broadcast h]
  | idle => rfl
  | publishing tree => rfl

end SyncPush

end Nsmt.Client
