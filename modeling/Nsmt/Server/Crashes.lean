import Nsmt.Lib.Runs
import Nsmt.Server.Chunks
import Nsmt.Server.Memory

/-!
# Frames that crash a session

The handlers of the ready loop with every slice, sum, product, index and
allocation checked; `none` is a panic. Where nothing panics they do what
`Session.handle` does. `no_crash_iff` says which frames a session survives.
-/

namespace Nsmt.Server

open Nsmt.Lib Nsmt.Core

namespace Checked

/-- A sum of `u64`s, or of `usize`s. -/
def add (a b : Nat) : Option Nat := if a + b < 2 ^ 64 then some (a + b) else none

def mul (a b : Nat) : Option Nat := if a * b < 2 ^ 64 then some (a * b) else none

/-- `&s[..12]`. -/
def firstTwelve (s : String) : Option Unit := if isCharBoundary s 12 then some () else none

/-- `&data[start..stop]`. -/
def slice (data : Bytes) (start stop : Nat) : Option Bytes :=
  if start ≤ stop ∧ stop ≤ data.length then some ((data.drop start).take (stop - start)) else none

/-- A vector of `count` elements of `width` bytes. -/
def allocate (width count : Nat) : Option Unit :=
  if width * count ≤ isizeMax then some () else none

def firstTwelveOf : Option FileTree → Option Unit
  | some tree => firstTwelve tree.treeHash
  | none => some ()

/-- The inner `none` is a chunk that does not decrypt. -/
def handleChunk (cfg : Config) (fs : ServerFs) (pu : PendingUpload) (payload : Bytes)
    (userDomain : String) : Option (Option (ServerFs × PendingUpload)) :=
  if payload.length < 4 then some (some (fs, pu))
  else
    let idx := ofLe (payload.take 4)
    if idx ≥ pu.totalChunks then some (some (fs, pu))
    else
      match h : pu.received[idx]? with
      | none => none
      | some true => some (some (fs, pu))
      | some false =>
        match openChunk cfg.aead (cfg.e2e userDomain) (payload.drop 4) idx with
        | none => some none
        | some data => do
          let offset ← mul idx chunkSize
          let _ ← add pu.receivedCount 1
          let file := Sparse.writeAt ((fs.tmp pu.tempPath).getD []) offset data
          some (some (fs.writeTemp pu.tempPath file, pu.mark idx h))

section
variable (cfg : Config) (now : Nat) (server : ServerState) (session : Session)

def tryReserveQuota (domain : String) (size : Nat) : Option (Bool × ServerState) := do
  let used ← add (server.usageBytes domain) size
  if used > cfg.quotaFor domain then some (false, server)
  else some (true, { server with usageBytes := Function.update server.usageBytes domain used })

def acquire (locks : LockRegistry) (path requester : String) (ttlMs : Nat) :
    Option (Except String Nat × LockRegistry) :=
  let granted := do
    let expiresAt ← add now ttlMs
    some (.ok expiresAt, Function.update locks path (some { holder := requester, expiresAt }))
  match locks path with
  | some e =>
    if e.expiresAt > now ∧ e.holder ≠ requester then some (.error e.holder, locks) else granted
  | none => granted

def renew (locks : LockRegistry) (path requester : String) (ttlMs : Nat) :
    Option (Bool × LockRegistry) :=
  match locks path with
  | some e =>
    if e.holder = requester then do
      let expiresAt ← add now ttlMs
      some (true, Function.update locks path (some { e with expiresAt }))
    else some (false, locks)
  | none => some (false, locks)

/-- The list of chunks in the last acknowledgement is one of `u64`s. -/
def complete (pu : PendingUpload) : Option Reaction :=
  match (session.fs server).tmp pu.tempPath with
  | none => some { server, turn := .failed, effects := [] }
  | some _ => do
    allocate 8 pu.totalChunks
    some (session.complete server pu)

def onFileChunk (payload : Bytes) : Option Reaction :=
  match session.pendingUpload with
  | none => some (session.stay server [])
  | some pu => do
    match ← handleChunk cfg (session.fs server) pu payload session.userDomain with
    | none => some { server, turn := .failed, effects := [] }
    | some (fs, pu) =>
      let server := server.setStore session.userDomain fs
      let session := { session with pendingUpload := some pu }
      if pu.receivedCount = pu.totalChunks then complete server session pu
      else some (session.stay server [])

def onFileTree (tree : FileTree) : Option Reaction := do
  let saved := { tree with treeHash := treeHash cfg.sha256 tree }
  firstTwelve tree.treeHash
  firstTwelve saved.treeHash
  some (session.stay (server.setStore session.userDomain ((session.fs server).saveTree saved)) [])

def onFileDiff (msg : FileDiff) : Option Reaction := do
  let old := (session.fs server).getTree msg.oldTree
  let latest := (session.fs server).latestTree
  firstTwelveOf old
  firstTwelveOf latest
  some (session.stay server [.send (.fileDiffResult (Session.diffResult old latest))])

def chunkAt (data : Bytes) (idx : Nat) : Option Bytes := do
  let start ← mul idx chunkSize
  if start < data.length then
    let stop ← add start chunkSize
    slice data start (min stop data.length)
  else some []

def onFileGet (msg : FileGet) : Option Reaction :=
  match (session.fs server).getObject msg.blobId with
  | some data => do
    let idx := msg.chunkIndex.getD 0
    let chunk ← chunkAt data idx
    let e2e := cfg.e2e session.userDomain
    some (session.stay server [.send (.fileChunk (chunkFlags e2e) (chunkPayload cfg.aead e2e chunk idx))])
  | none => some (session.onFileGet cfg server msg)

def onFilePut (msg : FilePut) : Option Reaction := do
  match ← tryReserveQuota cfg server session.userDomain msg.size with
  | (false, server) => some (session.stay server [.send (.error Session.quotaExceeded)])
  | (true, server) =>
    let server := server.setStore session.userDomain
      ((session.fs server).removeTemp (tempPathFor msg.blobId))
    allocate 1 msg.totalChunks
    some ({ session with pendingUpload := some (Session.newUpload msg) }.stay server
      [.send (.filePutAck { blobId := msg.blobId, have_ := [], completed := false })])

def onLockAcquire (msg : LockAcquire) : Option Reaction := do
  match ← acquire now server.locks msg.path msg.requester msg.ttlMs with
  | (.ok expiresAt, locks) =>
    some (session.stay { server with locks }
      [.send (.lockGranted { path := msg.path, expiresAt }),
        .broadcastExcept
          (.lockNotify { path := msg.path, event := "locked", holder := some msg.requester })])
  | (.error holder, locks) =>
    some (session.stay { server with locks } [.send (.lockDenied { path := msg.path, holder })])

def onLockRenew (msg : LockRenew) : Option Reaction := do
  let (_, locks) ← renew now server.locks msg.path msg.requester 30000
  let expiresAt ← add now 30000
  some (session.stay { server with locks } [.send (.lockGranted { path := msg.path, expiresAt })])

def handle : ClientFrame → Option Reaction
  | .fileChunk payload => onFileChunk cfg server session payload
  | .fileTree tree => onFileTree cfg server session tree
  | .fileDiff msg => onFileDiff server session msg
  | .fileGet msg => onFileGet cfg server session msg
  | .filePut msg => onFilePut cfg server session msg
  | .lockAcquire msg => onLockAcquire now server session msg
  | .lockRenew msg => onLockRenew now server session msg
  -- No arithmetic, no slice and no allocation by a client's number.
  | .heartbeat => some (session.handle cfg now server .heartbeat)
  | .lockRelease msg => some (session.handle cfg now server (.lockRelease msg))
  | .malformed => some (session.handle cfg now server .malformed)
  | .unhandled => some (session.handle cfg now server .unhandled)

end

/-- `shard_for` divides by the number of shards, and its result is an index. -/
def captureShard (sha256 : Bytes → Digest) (pool : MemoryPool) (fqn : String) : Option Gateway :=
  if pool.shards.length = 0 then none else pool.shards[shardFor sha256 pool.shards.length fqn]?

/-- A single shard is asked by its index, several are iterated over. -/
def recallShards (pool : MemoryPool) : Option (List Gateway) :=
  if pool.shards.length = 1 then do
    let gateway ← pool.shards[0]?
    some [gateway]
  else some pool.shards

/-- Where the session is after a frame. -/
def turn (cfg : Config) (pool : MemoryPool) (now : Nat) (server : ServerState) (session : Session) :
    ReadyFrame → Option Turn
  | .file frame => do
    let reaction ← handle cfg now server session frame
    some reaction.turn
  | .memoryRecall _ => do
    let _ ← recallShards pool
    some (.ready session)
  | .memoryCapture msg => do
    let _ ← captureShard cfg.sha256 pool msg.fqn
    some (.ready session)

end Checked

-- ---------------------------------------------------------------------------
-- Frames that fit
-- ---------------------------------------------------------------------------

/-- Somebody else holds the path, and the lock has not expired. -/
def LockRegistry.HeldByOther (locks : LockRegistry) (now : Nat) (path requester : String) : Prop :=
  ∃ e, locks path = some e ∧ e.expiresAt > now ∧ e.holder ≠ requester

/-- The numbers and strings of the frame fit the state that the frame finds. -/
def Fits (cfg : Config) (now : Nat) (server : ServerState) (session : Session) : ClientFrame → Prop
  | .fileTree tree => isCharBoundary tree.treeHash 12 = true
  | .fileDiff msg =>
    Session.loggable ((session.fs server).getTree msg.oldTree) = true ∧
      Session.loggable (session.fs server).latestTree = true
  | .fileGet msg => ∀ data, (session.fs server).getObject msg.blobId = some data →
      msg.chunkIndex.getD 0 * chunkSize < 2 ^ 64 ∧
        (msg.chunkIndex.getD 0 * chunkSize < data.length →
          msg.chunkIndex.getD 0 * chunkSize + chunkSize < 2 ^ 64)
  | .filePut msg =>
    server.usageBytes session.userDomain + msg.size < 2 ^ 64 ∧
      (server.usageBytes session.userDomain + msg.size ≤ cfg.quotaFor session.userDomain →
        msg.totalChunks ≤ isizeMax)
  | .lockAcquire msg =>
    server.locks.HeldByOther now msg.path msg.requester ∨ now + msg.ttlMs < 2 ^ 64
  | .lockRenew _ => now + 30000 < 2 ^ 64
  | .fileChunk _ | .heartbeat | .lockRelease _ | .malformed | .unhandled => True

def PendingUpload.SmallIndices (pu : PendingUpload) : Prop := ∀ i ∈ pu.has, i < 2 ^ 32

def Turn.SmallIndices : Turn → Prop
  | .ready session => ∀ pu, session.pendingUpload = some pu → pu.SmallIndices
  | .failed | .panicked => True

theorem chunkIndex_lt (h : chunkIndex payload = some idx) : idx < 2 ^ 32 := by
  unfold chunkIndex at h
  split at h
  · cases h
  · obtain rfl := Option.some.inj h
    have hlt := ofLe_lt (payload.take 4)
    rwa [List.length_take, Nat.min_eq_left (by omega)] at hlt

theorem PendingUpload.SmallIndices.receivedCount_le {pu : PendingUpload} (h : pu.SmallIndices) :
    pu.receivedCount ≤ 2 ^ 32 := by
  have hrest : (pu.received.drop (2 ^ 32)).count true = 0 := by
    rw [List.count_eq_zero]
    intro hmem
    obtain ⟨i, hi⟩ := List.mem_iff_getElem?.mp hmem
    rw [List.getElem?_drop] at hi
    have hlt := h _ hi
    omega
  have hfirst : (pu.received.take (2 ^ 32)).count true ≤ 2 ^ 32 :=
    List.count_le_length.trans (List.length_take_le _ _)
  rw [pu.count_received, ← List.take_append_drop (2 ^ 32) pu.received, List.count_append, hrest]
  exact hfirst

theorem handleChunk_smallIndices {out : ServerFs × PendingUpload} (hsmall : pu.SmallIndices)
    (h : handleChunk cfg fs pu payload domain = some out) : out.2.SmallIndices := by
  obtain ⟨-, hskip⟩ | ⟨idx, -, -, -, hfail⟩ | ⟨idx, data, hfresh, hidx, -, hwrite⟩ :=
    handleChunk_cases cfg fs pu payload domain
  · rw [hskip] at h
    obtain rfl := Option.some.inj h
    exact hsmall
  · rw [hfail] at h
    cases h
  · rw [hwrite] at h
    obtain rfl := Option.some.inj h
    intro i hi
    rw [PendingUpload.has_mark] at hi
    rcases hi with rfl | hi
    · exact chunkIndex_lt hidx
    · exact hsmall i hi

theorem complete_smallIndices (server : ServerState) (session : Session) (pu : PendingUpload) :
    (session.complete server pu).turn.SmallIndices := by
  unfold Session.complete
  split
  · trivial
  · intro pu hpu
    cases hpu

theorem onFileChunk_smallIndices (cfg : Config) (server : ServerState) {session : Session}
    (hsmall : (Turn.ready session).SmallIndices) (payload : Bytes) :
    (session.onFileChunk cfg server payload).turn.SmallIndices := by
  unfold Session.onFileChunk
  cases hpending : session.pendingUpload with
  | none => exact hsmall
  | some pu =>
    cases hchunk : handleChunk cfg (session.fs server) pu payload session.userDomain with
    | none =>
      simp only [hchunk]
      trivial
    | some out =>
      simp only [hchunk]
      split
      · exact complete_smallIndices _ _ _
      · intro pu' hpu'
        obtain rfl := Option.some.inj hpu'
        exact handleChunk_smallIndices (hsmall pu hpending) hchunk

theorem onFilePut_smallIndices (cfg : Config) (server : ServerState) {session : Session}
    (hsmall : (Turn.ready session).SmallIndices) (msg : FilePut) :
    (session.onFilePut cfg server msg).turn.SmallIndices := by
  unfold Session.onFilePut
  split
  · exact hsmall
  · split
    · trivial
    · intro pu hpu
      obtain rfl := Option.some.inj hpu
      intro i hi
      rw [PendingUpload.has_newUpload] at hi
      cases hi

theorem handle_smallIndices (cfg : Config) (now : Nat) (server : ServerState) {session : Session}
    (hsmall : (Turn.ready session).SmallIndices) (frame : ClientFrame) :
    (session.handle cfg now server frame).turn.SmallIndices := by
  cases frame with
  | fileChunk payload => exact onFileChunk_smallIndices cfg server hsmall payload
  | filePut msg => exact onFilePut_smallIndices cfg server hsmall msg
  | fileTree tree =>
    simp only [Session.handle, Session.onFileTree]
    split
    · exact hsmall
    · trivial
  | fileDiff msg =>
    simp only [Session.handle, Session.onFileDiff]
    split
    · exact hsmall
    · trivial
  | fileGet msg =>
    simp only [Session.handle, Session.onFileGet]
    split
    · exact hsmall
    · split
      · exact hsmall
      · exact hsmall
  | lockAcquire msg =>
    simp only [Session.handle, Session.onLockAcquire]
    split
    · exact hsmall
    · exact hsmall
  | malformed => trivial
  | _ => exact hsmall

namespace Checked

theorem add_some : add a b = some c ↔ a + b < 2 ^ 64 ∧ a + b = c := by
  simp [add]

theorem mul_some : mul a b = some c ↔ a * b < 2 ^ 64 ∧ a * b = c := by
  simp [mul]

theorem firstTwelve_some : firstTwelve s = some u ↔ isCharBoundary s 12 = true := by
  simp [firstTwelve]

theorem allocate_some : allocate width count = some u ↔ width * count ≤ isizeMax := by
  simp [allocate]

theorem firstTwelveOf_some (tree : Option FileTree) :
    firstTwelveOf tree = some u ↔ Session.loggable tree = true := by
  cases tree with
  | none => simp [firstTwelveOf, Session.loggable]
  | some tree => simp [firstTwelveOf, firstTwelve_some, Session.loggable]

-- ---------------------------------------------------------------------------
-- What the checks change
-- ---------------------------------------------------------------------------

section
variable {cfg : Config} {now : Nat} {server : ServerState} {session : Session} {r : Reaction}

/-- No check fails on a chunk: its index is a `u32`. -/
theorem handleChunk_eq (cfg : Config) (fs : ServerFs) {pu : PendingUpload} (hsmall : pu.SmallIndices)
    (payload : Bytes) (userDomain : String) : handleChunk cfg fs pu payload userDomain =
      some (Nsmt.Server.handleChunk cfg fs pu payload userDomain) := by
  unfold handleChunk Nsmt.Server.handleChunk
  by_cases hshort : payload.length < 4
  · simp [hshort]
  · simp only [hshort, if_false]
    have hlen := pu.length_received
    have hidx : ofLe (payload.take 4) < 2 ^ 32 := chunkIndex_lt (if_neg hshort)
    by_cases hout : ofLe (payload.take 4) ≥ pu.totalChunks
    · have hnone : pu.received[ofLe (payload.take 4)]? = none := List.getElem?_eq_none (by omega)
      simp [hout, hnone]
    · simp only [hout, if_false]
      have hoffset : mul (ofLe (payload.take 4)) chunkSize =
          some (ofLe (payload.take 4) * chunkSize) := by
        rw [mul_some]
        refine ⟨?_, rfl⟩
        unfold chunkSize
        omega
      have hcount : add pu.receivedCount 1 = some (pu.receivedCount + 1) := by
        have hle := hsmall.receivedCount_le
        rw [add_some]
        omega
      split
      · rename_i hflag
        rw [List.getElem?_eq_none_iff] at hflag
        omega
      · rename_i hflag
        simp [hflag]
      · rename_i hflag
        rw [dif_pos hflag]
        cases openChunk cfg.aead (cfg.e2e userDomain) (payload.drop 4) (ofLe (payload.take 4)) with
        | none => rfl
        | some data =>
          rw [hoffset, hcount]
          rfl

theorem onFileTree_some : onFileTree cfg server session tree = some r ↔
    Fits cfg now server session (.fileTree tree) ∧ session.onFileTree cfg server tree = r := by
  have hsaved : isCharBoundary (treeHash cfg.sha256 tree) 12 = true :=
    Digest.isCharBoundary _ (by omega)
  simp only [onFileTree, Option.bind_eq_bind, Option.bind_eq_some_iff, firstTwelve_some, hsaved,
    Option.some.injEq, exists_const, true_and, Fits, Session.onFileTree]
  refine and_congr_right fun hfit => ?_
  rw [if_pos hfit]

theorem onFileDiff_some : onFileDiff server session msg = some r ↔
    Fits cfg now server session (.fileDiff msg) ∧ session.onFileDiff server msg = r := by
  simp only [onFileDiff, Option.bind_eq_bind, Option.bind_eq_some_iff, firstTwelveOf_some,
    Option.some.injEq, exists_const, Fits, Session.onFileDiff, and_assoc]
  refine and_congr_right fun hold => and_congr_right fun hlatest => ?_
  rw [hold, hlatest]
  rfl

theorem chunkAt_some (data : Bytes) (idx : Nat) : chunkAt data idx = some chunk ↔
    (idx * chunkSize < 2 ^ 64 ∧
      (idx * chunkSize < data.length → idx * chunkSize + chunkSize < 2 ^ 64)) ∧
    Session.chunkAt data idx = chunk := by
  simp only [chunkAt, Option.bind_eq_bind, Option.bind_eq_some_iff, mul_some, Session.chunkAt, and_assoc,
    exists_and_left, exists_eq_left']
  refine and_congr_right fun hstart => ?_
  rw [Nat.mod_eq_of_lt hstart]
  by_cases hin : idx * chunkSize < data.length
  · simp only [hin, if_true, Option.bind_eq_some_iff, add_some, and_assoc, exists_and_left,
      exists_eq_left', forall_const]
    refine and_congr_right fun hstop => ?_
    have hcut : (data.drop (idx * chunkSize)).take
        (min (idx * chunkSize + chunkSize) data.length - idx * chunkSize) =
          (data.drop (idx * chunkSize)).take chunkSize := by
      rw [List.take_eq_take_iff, List.length_drop]
      omega
    rw [slice, if_pos (by omega), hcut, Option.some.injEq]
  · simp [hin]

theorem onFileGet_some : onFileGet cfg server session msg = some r ↔
    Fits cfg now server session (.fileGet msg) ∧ session.onFileGet cfg server msg = r := by
  unfold onFileGet Session.onFileGet Fits
  cases hdata : (session.fs server).getObject msg.blobId with
  | none => simp [hdata]
  | some data =>
    simp only [hdata, Option.bind_eq_bind, Option.bind_eq_some_iff, chunkAt_some, Option.some.injEq,
      and_assoc, exists_and_left, exists_eq_left', forall_eq']

theorem tryReserveQuota_some {out : Bool × ServerState} :
    tryReserveQuota cfg server domain size = some out ↔
      server.usageBytes domain + size < 2 ^ 64 ∧ server.tryReserveQuota cfg domain size = out := by
  simp only [tryReserveQuota, Option.bind_eq_bind, Option.bind_eq_some_iff, add_some, and_assoc,
    exists_and_left, exists_eq_left', ServerState.tryReserveQuota]
  refine and_congr_right fun hfit => ?_
  rw [Nat.mod_eq_of_lt hfit]
  split
  · exact Option.some_inj
  · exact Option.some_inj

theorem onFilePut_some : onFilePut cfg server session msg = some r ↔
    Fits cfg now server session (.filePut msg) ∧ session.onFilePut cfg server msg = r := by
  simp only [onFilePut, Option.bind_eq_bind, Option.bind_eq_some_iff, tryReserveQuota_some, and_assoc,
    exists_and_left, exists_eq_left', Fits, Session.onFilePut]
  refine and_congr_right fun hsum => ?_
  simp only [ServerState.tryReserveQuota, Nat.mod_eq_of_lt hsum]
  by_cases hover : server.usageBytes session.userDomain + msg.size > cfg.quotaFor session.userDomain
  · simp [hover, Nat.not_le.mpr hover]
  · have hwithin := Nat.not_lt.mp hover
    simp only [hover, if_false, hwithin, forall_const, Option.bind_eq_some_iff, allocate_some,
      exists_const, Nat.one_mul, Option.some.injEq]
    refine and_congr_right fun halloc => ?_
    rw [if_neg (Nat.not_lt.mpr halloc)]

theorem acquire_some {out : Except String Nat × LockRegistry} :
    acquire now locks path requester ttlMs = some out ↔
      (locks.HeldByOther now path requester ∨ now + ttlMs < 2 ^ 64) ∧
        locks.acquire now path requester ttlMs = out := by
  have hgranted (hfree : ¬ locks.HeldByOther now path requester) :
      acquire now locks path requester ttlMs = (add now ttlMs).bind (fun expiresAt =>
        some (.ok expiresAt, Function.update locks path (some { holder := requester, expiresAt }))) ∧
      locks.acquire now path requester ttlMs = (.ok ((now + ttlMs) % 2 ^ 64),
        Function.update locks path
          (some { holder := requester, expiresAt := (now + ttlMs) % 2 ^ 64 })) := by
    unfold acquire LockRegistry.acquire
    cases hentry : locks path with
    | none => simp
    | some e =>
      have hnot : ¬ (e.expiresAt > now ∧ e.holder ≠ requester) := fun h => hfree ⟨e, hentry, h⟩
      simp [hnot]
  by_cases hheld : locks.HeldByOther now path requester
  · obtain ⟨e, hentry, hother⟩ := hheld
    have hheld : locks.HeldByOther now path requester := ⟨e, hentry, hother⟩
    simp [acquire, LockRegistry.acquire, hentry, hother, hheld]
  · obtain ⟨hchecked, hwrapped⟩ := hgranted hheld
    rw [hchecked, hwrapped]
    simp only [Option.bind_eq_some_iff, add_some, and_assoc, exists_and_left, exists_eq_left',
      Option.some.injEq, hheld, false_or]
    refine and_congr_right fun hsum => ?_
    rw [Nat.mod_eq_of_lt hsum]

theorem onLockAcquire_some : onLockAcquire now server session msg = some r ↔
    Fits cfg now server session (.lockAcquire msg) ∧ session.onLockAcquire now server msg = r := by
  simp only [onLockAcquire, Option.bind_eq_bind, Option.bind_eq_some_iff, acquire_some, and_assoc,
    exists_and_left, exists_eq_left', Fits, Session.onLockAcquire]
  refine and_congr_right fun _ => ?_
  cases server.locks.acquire now msg.path msg.requester msg.ttlMs with
  | mk answer locks =>
    cases answer with
    | ok expiresAt => exact Option.some_inj
    | error holder => exact Option.some_inj

theorem renew_eq (hsum : now + ttlMs < 2 ^ 64) (locks : LockRegistry) (path requester : String) :
    renew now locks path requester ttlMs = some (locks.renew now path requester ttlMs) := by
  unfold renew LockRegistry.renew
  cases locks path with
  | none => rfl
  | some e =>
    rw [Nat.mod_eq_of_lt hsum, add_some.mpr ⟨hsum, rfl⟩]
    by_cases hholder : e.holder = requester
    · simp [hholder]
    · simp [hholder]

theorem onLockRenew_some : onLockRenew now server session msg = some r ↔
    Fits cfg now server session (.lockRenew msg) ∧ session.onLockRenew now server msg = r := by
  unfold onLockRenew Session.onLockRenew Fits
  by_cases hsum : now + 30000 < 2 ^ 64
  · have hadd : add now 30000 = some (now + 30000) := add_some.mpr ⟨hsum, rfl⟩
    simp only [renew_eq hsum, hadd, Nat.mod_eq_of_lt hsum, hsum, true_and]
    exact Option.some_inj
  · simp only [hsum, false_and, iff_false, Option.bind_eq_bind]
    intro h
    obtain ⟨renewed, -, h⟩ := Option.bind_eq_some_iff.mp h
    obtain ⟨expiresAt, hadd, -⟩ := Option.bind_eq_some_iff.mp h
    exact hsum (add_some.mp hadd).1

theorem complete_eq {pu : PendingUpload} (hsmall : pu.SmallIndices)
    (hall : pu.receivedCount = pu.totalChunks) :
    complete server session pu = some (session.complete server pu) := by
  have halloc : allocate 8 pu.totalChunks = some () := by
    have hle := hsmall.receivedCount_le
    rw [allocate_some, isizeMax]
    omega
  unfold complete
  cases htmp : (session.fs server).tmp pu.tempPath with
  | none => simp [Session.complete, htmp]
  | some bytes => simp [halloc]

theorem onFileChunk_eq (hsmall : (Turn.ready session).SmallIndices) (payload : Bytes) :
    onFileChunk cfg server session payload = some (session.onFileChunk cfg server payload) := by
  unfold onFileChunk Session.onFileChunk
  cases hpending : session.pendingUpload with
  | none => rfl
  | some pu =>
    simp only [handleChunk_eq _ _ (hsmall pu hpending)]
    cases hchunk : Nsmt.Server.handleChunk cfg (session.fs server) pu payload session.userDomain with
    | none => rfl
    | some out =>
      have hsmall' := handleChunk_smallIndices (hsmall pu hpending) hchunk
      simp only [Option.bind_eq_bind, Option.bind_some]
      by_cases hall : out.2.receivedCount = out.2.totalChunks
      · simp only [hall, if_true, complete_eq hsmall' hall]
      · simp only [hall, if_false]

/-- The checked handlers are those of a session, as far as the frame fits. -/
theorem handle_some (hsmall : (Turn.ready session).SmallIndices) (frame : ClientFrame) :
    handle cfg now server session frame = some r ↔
      Fits cfg now server session frame ∧ session.handle cfg now server frame = r := by
  cases frame with
  | fileChunk payload => simp [handle, onFileChunk_eq hsmall, Fits, Session.handle]
  | fileTree tree => exact onFileTree_some
  | fileDiff msg => exact onFileDiff_some
  | fileGet msg => exact onFileGet_some
  | filePut msg => exact onFilePut_some
  | lockAcquire msg => exact onLockAcquire_some
  | lockRenew msg => exact onLockRenew_some
  | _ => simp [handle, Fits]

/-- Neither a recall nor a capture can panic: a pool has shards. -/
theorem turn_memory (cfg : Config) (pool : MemoryPool) (now : Nat) (server : ServerState)
    (session : Session) {frame : ReadyFrame} (h : ∀ file, frame ≠ .file file) :
    turn cfg pool now server session frame = some (.ready session) := by
  have hpos := pool.length_pos
  cases frame with
  | file frame => exact absurd rfl (h frame)
  | memoryRecall msg =>
    unfold turn recallShards
    by_cases hone : pool.shards.length = 1
    · simp [hone]
    · simp [hone]
  | memoryCapture msg =>
    have hlt : shardFor cfg.sha256 pool.shards.length msg.fqn < pool.shards.length :=
      Nat.mod_lt _ hpos
    simp [turn, captureShard, Nat.ne_of_gt hpos, hlt]

end

end Checked

-- ---------------------------------------------------------------------------
-- Runs of a session
-- ---------------------------------------------------------------------------

/-- A frame with the clock and the shared state that it finds. What other
sessions do shows in that state. -/
structure Visit where
  now : Nat
  server : ServerState
  frame : ReadyFrame

/-- A session behind its handshake. -/
def joined (userDomain machineId remoteAddress : String) : Session :=
  { userDomain, machineId, remoteAddress, pendingUpload := none }

theorem joined_smallIndices (userDomain machineId remoteAddress : String) :
    (Turn.ready (joined userDomain machineId remoteAddress)).SmallIndices := by
  intro pu hpu
  cases hpu

namespace Visit

variable (cfg : Config) (pool : MemoryPool)

def step (turn : Turn) (visit : Visit) : Turn :=
  match turn with
  | .ready session =>
    (Checked.turn cfg pool visit.now visit.server session visit.frame).getD .panicked
  | .failed | .panicked => turn

/-- The frame is handled without a panic. -/
def Completes (turn : Turn) (visit : Visit) : Prop :=
  ∀ session, turn = .ready session →
    (Checked.turn cfg pool visit.now visit.server session visit.frame).isSome = true

def Fits (turn : Turn) (visit : Visit) : Prop :=
  ∀ session frame, turn = .ready session → visit.frame = .file frame →
    Nsmt.Server.Fits cfg visit.now visit.server session frame

variable {cfg pool} {turn : Turn} {visit : Visit}

theorem completes_iff (hsmall : turn.SmallIndices) :
    Completes cfg pool turn visit ↔ Fits cfg turn visit := by
  cases turn with
  | ready session =>
    cases hframe : visit.frame with
    | file frame =>
      simp [Completes, Fits, hframe, Checked.turn, Option.isSome_iff_exists, Option.bind_eq_some_iff,
        Checked.handle_some hsmall]
    | _ => simp [Completes, Fits, hframe, Checked.turn_memory]
  | _ => simp [Completes, Fits]

theorem step_smallIndices (hsmall : turn.SmallIndices) : (step cfg pool turn visit).SmallIndices := by
  cases turn with
  | ready session =>
    cases hframe : visit.frame with
    | file frame =>
      simp only [step, hframe, Checked.turn]
      cases hr : Checked.handle cfg visit.now visit.server session frame with
      | none => trivial
      | some r =>
        obtain ⟨-, rfl⟩ := (Checked.handle_some hsmall frame).mp hr
        exact handle_smallIndices cfg visit.now visit.server hsmall frame
    | _ =>
      simp only [step, hframe, Checked.turn_memory, ne_eq, reduceCtorEq, not_false_eq_true, implies_true]
      exact hsmall
  | _ => trivial

end Visit

end Nsmt.Server
