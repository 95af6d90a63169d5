import Nsmt.Client.Download
import Nsmt.Client.LocalWork
import Nsmt.Client.PullDisk

/-!
# The object cache over a run

Objects come into the cache from the server, from a peer and from the share
directory, and none is compared with its id. Pulls, trees and pushes are steps of
one run, with edits in between; share files and objects are places on one disk,
since a path of the server can lead to the objects and a link from one to the
other. `matches_of_faithful` says what keeps the cache and what a pull shows right.
-/

namespace Nsmt.Client

open Nsmt.Lib Nsmt.Lib.Paths Nsmt.Core

/-- A file, or a link with the place it leads to in the end. -/
inductive DiskFile
  | file (bytes : Bytes)
  | link (target : Place)
  deriving DecidableEq, Repr

abbrev DiskFiles := Place → Option DiskFile

namespace DiskFiles

/-- The place that is read or written when a file is opened. -/
def opened (disk : DiskFiles) (place : Place) : Place :=
  match disk place with
  | some (.link target) => target
  | _ => place

def read (disk : DiskFiles) (place : Place) : Option Bytes :=
  match disk (disk.opened place) with
  | some (.file bytes) => some bytes
  | _ => none

def exists_ (disk : DiskFiles) (place : Place) : Bool := (disk (disk.opened place)).isSome

def write (disk : DiskFiles) (place : Place) (bytes : Bytes) : DiskFiles :=
  Function.update disk (disk.opened place) (some (.file bytes))

/-- A write that may break off. -/
def written (disk : DiskFiles) (place : Place) (bytes : Bytes) : WriteResult → DiskFiles
  | .done => disk.write place bytes
  | .refused => disk
  | .broken front => disk.write place front

end DiskFiles

/-- The entries of a tree, with the bytes that were hashed. -/
abbrev Hashed := List (FileTreeEntry × Bytes)

/-- What `fs_mode` is at. -/
inductive CachePhase
  | idle
  | pulling (pull : PullPhase)
  | building (hashed : Hashed)
  | pushing (rest : Hashed)
  | keeping (entry : FileTreeEntry) (bytes : Bytes) (rest : Hashed)
  deriving DecidableEq, Repr

/-- `shown` is what stood at its path when an entry was materialised. -/
structure CacheRun where
  disk : DiskFiles
  phase : CachePhase
  shown : List (FileTreeEntry × Option Bytes)

/-- `edit` is whatever the user does to the disk, `diff` an answer of the server, and
`fetch` the frames that the server and, if there is one, the peer send. `stop` is an
error that ends the session. -/
inductive CacheEvent
  | edit (disk : DiskFiles)
  | diff (initial : Bool) (diff : FileDiffResult)
  | fetch (server : List Frame) (peer : Option (List Frame))
  | compare (readable : Bool)
  | copy (nowMs : Nat) (result : WriteResult)
  | replace (object result : WriteResult)
  | store (object : WriteResult)
  | remove (ok : Bool)
  | build
  | visit (file : Place) (path : String) (mtimeNs : Int)
  | built (push : Bool)
  | take
  | keep (object : WriteResult)
  | stop

/-- What does not change during a run. -/
structure CacheEnv where
  sha256 : Bytes → Digest
  aead : Aead
  e2e : Option E2EKeys
  symlinkView : Bool
  dirs : PullDirs
  requester : String

namespace CacheEnv

variable (env : CacheEnv)

def shareFile (path : String) : Place := normalize (join env.dirs.share path)

def objectFile (blobId : String) : Place := normalize (join env.dirs.objects blobId)

/-- `get_object` on the frames that it reads. -/
def getObject (blobId : String) (frames : List Frame) : Except String (Option Bytes) :=
  match Client.getObject env.aead env.e2e blobId (fun _ _ => []) (frames.length + 1) (.start frames) with
  | some (result, _) => result
  | none => .error "eof"

/-- `pull_object_with_peer`: an error of the peer counts as not found. -/
def pullObjectWithPeer (blobId : String) (server : List Frame) (peer : Option (List Frame)) :
    Except String (Option Bytes) :=
  match env.getObject blobId server, peer with
  | .ok none, some frames =>
    match env.getObject blobId frames with
    | .ok got => .ok got
    | .error _ => .ok none
  | result, _ => result

/-- `ensure_object_local`; `false` is an I/O error. -/
def ensureObjectLocal (disk : DiskFiles) (blobId : String) (bytes : Bytes) (object : WriteResult) :
    DiskFiles × Bool :=
  if disk.exists_ (env.objectFile blobId) then (disk, true)
  else (disk.written (env.objectFile blobId) bytes object, object = .done)

end CacheEnv

namespace CacheRun

variable (env : CacheEnv)

def start (disk : DiskFiles) : CacheRun := { disk, phase := .idle, shown := [] }

def onDiff (run : CacheRun) (initial : Bool) (diff : FileDiffResult) : CacheRun :=
  match run.phase with
  | .idle =>
    { run with
      phase := .pulling (.pulling
        (match diff.tree with
        | some remote => { entries := diff.changed.filterMap remote.entryAt, removed := diff.removed }
        | none => { entries := [], removed := if initial then [] else diff.removed })) }
  | _ => run

def onFetch (run : CacheRun) (server : List Frame) (peer : Option (List Frame)) : CacheRun :=
  match run.phase with
  | .pulling (.pulling { entries := entry :: entries, removed }) =>
    match env.pullObjectWithPeer entry.blobId server peer with
    | .error _ => { run with phase := .pulling .aborted }
    | .ok none => { run with phase := .pulling (.pulling { entries, removed }) }
    | .ok (some bytes) => { run with phase := .pulling (.comparing entry bytes { entries, removed }) }
  | _ => run

def onCompare (run : CacheRun) (readable : Bool) : CacheRun :=
  match run.phase with
  | .pulling (.comparing entry bytes rest) =>
    let seen := if readable then run.disk.read (env.shareFile entry.path) else none
    if seen.any fun content => objectId env.sha256 content ≠ entry.blobId then
      { run with phase := .pulling (.copying entry bytes rest) }
    else { run with phase := .pulling (.replacing entry bytes rest) }
  | _ => run

/-- The copy reads the file anew; that it fails is not noticed. -/
def onCopy (run : CacheRun) (nowMs : Nat) (result : WriteResult) : CacheRun :=
  match run.phase with
  | .pulling (.copying entry bytes rest) =>
    let conflict := env.shareFile (conflictPath env.requester entry.path nowMs)
    { run with
      disk :=
        match run.disk.read (env.shareFile entry.path) with
        | some content => run.disk.written conflict content result
        | none => run.disk
      phase := .pulling (.replacing entry bytes rest) }
  | _ => run

/-- `materialize`. A link is made in the place of what has been removed. -/
def onReplace (run : CacheRun) (object result : WriteResult) : CacheRun :=
  match run.phase with
  | .pulling (.replacing entry bytes rest) =>
    let target := env.shareFile entry.path
    if env.symlinkView then
      let (disk, ok) := env.ensureObjectLocal run.disk entry.blobId bytes object
      match ok, result with
      | true, .done =>
        let disk : DiskFiles := Function.update disk target (some (.link (env.objectFile entry.blobId)))
        { disk, phase := .pulling (.storing entry bytes rest)
          shown := (entry, disk.read (env.objectFile entry.blobId)) :: run.shown }
      | true, .broken _ =>
        { run with disk := Function.update disk target none, phase := .pulling .aborted }
      | _, _ => { run with disk, phase := .pulling .aborted }
    else
      match result with
      | .done =>
        { disk := run.disk.write target bytes, phase := .pulling (.storing entry bytes rest)
          shown := (entry, some bytes) :: run.shown }
      | .refused => { run with phase := .pulling .aborted }
      | .broken front =>
        { disk := run.disk.write target front, phase := .pulling .aborted
          shown := (entry, some front) :: run.shown }
  | _ => run

def onStore (run : CacheRun) (object : WriteResult) : CacheRun :=
  match run.phase with
  | .pulling (.storing entry bytes rest) =>
    let (disk, ok) := env.ensureObjectLocal run.disk entry.blobId bytes object
    { run with disk, phase := .pulling (if ok then .pulling rest else .aborted) }
  | _ => run

def onRemove (run : CacheRun) (ok : Bool) : CacheRun :=
  match run.phase with
  | .pulling (.pulling { entries := [], removed := p :: removed }) =>
    { run with
      disk := if ok then Function.update run.disk (env.shareFile p) none else run.disk
      phase := .pulling (.pulling { entries := [], removed }) }
  | _ => run

/-- A tree is built at the start, behind a pull and after a local change. -/
def onBuild (run : CacheRun) : CacheRun :=
  match run.phase with
  | .idle | .pulling (.pulling { entries := [], removed := [] }) => { run with phase := .building [] }
  | _ => run

/-- `walk` comes to a file. -/
def onVisit (run : CacheRun) (file : Place) (path : String) (mtimeNs : Int) : CacheRun :=
  match run.phase with
  | .building hashed =>
    match run.disk.read file with
    | none => { run with phase := .idle }
    | some bytes =>
      match walkEntry env.sha256 path (.file bytes mtimeNs) with
      | none => run
      | some entry => { run with phase := .building ((entry, bytes) :: hashed) }
  | _ => run

def onBuilt (run : CacheRun) (push : Bool) : CacheRun :=
  match run.phase with
  | .building hashed =>
    { run with
      phase := if push then .pushing (hashed.insertionSort fun a b => a.1.path ≤ b.1.path) else .idle }
  | _ => run

/-- `sync_push` comes to an entry: the file is read again if its object is not there. -/
def onTake (run : CacheRun) : CacheRun :=
  match run.phase with
  | .pushing [] => { run with phase := .idle }
  | .pushing ((entry, _) :: rest) =>
    if run.disk.exists_ (env.objectFile entry.blobId) then { run with phase := .pushing rest }
    else
      match run.disk.read (env.shareFile entry.path) with
      | none => { run with phase := .idle }
      | some bytes => { run with phase := .keeping entry bytes rest }
  | _ => run

def onKeep (run : CacheRun) (object : WriteResult) : CacheRun :=
  match run.phase with
  | .keeping entry bytes rest =>
    let (disk, ok) := env.ensureObjectLocal run.disk entry.blobId bytes object
    { run with disk, phase := if ok then .pushing rest else .idle }
  | _ => run

def step (run : CacheRun) : CacheEvent → CacheRun
  | .edit disk => { run with disk }
  | .diff initial diff => run.onDiff initial diff
  | .fetch server peer => run.onFetch env server peer
  | .compare readable => run.onCompare env readable
  | .copy nowMs result => run.onCopy env nowMs result
  | .replace object result => run.onReplace env object result
  | .store object => run.onStore env object
  | .remove ok => run.onRemove env ok
  | .build => run.onBuild
  | .visit file path mtimeNs => run.onVisit env file path mtimeNs
  | .built push => run.onBuilt push
  | .take => run.onTake env
  | .keep object => run.onKeep env object
  | .stop => { run with phase := .idle }

end CacheRun

-- ---------------------------------------------------------------------------
-- Contents that match their ids, and what endangers them
-- ---------------------------------------------------------------------------

namespace CacheEnv

variable (env : CacheEnv)

def InCache (place : Place) : Prop := place.Within (normalize env.dirs.objects)

/-- What is in the cache is the object of its own hash. -/
def CacheOk (disk : DiskFiles) : Prop :=
  ∀ place, env.InCache place → ∀ node, disk place = some node →
    ∃ content, node = .file content ∧ place = env.objectFile (objectId env.sha256 content)

/-- The frames have no chunks, or are those of a content with this hash. -/
def Genuine (blobId : String) (frames : List Frame) : Prop :=
  (∀ frame ∈ frames, frame.frameType ≠ .fileChunk) ∨
    ∃ content, objectId env.sha256 content = blobId ∧
      ∀ frame ∈ frames, GenuineFrame env.aead env.e2e content frame

/-- The object is there, or its write does not break off. -/
def Whole (disk : DiskFiles) (blobId : String) (object : WriteResult) : Prop :=
  disk.exists_ (env.objectFile blobId) = true ∨ ∀ front, object ≠ .broken front

end CacheEnv

namespace CacheRun

variable (env : CacheEnv)

/-- The object cache and what has been shown match their blob ids. -/
structure Matches (run : CacheRun) : Prop where
  cache : env.CacheOk run.disk
  shown : ∀ entry content, (entry, some content) ∈ run.shown → objectId env.sha256 content = entry.blobId

/-- A step that the contents survive. Edits leave the cache alone or clear it;
chunks are genuine; objects and files are written whole, and no share path leads
into the cache; a file that is read again is as it was when it was hashed. -/
def Faithful (run : CacheRun) (e : CacheEvent) : Prop :=
  match e, run.phase with
  | .edit disk, _ => ∀ place, env.InCache place → disk place = none ∨ disk place = run.disk place
  | .fetch server peer, .pulling (.pulling { entries := entry :: _, removed := _ }) =>
    env.Genuine entry.blobId server ∧ ∀ frames, peer = some frames → env.Genuine entry.blobId frames
  | .copy nowMs result, .pulling (.copying entry _ _) =>
    result = .refused ∨
      ¬ env.InCache (run.disk.opened (env.shareFile (conflictPath env.requester entry.path nowMs)))
  | .replace object result, .pulling (.replacing entry _ _) =>
    if env.symlinkView then
      env.Whole run.disk entry.blobId object ∧ (result = .done → ¬ env.InCache (env.shareFile entry.path))
    else
      result = .refused ∨
        result = .done ∧ ¬ env.InCache (run.disk.opened (env.shareFile entry.path))
  | .store object, .pulling (.storing entry _ _) => env.Whole run.disk entry.blobId object
  | .take, .pushing ((entry, hashed) :: _) =>
    run.disk.exists_ (env.objectFile entry.blobId) = true ∨
      ∀ bytes, run.disk.read (env.shareFile entry.path) = some bytes → bytes = hashed
  | .keep object, .keeping entry _ _ => env.Whole run.disk entry.blobId object
  | _, _ => True

end CacheRun

-- ---------------------------------------------------------------------------
-- The cache on the disk
-- ---------------------------------------------------------------------------

namespace CacheEnv

variable {env : CacheEnv} {disk : DiskFiles} {place : Place} {bytes content : Bytes}

theorem objectFile_eq (env : CacheEnv) (bytes : Bytes) :
    env.objectFile (objectId env.sha256 bytes) =
      (normalize env.dirs.objects).descend [(objectId env.sha256 bytes).toList] := by
  obtain ⟨hlen, hdigits⟩ := (env.sha256 bytes).blobText
  have hslash : '/' ∉ (env.sha256 bytes).hex.toList := fun hmem => absurd (hdigits _ hmem) (by decide)
  refine normalize_join_name _ hslash ⟨?_, ?_, ?_⟩ <;>
    · intro heq
      have heq : (env.sha256 bytes).hex.toList = _ := heq
      rw [heq] at hlen
      cases hlen

theorem objectFile_inCache (env : CacheEnv) (bytes : Bytes) :
    env.InCache (env.objectFile (objectId env.sha256 bytes)) := by
  rw [objectFile_eq]
  exact Place.descend_within ..

theorem objectFile_inj (h : env.objectFile (objectId env.sha256 bytes) =
    env.objectFile (objectId env.sha256 content)) : objectId env.sha256 bytes = objectId env.sha256 content := by
  rw [objectFile_eq, objectFile_eq] at h
  exact String.toList_inj.mp (List.singleton_inj.mp (Place.descend_inj h))

namespace CacheOk

theorem update (h : env.CacheOk disk) {node : Option DiskFile}
    (hnode : ∀ n, node = some n → env.InCache place →
      ∃ content, n = .file content ∧ place = env.objectFile (objectId env.sha256 content)) :
    env.CacheOk (Function.update disk place node) := by
  intro q hq n hn
  by_cases heq : q = place
  · subst heq
    rw [Function.update_self] at hn
    exact hnode n hn hq
  · rw [Function.update_of_ne heq] at hn
    exact h q hq n hn

theorem update_none (h : env.CacheOk disk) : env.CacheOk (Function.update disk place none) :=
  h.update (by simp)

theorem update_outside (h : env.CacheOk disk) (hout : ¬ env.InCache place) (node : Option DiskFile) :
    env.CacheOk (Function.update disk place node) := h.update fun _ _ hin => absurd hin hout

/-- No links are in the cache. -/
theorem opened (h : env.CacheOk disk) (hin : env.InCache place) : disk.opened place = place := by
  unfold DiskFiles.opened
  split
  · rename_i target hlink
    obtain ⟨content, hfile, -⟩ := h place hin _ hlink
    cases hfile
  · rfl

theorem read_object (h : env.CacheOk disk)
    (hread : disk.read (env.objectFile (objectId env.sha256 bytes)) = some content) :
    objectId env.sha256 content = objectId env.sha256 bytes := by
  have hin := objectFile_inCache env bytes
  unfold DiskFiles.read at hread
  rw [h.opened hin] at hread
  split at hread
  · rename_i found hfile
    obtain ⟨_, hnode, hplace⟩ := h _ hin _ hfile
    cases hnode
    cases hread
    exact (objectFile_inj hplace).symm
  · cases hread

theorem written (h : env.CacheOk disk) (hout : ¬ env.InCache (disk.opened place)) (bytes : Bytes)
    (result : WriteResult) : env.CacheOk (disk.written place bytes result) := by
  cases result with
  | done => exact h.update_outside hout _
  | refused => exact h
  | broken front => exact h.update_outside hout _

/-- An object is written whole under its own hash. -/
theorem ensureObjectLocal (h : env.CacheOk disk) {blobId : String}
    (hbytes : objectId env.sha256 bytes = blobId) {object : WriteResult}
    (hwhole : env.Whole disk blobId object) :
    env.CacheOk (env.ensureObjectLocal disk blobId bytes object).1 := by
  subst hbytes
  unfold CacheEnv.ensureObjectLocal
  split
  · exact h
  · rename_i hnew
    cases object with
    | done =>
      show env.CacheOk (Function.update disk (disk.opened _) _)
      rw [h.opened (objectFile_inCache env bytes)]
      refine h.update fun n hn _ => ⟨bytes, ?_, rfl⟩
      exact (Option.some.inj hn).symm
    | refused => exact h
    | broken front => exact absurd rfl (hwhole.resolve_left hnew front)

end CacheOk

/-- A genuine download has the hash that was asked for. -/
theorem Genuine.getObject {blobId : String} {frames : List Frame} (h : env.Genuine blobId frames)
    (hrun : env.getObject blobId frames = .ok (some bytes)) : objectId env.sha256 bytes = blobId := by
  unfold CacheEnv.getObject at hrun
  split at hrun
  · rename_i result requests hget
    subst hrun
    have hcontent {content : Bytes} (h : ∀ frame ∈ frames, GenuineFrame env.aead env.e2e content frame) :
        bytes = content := by
      have hzero : GetState.start frames = ⟨0, content.take (0 * chunkSize), 0, frames⟩ := by
        simp [GetState.start]
      rw [hzero] at hget
      exact getObject_genuine h hget
    rcases h with hnone | ⟨content, hhash, hframes⟩
    · -- Without a chunk there is no object: the frames would be those of any content.
      have hany (content : Bytes) : bytes = content :=
        hcontent fun frame hframe hchunk => absurd hchunk (hnone frame hframe)
      cases (hany []).symm.trans (hany [0])
    · rw [hcontent hframes, hhash]
  · cases hrun

theorem Genuine.pull {blobId : String} {server : List Frame} {peer : Option (List Frame)}
    (hserver : env.Genuine blobId server) (hpeer : ∀ frames, peer = some frames → env.Genuine blobId frames)
    (hrun : env.pullObjectWithPeer blobId server peer = .ok (some bytes)) :
    objectId env.sha256 bytes = blobId := by
  unfold pullObjectWithPeer at hrun
  split at hrun
  · split at hrun
    · rename_i frames _ got hgot
      cases hrun
      exact (hpeer _ rfl).getObject hgot
    · cases hrun
  · exact hserver.getObject hrun

end CacheEnv

-- ---------------------------------------------------------------------------
-- One step
-- ---------------------------------------------------------------------------

namespace CacheRun

variable {env : CacheEnv} {run : CacheRun}

/-- What was fetched, hashed or read again has the hash of its entry. -/
def PhaseOk (env : CacheEnv) : CachePhase → Prop
  | .pulling (.comparing entry bytes _) | .pulling (.copying entry bytes _)
  | .pulling (.replacing entry bytes _) | .pulling (.storing entry bytes _) =>
    objectId env.sha256 bytes = entry.blobId
  | .building hashed | .pushing hashed => ∀ h ∈ hashed, objectId env.sha256 h.2 = h.1.blobId
  | .keeping entry bytes rest =>
    objectId env.sha256 bytes = entry.blobId ∧ ∀ h ∈ rest, objectId env.sha256 h.2 = h.1.blobId
  | _ => True

structure Inv (env : CacheEnv) (run : CacheRun) : Prop extends Matches env run where
  phase : PhaseOk env run.phase

/-- A step that only goes on. -/
theorem Inv.of_phase (h : Inv env run) {phase : CachePhase} (hphase : PhaseOk env phase) :
    Inv env { run with phase } := ⟨⟨h.cache, h.shown⟩, hphase⟩

theorem Inv.of_disk (h : Inv env run) {disk : DiskFiles} (hdisk : env.CacheOk disk) {phase : CachePhase}
    (hphase : PhaseOk env phase) : Inv env { run with disk, phase } := ⟨⟨hdisk, h.shown⟩, hphase⟩

theorem Inv.onDiff (h : Inv env run) (initial : Bool) (diff : FileDiffResult) :
    Inv env (run.onDiff initial diff) := by
  unfold CacheRun.onDiff
  split
  · exact h.of_phase trivial
  · exact h

theorem Inv.onFetch (h : Inv env run) {server : List Frame} {peer : Option (List Frame)}
    (hfaithful : Faithful env run (.fetch server peer)) : Inv env (run.onFetch env server peer) := by
  unfold CacheRun.onFetch
  split
  · rename_i entry entries removed hphase
    unfold Faithful at hfaithful
    rw [hphase] at hfaithful
    split
    · exact h.of_phase trivial
    · exact h.of_phase trivial
    · rename_i bytes hgot
      exact h.of_phase (hfaithful.1.pull hfaithful.2 hgot)
  · exact h

theorem Inv.onCompare (h : Inv env run) (readable : Bool) : Inv env (run.onCompare env readable) := by
  have hphase := h.phase
  unfold CacheRun.onCompare
  split
  · rename_i entry bytes rest heq
    rw [heq] at hphase
    generalize (if readable then run.disk.read (env.shareFile entry.path) else none) = seen
    dsimp only
    split
    · exact h.of_phase hphase
    · exact h.of_phase hphase
  · exact h

theorem Inv.onCopy (h : Inv env run) {nowMs : Nat} {result : WriteResult}
    (hfaithful : Faithful env run (.copy nowMs result)) : Inv env (run.onCopy env nowMs result) := by
  have hphase := h.phase
  unfold CacheRun.onCopy
  split
  · rename_i entry bytes rest heq
    rw [heq] at hphase
    unfold Faithful at hfaithful
    rw [heq] at hfaithful
    refine h.of_disk ?_ hphase
    split
    · rcases hfaithful with rfl | hout
      · exact h.cache
      · exact h.cache.written hout _ _
    · exact h.cache
  · exact h

theorem Inv.add_shown (h : Inv env run) {disk : DiskFiles} (hdisk : env.CacheOk disk) {phase : CachePhase}
    (hphase : PhaseOk env phase) {entry : FileTreeEntry} {seen : Option Bytes}
    (hseen : ∀ content, seen = some content → objectId env.sha256 content = entry.blobId) :
    Inv env { disk, phase, shown := (entry, seen) :: run.shown } := by
  refine ⟨⟨hdisk, fun other content hmem => ?_⟩, hphase⟩
  rcases List.mem_cons.mp hmem with heq | hold
  · obtain ⟨rfl, rfl⟩ := Prod.mk.inj heq
    exact hseen content rfl
  · exact h.shown other content hold

theorem Inv.onReplace (h : Inv env run) {object result : WriteResult}
    (hfaithful : Faithful env run (.replace object result)) : Inv env (run.onReplace env object result) := by
  have hphase := h.phase
  unfold CacheRun.onReplace
  split
  · rename_i entry bytes rest heq
    rw [heq] at hphase
    unfold Faithful at hfaithful
    rw [heq] at hfaithful
    dsimp only at hfaithful
    have hbytes : objectId env.sha256 bytes = entry.blobId := hphase
    have hstoring : PhaseOk env (.pulling (.storing entry bytes rest)) := hbytes
    dsimp only
    split
    · rename_i hview
      rw [if_pos hview] at hfaithful
      have hensured := h.cache.ensureObjectLocal hbytes hfaithful.1
      generalize env.ensureObjectLocal run.disk entry.blobId bytes object = ensured at hensured ⊢
      obtain ⟨disk, ok⟩ := ensured
      dsimp only at hensured ⊢
      split
      · have hlinked := hensured.update_outside (hfaithful.2 rfl)
          (some (.link (env.objectFile entry.blobId)))
        refine h.add_shown hlinked hstoring fun content hread => ?_
        rw [← hbytes] at hlinked hread ⊢
        exact hlinked.read_object hread
      · exact h.of_disk hensured.update_none trivial
      · exact h.of_disk hensured trivial
    · rename_i hview
      rw [if_neg hview] at hfaithful
      rcases hfaithful with rfl | ⟨rfl, hout⟩
      · exact h.of_phase trivial
      · have hwritten : env.CacheOk (run.disk.write (env.shareFile entry.path) bytes) :=
          h.cache.update_outside hout _
        refine h.add_shown hwritten hstoring fun content hseen => ?_
        exact Option.some.inj hseen ▸ hbytes
  · exact h

theorem Inv.onStore (h : Inv env run) {object : WriteResult}
    (hfaithful : Faithful env run (.store object)) : Inv env (run.onStore env object) := by
  have hphase := h.phase
  unfold CacheRun.onStore
  split
  · rename_i entry bytes rest heq
    rw [heq] at hphase
    unfold Faithful at hfaithful
    rw [heq] at hfaithful
    refine h.of_disk (h.cache.ensureObjectLocal hphase hfaithful) ?_
    split <;> trivial
  · exact h

theorem Inv.onRemove (h : Inv env run) (ok : Bool) : Inv env (run.onRemove env ok) := by
  unfold CacheRun.onRemove
  split
  · refine h.of_disk ?_ trivial
    split
    · exact h.cache.update_none
    · exact h.cache
  · exact h

theorem Inv.onBuild (h : Inv env run) : Inv env run.onBuild := by
  unfold CacheRun.onBuild
  split
  · exact h.of_phase (by simp [PhaseOk])
  · exact h.of_phase (by simp [PhaseOk])
  · exact h

theorem Inv.onVisit (h : Inv env run) (file : Place) (path : String) (mtimeNs : Int) :
    Inv env (run.onVisit env file path mtimeNs) := by
  have hphase := h.phase
  unfold CacheRun.onVisit
  split
  · rename_i hashed heq
    rw [heq] at hphase
    split
    · exact h.of_phase trivial
    · split
      · exact h
      · rename_i bytes _ entry hentry
        obtain ⟨content, _, hnode, -, rfl⟩ := (walkEntry_eq_some env.sha256).mp hentry
        cases hnode
        exact h.of_phase (List.forall_mem_cons.mpr ⟨rfl, hphase⟩)
  · exact h

theorem Inv.onBuilt (h : Inv env run) (push : Bool) : Inv env (run.onBuilt push) := by
  have hphase := h.phase
  unfold CacheRun.onBuilt
  split
  · rename_i hashed heq
    rw [heq] at hphase
    split
    · exact h.of_phase fun e he => hphase e ((List.mem_insertionSort _).mp he)
    · exact h.of_phase trivial
  · exact h

theorem Inv.onTake (h : Inv env run) (hfaithful : Faithful env run .take) :
    Inv env (run.onTake env) := by
  have hphase := h.phase
  unfold CacheRun.onTake
  split
  · exact h.of_phase trivial
  · rename_i entry hashed rest heq
    rw [heq] at hphase
    unfold Faithful at hfaithful
    rw [heq] at hfaithful
    obtain ⟨hhashed, hrest⟩ := List.forall_mem_cons.mp hphase
    split
    · exact h.of_phase hrest
    · rename_i hnew
      split
      · exact h.of_phase trivial
      · rename_i bytes hread
        obtain rfl := hfaithful.resolve_left hnew bytes hread
        exact h.of_phase ⟨hhashed, hrest⟩
  · exact h

theorem Inv.onKeep (h : Inv env run) {object : WriteResult}
    (hfaithful : Faithful env run (.keep object)) : Inv env (run.onKeep env object) := by
  have hphase := h.phase
  unfold CacheRun.onKeep
  split
  · rename_i entry bytes rest heq
    rw [heq] at hphase
    unfold Faithful at hfaithful
    rw [heq] at hfaithful
    refine h.of_disk (h.cache.ensureObjectLocal hphase.1 hfaithful) ?_
    split
    · exact hphase.2
    · trivial
  · exact h

theorem Inv.step (h : Inv env run) {e : CacheEvent} (hfaithful : Faithful env run e) :
    Inv env (run.step env e) := by
  cases e with
  | edit disk =>
    refine h.of_disk (fun place hin node hnode => ?_) h.phase
    rcases hfaithful place hin with hgone | hsame
    · rw [hgone] at hnode
      cases hnode
    · exact h.cache place hin node (hsame ▸ hnode)
  | diff initial diff => exact h.onDiff initial diff
  | fetch server peer => exact h.onFetch hfaithful
  | compare readable => exact h.onCompare readable
  | copy nowMs result => exact h.onCopy hfaithful
  | replace object result => exact h.onReplace hfaithful
  | store object => exact h.onStore hfaithful
  | remove ok => exact h.onRemove ok
  | build => exact h.onBuild
  | visit file path mtimeNs => exact h.onVisit file path mtimeNs
  | built push => exact h.onBuilt push
  | take => exact h.onTake hfaithful
  | keep object => exact h.onKeep hfaithful
  | stop => exact h.of_phase trivial

-- ---------------------------------------------------------------------------
-- Whole runs
-- ---------------------------------------------------------------------------

/-- In a run of faithful steps, the cache and what was shown match their ids in every
state. -/
theorem matches_of_faithful (env : CacheEnv) {disk : DiskFiles} (hstart : env.CacheOk disk)
    {events : List CacheEvent} (hall : AllSteps (step env) (Faithful env) (start disk) events) :
    ∀ before rest, events = before ++ rest → Matches env (Lib.run (step env) (start disk) before) := by
  rintro before rest rfl
  have hinit : Inv env (start disk) := ⟨⟨hstart, by simp [start]⟩, trivial⟩
  have hinv := run_invariant (Inv env) (fun _ _ h hfaithful => h.step hfaithful) hinit
    (AllSteps.append.mp hall).1
  exact hinv.toMatches

def homeEnv : CacheEnv where
  sha256 := Digest.sha256
  aead := .none
  e2e := none
  symlinkView := false
  dirs := PullDisk.homeDirs
  requester := "u/m/a"

/-- The share directory has the file `a`, and the cache is empty. -/
def oneShared (bytes : Bytes) : DiskFiles :=
  Function.update (fun _ => none) (homeEnv.shareFile "a") (some (.file bytes))

theorem share_outside : ¬ homeEnv.InCache (homeEnv.shareFile "a") := by
  unfold CacheEnv.InCache
  decide +kernel

theorem objectFile_ne_shared (bytes : Bytes) :
    homeEnv.objectFile (objectId Digest.sha256 bytes) ≠ homeEnv.shareFile "a" := fun heq =>
  share_outside (heq ▸ CacheEnv.objectFile_inCache homeEnv bytes)

theorem oneShared_ok (bytes : Bytes) : homeEnv.CacheOk (oneShared bytes) := by
  have hnone : homeEnv.CacheOk fun _ => none := fun _ _ _ hnode => by cases hnode
  exact hnone.update_outside share_outside _

theorem read_oneShared (bytes : Bytes) :
    (oneShared bytes).read (homeEnv.shareFile "a") = some bytes := by
  simp [DiskFiles.read, DiskFiles.opened, oneShared]

def sharedEntry (bytes : Bytes) : FileTreeEntry where
  path := "a"
  blobId := objectId Digest.sha256 bytes
  mode := 0o644
  size := bytes.length % 2 ^ 64
  mtimeNs := 9

theorem shared_hashed (bytes : Bytes) :
    Lib.run (step homeEnv) (start (oneShared bytes))
        [.build, .visit (homeEnv.shareFile "a") "a" 9, .built true] =
      { disk := oneShared bytes, phase := .pushing [(sharedEntry bytes, bytes)], shown := [] } := by
  have hrel : relOf "a" = "a" := by decide +kernel
  have hsynced : synced "a" = true := by decide +kernel
  have hentry : walkEntry homeEnv.sha256 "a" (.file bytes 9) = some (sharedEntry bytes) := by
    simp [walkEntry, hrel, hsynced, sharedEntry, homeEnv]
  simp [step, start, onBuild, onVisit, onBuilt, read_oneShared, hentry]

/-- The entry is pushed with what stands at its path by then. -/
theorem shared_pushed (bytes later : Bytes) :
    Lib.run (step homeEnv)
        { disk := oneShared later, phase := .pushing [(sharedEntry bytes, bytes)], shown := [] }
        [.take, .keep .done] =
      { disk := Function.update (oneShared later) (homeEnv.objectFile (objectId Digest.sha256 bytes))
          (some (.file later))
        phase := .pushing [], shown := [] } := by
  have hfree : oneShared later (homeEnv.objectFile (objectId Digest.sha256 bytes)) = none := by
    rw [oneShared, Function.update_of_ne (objectFile_ne_shared bytes)]
  have hopened : (oneShared later).opened (homeEnv.objectFile (objectId Digest.sha256 bytes)) =
      homeEnv.objectFile (objectId Digest.sha256 bytes) := by
    simp [DiskFiles.opened, hfree]
  have hnew : (oneShared later).exists_ (homeEnv.objectFile (objectId Digest.sha256 bytes)) = false := by
    simp [DiskFiles.exists_, hopened, hfree]
  simp [step, onTake, onKeep, sharedEntry, hnew, read_oneShared, CacheEnv.ensureObjectLocal,
    DiskFiles.written, DiskFiles.write, hopened]

theorem matches_of_faithful_shared :
    Matches homeEnv (Lib.run (step homeEnv) (start (oneShared [49]))
      ([.build, .visit (homeEnv.shareFile "a") "a" 9, .built true] ++ [.take, .keep .done])) := by
  have hbuilt : AllSteps (step homeEnv) (Faithful homeEnv) (start (oneShared [49]))
      [.build, .visit (homeEnv.shareFile "a") "a" 9, .built true] := ⟨trivial, trivial, trivial, trivial⟩
  have hkeep (run : CacheRun) : Faithful homeEnv run (.keep .done) := by
    obtain ⟨disk, phase, shown⟩ := run
    cases phase with
    | keeping entry bytes rest => exact .inr fun front => by simp
    | _ => trivial
  refine matches_of_faithful homeEnv (oneShared_ok [49]) (AllSteps.append.mpr ⟨hbuilt, ?_⟩) _ []
    (List.append_nil _).symm
  rw [shared_hashed]
  simp only [AllSteps, and_true]
  constructor
  · right
    intro bytes hread
    exact Option.some.inj (hread.symm.trans (read_oneShared [49]))
  · generalize step homeEnv _ CacheEvent.take = run
    exact hkeep run

/-- The file is edited behind the walk: its object is what stands there now. -/
theorem edited_object : ¬ Matches homeEnv (Lib.run (step homeEnv) (start (oneShared [49]))
    ([.build, .visit (homeEnv.shareFile "a") "a" 9, .built true] ++
      [.edit (oneShared [50]), .take, .keep .done])) := by
  intro hmatches
  have hedit (run : CacheRun) : step homeEnv run (.edit (oneShared [50])) =
      { run with disk := oneShared [50] } := rfl
  rw [run_append, shared_hashed, run_cons, hedit, shared_pushed] at hmatches
  have hcache := hmatches.cache
  dsimp only at hcache
  obtain ⟨content, hfile, hplace⟩ := hcache (homeEnv.objectFile (objectId Digest.sha256 [49]))
    (CacheEnv.objectFile_inCache homeEnv [49]) (.file [50]) (by rw [Function.update_self])
  cases hfile
  have hdiffers : objectId Digest.sha256 [49] ≠ objectId Digest.sha256 [50] := PullRun.edited_differs
  have hsame := CacheEnv.objectFile_inj hplace
  exact hdiffers hsame

end CacheRun

end Nsmt.Client
