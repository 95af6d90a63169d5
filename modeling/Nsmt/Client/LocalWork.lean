import Nsmt.Client.Conflicts
import Nsmt.Lib.Runs

/-!
# Local work during a pull

The pull of `fs_mode` as the file operations it is made of, with the edits of the
user and the failures of the disk in between. A local file is compared once,
copied if it differs and replaced later; what is removed is neither compared nor
copied. `work_kept` says what it takes that no local work is lost.
-/

namespace Nsmt.Client

open Nsmt.Lib Nsmt.Core

/-- A write is complete, has not begun, or broke off behind these bytes. -/
inductive WriteResult
  | done
  | refused
  | broken (written : Bytes)
  deriving DecidableEq, Repr

/-- What a pull has ahead: the entries of changed paths, and the removed paths. -/
structure PullRest where
  entries : List FileTreeEntry
  removed : List String
  deriving DecidableEq, Repr

/-- The operation a pull is at; `pulling` is between two entries or removals. -/
inductive PullPhase
  | pulling (rest : PullRest)
  | comparing (entry : FileTreeEntry) (bytes : Bytes) (rest : PullRest)
  | copying (entry : FileTreeEntry) (bytes : Bytes) (rest : PullRest)
  | replacing (entry : FileTreeEntry) (bytes : Bytes) (rest : PullRest)
  | storing (entry : FileTreeEntry) (bytes : Bytes) (rest : PullRest)
  | aborted
  deriving DecidableEq, Repr

structure PullRun where
  disk : Disk
  phase : PullPhase

/-- `edit` is whatever the user does to the disk. The others are the next
operation of the pull with what comes of it: `fetch` finds an object, finds none
or fails. -/
inductive PullEvent
  | edit (disk : Disk)
  | fetch (got : Option (Option Bytes))
  | compare (readable : Bool)
  | copy (nowMs : Nat) (mtimeNs : Int) (result : WriteResult)
  | replace (object : WriteResult) (mtimeNs : Int) (result : WriteResult)
  | store (object : WriteResult)
  | remove (ok : Bool)

/-- The cache after an object is written to it, or not. -/
def storeObject (cache : ObjectCache) (blobId : String) (bytes : Bytes) : WriteResult → ObjectCache
  | .done => ensureObjectLocal cache blobId bytes
  | .refused => cache
  | .broken written => ensureObjectLocal cache blobId written

namespace PullRun

variable (sha256 : Bytes → Digest) (symlinkView : Bool) (requester : String)

/-- The pull of a diff. Without a tree the initial one does nothing, while that of
the loop removes. -/
def start (initial : Bool) (diff : FileDiffResult) (disk : Disk) : PullRun where
  disk := disk
  phase :=
    match diff.tree with
    | some remote =>
      .pulling { entries := diff.changed.filterMap remote.entryAt, removed := diff.removed }
    | none => .pulling { entries := [], removed := if initial then [] else diff.removed }

def onFetch (run : PullRun) (got : Option (Option Bytes)) : PullRun :=
  match run.phase with
  | .pulling { entries := entry :: entries, removed } =>
    match got with
    | none => { run with phase := .aborted }
    | some none => { run with phase := .pulling { entries, removed } }
    | some (some bytes) => { run with phase := .comparing entry bytes { entries, removed } }
  | _ => run

/-- A file that cannot be read counts as not there. -/
def onCompare (run : PullRun) (readable : Bool) : PullRun :=
  match run.phase with
  | .comparing entry bytes rest =>
    let seen := if readable then run.disk.read entry.path else none
    if seen.any fun content => objectId sha256 content ≠ entry.blobId then
      { run with phase := .copying entry bytes rest }
    else { run with phase := .replacing entry bytes rest }
  | _ => run

/-- `std::fs::copy`, which reads the file anew. That it fails is not noticed. -/
def onCopy (run : PullRun) (nowMs : Nat) (mtimeNs : Int) (result : WriteResult) : PullRun :=
  match run.phase with
  | .copying entry bytes rest =>
    let conflict := conflictPath requester entry.path nowMs
    let disk :=
      match run.disk.read entry.path, result with
      | some content, .done => run.disk.writeFile conflict content mtimeNs
      | some _, .broken written => run.disk.writeFile conflict written mtimeNs
      | _, _ => run.disk
    { disk, phase := .replacing entry bytes rest }
  | _ => run

/-- `materialize`. A file is created empty and then written. A link is made when
its object is there, in the place of what has been removed. -/
def onReplace (run : PullRun) (object : WriteResult) (mtimeNs : Int) (result : WriteResult) :
    PullRun :=
  match run.phase with
  | .replacing entry bytes rest =>
    if symlinkView then
      let cache := storeObject run.disk.cache entry.blobId bytes object
      match object, result with
      | .done, .done =>
        { disk := { dir := run.disk.dir.insert entry.path (.symlink entry.blobId), cache }
          phase := .storing entry bytes rest }
      | .done, .broken _ =>
        { disk := { dir := run.disk.dir.erase entry.path, cache }, phase := .aborted }
      | _, _ => { disk := { run.disk with cache }, phase := .aborted }
    else
      match result with
      | .done =>
        { disk := run.disk.writeFile entry.path bytes mtimeNs, phase := .storing entry bytes rest }
      | .refused => { run with phase := .aborted }
      | .broken written =>
        { disk := run.disk.writeFile entry.path written mtimeNs, phase := .aborted }
  | _ => run

def onStore (run : PullRun) (object : WriteResult) : PullRun :=
  match run.phase with
  | .storing entry bytes rest =>
    { disk :=
        { run.disk with cache := storeObject run.disk.cache entry.blobId bytes object }
      phase := if object = .done then .pulling rest else .aborted }
  | _ => run

/-- `remove_file`, errors ignored. -/
def onRemove (run : PullRun) (ok : Bool) : PullRun :=
  match run.phase with
  | .pulling { entries := [], removed := p :: removed } =>
    { disk := if ok then { run.disk with dir := run.disk.dir.erase p } else run.disk
      phase := .pulling { entries := [], removed } }
  | _ => run

def step (run : PullRun) : PullEvent → PullRun
  | .edit disk => { run with disk }
  | .fetch got => run.onFetch got
  | .compare readable => run.onCompare sha256 readable
  | .copy nowMs mtimeNs result => run.onCopy requester nowMs mtimeNs result
  | .replace object mtimeNs result => run.onReplace symlinkView object mtimeNs result
  | .store object => run.onStore object
  | .remove ok => run.onRemove ok

end PullRun

-- ---------------------------------------------------------------------------
-- Work, and what endangers it
-- ---------------------------------------------------------------------------

/-- The content is in the object cache or on the server. -/
def Synced (cache server : ObjectCache) (content : Bytes) : Prop :=
  (∃ blobId, cache blobId = some content) ∨ ∃ blobId, server blobId = some content

def IsConflictPath (path : String) : Prop :=
  ∃ requester p nowMs, path = conflictPath requester p nowMs

/-- The content is at its path or in a conflict copy. -/
def Kept (disk : Disk) (path : String) (content : Bytes) : Prop :=
  disk.read path = some content ∨ ∃ copy, IsConflictPath copy ∧ disk.read copy = some content

/-- The user leaves the content where it is, at its path and in copies. -/
def Spares (path : String) (content : Bytes) (run : PullRun) : PullEvent → Prop
  | .edit disk => ∀ k, k = path ∨ IsConflictPath k → run.disk.read k = some content →
      disk.read k = some content
  | _ => True

/-- Unsynced work that was at a path is there or in a copy. -/
def Keeps (synced : Bytes → Prop) (disk disk' : Disk) : Prop :=
  ∀ path content, disk.read path = some content → ¬ synced content → Kept disk' path content

/-- What is at the path, if anything, is synced. -/
def OnlySynced (synced : Bytes → Prop) (disk : Disk) (path : String) : Prop :=
  ∀ content, disk.read path = some content → synced content

/-- What `materialize` shows at the path of the entry. -/
def shown (symlinkView : Bool) (disk : Disk) (entry : FileTreeEntry) (bytes : Bytes) : Bytes :=
  if symlinkView then (disk.cache entry.blobId).getD bytes else bytes

def FailsBefore (symlinkView : Bool) (object result : WriteResult) : Prop :=
  result = .refused ∨ symlinkView = true ∧ object ≠ .done

namespace PullRun

variable (sha256 : Bytes → Digest) (symlinkView : Bool) (requester : String) (synced : Bytes → Prop)

/-- What is at the path of the entry, if anything, needs no copy. -/
def NeedsNoCopy (disk : Disk) (entry : FileTreeEntry) : Prop :=
  ∀ content, disk.read entry.path = some content →
    synced content ∨ objectId sha256 content = entry.blobId

/-- Before a file is replaced, what it holds needs no copy or is in one. -/
def Guarded (run : PullRun) : Prop :=
  match run.phase with
  | .replacing entry _ _ => ∀ content, run.disk.read entry.path = some content →
      synced content ∨ objectId sha256 content = entry.blobId ∨
        ∃ copy mtimeNs, IsConflictPath copy ∧ copy ≠ entry.path ∧
          run.disk.dir.lookup copy = some (.file content mtimeNs)
  | _ => True

/-- A step that cannot lose work. Removed files are synced. A file that needs a
copy can be read and is copied whole, to a name that is not taken, and no edit
puts work in its place that has none. What has the id of the entry has the bytes
that stand there next, and its replacement does not break off. -/
def Careful (run : PullRun) (e : PullEvent) : Prop :=
  match e, run.phase with
  | .edit disk, .replacing .. => Guarded sha256 synced { run with disk }
  | .compare readable, .comparing entry _ _ =>
    readable = true ∨ NeedsNoCopy sha256 synced run.disk entry
  | .copy nowMs _ result, .copying entry _ _ =>
    (result = .done ∨ NeedsNoCopy sha256 synced run.disk entry) ∧
      (result = .refused ∨ run.disk.dir.lookup (conflictPath requester entry.path nowMs) = none)
  | .replace object _ result, .replacing entry bytes _ =>
    ∀ content, run.disk.read entry.path = some content → objectId sha256 content = entry.blobId →
      synced content ∨ FailsBefore symlinkView object result ∨
        (result = .done ∧ content = shown symlinkView run.disk entry bytes)
  | .remove ok, .pulling { entries := [], removed := p :: _ } =>
    ok = true → OnlySynced synced run.disk p
  | _, _ => True

end PullRun

-- ---------------------------------------------------------------------------
-- One step
-- ---------------------------------------------------------------------------

theorem storeObject_of_some {cache : ObjectCache} (h : cache b = some content) :
    storeObject cache blobId bytes object b = some content := by
  cases object with
  | done => exact Disk.ensureObjectLocal_of_some h
  | refused => exact h
  | broken written => exact Disk.ensureObjectLocal_of_some h

theorem storeObject_done (cache : ObjectCache) (blobId : String) (bytes : Bytes) :
    storeObject cache blobId bytes .done blobId = some ((cache blobId).getD bytes) := by
  cases hcache : cache blobId with
  | none => simp [storeObject, ensureObjectLocal, hcache]
  | some old => simp [storeObject, ensureObjectLocal, hcache]

namespace Disk

variable {disk : Disk}

theorem read_of_lookup {disk' : Disk} (h : disk.read k = some content)
    (hdir : disk'.dir.lookup k = disk.dir.lookup k)
    (hcache : ∀ b content, disk.cache b = some content → disk'.cache b = some content) :
    disk'.read k = some content := by
  unfold read at h ⊢
  rw [hdir]
  split at h
  · cases h
  · exact h
  · exact hcache _ _ h

theorem read_file {mtimeNs : Int} (h : disk.dir.lookup k = some (.file content mtimeNs)) :
    disk.read k = some content := by
  simp only [read, h]

/-- A write replaces what is read at its path, and at every link to the object
it goes to; all of these held the same. -/
theorem read_writeFile_cases {mtimeNs : Int} (h : disk.read k = some content) :
    (disk.writeFile path bytes mtimeNs).read k = some content ∨
      disk.read path = some content ∧ (disk.writeFile path bytes mtimeNs).read k = some bytes := by
  by_cases hk : k = path
  · subst hk
    exact .inr ⟨h, read_writeFile ..⟩
  · by_cases hlink : disk.IsLink path
    · obtain ⟨blobId, hlookup⟩ := hlink
      rw [writeFile_link hlookup]
      unfold read at h ⊢
      split at h
      · cases h
      · rename_i hfile
        simp only [hfile, h, true_or]
      · rename_i target htarget
        by_cases hb : target = blobId
        · subst hb
          simp [hlookup, htarget, h]
        · simp [htarget, h, hb]
    · rw [writeFile_file hlink]
      exact .inl (read_of_lookup h (AList.lookup_insert_ne hk) fun _ _ hc => hc)

theorem read_writeFile_of_free {mtimeNs : Int} (hfree : disk.dir.lookup path = none)
    (h : disk.read k = some content) : (disk.writeFile path bytes mtimeNs).read k = some content := by
  rcases read_writeFile_cases h with hkept | ⟨hpath, -⟩
  · exact hkept
  · simp only [read, hfree] at hpath
    cases hpath

theorem lookup_writeFile_of_free {mtimeNs : Int} (hfree : disk.dir.lookup path = none) :
    (disk.writeFile path bytes mtimeNs).dir.lookup path = some (.file bytes mtimeNs) := by
  rw [writeFile_file]
  · exact AList.lookup_insert _
  · rintro ⟨blobId, hlink⟩
    rw [hfree] at hlink
    cases hlink

end Disk

theorem Keeps.of_reads {synced : Bytes → Prop} {disk disk' : Disk}
    (h : ∀ k content, disk.read k = some content → disk'.read k = some content) :
    Keeps synced disk disk' := fun path content hread _ => .inl (h path content hread)

/-- One file is replaced, or removed where `new` is none. -/
theorem Keeps.replaced {synced : Bytes → Prop} {disk disk' : Disk} (path : String)
    (new : Option Bytes)
    (hreads : ∀ k content, disk.read k = some content →
      disk'.read k = some content ∨ disk.read path = some content ∧ disk'.read k = new)
    (hcopies : ∀ copy, copy ≠ path → disk'.dir.lookup copy = disk.dir.lookup copy)
    (hsafe : ∀ content, disk.read path = some content → ¬ synced content →
      new = some content ∨ ∃ copy mtimeNs, IsConflictPath copy ∧ copy ≠ path ∧
        disk.dir.lookup copy = some (.file content mtimeNs)) : Keeps synced disk disk' := by
  intro k content hread hwork
  rcases hreads k content hread with hkept | ⟨hlocal, hnew⟩
  · exact .inl hkept
  · rcases hsafe content hlocal hwork with hsame | ⟨copy, mtimeNs, hcopy, hne, hfile⟩
    · exact .inl (hnew.trans hsame)
    · exact .inr ⟨copy, hcopy, Disk.read_file ((hcopies copy hne).trans hfile)⟩

namespace PullRun

variable {sha256 : Bytes → Digest} {symlinkView : Bool} {requester : String} {synced : Bytes → Prop}
  {run : PullRun}

theorem onFetch_disk (run : PullRun) (got : Option (Option Bytes)) :
    (run.onFetch got).disk = run.disk := by
  unfold onFetch
  split
  · split
    · rfl
    · rfl
    · rfl
  · rfl

theorem onCompare_disk (sha256 : Bytes → Digest) (run : PullRun) (readable : Bool) :
    (run.onCompare sha256 readable).disk = run.disk := by
  unfold onCompare
  split
  · simp only [apply_ite PullRun.disk, ite_self]
  · rfl

theorem onCopy_reads (hcareful : Careful sha256 symlinkView requester synced run
    (.copy nowMs mtimeNs result)) (h : run.disk.read k = some content) :
    (run.onCopy requester nowMs mtimeNs result).disk.read k = some content := by
  unfold onCopy
  split
  · rename_i entry bytes rest hphase
    unfold Careful at hcareful
    rw [hphase] at hcareful
    obtain ⟨-, hfree⟩ := hcareful
    dsimp only
    split
    · exact Disk.read_writeFile_of_free (hfree.resolve_left (by simp)) h
    · exact Disk.read_writeFile_of_free (hfree.resolve_left (by simp)) h
    · exact h
  · exact h

theorem onStore_reads (h : run.disk.read k = some content) :
    (run.onStore object).disk.read k = some content := by
  unfold onStore
  split
  · exact Disk.read_of_lookup h rfl fun _ _ => storeObject_of_some
  · exact h

theorem onRemove_keeps (hcareful : Careful sha256 symlinkView requester synced run (.remove ok)) :
    Keeps synced run.disk (run.onRemove ok).disk := by
  unfold onRemove
  split
  · rename_i p removed hphase
    unfold Careful at hcareful
    rw [hphase] at hcareful
    intro path content hread hwork
    dsimp only
    split
    · rename_i hok
      have hne : path ≠ p := by
        rintro rfl
        exact hwork (hcareful hok content hread)
      exact .inl (Disk.read_of_lookup hread (AList.lookup_erase_ne hne) fun _ _ hc => hc)
    · exact .inl hread
  · exact .of_reads fun _ _ h => h

/-- What speaks for a replacement that comes to the file. -/
theorem replacing_cases (hphase : run.phase = .replacing entry bytes rest)
    (hguard : Guarded sha256 synced run)
    (hcareful : Careful sha256 symlinkView requester synced run (.replace object mtimeNs result))
    (hreaches : ¬ FailsBefore symlinkView object result)
    (hread : run.disk.read entry.path = some content) (hwork : ¬ synced content) :
    (result = .done ∧ content = shown symlinkView run.disk entry bytes) ∨
      ∃ copy mtimeNs, IsConflictPath copy ∧ copy ≠ entry.path ∧
        run.disk.dir.lookup copy = some (.file content mtimeNs) := by
  simp only [Guarded, hphase] at hguard
  unfold Careful at hcareful
  rw [hphase] at hcareful
  rcases hguard content hread with hsynced | hsame | hcopy
  · exact absurd hsynced hwork
  · rcases hcareful content hread hsame with hsynced | hfails | hshown
    · exact absurd hsynced hwork
    · exact absurd hfails hreaches
    · exact .inl hshown
  · exact .inr hcopy

theorem onReplace_link_keeps (hphase : run.phase = .replacing entry bytes rest)
    (hguard : Guarded sha256 synced run)
    (hcareful : Careful sha256 true requester synced run (.replace object mtimeNs result)) :
    Keeps synced run.disk (run.onReplace true object mtimeNs result).disk := by
  have hcache {blobId : String} {content : Bytes} (h : run.disk.cache blobId = some content) :
      storeObject run.disk.cache entry.blobId bytes object blobId = some content :=
    storeObject_of_some h
  simp only [onReplace, hphase, if_true]
  cases object with
  | refused => exact .of_reads fun _ _ h => h
  | broken written => exact .of_reads fun _ _ h => Disk.read_of_lookup h rfl fun _ _ => hcache
  | done =>
    have hsafe {content : Bytes} (hread : run.disk.read entry.path = some content)
        (hwork : ¬ synced content) (hresult : result ≠ .refused) :=
      replacing_cases hphase hguard hcareful (by simp [FailsBefore, hresult]) hread hwork
    cases result with
    | refused => exact .of_reads fun _ _ h => Disk.read_of_lookup h rfl fun _ _ => hcache
    | done =>
      refine .replaced entry.path (some (shown true run.disk entry bytes))
        (fun k content hread => ?_) (fun copy hne => AList.lookup_insert_ne hne)
        fun content hread hwork => ?_
      · by_cases hk : k = entry.path
        · subst hk
          refine .inr ⟨hread, ?_⟩
          simp only [Disk.read, AList.lookup_insert, storeObject_done, shown, if_true]
        · exact .inl (Disk.read_of_lookup hread (AList.lookup_insert_ne hk) fun _ _ => hcache)
      · rcases hsafe hread hwork (by simp) with ⟨-, hshown⟩ | hcopy
        · exact .inl (congrArg some hshown.symm)
        · exact .inr hcopy
    | broken written =>
      refine .replaced entry.path none (fun k content hread => ?_)
        (fun copy hne => AList.lookup_erase_ne hne) fun content hread hwork => .inr ?_
      · by_cases hk : k = entry.path
        · subst hk
          refine .inr ⟨hread, ?_⟩
          simp only [Disk.read, AList.lookup_erase]
        · exact .inl (Disk.read_of_lookup hread (AList.lookup_erase_ne hk) fun _ _ => hcache)
      · exact (hsafe hread hwork (by simp)).resolve_left fun h => by simp at h

theorem onReplace_file_keeps (hphase : run.phase = .replacing entry bytes rest)
    (hguard : Guarded sha256 synced run)
    (hcareful : Careful sha256 false requester synced run (.replace object mtimeNs result)) :
    Keeps synced run.disk (run.onReplace false object mtimeNs result).disk := by
  have hsafe {content : Bytes} (hread : run.disk.read entry.path = some content)
      (hwork : ¬ synced content) (hresult : result ≠ .refused) :=
    replacing_cases hphase hguard hcareful (by simp [FailsBefore, hresult]) hread hwork
  simp only [onReplace, hphase]
  cases result with
  | refused => exact .of_reads fun _ _ h => h
  | done =>
    refine .replaced entry.path (some bytes) (fun k content => Disk.read_writeFile_cases)
      (fun copy hne => Disk.lookup_writeFile_ne hne) fun content hread hwork => ?_
    rcases hsafe hread hwork (by simp) with ⟨-, hshown⟩ | hcopy
    · exact .inl (congrArg some hshown.symm)
    · exact .inr hcopy
  | broken written =>
    refine .replaced entry.path (some written) (fun k content => Disk.read_writeFile_cases)
      (fun copy hne => Disk.lookup_writeFile_ne hne) fun content hread hwork => .inr ?_
    exact (hsafe hread hwork (by simp)).resolve_left fun h => by simp at h

theorem onReplace_keeps (hguard : Guarded sha256 synced run)
    (hcareful : Careful sha256 symlinkView requester synced run (.replace object mtimeNs result)) :
    Keeps synced run.disk (run.onReplace symlinkView object mtimeNs result).disk := by
  cases hphase : run.phase with
  | replacing entry bytes rest =>
    cases symlinkView with
    | true => exact onReplace_link_keeps hphase hguard hcareful
    | false => exact onReplace_file_keeps hphase hguard hcareful
  | _ =>
    simp only [onReplace, hphase]
    exact .of_reads fun _ _ h => h

theorem onCompare_guarded (hguard : Guarded sha256 synced run)
    (hcareful : Careful sha256 symlinkView requester synced run (.compare readable)) :
    Guarded sha256 synced (run.onCompare sha256 readable) := by
  cases hphase : run.phase with
  | comparing entry bytes rest =>
    unfold Careful at hcareful
    rw [hphase] at hcareful
    cases readable with
    | true =>
      simp only [onCompare, hphase, if_true]
      split
      · trivial
      · rename_i hsame
        intro content hread
        simp only [hread, Option.any_some, decide_eq_true_eq, not_not] at hsame
        exact .inr (.inl hsame)
    | false =>
      have hneeds := hcareful.resolve_left (by simp)
      simp only [onCompare, hphase, Option.any_none, Bool.false_eq_true, if_false]
      exact fun content hread => (hneeds content hread).imp_right .inl
  | _ => simpa only [onCompare, hphase] using hguard

/-- A copy is written whole, or what it would hold needs none. -/
theorem onCopy_guarded (hguard : Guarded sha256 synced run)
    (hcareful : Careful sha256 symlinkView requester synced run (.copy nowMs mtimeNs result)) :
    Guarded sha256 synced (run.onCopy requester nowMs mtimeNs result) := by
  cases hphase : run.phase with
  | copying entry bytes rest =>
    unfold Careful at hcareful
    rw [hphase] at hcareful
    obtain ⟨hwhole, hfree⟩ := hcareful
    have hne := conflictPath_ne requester entry.path nowMs
    simp only [onCopy, hphase]
    cases hlocal : run.disk.read entry.path with
    | none =>
      intro content hread
      rw [hlocal] at hread
      cases hread
    | some bytes =>
      -- The path of the entry shows after the write what it showed before.
      have hsame {written content : Bytes} (hfree : run.disk.dir.lookup
            (conflictPath requester entry.path nowMs) = none)
          (hread : (run.disk.writeFile (conflictPath requester entry.path nowMs) written mtimeNs).read
            entry.path = some content) : content = bytes := by
        rw [Disk.read_writeFile_of_free hfree hlocal] at hread
        exact (Option.some.inj hread).symm
      cases result with
      | refused =>
        intro content hread
        exact (hwhole.resolve_left (by simp) content hread).imp_right .inl
      | done =>
        have hfree := hfree.resolve_left (by simp)
        intro content hread
        obtain rfl := hsame hfree hread
        exact .inr (.inr ⟨_, mtimeNs, ⟨requester, entry.path, nowMs, rfl⟩, hne,
          Disk.lookup_writeFile_of_free hfree⟩)
      | broken written =>
        intro content hread
        obtain rfl := hsame (hfree.resolve_left (by simp)) hread
        exact (hwhole.resolve_left (by simp) content hlocal).imp_right .inl
  | _ => simpa only [onCopy, hphase] using hguard

theorem onFetch_guarded (hguard : Guarded sha256 synced run) :
    Guarded sha256 synced (run.onFetch got) := by
  unfold onFetch
  split
  · split
    · trivial
    · trivial
    · trivial
  · exact hguard

theorem onReplace_guarded (hguard : Guarded sha256 synced run) :
    Guarded sha256 synced (run.onReplace symlinkView object mtimeNs result) := by
  unfold onReplace
  split
  · cases symlinkView with
    | true =>
      simp only [if_true]
      split
      · trivial
      · trivial
      · trivial
    | false =>
      simp only [Bool.false_eq_true, if_false]
      split
      · trivial
      · trivial
      · trivial
  · exact hguard

theorem onStore_guarded (hguard : Guarded sha256 synced run) :
    Guarded sha256 synced (run.onStore object) := by
  unfold onStore
  split
  · cases object with
    | done => trivial
    | refused => trivial
    | broken written => trivial
  · exact hguard

theorem onRemove_guarded (hguard : Guarded sha256 synced run) :
    Guarded sha256 synced (run.onRemove ok) := by
  unfold onRemove
  split
  · trivial
  · exact hguard

/-- Only a comparison and a copy lead to a replacement. -/
theorem step_guarded (hguard : Guarded sha256 synced run)
    (hcareful : Careful sha256 symlinkView requester synced run e) :
    Guarded sha256 synced (run.step sha256 symlinkView requester e) := by
  cases e with
  | edit disk =>
    cases hphase : run.phase with
    | replacing entry bytes rest => simpa only [Careful, step, hphase] using hcareful
    | _ => simp only [step, Guarded, hphase]
  | fetch got => exact onFetch_guarded hguard
  | compare readable => exact onCompare_guarded hguard hcareful
  | copy nowMs mtimeNs result => exact onCopy_guarded hguard hcareful
  | replace object mtimeNs result => exact onReplace_guarded hguard
  | store object => exact onStore_guarded hguard
  | remove ok => exact onRemove_guarded hguard

theorem step_keeps (hguard : Guarded sha256 synced run)
    (hcareful : Careful sha256 symlinkView requester synced run e) (hpull : ∀ disk, e ≠ .edit disk) :
    Keeps synced run.disk (run.step sha256 symlinkView requester e).disk := by
  cases e with
  | edit disk => exact absurd rfl (hpull disk)
  | fetch got =>
    refine .of_reads fun _ _ hread => ?_
    rwa [step, onFetch_disk]
  | compare readable =>
    refine .of_reads fun _ _ hread => ?_
    rwa [step, onCompare_disk]
  | copy nowMs mtimeNs result => exact .of_reads fun _ _ => onCopy_reads hcareful
  | replace object mtimeNs result => exact onReplace_keeps hguard hcareful
  | store object => exact .of_reads fun _ _ => onStore_reads
  | remove ok => exact onRemove_keeps hcareful

-- ---------------------------------------------------------------------------
-- Every run
-- ---------------------------------------------------------------------------

theorem start_guarded (initial : Bool) (diff : FileDiffResult) (disk : Disk) :
    Guarded sha256 synced (start initial diff disk) := by
  unfold start
  cases diff.tree with
  | none => trivial
  | some remote => trivial

theorem run_guarded (hguard : Guarded sha256 synced run) {events : List PullEvent}
    (hall : AllSteps (step sha256 symlinkView requester)
      (Careful sha256 symlinkView requester synced) run events) :
    Guarded sha256 synced (Lib.run (step sha256 symlinkView requester) run events) :=
  run_invariant _ (fun _ _ => step_guarded) hguard hall

/-- Work that is kept stays kept, at its path or in a copy, until the user
changes it. -/
theorem run_kept (hguard : Guarded sha256 synced run) (hwork : ¬ synced content)
    (hkept : Kept run.disk path content) {events : List PullEvent}
    (hall : AllSteps (step sha256 symlinkView requester)
      (Careful sha256 symlinkView requester synced) run events)
    (hspares : AllSteps (step sha256 symlinkView requester) (Spares path content) run events) :
    Kept (Lib.run (step sha256 symlinkView requester) run events).disk path content := by
  induction events generalizing run with
  | nil => exact hkept
  | cons e events ih =>
    refine ih (step_guarded hguard hall.1) ?_ hall.2 hspares.2
    have hstays {k : String} (hk : k = path ∨ IsConflictPath k)
        (hread : run.disk.read k = some content) :
        Kept (run.step sha256 symlinkView requester e).disk k content := by
      cases e with
      | edit disk => exact .inl (hspares.1 k hk hread)
      | _ => exact step_keeps hguard hall.1 (by simp) k content hread hwork
    rcases hkept with hread | ⟨copy, hcopy, hread⟩
    · exact hstays (.inl rfl) hread
    · rcases hstays (.inr hcopy) hread with hread | hother
      · exact .inr ⟨copy, hcopy, hread⟩
      · exact .inr hother

/-- The answer to `edited` when `a` has been edited elsewhere. -/
def editedDiff : FileDiffResult := { changed := ["a"], removed := [], tree := some editedRemote }

theorem edited_differs :
    objectId Digest.sha256 [49] ≠ (editedRemote.entries.head (by decide)).blobId := by
  decide +kernel

theorem edited_compared :
    Lib.run (step Digest.sha256 false "acme/m/ai") (start false editedDiff edited)
        [.fetch (some (some [50])), .compare true] =
      { disk := edited
        phase := .copying (editedRemote.entries.head (by decide)) [50]
          { entries := [], removed := [] } } := by
  have hlocal : edited.read "a" = some [49] := rfl
  have hdiffers : objectId Digest.sha256 [49] ≠ objectId Digest.sha256 [50] := edited_differs
  simp [step, start, onFetch, onCompare, editedDiff, editedRemote, FileTree.entryAt, hlocal, hdiffers]

/-- The answer to `edited` when `a` has been removed elsewhere. -/
def removedDiff : FileDiffResult :=
  { changed := [], removed := ["a"], tree := some { treeHash := "", entries := [] } }

theorem lookup_edited (hk : k ≠ "a") : edited.dir.lookup k = none := by
  rw [edited, AList.lookup_insert_ne hk]
  rfl

theorem not_kept {disk : Disk} (h : ∀ k, disk.read k ≠ some content) : ¬ Kept disk path content := by
  rintro (hread | ⟨copy, -, hread⟩)
  · exact h path hread
  · exact h copy hread

/-- The operations of an entry whose object has been found. -/
def entryEvents (env : PullEnv) (requester : String) (entry : FileTreeEntry) (bytes : Bytes) :
    List PullEvent :=
  let conflict := conflictPath requester entry.path (env.timestampMs entry.path)
  [.fetch (some (some bytes)), .compare true,
    .copy (env.timestampMs entry.path) (env.mtimeNs conflict)
      (if env.fails conflict then .refused else .done),
    .replace .done (env.mtimeNs entry.path) .done, .store .done]

section
variable {env : PullEnv} {disk disk' : Disk}

theorem run_keepConflict (sha256 : Bytes → Digest) (env : PullEnv) (requester : String) (disk : Disk)
    (entry : FileTreeEntry) (bytes : Bytes) (rest : PullRest) :
    let conflict := conflictPath requester entry.path (env.timestampMs entry.path)
    Lib.run (step sha256 env.symlinkView requester) { disk, phase := .comparing entry bytes rest }
        [.compare true, .copy (env.timestampMs entry.path) (env.mtimeNs conflict)
          (if env.fails conflict then .refused else .done)] =
      { disk := keepConflict sha256 env requester disk entry, phase := .replacing entry bytes rest } := by
  cases hlocal : disk.read entry.path with
  | none => simp [step, onCompare, onCopy, keepConflict, hlocal]
  | some content =>
    by_cases hsame : objectId sha256 content = entry.blobId
    · simp [step, onCompare, onCopy, keepConflict, hlocal, hsame]
    · cases hfails : env.fails (conflictPath requester entry.path (env.timestampMs entry.path)) with
      | true => simp [step, onCompare, onCopy, keepConflict, hlocal, hsame, hfails]
      | false => simp [step, onCompare, onCopy, keepConflict, hlocal, hsame, hfails]

theorem run_materialize (sha256 : Bytes → Digest) (requester : String)
    (h : materialize env disk entry bytes = some disk') (rest : PullRest) :
    Lib.run (step sha256 env.symlinkView requester) { disk, phase := .replacing entry bytes rest }
        [.replace .done (env.mtimeNs entry.path) .done, .store .done] =
      { disk := { disk' with cache := ensureObjectLocal disk'.cache entry.blobId bytes }
        phase := .pulling rest } := by
  unfold materialize at h
  split at h
  · cases h
  · split at h
    · rename_i hview
      obtain rfl := Option.some.inj h
      simp [step, onReplace, onStore, storeObject, hview]
    · rename_i hview
      obtain rfl := Option.some.inj h
      simp [step, onReplace, onStore, storeObject, hview]

theorem run_pullPath (h : pullPath sha256 env requester remote disk p = some disk')
    (changed : List String) (removed : List String) :
    ∃ events, (∀ e ∈ events, ∀ disk, e ≠ .edit disk) ∧
      Lib.run (step sha256 env.symlinkView requester)
        { disk
          phase := .pulling { entries := (p :: changed).filterMap remote.entryAt, removed } } events =
      { disk := disk'
        phase := .pulling { entries := changed.filterMap remote.entryAt, removed } } := by
  cases hentry : remote.entryAt p with
  | none =>
    simp only [pullPath, hentry, Option.some.injEq] at h
    subst h
    exact ⟨[], by simp, by rw [List.filterMap_cons_none hentry]; rfl⟩
  | some entry =>
    rw [List.filterMap_cons_some hentry]
    cases hfetch : env.fetch entry.blobId with
    | none =>
      simp only [pullPath, hentry, hfetch, Option.some.injEq] at h
      subst h
      exact ⟨[.fetch (some none)], by simp, rfl⟩
    | some bytes =>
      simp only [pullPath, hentry, hfetch, materializeWithConflict] at h
      obtain ⟨written, hwritten, rfl⟩ := Option.map_eq_some_iff.mp h
      refine ⟨entryEvents env requester entry bytes, by simp [entryEvents], ?_⟩
      have hcopy := run_keepConflict sha256 env requester disk entry bytes
        { entries := changed.filterMap remote.entryAt, removed }
      have hwrite := run_materialize sha256 requester hwritten
        { entries := changed.filterMap remote.entryAt, removed }
      rw [← hcopy, ← run_append] at hwrite
      exact hwrite

theorem run_pullPaths {changed : List String}
    (h : pullPaths sha256 env requester remote changed disk = some disk') (removed : List String) :
    ∃ events, (∀ e ∈ events, ∀ disk, e ≠ .edit disk) ∧
      Lib.run (step sha256 env.symlinkView requester)
        { disk, phase := .pulling { entries := changed.filterMap remote.entryAt, removed } } events =
      { disk := disk', phase := .pulling { entries := [], removed } } := by
  induction changed generalizing disk with
  | nil =>
    obtain rfl := Option.some.inj h
    exact ⟨[], by simp, rfl⟩
  | cons p changed ih =>
    rw [pullPaths, List.foldlM_cons] at h
    obtain ⟨mid, hmid, hrest⟩ := Option.bind_eq_some_iff.mp h
    obtain ⟨first, hfirst, hrun⟩ := run_pullPath hmid changed removed
    obtain ⟨second, hsecond, hrun'⟩ := ih hrest
    refine ⟨first ++ second, ?_, by rw [run_append, hrun, hrun']⟩
    intro e he
    rcases List.mem_append.mp he with he | he
    · exact hfirst e he
    · exact hsecond e he

theorem run_removePaths (sha256 : Bytes → Digest) (symlinkView : Bool) (requester : String)
    (removed : List String) (disk : Disk) :
    Lib.run (step sha256 symlinkView requester)
        { disk, phase := .pulling { entries := [], removed } }
        (List.replicate removed.length (.remove true)) =
      { disk := removePaths removed disk, phase := .pulling { entries := [], removed := [] } } := by
  induction removed generalizing disk with
  | nil => rfl
  | cons p removed ih => exact ih { disk with dir := disk.dir.erase p }

/-- A pull that nothing interrupts is the one of the loop, or of the start-up phase. -/
theorem run_pull {initial : Bool}
    (h : (if initial then initialPull sha256 env requester diff disk
      else pull sha256 env requester diff disk) = some disk') :
    ∃ events, (∀ e ∈ events, ∀ disk, e ≠ .edit disk) ∧
      Lib.run (step sha256 env.symlinkView requester) (start initial diff disk) events =
        { disk := disk', phase := .pulling { entries := [], removed := [] } } := by
  cases htree : diff.tree with
  | none =>
    have hremoved := run_removePaths sha256 env.symlinkView requester diff.removed disk
    cases initial with
    | true =>
      simp only [if_true, initialPull, htree, Option.some.injEq] at h
      subst h
      exact ⟨[], by simp, by simp only [start, htree, if_true, run_nil]⟩
    | false =>
      simp only [Bool.false_eq_true, if_false, pull, htree, Option.some.injEq] at h
      subst h
      refine ⟨_, ?_, by simpa only [start, htree, Bool.false_eq_true, if_false] using hremoved⟩
      simp
  | some remote =>
    have hpull : (pullPaths sha256 env requester remote diff.changed disk).map
        (removePaths diff.removed) = some disk' := by
      cases initial with
      | true => simpa only [if_true, initialPull, htree] using h
      | false => simpa only [Bool.false_eq_true, if_false, pull, htree] using h
    obtain ⟨pulled, hpulled, rfl⟩ := Option.map_eq_some_iff.mp hpull
    obtain ⟨events, hevents, hrun⟩ := run_pullPaths hpulled diff.removed
    refine ⟨events ++ List.replicate diff.removed.length (.remove true), ?_, ?_⟩
    · intro e he
      rcases List.mem_append.mp he with he | he
      · exact hevents e he
      · simp [List.eq_of_mem_replicate he]
    · simp only [start, htree]
      rw [run_append, hrun, run_removePaths]

end

end PullRun

end Nsmt.Client
