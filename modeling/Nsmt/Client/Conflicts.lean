import Nsmt.Client.Fs

/-!
# Conflict copies

What `materialize_with_conflict` keeps of a local file that a pull replaces. A
conflict has three sides: the tree last synchronised, the share directory and
the remote tree. The code compares the local content with the remote one alone,
so an ordinary remote edit leaves a copy as well.
-/

namespace Nsmt.Client

open Nsmt.Lib Nsmt.Core

/-- Beside the pulled path `p` the share directory is as it was. -/
def NoCopy (p : String) (disk disk' : Disk) : Prop :=
  ∀ k, k ≠ p → disk'.dir.lookup k = disk.dir.lookup k

/-- Beside the pulled path `p` nothing but the file `copy` is written, and it
holds the local bytes. -/
def OneCopy (p copy : String) (localBytes : Bytes) (disk disk' : Disk) : Prop :=
  copy ≠ p ∧ (∃ mtimeNs, disk'.dir.lookup copy = some (.file localBytes mtimeNs)) ∧
    ∀ k, k ≠ p → k ≠ copy → disk'.dir.lookup k = disk.dir.lookup k

/-- A copy of the local bytes is left exactly on a conflict. -/
def CopiesExactlyOn (conflict : Prop) (p copy : String) (localBytes : Bytes) (disk disk' : Disk) :
    Prop :=
  (¬ conflict → NoCopy p disk disk') ∧ (conflict → OneCopy p copy localBytes disk disk')

/-- The remote version stands at its path: its bytes, or the link to its object. -/
def Shows (env : PullEnv) (disk : Disk) (e : FileTreeEntry) (bytes : Bytes) : Prop :=
  if env.symlinkView then disk.dir.lookup e.path = some (.symlink e.blobId)
  else disk.read e.path = some bytes

-- ---------------------------------------------------------------------------
-- Writes and the rest of the disk
-- ---------------------------------------------------------------------------

theorem conflictPath_ne (requester path : String) (timestampMs : Nat) :
    conflictPath requester path timestampMs ≠ path := by
  intro h
  have hlen := length_conflictPath requester path timestampMs
  rw [h] at hlen
  omega

namespace Disk

theorem lookup_writeFile_ne {disk : Disk} (h : k ≠ path) :
    (disk.writeFile path bytes mtimeNs).dir.lookup k = disk.dir.lookup k := by
  by_cases hlink : disk.IsLink path
  · obtain ⟨blobId, hlookup⟩ := hlink
    rw [writeFile_link hlookup]
  · rw [writeFile_file hlink]
    exact AList.lookup_insert_ne h

/-- A write is read back, through a link too. -/
theorem read_writeFile (disk : Disk) (path : String) (bytes : Bytes) (mtimeNs : Int) :
    (disk.writeFile path bytes mtimeNs).read path = some bytes := by
  by_cases hlink : disk.IsLink path
  · obtain ⟨blobId, hlookup⟩ := hlink
    rw [writeFile_link hlookup]
    simp only [read, hlookup, Function.update_self]
  · rw [writeFile_file hlink]
    simp only [read, AList.lookup_insert]

theorem ensureObjectLocal_of_some {cache : ObjectCache} (h : cache b = some content) :
    ensureObjectLocal cache blobId bytes b = some content := by
  cases hcache : cache blobId with
  | some old => simpa only [ensureObjectLocal, hcache] using h
  | none =>
    have hne : b ≠ blobId := by
      rintro rfl
      rw [hcache] at h
      cases h
    simp only [ensureObjectLocal, hcache]
    rw [Function.update_of_ne hne, h]

theorem read_ensureObjectLocal {disk : Disk} (h : disk.read path = some content) :
    { disk with cache := ensureObjectLocal disk.cache blobId bytes }.read path = some content := by
  unfold read at h ⊢
  split at h
  · cases h
  · rename_i hfile
    simp only [hfile, h]
  · rename_i target hlink
    simp only [hlink]
    exact ensureObjectLocal_of_some h

end Disk

section
variable {sha256 : Bytes → Digest} {env : PullEnv} {requester : String} {disk : Disk}

theorem keepConflict_of_agrees
    (h : ∀ localBytes, disk.read e.path = some localBytes → objectId sha256 localBytes = e.blobId) :
    keepConflict sha256 env requester disk e = disk := by
  unfold keepConflict
  split
  · rfl
  · rename_i localBytes hlocal
    simp [h localBytes hlocal]

theorem keepConflict_of_differs (hlocal : disk.read e.path = some localBytes)
    (hdiffers : objectId sha256 localBytes ≠ e.blobId)
    (hwrites : env.fails (conflictPath requester e.path (env.timestampMs e.path)) = false) :
    keepConflict sha256 env requester disk e =
      disk.writeFile (conflictPath requester e.path (env.timestampMs e.path)) localBytes
        (env.mtimeNs (conflictPath requester e.path (env.timestampMs e.path))) := by
  simp only [keepConflict, hlocal, hwrites, and_true, if_pos hdiffers]

theorem materialize_spec (h : materialize env disk e bytes = some disk') :
    NoCopy e.path disk disk' ∧ Shows env disk' e bytes := by
  unfold materialize at h
  unfold Shows
  split at h
  · cases h
  · split at h
    · rename_i hview
      obtain rfl := Option.some.inj h
      refine ⟨fun k hk => AList.lookup_insert_ne hk, ?_⟩
      rw [if_pos hview]
      exact AList.lookup_insert _
    · rename_i hview
      obtain rfl := Option.some.inj h
      refine ⟨fun k hk => Disk.lookup_writeFile_ne hk, ?_⟩
      rw [if_neg hview]
      exact Disk.read_writeFile ..

theorem Shows.ensureObjectLocal (h : Shows env disk e bytes) :
    Shows env { disk with cache := ensureObjectLocal disk.cache blobId bytes' } e bytes := by
  unfold Shows at h ⊢
  split
  · rwa [if_pos ‹_›] at h
  · rw [if_neg ‹_›] at h
    exact Disk.read_ensureObjectLocal h

/-- A pulled entry: the copy first, then the remote version. -/
theorem pullPath_phases (hentry : remote.entryAt p = some e)
    (hfetch : env.fetch e.blobId = some bytes)
    (hpull : pullPath sha256 env requester remote disk p = some disk') :
    NoCopy p (keepConflict sha256 env requester disk e) disk' ∧ Shows env disk' e bytes := by
  simp only [pullPath, hentry, hfetch, materializeWithConflict] at hpull
  obtain ⟨written, hwritten, rfl⟩ := Option.map_eq_some_iff.mp hpull
  obtain ⟨hothers, hshows⟩ := materialize_spec hwritten
  rw [(FileTree.entryAt_mem hentry).2] at hothers
  exact ⟨hothers, hshows.ensureObjectLocal⟩

-- ---------------------------------------------------------------------------
-- When a copy is left
-- ---------------------------------------------------------------------------

end

/-- The share directory with the file `a`, whose content is `1`. -/
def edited : Disk :=
  { dir := AList.insert "a" (.file [49] 0) ∅, cache := fun _ => none }

/-- The shared tree after `a` was edited elsewhere: its content is now `2`. -/
def editedRemote : FileTree :=
  let entry : FileTreeEntry :=
    { path := "a", blobId := objectId Digest.sha256 [50], mode := 0o644, size := 1, mtimeNs := 5 }
  { treeHash := "", entries := [entry] }

def editedEnv : PullEnv :=
  { symlinkView := false, fetch := fun _ => some [50], timestampMs := fun _ => 7
    mtimeNs := fun _ => 9, fails := fun _ => false }

theorem edited_pulled : ∃ disk',
    pullPath Digest.sha256 editedEnv "acme/m/ai" editedRemote edited "a" = some disk' :=
  Option.isSome_iff_exists.mp (by decide +kernel)

end Nsmt.Client
