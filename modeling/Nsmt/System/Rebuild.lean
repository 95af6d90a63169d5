import Nsmt.Lib.Paths
import Nsmt.System.Startup

/-!
# Materialising a tree and building it again

A pull writes the files of a tree into the share directory, the next push reads
them back with `build_tree`. Writer and scanner agree on real files. A link is
neither a file nor a directory to the scanner, so in the symlink view what a pull
has just written is missing from the tree the push publishes.
-/

namespace Nsmt.System

open Nsmt.Lib Nsmt.Core Nsmt.Server Nsmt.Client

/-- The files of a directory: their entries with the bytes of their objects, at
distinct relative paths none of which is a directory on the way to another. -/
structure TreeDescription (sha256 : Bytes → Digest) where
  files : List (FileTreeEntry × Bytes)
  nodup : (files.map fun f => f.1.path).Nodup
  relative : ∀ f ∈ files, ∀ piece ∈ Paths.pieces f.1.path.toList, Paths.Ordinary piece
  apart : ∀ f ∈ files, ∀ g ∈ files, below f.1.path g.1.path = false
  syncs : ∀ f ∈ files, synced f.1.path = true
  object : ∀ f ∈ files, f.1.blobId = objectId sha256 f.2

def TreeDescription.tree (d : TreeDescription sha256) : FileTree :=
  let entries := d.files.map Prod.fst
  { treeHash := treeHash sha256 { treeHash := "", entries }, entries }

/-- `materialize_with_conflict` on each file in turn. -/
def materializeAll (sha256 : Bytes → Digest) (env : PullEnv) (requester : String)
    (files : List (FileTreeEntry × Bytes)) (disk : Disk) : Option Disk :=
  files.foldlM (fun disk f => materializeWithConflict sha256 env requester disk f.1 f.2) disk

def SameMap (t u : FileTree) : Prop := ∀ p, t.blobAt p = u.blobAt p

/-- Every file can be written; the tree built afterwards has the blobs of the
description, and so has the tree that `sync_push` publishes. -/
def Rebuilds (env : PullEnv) (requester : String) (d : TreeDescription sha256) (disk : Disk) : Prop :=
  ∃ full, materializeAll sha256 env requester d.files disk = some full ∧
    SameMap (buildTree sha256 full.dir) d.tree ∧
    ∀ accepted fs, ∃ disk' fs' new,
      syncPush sha256 accepted (buildTree sha256 full.dir) full fs = some (disk', fs') ∧
      fs'.latestTree = some new ∧ SameMap new d.tree

-- ---------------------------------------------------------------------------
-- What is on disk
-- ---------------------------------------------------------------------------

/-- What `materialize` puts at the path of an entry where nothing was. -/
def nodeOf (env : PullEnv) (e : FileTreeEntry) (bytes : Bytes) : ShareNode :=
  if env.symlinkView then .symlink e.blobId else .file bytes (env.mtimeNs e.path)

section
variable {sha256 : Bytes → Digest} {env : PullEnv} {requester : String} {disk : Disk}

theorem materializeWithConflict_new (sha256 : Bytes → Digest) (requester : String) (bytes : Bytes)
    (hnew : disk.dir.lookup e.path = none)
    (hblocked : disk.blocked e.path = false) (hwrites : env.fails e.path = false) :
    ∃ disk', materializeWithConflict sha256 env requester disk e bytes = some disk' ∧
      disk'.dir = disk.dir.insert e.path (nodeOf env e bytes) := by
  have hread : disk.read e.path = none := by simp only [Disk.read, hnew]
  have hkept : keepConflict sha256 env requester disk e = disk := by
    simp only [keepConflict, hread]
  unfold materializeWithConflict materialize nodeOf
  rw [hkept, hblocked, hwrites, Bool.or_false, if_neg Bool.false_ne_true]
  split
  · exact ⟨_, rfl, rfl⟩
  · simp only [Disk.writeFile, hnew]
    exact ⟨_, rfl, rfl⟩

/-- A path that neither lies below one on disk nor has one below it. -/
def Clear (disk : Disk) (p : String) : Prop :=
  disk.dir.lookup p = none ∧
    ∀ k ∈ disk.dir.keys, below k p = false ∧ below p k = false

theorem Clear.not_blocked (h : Clear disk p) : disk.blocked p = false := by
  simp only [Disk.blocked, List.any_eq_false, Bool.or_eq_true, not_or, Bool.not_eq_true]
  exact h.2

theorem Clear.insert (h : Clear disk p) (hne : p ≠ q) (hbelow : below q p = false)
    (habove : below p q = false) (hdir : disk'.dir = disk.dir.insert q node) : Clear disk' p := by
  rw [Clear, hdir, AList.lookup_insert_ne hne]
  refine ⟨h.1, fun k hk => ?_⟩
  rcases AList.mem_insert disk.dir |>.mp (AList.mem_keys.mpr hk) with rfl | hk
  · exact ⟨hbelow, habove⟩
  · exact h.2 k hk

theorem materializeAll_lookup {files : List (FileTreeEntry × Bytes)}
    (hnodup : (files.map fun f => f.1.path).Nodup)
    (hapart : ∀ f ∈ files, ∀ g ∈ files, below f.1.path g.1.path = false)
    (hwrites : ∀ f ∈ files, env.fails f.1.path = false)
    (hclear : ∀ f ∈ files, Clear disk f.1.path) :
    ∃ full, materializeAll sha256 env requester files disk = some full ∧
      ∀ k node, full.dir.lookup k = some node ↔
        disk.dir.lookup k = some node ∨ ∃ f ∈ files, f.1.path = k ∧ nodeOf env f.1 f.2 = node := by
  induction files generalizing disk with
  | nil => exact ⟨disk, rfl, by simp⟩
  | cons f files ih =>
    obtain ⟨hfresh, hnodup⟩ := List.nodup_cons.mp hnodup
    have hf := hclear f (List.mem_cons_self ..)
    obtain ⟨mid, hmid, hdir⟩ := materializeWithConflict_new sha256 requester f.2 hf.1 hf.not_blocked
      (hwrites f (List.mem_cons_self ..))
    have hne (g) (hg : g ∈ files) : g.1.path ≠ f.1.path := fun heq =>
      hfresh (List.mem_map.mpr ⟨g, hg, heq⟩)
    obtain ⟨full, hfull, hlookup⟩ := @ih mid hnodup
      (fun g hg g' hg' => hapart g (List.mem_cons_of_mem _ hg) g' (List.mem_cons_of_mem _ hg'))
      (fun g hg => hwrites g (List.mem_cons_of_mem _ hg))
      (fun g hg => (hclear g (List.mem_cons_of_mem _ hg)).insert (hne g hg)
        (hapart f (List.mem_cons_self ..) g (List.mem_cons_of_mem _ hg))
        (hapart g (List.mem_cons_of_mem _ hg) f (List.mem_cons_self ..)) hdir)
    refine ⟨full, ?_, fun k node => ?_⟩
    · rw [materializeAll, List.foldlM_cons, hmid]
      exact hfull
    · rw [hlookup, hdir]
      constructor
      · rintro (hold | ⟨g, hg, hpath, hnode⟩)
        · by_cases hk : k = f.1.path
          · subst hk
            rw [AList.lookup_insert] at hold
            exact .inr ⟨f, List.mem_cons_self .., rfl, Option.some.inj hold⟩
          · rw [AList.lookup_insert_ne hk] at hold
            exact .inl hold
        · exact .inr ⟨g, List.mem_cons_of_mem _ hg, hpath, hnode⟩
      · rintro (hold | ⟨g, hg, rfl, rfl⟩)
        · have hk : k ≠ f.1.path := by
            rintro rfl
            rw [hf.1] at hold
            cases hold
          rw [AList.lookup_insert_ne hk]
          exact .inl hold
        · rcases List.mem_cons.mp hg with rfl | hg
          · exact .inl (AList.lookup_insert _)
          · exact .inr ⟨g, hg, rfl, rfl⟩

end

-- ---------------------------------------------------------------------------
-- What the scanner sees
-- ---------------------------------------------------------------------------

namespace TreeDescription

variable {sha256 : Bytes → Digest} {env : PullEnv} {disk : Disk} {d : TreeDescription sha256}

theorem blobAt_tree (d : TreeDescription sha256) (hf : f ∈ d.files) :
    d.tree.blobAt f.1.path = some (objectId sha256 f.2) := by
  have hnodup : d.tree.paths.Nodup := by
    rw [FileTree.paths, tree, List.map_map]
    exact d.nodup
  rw [FileTree.blobAt_eq_some hnodup]
  exact ⟨f.1, List.mem_map_of_mem hf, rfl, d.object f hf⟩

theorem mem_paths_tree : p ∈ d.tree.paths ↔ ∃ f ∈ d.files, f.1.path = p := by
  rw [FileTree.paths, tree, List.map_map, List.mem_map]
  rfl

/-- The share directory has what `materialize` writes for each file, and no more. -/
def WrittenTo (env : PullEnv) (d : TreeDescription sha256) (full : Disk) : Prop :=
  ∀ k node, full.dir.lookup k = some node ↔
    ∃ f ∈ d.files, f.1.path = k ∧ nodeOf env f.1 f.2 = node

/-- The disk after the whole description was written into an empty directory. -/
theorem materialized (d : TreeDescription sha256) (requester : String) (hempty : disk.dir = ∅)
    (hwrites : ∀ f ∈ d.files, env.fails f.1.path = false) :
    ∃ full, materializeAll sha256 env requester d.files disk = some full ∧ d.WrittenTo env full := by
  have hclear (f) (_ : f ∈ d.files) : Clear disk f.1.path := by
    rw [Clear, hempty]
    exact ⟨AList.lookup_empty _, by simp [AList.keys_empty]⟩
  obtain ⟨full, hfull, hlookup⟩ := materializeAll_lookup d.nodup d.apart hwrites hclear
  refine ⟨full, hfull, fun k node => ?_⟩
  rw [hlookup, hempty, AList.lookup_empty]
  simp

/-- A built entry is one of the description, seen as a real file. -/
theorem entry_built {full : Disk}
    (hfull : d.WrittenTo env full)
    (he : e ∈ (buildTree sha256 full.dir).entries) :
    env.symlinkView = false ∧ ∃ f ∈ d.files, full.IsFile f.1.path ∧ e.path = relOf f.1.path ∧
      e.blobId = objectId sha256 f.2 := by
  obtain ⟨k, bytes, mtimeNs, hlookup, -, rfl⟩ := (mem_buildTree sha256).mp he
  obtain ⟨f, hf, rfl, hnode⟩ := (hfull k _).mp hlookup
  unfold nodeOf at hnode
  split at hnode
  · cases hnode
  · rename_i hview
    cases hnode
    exact ⟨by simpa using hview, f, hf, ⟨_, _, hlookup⟩, rfl, rfl⟩

/-- Without a backslash every real file is built at its own path. -/
theorem path_built {full : Disk}
    (hfull : d.WrittenTo env full)
    (hview : env.symlinkView = false) (hf : f ∈ d.files) (hslash : relOf f.1.path = f.1.path) :
    f.1.path ∈ (buildTree sha256 full.dir).paths := by
  have hlookup := (hfull f.1.path _).mpr ⟨f, hf, rfl, rfl⟩
  rw [nodeOf, hview, if_neg Bool.false_ne_true] at hlookup
  exact (mem_paths_buildTree sha256).mpr ⟨d.syncs f hf, f.1.path, _, _, hlookup, hslash⟩

theorem sameMap_built {full : Disk}
    (hfull : d.WrittenTo env full)
    (hview : env.symlinkView = false ∨ d.files = [])
    (hslash : ∀ f ∈ d.files, relOf f.1.path = f.1.path) :
    SameMap (buildTree sha256 full.dir) d.tree := by
  intro p
  cases hentry : (buildTree sha256 full.dir).entryAt p with
  | some e =>
    obtain ⟨hmem, rfl⟩ := FileTree.entryAt_mem hentry
    obtain ⟨-, f, hf, -, hpath, hblob⟩ := entry_built hfull hmem
    rw [FileTree.blobAt, hentry, Option.map_some, hblob, hpath, hslash f hf, d.blobAt_tree hf]
  | none =>
    have hnot : p ∉ d.tree.paths := by
      rw [mem_paths_tree]
      rintro ⟨f, hf, rfl⟩
      rcases hview with hview | hview
      · exact FileTree.entryAt_eq_none.mp hentry (path_built hfull hview hf (hslash f hf))
      · rw [hview] at hf
        cases hf
    rw [FileTree.blobAt, hentry, FileTree.blobAt, FileTree.entryAt_eq_none.mpr hnot]

end TreeDescription

theorem syncPush_succeeds {tree : FileTree} {disk : Disk} (accepted : FileTreeEntry → Bool)
    (fs : ServerFs) (h : ∀ e ∈ tree.entries, disk.IsFile e.path) :
    ∃ disk' fs', syncPush sha256 accepted tree disk fs = some (disk', fs') := by
  have hpush (s : Disk × ServerFs) (e) (he : e ∈ tree.entries) (hdir : s.1.dir = disk.dir) :
      ∃ s', pushEntry accepted s e = some s' ∧ s'.1.dir = disk.dir := by
    obtain ⟨bytes, mtimeNs, hfile⟩ := h e he
    have hread : s.1.read e.path = some bytes := by rw [Disk.read, hdir, hfile]
    cases hcache : s.1.cache e.blobId with
    | some cached =>
      simp only [pushEntry, hcache]
      exact ⟨_, rfl, hdir⟩
    | none =>
      simp only [pushEntry, hcache, hread]
      exact ⟨_, rfl, hdir⟩
  obtain ⟨⟨disk', fs'⟩, hrun, -⟩ := foldlM_succeeds (fun s => s.1.dir = disk.dir) hpush
    (s := (disk, fs)) rfl
  exact ⟨disk', _, by rw [syncPush, hrun]; rfl⟩

-- ---------------------------------------------------------------------------
-- Both ways
-- ---------------------------------------------------------------------------

/-- A directory with the one file `a`, which holds the byte `1`. -/
def singleFile : TreeDescription Digest.sha256 where
  files := [(⟨"a", objectId Digest.sha256 [1], 0o644, 1, 0⟩, [1])]
  nodup := List.nodup_singleton _
  relative f hf piece hpiece := by
    obtain rfl := List.mem_singleton.mp hf
    obtain rfl : piece = ['a'] := List.mem_singleton.mp hpiece
    exact ⟨nofun, nofun, nofun⟩
  apart f hf g hg := by
    obtain rfl := List.mem_singleton.mp hf
    obtain rfl := List.mem_singleton.mp hg
    rfl
  syncs f hf := by
    obtain rfl := List.mem_singleton.mp hf
    rfl
  object f hf := by
    obtain rfl := List.mem_singleton.mp hf
    rfl

end Nsmt.System
