import Nsmt.Core.Messages
import Mathlib.Data.List.AList

/-!
# The client's shared files

The share directory, the cache of objects, the tree built from the directory
and the way remote files get into it. Files are kept by their path below the
share directory, with `/` between its names; directories exist as far as files
lie in them. With `NSMT_SYMLINK_VIEW` a remote file is a link into the cache.
-/

namespace Nsmt.Client

open Nsmt.Lib Nsmt.Core

/-- What lies at a path: a file, or a link to the object of a blob. -/
inductive ShareNode
  | file (bytes : Bytes) (mtimeNs : Int)
  | symlink (blobId : String)
  deriving DecidableEq, Repr

abbrev ShareDir := AList fun _ : String => ShareNode

abbrev ObjectCache := String → Option Bytes

-- ---------------------------------------------------------------------------
-- Building the tree
-- ---------------------------------------------------------------------------

/-- `rel.replace('\\', "/")`. -/
def relOf (path : String) : String :=
  String.ofList (path.toList.map fun c => if c = '\\' then '/' else c)

theorem relOf_relOf (path : String) : relOf (relOf path) = relOf path := by
  simp only [relOf, String.toList_ofList, List.map_map]
  congr 2
  funext c
  by_cases hc : c = '\\'
  · simp [hc]
  · simp [hc]

theorem relOf_eq_self {path : String} : relOf path = path ↔ '\\' ∉ path.toList := by
  rw [← String.toList_inj, relOf, String.toList_ofList]
  constructor
  · intro h hmem
    rw [← h] at hmem
    obtain ⟨c, -, hc⟩ := List.mem_map.mp hmem
    by_cases hback : c = '\\'
    · simp [hback] at hc
    · simp [hback] at hc
  · intro h
    have hid : ∀ c ∈ path.toList, (if c = '\\' then '/' else c) = id c := by
      intro c hc
      have hne : c ≠ '\\' := by
        rintro rfl
        exact h hc
      simp [hne]
    rw [List.map_congr_left hid, List.map_id]

/-- Conflict copies at the top and local markers are not synchronised. -/
def synced (rel : String) : Bool :=
  !(".sync-conflict-".toList.isPrefixOf rel.toList || ".nsmt-".toList.isPrefixOf rel.toList)

section
variable (sha256 : Bytes → Digest)

/-- The entry of a file. `file_type` does not follow a link, so a link is
neither a directory nor a file. -/
def walkEntry (path : String) : ShareNode → Option FileTreeEntry
  | .symlink _ => none
  | .file bytes mtimeNs =>
    if synced (relOf path) then
      some
        { path := relOf path
          blobId := objectId sha256 bytes
          mode := 0o644
          size := bytes.length % 2 ^ 64
          mtimeNs }
    else none

/-- `walk`, in the order of the directory. -/
def walk (dir : ShareDir) : List FileTreeEntry :=
  dir.entries.filterMap fun f => walkEntry sha256 f.1 f.2

def buildTree (dir : ShareDir) : FileTree :=
  let entries := (walk sha256 dir).insertionSort fun a b => a.path ≤ b.path
  { treeHash := treeHash sha256 { treeHash := "", entries }, entries }

theorem walkEntry_eq_some :
    walkEntry sha256 path node = some e ↔ ∃ bytes mtimeNs, node = .file bytes mtimeNs ∧
      synced (relOf path) = true ∧
      e = ⟨relOf path, objectId sha256 bytes, 0o644, bytes.length % 2 ^ 64, mtimeNs⟩ := by
  cases node with
  | symlink blobId => simp [walkEntry]
  | file bytes mtimeNs =>
    by_cases hsync : synced (relOf path) = true
    · simp [walkEntry, hsync, eq_comm]
    · simp [walkEntry, hsync]

theorem mem_buildTree {dir : ShareDir} :
    e ∈ (buildTree sha256 dir).entries ↔ ∃ path bytes mtimeNs,
      dir.lookup path = some (.file bytes mtimeNs) ∧ synced (relOf path) = true ∧
      e = ⟨relOf path, objectId sha256 bytes, 0o644, bytes.length % 2 ^ 64, mtimeNs⟩ := by
  have hwalk : e ∈ (buildTree sha256 dir).entries ↔ e ∈ walk sha256 dir := List.mem_insertionSort _
  rw [hwalk, walk, List.mem_filterMap]
  constructor
  · rintro ⟨⟨path, node⟩, hmem, he⟩
    obtain ⟨bytes, mtimeNs, rfl, hsync, rfl⟩ := (walkEntry_eq_some sha256).mp he
    exact ⟨path, bytes, mtimeNs, AList.mem_lookup_iff.mpr hmem, hsync, rfl⟩
  · rintro ⟨path, bytes, mtimeNs, hlookup, hsync, rfl⟩
    refine ⟨⟨path, .file bytes mtimeNs⟩, AList.mem_lookup_iff.mp hlookup, ?_⟩
    exact (walkEntry_eq_some sha256).mpr ⟨bytes, mtimeNs, rfl, hsync, rfl⟩

theorem mem_paths_buildTree {dir : ShareDir} :
    p ∈ (buildTree sha256 dir).paths ↔ synced p = true ∧ ∃ path bytes mtimeNs,
      dir.lookup path = some (.file bytes mtimeNs) ∧ relOf path = p := by
  rw [FileTree.mem_paths]
  constructor
  · rintro ⟨e, he, rfl⟩
    obtain ⟨path, bytes, mtimeNs, hlookup, hsync, rfl⟩ := (mem_buildTree sha256).mp he
    exact ⟨hsync, path, bytes, mtimeNs, hlookup, rfl⟩
  · rintro ⟨hsync, path, bytes, mtimeNs, hlookup, rfl⟩
    exact ⟨_, (mem_buildTree sha256).mpr ⟨path, bytes, mtimeNs, hlookup, hsync, rfl⟩, rfl⟩

theorem buildTree_hashable (dir : ShareDir) : Hashable (buildTree sha256 dir) := by
  intro e he
  obtain ⟨path, bytes, mtimeNs, -, -, rfl⟩ := (mem_buildTree sha256).mp he
  exact ⟨Digest.blobText _, rfl, Nat.mod_lt _ (by decide)⟩

theorem buildTree_treeHash (dir : ShareDir) :
    (buildTree sha256 dir).treeHash = treeHash sha256 (buildTree sha256 dir) := rfl

end

-- ---------------------------------------------------------------------------
-- Files on disk
-- ---------------------------------------------------------------------------

/-- The share directory and `~/.nsmt/objects`. -/
structure Disk where
  dir : ShareDir
  cache : ObjectCache

/-- What the disk and the network do to a pull: the bytes the server, or else a
peer, gives for a blob, the times at which files are written, and the paths at
which the disk refuses to write. -/
structure PullEnv where
  symlinkView : Bool
  fetch : String → Option Bytes
  timestampMs : String → Nat
  mtimeNs : String → Int
  fails : String → Bool

def ensureObjectLocal (cache : ObjectCache) (blobId : String) (bytes : Bytes) : ObjectCache :=
  match cache blobId with
  | some _ => cache
  | none => Function.update cache blobId (some bytes)

theorem ensureObjectLocal_eq_some {cache : ObjectCache}
    (h : ensureObjectLocal cache blobId bytes b = some content) :
    cache b = some content ∨ b = blobId ∧ content = bytes := by
  cases hcache : cache blobId with
  | some old =>
    simp only [ensureObjectLocal, hcache] at h
    exact .inl h
  | none =>
    simp only [ensureObjectLocal, hcache] at h
    by_cases hb : b = blobId
    · subst hb
      rw [Function.update_self] at h
      exact .inr ⟨rfl, (Option.some.inj h).symm⟩
    · rw [Function.update_of_ne hb] at h
      exact .inl h

/-- `child` lies below the directory `parent`. -/
def below (parent child : String) : Bool := (parent.toList ++ ['/']).isPrefixOf child.toList

namespace Disk

/-- `std::fs::read`, which follows a link. -/
def read (disk : Disk) (path : String) : Option Bytes :=
  match disk.dir.lookup path with
  | none => none
  | some (.file bytes _) => some bytes
  | some (.symlink blobId) => disk.cache blobId

/-- A file stands where the path needs a directory, or the other way round. -/
def blocked (disk : Disk) (path : String) : Bool :=
  disk.dir.keys.any fun key => below key path || below path key

/-- `File::create` and a write: through a link into the object cache. -/
def writeFile (disk : Disk) (path : String) (bytes : Bytes) (mtimeNs : Int) : Disk :=
  match disk.dir.lookup path with
  | some (.symlink blobId) => { disk with cache := Function.update disk.cache blobId (some bytes) }
  | _ => { disk with dir := disk.dir.insert path (.file bytes mtimeNs) }

end Disk

def sanitizeName (s : String) : String :=
  String.ofList (s.toList.map fun c => if c.isAlphanum ∨ c = '-' ∨ c = '_' then c else '_')

/-- The path up to and with its last `/`. -/
def parentOf (path : String) : String :=
  String.ofList (path.toList.reverse.dropWhile (· ≠ '/')).reverse

/-- Where the local version of a file is kept when the remote one replaces it. -/
def conflictPath (requester path : String) (timestampMs : Nat) : String :=
  parentOf path ++ ".sync-conflict-" ++ sanitizeName requester ++ "-" ++
    String.ofList (path.toList.map fun c => if c = '/' then '_' else c) ++ "-" ++ toString timestampMs

/-- The name of a conflict copy holds the whole path and more. -/
theorem length_conflictPath (requester path : String) (timestampMs : Nat) :
    path.toList.length + 15 ≤ (conflictPath requester path timestampMs).toList.length := by
  have hname : ".sync-conflict-".toList.length = 15 := by decide
  simp only [conflictPath, String.toList_append, String.toList_ofList, List.length_append,
    List.length_map, hname]
  omega

theorem relOf_conflictPath (requester : String) {path : String} (timestampMs : Nat)
    (h : relOf path = path) :
    relOf (conflictPath requester path timestampMs) = conflictPath requester path timestampMs := by
  rw [relOf_eq_self] at h ⊢
  have hparent : '\\' ∉ (parentOf path).toList := by
    intro hmem
    rw [parentOf, String.toList_ofList, List.mem_reverse] at hmem
    exact h (List.mem_reverse.mp ((List.dropWhile_sublist _).subset hmem))
  have hname : '\\' ∉ (sanitizeName requester).toList := by
    simp only [sanitizeName, String.toList_ofList, List.mem_map, not_exists, not_and]
    intro c _ hc
    split at hc
    · subst hc
      simp_all
    · cases hc
  have hflat : '\\' ∉ path.toList.map fun c => if c = '/' then '_' else c := by
    simp only [List.mem_map, not_exists, not_and]
    intro c hmem hc
    split at hc
    · cases hc
    · exact h (hc ▸ hmem)
  have hdigits : '\\' ∉ (toString timestampMs).toList := by
    intro hmem
    have hdigit := Nat.isDigit_of_mem_toDigits (b := 10) (by decide) (by decide)
      (show '\\' ∈ Nat.toDigits 10 timestampMs by simpa using hmem)
    revert hdigit
    decide
  simp only [conflictPath, String.toList_append, String.toList_ofList, List.mem_append, not_or]
  refine ⟨⟨⟨⟨⟨⟨hparent, by decide⟩, hname⟩, by decide⟩, hflat⟩, by decide⟩, hdigits⟩

section
variable (sha256 : Bytes → Digest) (env : PullEnv) (requester : String)

/-- The real file, or the link in the symlink view; `none` is an I/O error. -/
def materialize (disk : Disk) (entry : FileTreeEntry) (bytes : Bytes) : Option Disk :=
  if disk.blocked entry.path || env.fails entry.path then none
  else if env.symlinkView then
    some
      { dir := disk.dir.insert entry.path (.symlink entry.blobId)
        cache := ensureObjectLocal disk.cache entry.blobId bytes }
  else some (disk.writeFile entry.path bytes (env.mtimeNs entry.path))

/-- The conflict copy of a local version that differs from the remote one. That
the copy fails is not noticed. -/
def keepConflict (disk : Disk) (entry : FileTreeEntry) : Disk :=
  match disk.read entry.path with
  | none => disk
  | some localBytes =>
    let conflict := conflictPath requester entry.path (env.timestampMs entry.path)
    if objectId sha256 localBytes ≠ entry.blobId ∧ env.fails conflict = false then
      disk.writeFile conflict localBytes (env.mtimeNs conflict)
    else disk

def materializeWithConflict (disk : Disk) (entry : FileTreeEntry) (bytes : Bytes) : Option Disk :=
  materialize env (keepConflict sha256 env requester disk entry) entry bytes

/-- One changed path: an object that cannot be fetched is passed over. -/
def pullPath (remote : FileTree) (disk : Disk) (p : String) : Option Disk :=
  match remote.entryAt p with
  | none => some disk
  | some e =>
    match env.fetch e.blobId with
    | none => some disk
    | some bytes =>
      (materializeWithConflict sha256 env requester disk e bytes).map fun disk =>
        { disk with cache := ensureObjectLocal disk.cache e.blobId bytes }

def pullPaths (remote : FileTree) (changed : List String) (disk : Disk) : Option Disk :=
  changed.foldlM (pullPath sha256 env requester remote) disk

/-- `remove_file` on each path, errors ignored. -/
def removePaths (removed : List String) (disk : Disk) : Disk :=
  { disk with dir := removed.foldl (fun dir p => dir.erase p) disk.dir }

/-- The pull of the start-up phase. Without a remote tree nothing is removed. -/
def initialPull (diff : FileDiffResult) (disk : Disk) : Option Disk :=
  match diff.tree with
  | none => some disk
  | some remote =>
    (pullPaths sha256 env requester remote diff.changed disk).map (removePaths diff.removed)

/-- The pull of the loop, which removes paths whether or not there is a tree. -/
def pull (diff : FileDiffResult) (disk : Disk) : Option Disk :=
  match diff.tree with
  | none => some (removePaths diff.removed disk)
  | some remote =>
    (pullPaths sha256 env requester remote diff.changed disk).map (removePaths diff.removed)

end

-- ---------------------------------------------------------------------------
-- What a pull leaves behind
-- ---------------------------------------------------------------------------

namespace Disk

def IsFile (disk : Disk) (path : String) : Prop :=
  ∃ bytes mtimeNs, disk.dir.lookup path = some (.file bytes mtimeNs)

def IsLink (disk : Disk) (path : String) : Prop :=
  ∃ blobId, disk.dir.lookup path = some (.symlink blobId)

theorem writeFile_link {disk : Disk} (h : disk.dir.lookup path = some (.symlink blobId)) (bytes : Bytes)
    (mtimeNs : Int) : disk.writeFile path bytes mtimeNs =
      { disk with cache := Function.update disk.cache blobId (some bytes) } := by
  simp only [writeFile, h]

theorem writeFile_file {disk : Disk} (h : ¬ disk.IsLink path) (bytes : Bytes) (mtimeNs : Int) :
    disk.writeFile path bytes mtimeNs =
      { disk with dir := disk.dir.insert path (.file bytes mtimeNs) } := by
  unfold writeFile
  split
  · rename_i blobId hlink
    exact absurd ⟨blobId, hlink⟩ h
  · rfl

theorem isLink_writeFile {disk : Disk} :
    (disk.writeFile path bytes mtimeNs).IsLink k ↔ disk.IsLink k := by
  by_cases hlink : disk.IsLink path
  · obtain ⟨blobId, hlookup⟩ := hlink
    rw [writeFile_link hlookup]
    rfl
  · rw [writeFile_file hlink]
    by_cases hk : k = path
    · subst hk
      simp only [hlink, iff_false]
      rintro ⟨blobId, hlookup⟩
      rw [AList.lookup_insert] at hlookup
      cases hlookup
    · simp only [IsLink, AList.lookup_insert_ne hk]

theorem isFile_writeFile {disk : Disk} :
    (disk.writeFile path bytes mtimeNs).IsFile k ↔
      disk.IsFile k ∨ (k = path ∧ ¬ disk.IsLink path) := by
  by_cases hlink : disk.IsLink path
  · obtain ⟨blobId, hlookup⟩ := hlink
    rw [writeFile_link hlookup]
    simp only [IsFile, show disk.IsLink path from ⟨blobId, hlookup⟩, not_true, and_false, or_false]
  · rw [writeFile_file hlink]
    by_cases hk : k = path
    · subst hk
      simp only [hlink, not_false_eq_true, and_self, or_true, iff_true]
      exact ⟨bytes, mtimeNs, AList.lookup_insert _⟩
    · simp only [IsFile, AList.lookup_insert_ne hk, hk, false_and, or_false]

end Disk

end Nsmt.Client
