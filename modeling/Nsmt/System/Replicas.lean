import Nsmt.System.Rebuild

/-!
# Clients that start from an empty share directory

The first client of a tenant pushes its files; whoever comes later with an empty
share directory pulls them and pushes what it has then. `newcomers_replicate` says
that this changes nothing but modification times: every newcomer has the files of
the first client, and the server has a tree of the same hash at the end.
-/

namespace Nsmt.System

open Nsmt.Lib Nsmt.Core Nsmt.Server Nsmt.Client

/-- A client whose share directory is empty. -/
structure Newcomer where
  env : PullEnv
  requester : String
  accepted : FileTreeEntry → Bool
  cache : ObjectCache

def Newcomer.disk (n : Newcomer) : Disk := { dir := ∅, cache := n.cache }

/-- One newcomer after the other: the store, and the share directories they have
behind their start-up phase. -/
def replicate (sha256 : Bytes → Digest) (s : ServerFs × List ShareDir) (n : Newcomer) :
    Option (ServerFs × List ShareDir) :=
  (initialSync sha256 n.env n.requester n.accepted n.disk s.1).map fun (disk, fs) =>
    (fs, s.2 ++ [disk.dir])

/-- The content of the file at a path. A link has none of its own. -/
def contentAt (dir : ShareDir) (path : String) : Option Bytes :=
  match dir.lookup path with
  | some (.file bytes _) => some bytes
  | _ => none

/-- The files of `dir` that are synchronised, and no others. -/
def Copies (dir copy : ShareDir) : Prop :=
  ∀ path, contentAt copy path = if synced path then contentAt dir path else none

/-- No name has a backslash. -/
def Slashed (dir : ShareDir) : Prop := ∀ k ∈ dir.keys, relOf k = k

/-- A share directory as a file system has it, without backslashes in its names. -/
structure Plain (dir : ShareDir) : Prop where
  slashes : Slashed dir
  apart : ∀ k ∈ dir.keys, ∀ l ∈ dir.keys, below k l = false

/-- What is kept under the blob id of a file is the content of the file. -/
def Backed (sha256 : Bytes → Digest) (dir : ShareDir) (objects : String → Option Bytes) : Prop :=
  ∀ path bytes other, contentAt dir path = some bytes →
    objects (objectId sha256 bytes) = some other → other = bytes

/-- The empty tree's hash names no other tree of the store. -/
def EmptyKnown (sha256 : Bytes → Digest) (fs : ServerFs) : Prop :=
  ∀ old, fs.getTree (buildTree sha256 ∅).treeHash = some old → old.entries = []

/-- A shared tree all of whose files the store can hand out. -/
structure Shared (sha256 : Bytes → Digest) (fs : ServerFs) (tree : FileTree) : Prop where
  latest : fs.latestTree = some tree
  shape : TreeShape tree
  reported : ∀ p ∈ tree.paths, synced p = true ∧ relOf p = p
  apart : ∀ p ∈ tree.paths, ∀ q ∈ tree.paths, below p q = false
  stored : ∀ e ∈ tree.entries, ∃ bytes, fs.objects e.blobId = some bytes ∧
    objectId sha256 bytes = e.blobId ∧ bytes.length % 2 ^ 64 = e.size
  hashed : tree.treeHash = treeHash sha256 tree
  free : tree.treeHash = (buildTree sha256 ∅).treeHash → tree.entries = []
  known : EmptyKnown sha256 fs

/-- The hash of a first client's files and of its tree is not the hash of anything else
it meets: another file of its own, a cached object, an object of the server, the tree
without entries. -/
structure NoCollision (sha256 : Bytes → Digest) (disk : Disk) (fs : ServerFs) : Prop where
  files : ∀ path bytes path' other, contentAt disk.dir path = some bytes →
    contentAt disk.dir path' = some other → sha256 other = sha256 bytes → other = bytes
  cache : Backed sha256 disk.dir disk.cache
  objects : Backed sha256 disk.dir fs.objects
  empty : (buildTree sha256 disk.dir).treeHash = (buildTree sha256 ∅).treeHash →
    (buildTree sha256 disk.dir).entries = []
  known : EmptyKnown sha256 fs

theorem length_replicate {newcomers : List Newcomer} {s s' : ServerFs × List ShareDir}
    (h : newcomers.foldlM (replicate sha256) s = some s') :
    s'.2.length = s.2.length + newcomers.length := by
  induction newcomers generalizing s with
  | nil =>
    obtain rfl := Option.some.inj h
    rfl
  | cons n newcomers ih =>
    rw [List.foldlM_cons] at h
    obtain ⟨mid, hmid, hrest⟩ := Option.bind_eq_some_iff.mp h
    obtain ⟨⟨disk, fs⟩, -, rfl⟩ := Option.map_eq_some_iff.mp hmid
    rw [ih hrest, List.length_append, List.length_cons, List.length_cons]
    simp only [List.length_nil]
    omega

-- ---------------------------------------------------------------------------
-- Pulling a tree into an empty directory
-- ---------------------------------------------------------------------------

theorem ServerFs.diff_empty {old : Option FileTree} (h : ∀ o, old = some o → o.entries = [])
    (latest : FileTree) : ServerFs.diff old (some latest) = (latest.paths, []) := by
  have hmap : ServerFs.oldMap old = ∅ := by
    cases old with
    | none => rfl
    | some o => rw [ServerFs.oldMap, h o rfl, List.foldl_nil]
  have hentries (es : List FileTreeEntry) :
      ServerFs.diffEntries ∅ es = (es.map FileTreeEntry.path, ∅) := by
    induction es with
    | nil => rfl
    | cons e es ih =>
      have herase : (∅ : ServerFs.EntryMap).erase e.path = ∅ := rfl
      rw [ServerFs.diffEntries, herase, ih]
      rfl
  rw [ServerFs.diff, hmap]
  exact congrArg (fun r => (r.1, AList.keys r.2)) (hentries latest.entries)

section
variable {sha256 : Bytes → Digest} {env : PullEnv} {requester : String} {remote : FileTree}
  {disk : Disk}

variable (sha256 requester) in
/-- A pulled path where nothing was. -/
theorem pullPath_new (hentry : remote.entryAt e.path = some e) (hfetch : env.fetch e.blobId = some bytes)
    (hclear : Clear disk e.path) (hwrites : env.fails e.path = false) :
    ∃ disk', pullPath sha256 env requester remote disk e.path = some disk' ∧
      disk'.dir = disk.dir.insert e.path (nodeOf env e bytes) := by
  obtain ⟨mid, hmid, hdir⟩ := materializeWithConflict_new sha256 requester bytes hclear.1
    hclear.not_blocked hwrites
  refine ⟨{ mid with cache := ensureObjectLocal mid.cache e.blobId bytes }, ?_, hdir⟩
  simp only [pullPath, hentry, hfetch, hmid, Option.map_some]

variable (sha256 requester) in
/-- The paths of some entries are pulled one after the other, none of them in the way of
another. -/
theorem pullPaths_new (bytesOf : FileTreeEntry → Bytes) {entries : List FileTreeEntry}
    (hentry : ∀ e ∈ entries, remote.entryAt e.path = some e)
    (hfetch : ∀ e ∈ entries, env.fetch e.blobId = some (bytesOf e))
    (hnodup : (entries.map FileTreeEntry.path).Nodup)
    (hapart : ∀ e ∈ entries, ∀ f ∈ entries, below e.path f.path = false)
    (hwrites : ∀ e ∈ entries, env.fails e.path = false)
    (hclear : ∀ e ∈ entries, Clear disk e.path) :
    ∃ full, pullPaths sha256 env requester remote (entries.map FileTreeEntry.path) disk = some full ∧
      (∀ k, k ∉ entries.map FileTreeEntry.path → full.dir.lookup k = disk.dir.lookup k) ∧
      ∀ e ∈ entries, full.dir.lookup e.path = some (nodeOf env e (bytesOf e)) := by
  induction entries generalizing disk with
  | nil => exact ⟨disk, rfl, fun _ _ => rfl, by simp⟩
  | cons e entries ih =>
    obtain ⟨hfresh, hnodup⟩ := List.nodup_cons.mp hnodup
    have he : e ∈ e :: entries := List.mem_cons_self ..
    have hin (f) (hf : f ∈ entries) : f ∈ e :: entries := List.mem_cons_of_mem _ hf
    obtain ⟨mid, hmid, hdir⟩ := pullPath_new sha256 requester (hentry e he) (hfetch e he)
      (hclear e he) (hwrites e he)
    -- A file at the path of `e` leaves the other paths clear.
    have hrest (f) (hf : f ∈ entries) : Clear mid f.path := by
      refine (hclear f (hin f hf)).insert ?_ (hapart e he f (hin f hf)) (hapart f (hin f hf) e he) hdir
      rintro heq
      exact hfresh (heq ▸ List.mem_map_of_mem hf)
    obtain ⟨full, hfull, hother, hnew⟩ := ih (fun f hf => hentry f (hin f hf))
      (fun f hf => hfetch f (hin f hf)) hnodup (fun f hf g hg => hapart f (hin f hf) g (hin g hg))
      (fun f hf => hwrites f (hin f hf)) hrest
    refine ⟨full, ?_, fun k hk => ?_, fun f hf => ?_⟩
    · rw [pullPaths, List.map_cons, List.foldlM_cons, hmid]
      exact hfull
    · rw [List.map_cons, List.mem_cons, not_or] at hk
      rw [hother k hk.2, hdir, AList.lookup_insert_ne hk.1]
    · rcases List.mem_cons.mp hf with rfl | hf
      · rw [hother f.path hfresh, hdir, AList.lookup_insert]
      · exact hnew f hf

end

-- ---------------------------------------------------------------------------
-- The tree of a pulled directory
-- ---------------------------------------------------------------------------

section
variable {sha256 : Bytes → Digest} {fs : ServerFs} {tree : FileTree}

def retimed (env : PullEnv) (e : FileTreeEntry) : FileTreeEntry := { e with mtimeNs := env.mtimeNs e.path }

/-- The share directory has the real files of the tree, and nothing else. -/
structure FilesOf (env : PullEnv) (fs : ServerFs) (tree : FileTree) (dir : ShareDir) : Prop where
  only : ∀ k, k ∉ tree.paths → dir.lookup k = none
  file : ∀ e ∈ tree.entries, ∃ bytes, fs.objects e.blobId = some bytes ∧
    dir.lookup e.path = some (.file bytes (env.mtimeNs e.path))

theorem retimed_paths (env : PullEnv) (entries : List FileTreeEntry) :
    (entries.map (retimed env)).map FileTreeEntry.path = entries.map FileTreeEntry.path := by
  rw [List.map_map]
  rfl

theorem retimed_shape (env : PullEnv) (h : TreeShape tree) (name : String) :
    TreeShape { treeHash := name, entries := tree.entries.map (retimed env) } where
  nodup := by
    rw [retimed_paths]
    exact h.nodup
  blob := List.forall_mem_map.mpr h.blob
  mode := List.forall_mem_map.mpr h.mode
  size := List.forall_mem_map.mpr h.size

/-- Modification times are not hashed. -/
theorem treePreimage_retimed (env : PullEnv) (tree : FileTree) (name : String) :
    treePreimage { treeHash := name, entries := tree.entries.map (retimed env) } = treePreimage tree := by
  have hsort : sortedEntries { treeHash := name, entries := tree.entries.map (retimed env) } =
      (sortedEntries tree).map (retimed env) := by
    simp only [sortedEntries]
    refine (List.map_insertionSort (fun a b : FileTreeEntry => a.path ≤ b.path) _ _ _ ?_).symm
    exact fun _ _ _ _ => .rfl
  rw [treePreimage, hsort, List.flatMap_map]
  rfl

/-- Each file of the tree is found as its entry, but for the time. -/
theorem FilesOf.found (h : FilesOf env fs tree dir) (hshared : Shared sha256 fs tree)
    (he : e ∈ tree.entries) :
    ∃ node, dir.lookup e.path = some node ∧ walkEntry sha256 e.path node = some (retimed env e) := by
  obtain ⟨bytes, hobject, hfile⟩ := h.file e he
  obtain ⟨stored, hstored, hid, hsize⟩ := hshared.stored e he
  obtain rfl : bytes = stored := Option.some.inj (hobject.symm.trans hstored)
  obtain ⟨hsync, hpath⟩ := hshared.reported e.path (FileTree.mem_paths.mpr ⟨e, he, rfl⟩)
  refine ⟨_, hfile, (walkEntry_eq_some sha256).mpr ⟨bytes, _, rfl, by rwa [hpath], ?_⟩⟩
  simp only [retimed, hid, hsize, hpath, ← hshared.shape.mode e he]

/-- There is nothing else to be found. -/
theorem FilesOf.entry (h : FilesOf env fs tree dir) (hshared : Shared sha256 fs tree)
    (hnode : (⟨k, node⟩ : Sigma fun _ : String => ShareNode) ∈ dir.entries) :
    ∃ e ∈ tree.entries, e.path = k ∧ walkEntry sha256 k node = some (retimed env e) := by
  have hlookup : dir.lookup k = some node := AList.mem_lookup_iff.mpr hnode
  have hpath : k ∈ tree.paths := by
    by_contra hnot
    rw [h.only k hnot] at hlookup
    cases hlookup
  obtain ⟨e, he, rfl⟩ := FileTree.mem_paths.mp hpath
  obtain ⟨found, hfound, hentry⟩ := h.found hshared he
  obtain rfl : node = found := Option.some.inj (hlookup.symm.trans hfound)
  exact ⟨e, he, rfl, hentry⟩

theorem FilesOf.walk_paths (h : FilesOf env fs tree dir) (hshared : Shared sha256 fs tree) :
    (walk sha256 dir).map FileTreeEntry.path = dir.keys := by
  have hwalk (nodes : List (Sigma fun _ : String => ShareNode)) (hall : ∀ f ∈ nodes, f ∈ dir.entries) :
      (nodes.filterMap fun f => walkEntry sha256 f.1 f.2).map FileTreeEntry.path = nodes.keys := by
    induction nodes with
    | nil => rfl
    | cons f nodes ih =>
      obtain ⟨e, -, hpath, hentry⟩ := h.entry hshared (hall f (List.mem_cons_self ..))
      have hcons : (f :: nodes).filterMap (fun f => walkEntry sha256 f.1 f.2) =
          retimed env e :: nodes.filterMap fun f => walkEntry sha256 f.1 f.2 :=
        List.filterMap_cons_some hentry
      rw [hcons, List.map_cons, ih fun g hg => hall g (List.mem_cons_of_mem _ hg), List.keys_cons, ← hpath]
      rfl
  exact hwalk dir.entries fun _ => id

/-- The entries found in a share directory that has the files of a tree. -/
theorem FilesOf.walk_perm (h : FilesOf env fs tree dir) (hshared : Shared sha256 fs tree) :
    (buildTree sha256 dir).entries.Perm (tree.entries.map (retimed env)) := by
  have hmem (e) : e ∈ walk sha256 dir ↔ e ∈ tree.entries.map (retimed env) := by
    rw [walk, List.mem_filterMap, List.mem_map]
    constructor
    · rintro ⟨⟨k, node⟩, hnode, he⟩
      obtain ⟨d, hd, -, hentry⟩ := h.entry hshared hnode
      exact ⟨d, hd, Option.some.inj (hentry.symm.trans he)⟩
    · rintro ⟨d, hd, rfl⟩
      obtain ⟨node, hlookup, hentry⟩ := h.found hshared hd
      exact ⟨⟨d.path, node⟩, AList.mem_lookup_iff.mp hlookup, hentry⟩
  have hnodup : (walk sha256 dir).Nodup := by
    refine .of_map FileTreeEntry.path ?_
    rw [h.walk_paths hshared]
    exact dir.keys_nodup
  have hnodup' : (tree.entries.map (retimed env)).Nodup :=
    .of_map _ (retimed_shape env hshared.shape "").nodup
  exact (List.perm_insertionSort _ _).trans ((List.perm_ext_iff_of_nodup hnodup hnodup').mpr hmem)

/-- The tree built from the files of a tree has its hash. -/
theorem FilesOf.treeHash (h : FilesOf env fs tree dir) (hshared : Shared sha256 fs tree) :
    (buildTree sha256 dir).treeHash = tree.treeHash := by
  have hperm := (retimed_shape env hshared.shape "").sortedEntries_perm (t := buildTree sha256 dir)
    (h.walk_perm hshared)
  rw [buildTree_treeHash, hshared.hashed, Core.treeHash, Core.treeHash, treePreimage, hperm,
    ← treePreimage, treePreimage_retimed]

end

-- ---------------------------------------------------------------------------
-- One newcomer
-- ---------------------------------------------------------------------------

section
variable {sha256 : Bytes → Digest} {fs : ServerFs} {tree : FileTree}

/-- A push of files that the server has already changes nothing but the tree. -/
theorem syncPush_stored (hstored : ∀ e ∈ tree.entries, fs.objects e.blobId ≠ none)
    (h : syncPush sha256 accepted tree disk fs = some (disk', fs')) :
    disk'.dir = disk.dir ∧ fs'.objects = fs.objects ∧
      fs'.trees = (fs.saveTree { tree with treeHash := treeHash sha256 tree }).trees := by
  obtain ⟨⟨mid, midFs⟩, hrun, heq⟩ := Option.map_eq_some_iff.mp h
  cases heq
  have hentry (s : Disk × ServerFs) (e) (he : e ∈ tree.entries) (s') (hs : s.1.dir = disk.dir ∧ s.2 = fs)
      (hpush : pushEntry accepted s e = some s') : s'.1.dir = disk.dir ∧ s'.2 = fs := by
    obtain ⟨stored, hobject⟩ := Option.ne_none_iff_exists'.mp (hstored e he)
    have hput (bytes : Bytes) : (if accepted e then s.2.putObject e.blobId bytes else s.2) = fs := by
      rw [hs.2]
      split
      · simp only [ServerFs.putObject, hobject]
      · rfl
    simp only [pushEntry, hput] at hpush
    split at hpush
    · obtain rfl := Option.some.inj hpush
      exact ⟨hs.1, rfl⟩
    · obtain ⟨bytes, -, rfl⟩ := Option.map_eq_some_iff.mp hpush
      exact ⟨hs.1, rfl⟩
  obtain ⟨hdir, hfs⟩ := foldlM_invariant (fun s => s.1.dir = disk.dir ∧ s.2 = fs) hentry ⟨rfl, rfl⟩ hrun
  exact ⟨hdir, by rw [← hfs]; rfl, by rw [← hfs]⟩

/-- The pull of a newcomer: it asks for the difference to the empty tree. -/
theorem Shared.pulled (h : Shared sha256 fs tree) (n : Newcomer) (hreal : n.env.symlinkView = false)
    (hwrites : ∀ p ∈ tree.paths, n.env.fails p = false) :
    ∃ full, initialPull sha256 (withServer fs n.env) n.requester
        (requestDiff fs (buildTree sha256 n.disk.dir).treeHash) n.disk = some full ∧
      FilesOf n.env fs tree full.dir := by
  have hdiff : requestDiff fs (buildTree sha256 n.disk.dir).treeHash =
      { changed := tree.paths, removed := [], tree := some tree } := by
    have hempty := ServerFs.diff_empty h.known tree
    simp only [requestDiff, Session.diffResult, h.latest, Newcomer.disk, hempty]
  have hpath (e) (he : e ∈ tree.entries) : e.path ∈ tree.paths := FileTree.mem_paths.mpr ⟨e, he, rfl⟩
  have hfetch (e) (he : e ∈ tree.entries) :
      (withServer fs n.env).fetch e.blobId = some ((fs.objects e.blobId).getD []) := by
    obtain ⟨bytes, hobject, -⟩ := h.stored e he
    simp only [withServer, ServerFs.getObject, hobject, Option.some_or, Option.getD_some]
  have hclear (e) (_ : e ∈ tree.entries) : Clear n.disk e.path :=
    ⟨AList.lookup_empty _, fun k hk => absurd hk (by simp [Newcomer.disk, AList.keys_empty])⟩
  obtain ⟨full, hfull, hother, hnew⟩ := pullPaths_new sha256 n.requester _
    (fun e he => FileTree.entryAt_of_mem h.shape.nodup he) hfetch h.shape.nodup
    (fun e he f hf => h.apart _ (hpath e he) _ (hpath f hf)) (fun e he => hwrites _ (hpath e he)) hclear
  refine ⟨full, ?_, fun k hk => ?_, fun e he => ?_⟩
  · rw [hdiff, initialPull]
    exact congrArg (Option.map (removePaths [])) hfull
  · exact (hother k hk).trans (AList.lookup_empty _)
  · obtain ⟨bytes, hobject, -⟩ := h.stored e he
    refine ⟨bytes, hobject, (hnew e he).trans ?_⟩
    rw [hobject, Option.getD_some, nodeOf, if_neg (by simp [withServer, hreal])]
    rfl

theorem FilesOf.mem_entries (h : FilesOf env fs tree dir) (hshared : Shared sha256 fs tree) :
    e ∈ (buildTree sha256 dir).entries ↔ ∃ d ∈ tree.entries, retimed env d = e :=
  (h.walk_perm hshared).mem_iff.trans List.mem_map

theorem FilesOf.mem_paths (h : FilesOf env fs tree dir) (hshared : Shared sha256 fs tree) :
    p ∈ (buildTree sha256 dir).paths ↔ p ∈ tree.paths := by
  rw [FileTree.paths, ((h.walk_perm hshared).map _).mem_iff, retimed_paths]
  rfl

/-- What is built from the files of a shared tree can take its place. -/
theorem Shared.rebuilt (h : Shared sha256 fs tree) (hfiles : FilesOf env fs tree dir)
    (hobjects : fs'.objects = fs.objects)
    (htrees : fs'.trees = (fs.saveTree (buildTree sha256 dir)).trees) :
    Shared sha256 fs' (buildTree sha256 dir) := by
  have hperm := hfiles.walk_perm h
  have hshape := retimed_shape env h.shape ""
  have hempty (heq : (buildTree sha256 dir).treeHash = (buildTree sha256 ∅).treeHash) :
      (buildTree sha256 dir).entries = [] := by
    rw [h.free ((hfiles.treeHash h).symm.trans heq), List.map_nil, List.perm_nil] at hperm
    exact hperm
  constructor
  case latest =>
    rw [ServerFs.latestTree, ServerFs.getTree, htrees]
    exact ServerFs.latestTree_saveTree fs _
  case shape =>
    exact
      { nodup := (hperm.map _).nodup_iff.mpr hshape.nodup
        blob := fun e he => hshape.blob e (hperm.mem_iff.mp he)
        mode := fun e he => hshape.mode e (hperm.mem_iff.mp he)
        size := fun e he => hshape.size e (hperm.mem_iff.mp he) }
  case reported => exact fun p hp => h.reported p ((hfiles.mem_paths h).mp hp)
  case apart =>
    exact fun p hp q hq => h.apart p ((hfiles.mem_paths h).mp hp) q ((hfiles.mem_paths h).mp hq)
  case stored =>
    intro e he
    obtain ⟨d, hd, rfl⟩ := (hfiles.mem_entries h).mp he
    rw [hobjects]
    exact h.stored d hd
  case hashed => rfl
  case free => exact hempty
  case known =>
    intro old hold
    have hname := treeHash_ne_latest sha256 (buildTree sha256 ∅)
    rw [ServerFs.getTree, htrees, ← ServerFs.getTree, buildTree_treeHash,
      ServerFs.getTree_saveTree _ _ hname] at hold
    split at hold
    · rename_i heq
      obtain rfl := Option.some.inj hold
      exact hempty heq.symm
    · exact h.known old hold

/-- A newcomer gets the files of the shared tree, and pushes the tree of these files. -/
theorem Shared.newcomer (h : Shared sha256 fs tree) (n : Newcomer) (hreal : n.env.symlinkView = false)
    (hwrites : ∀ p ∈ tree.paths, n.env.fails p = false) :
    ∃ disk' fs', initialSync sha256 n.env n.requester n.accepted n.disk fs = some (disk', fs') ∧
      FilesOf n.env fs tree disk'.dir ∧ fs'.objects = fs.objects ∧
      Shared sha256 fs' (buildTree sha256 disk'.dir) := by
  obtain ⟨full, hpull, hfiles⟩ := h.pulled n hreal hwrites
  have hisFile (e) (he : e ∈ (buildTree sha256 full.dir).entries) : full.IsFile e.path := by
    obtain ⟨d, hd, rfl⟩ := (hfiles.mem_entries h).mp he
    obtain ⟨bytes, -, hfile⟩ := hfiles.file d hd
    exact ⟨bytes, _, hfile⟩
  have hstored (e) (he : e ∈ (buildTree sha256 full.dir).entries) : fs.objects e.blobId ≠ none := by
    obtain ⟨d, hd, rfl⟩ := (hfiles.mem_entries h).mp he
    obtain ⟨bytes, hobject, -⟩ := h.stored d hd
    simp [retimed, hobject]
  obtain ⟨disk', fs', hpush⟩ := syncPush_succeeds n.accepted fs hisFile
  obtain ⟨hdir, hobjects, htrees⟩ := syncPush_stored hstored hpush
  refine ⟨disk', fs', ?_, hdir ▸ hfiles, hobjects, hdir ▸ h.rebuilt hfiles hobjects htrees⟩
  rw [initialSync, hpull]
  exact hpush

end

-- ---------------------------------------------------------------------------
-- The first client
-- ---------------------------------------------------------------------------

section
variable {sha256 : Bytes → Digest} {fs : ServerFs} {disk : Disk}

theorem contentAt_eq_some {dir : ShareDir} :
    contentAt dir path = some bytes ↔ ∃ mtimeNs, dir.lookup path = some (.file bytes mtimeNs) := by
  unfold contentAt
  split
  · rename_i content mtimeNs hlookup
    simp [hlookup]
  · rename_i hnot
    simp only [reduceCtorEq, false_iff, not_exists]
    exact fun mtimeNs => hnot bytes mtimeNs

theorem Slashed.paths_sublist (hslashed : Slashed dir) :
    List.Sublist ((walk sha256 dir).map FileTreeEntry.path) dir.keys := by
  have hwalk (nodes : List (Sigma fun _ : String => ShareNode)) :
      List.Sublist ((nodes.filterMap fun f => walkEntry sha256 f.1 f.2).map FileTreeEntry.path)
        (nodes.keys.map relOf) := by
    induction nodes with
    | nil => exact .slnil
    | cons f nodes ih =>
      cases hentry : walkEntry sha256 f.1 f.2 with
      | none =>
        rw [List.filterMap_cons, hentry]
        exact ih.cons _
      | some e =>
        obtain ⟨bytes, mtimeNs, -, -, rfl⟩ := (walkEntry_eq_some sha256).mp hentry
        rw [List.filterMap_cons, hentry]
        exact ih.cons_cons _
  have hkeys : dir.keys.map relOf = dir.keys := by
    rw [List.map_congr_left (g := id) fun k hk => hslashed k hk, List.map_id]
  exact hkeys ▸ hwalk dir.entries

/-- The entries of a directory are those of its synchronised files. -/
theorem Slashed.mem_entries (hslashed : Slashed dir) :
    e ∈ (buildTree sha256 dir).entries ↔ ∃ bytes mtimeNs,
      dir.lookup e.path = some (.file bytes mtimeNs) ∧ synced e.path = true ∧
      e = ⟨e.path, objectId sha256 bytes, 0o644, bytes.length % 2 ^ 64, mtimeNs⟩ := by
  rw [mem_buildTree]
  constructor
  · rintro ⟨path, bytes, mtimeNs, hlookup, hsync, rfl⟩
    have hself := hslashed path (AList.mem_keys.mp (AList.lookup_isSome.mp (by rw [hlookup]; rfl)))
    exact ⟨bytes, mtimeNs, by rwa [hself], hsync, rfl⟩
  · rintro ⟨bytes, mtimeNs, hlookup, hsync, he⟩
    have hself := hslashed e.path (AList.mem_keys.mp (AList.lookup_isSome.mp (by rw [hlookup]; rfl)))
    exact ⟨e.path, bytes, mtimeNs, hlookup, by rwa [hself], by rw [hself]; exact he⟩

theorem Slashed.shape (hslashed : Slashed dir) : TreeShape (buildTree sha256 dir) where
  nodup := (((List.perm_insertionSort _ _).map _).nodup_iff).mpr
    (dir.keys_nodup.sublist hslashed.paths_sublist)
  blob e he := (buildTree_hashable sha256 dir e he).1
  mode e he := (buildTree_hashable sha256 dir e he).2.1
  size e he := (buildTree_hashable sha256 dir e he).2.2

/-- Storing a file by its blob id keeps what is held under the ids of the files. -/
theorem NoCollision.holds_insert (h : NoCollision sha256 disk fs) {objects : String → Option Bytes}
    (hobjects : Backed sha256 disk.dir objects) (hfile : contentAt disk.dir path = some bytes) :
    Backed sha256 disk.dir (Function.update objects (objectId sha256 bytes) (some bytes)) := by
  intro path' bytes' other hfile' hother
  by_cases hid : objectId sha256 bytes' = objectId sha256 bytes
  · rw [hid, Function.update_self] at hother
    obtain rfl := Option.some.inj hother
    exact h.files path' bytes' path bytes hfile' hfile (Digest.hex_inj hid.symm)
  · rw [Function.update_of_ne hid] at hother
    exact hobjects path' bytes' other hfile' hother

/-- What holds in the middle of the first push. -/
structure Pushing (sha256 : Bytes → Digest) (disk : Disk) (fs : ServerFs) (s : Disk × ServerFs) : Prop where
  dir : s.1.dir = disk.dir
  trees : s.2.trees = fs.trees
  cache : Backed sha256 disk.dir s.1.cache
  objects : Backed sha256 disk.dir s.2.objects

theorem Pushing.put (h : Pushing sha256 disk fs s) (hfree : NoCollision sha256 disk fs)
    (hfile : contentAt disk.dir path = some bytes) (cache : ObjectCache)
    (hcache : Backed sha256 disk.dir cache) :
    Pushing sha256 disk fs
      ({ s.1 with cache := cache }, s.2.putObject (objectId sha256 bytes) bytes) := by
  refine ⟨h.dir, (s.2.putObject_trees _ _).trans h.trees, hcache, ?_⟩
  unfold ServerFs.putObject
  split
  · exact h.objects
  · exact hfree.holds_insert h.objects hfile

/-- An upload that is accepted: behind it the server has the object. -/
theorem Pushing.pushEntry (h : Pushing sha256 disk fs s) (hfree : NoCollision sha256 disk fs)
    (hplain : Plain disk.dir) (he : e ∈ (buildTree sha256 disk.dir).entries) :
    ∃ s', System.pushEntry (fun _ => true) s e = some s' ∧ Pushing sha256 disk fs s' ∧
      s'.2.objects e.blobId ≠ none ∧
      ∀ blobId, s.2.objects blobId ≠ none → s'.2.objects blobId ≠ none := by
  obtain ⟨bytes, mtimeNs, hlookup, -, heq⟩ := hplain.slashes.mem_entries.mp he
  have hblob : e.blobId = objectId sha256 bytes := by rw [heq]
  have hfile := contentAt_eq_some.mpr ⟨mtimeNs, hlookup⟩
  have hput : (s.2.putObject e.blobId bytes).objects e.blobId ≠ none := by
    simp [ServerFs.putObject_self]
  have hmono (blobId) (hold : s.2.objects blobId ≠ none) :
      (s.2.putObject e.blobId bytes).objects blobId ≠ none := by
    obtain ⟨stored, hstored⟩ := Option.ne_none_iff_exists'.mp hold
    simp [s.2.putObject_mono e.blobId bytes hstored]
  cases hcached : s.1.cache e.blobId with
  | some cached =>
    obtain rfl : cached = bytes := h.cache e.path bytes cached hfile (hblob ▸ hcached)
    have hpush : System.pushEntry (fun _ => true) s e = some (s.1, s.2.putObject e.blobId cached) := by
      simp only [System.pushEntry, hcached]
      rfl
    exact ⟨_, hpush, hblob ▸ h.put hfree hfile s.1.cache h.cache, hput, hmono⟩
  | none =>
    have hread : s.1.read e.path = some bytes := by simp only [Disk.read, h.dir, hlookup]
    have hpush : System.pushEntry (fun _ => true) s e =
        some ({ s.1 with cache := Function.update s.1.cache e.blobId (some bytes) },
          s.2.putObject e.blobId bytes) := by
      simp only [System.pushEntry, hcached, hread, ensureObjectLocal]
      rfl
    exact ⟨_, hpush, hblob ▸ h.put hfree hfile _ (hfree.holds_insert h.cache hfile), hput, hmono⟩

theorem Pushing.run (h : Pushing sha256 disk fs s) (hfree : NoCollision sha256 disk fs)
    (hplain : Plain disk.dir) (entries : List FileTreeEntry)
    (hentries : ∀ e ∈ entries, e ∈ (buildTree sha256 disk.dir).entries) :
    ∃ s', entries.foldlM (System.pushEntry fun _ => true) s = some s' ∧ Pushing sha256 disk fs s' ∧
      (∀ e ∈ entries, s'.2.objects e.blobId ≠ none) ∧
      ∀ blobId, s.2.objects blobId ≠ none → s'.2.objects blobId ≠ none := by
  induction entries generalizing s with
  | nil => exact ⟨s, rfl, h, by simp, fun _ => id⟩
  | cons e entries ih =>
    obtain ⟨mid, hmid, hpushing, hobject, hmono⟩ := h.pushEntry hfree hplain (hentries e (List.mem_cons_self ..))
    obtain ⟨s', hrun, hpushing', hall, hmono'⟩ :=
      ih hpushing fun d hd => hentries d (List.mem_cons_of_mem _ hd)
    refine ⟨s', ?_, hpushing', ?_, fun blobId hold => hmono' _ (hmono _ hold)⟩
    · rw [List.foldlM_cons, hmid]
      exact hrun
    · intro d hd
      rcases List.mem_cons.mp hd with rfl | hd
      · exact hmono' _ hobject
      · exact hall d hd

/-- The accepted push of a plain share directory makes its tree a shared one. -/
theorem NoCollision.shared (hfree : NoCollision sha256 disk fs) (hplain : Plain disk.dir) :
    ∃ disk' fs', syncPush sha256 (fun _ => true) (buildTree sha256 disk.dir) disk fs = some (disk', fs') ∧
      Shared sha256 fs' (buildTree sha256 disk.dir) ∧ Backed sha256 disk.dir fs'.objects := by
  have hstart : Pushing sha256 disk fs (disk, fs) := ⟨rfl, rfl, hfree.cache, hfree.objects⟩
  obtain ⟨⟨disk', mid⟩, hrun, hpushing, hall, -⟩ := hstart.run hfree hplain _ fun _ => id
  have hpush : syncPush sha256 (fun _ => true) (buildTree sha256 disk.dir) disk fs =
      some (disk', mid.saveTree (buildTree sha256 disk.dir)) := by
    rw [syncPush, hrun]
    rfl
  refine ⟨disk', _, hpush, ?_, hpushing.objects⟩
  have hkey (p) (hp : p ∈ (buildTree sha256 disk.dir).paths) : p ∈ disk.dir.keys := by
    obtain ⟨e, he, rfl⟩ := FileTree.mem_paths.mp hp
    obtain ⟨bytes, mtimeNs, hlookup, -⟩ := hplain.slashes.mem_entries.mp he
    exact AList.mem_keys.mp (AList.lookup_isSome.mp (by rw [hlookup]; rfl))
  constructor
  case latest => exact ServerFs.latestTree_saveTree _ _
  case shape => exact hplain.slashes.shape
  case reported =>
    intro p hp
    exact ⟨((mem_paths_buildTree sha256).mp hp).1, hplain.slashes p (hkey p hp)⟩
  case apart => exact fun p hp q hq => hplain.apart p (hkey p hp) q (hkey q hq)
  case stored =>
    intro e he
    obtain ⟨bytes, mtimeNs, hlookup, -, heq⟩ := hplain.slashes.mem_entries.mp he
    obtain ⟨stored, hstored⟩ := Option.ne_none_iff_exists'.mp (hall e he)
    have hblob : e.blobId = objectId sha256 bytes := by rw [heq]
    obtain rfl : stored = bytes :=
      hpushing.objects e.path bytes stored (contentAt_eq_some.mpr ⟨mtimeNs, hlookup⟩) (hblob ▸ hstored)
    exact ⟨stored, hstored, hblob.symm, by rw [heq]⟩
  case hashed => rfl
  case free => exact hfree.empty
  case known =>
    intro old hold
    have hname : (buildTree sha256 ∅).treeHash ≠ ServerFs.latestPath := treeHash_ne_latest sha256 _
    rw [ServerFs.getTree_saveTree _ _ hname] at hold
    split at hold
    · rename_i heq
      obtain rfl := Option.some.inj hold
      exact hfree.empty heq.symm
    · rw [ServerFs.getTree, hpushing.trees] at hold
      exact hfree.known old hold

end

-- ---------------------------------------------------------------------------
-- One newcomer after the other
-- ---------------------------------------------------------------------------

section
variable {sha256 : Bytes → Digest} {fs : ServerFs} {disk : Disk} {tree : FileTree}

theorem FilesOf.sameMap (h : FilesOf env fs tree dir) (hshared : Shared sha256 fs tree) :
    SameMap (buildTree sha256 dir) tree := by
  intro p
  have hnodup : (buildTree sha256 dir).paths.Nodup :=
    (((h.walk_perm hshared).map _).nodup_iff).mpr (retimed_shape env hshared.shape "").nodup
  apply Option.ext
  intro b
  rw [FileTree.blobAt_eq_some hnodup, FileTree.blobAt_eq_some hshared.shape.nodup]
  simp only [h.mem_entries hshared]
  constructor
  · rintro ⟨-, ⟨d, hd, rfl⟩, hpath, hblob⟩
    exact ⟨d, hd, hpath, hblob⟩
  · rintro ⟨d, hd, hpath, hblob⟩
    exact ⟨retimed env d, ⟨d, hd, rfl⟩, hpath, hblob⟩

/-- The files of a tree with the blobs of a plain directory are the files of the directory. -/
theorem FilesOf.copies (h : FilesOf env fs tree dir) (hplain : Plain disk.dir)
    (hsame : SameMap tree (buildTree sha256 disk.dir)) (hobjects : Backed sha256 disk.dir fs.objects) :
    Copies disk.dir dir := by
  intro path
  have hblob := hsame path
  cases hentry : tree.entryAt path with
  | none =>
    have hnone : contentAt dir path = none := by
      rw [contentAt, h.only path (FileTree.entryAt_eq_none.mp hentry)]
    rw [FileTree.blobAt, hentry, Option.map_none, eq_comm, FileTree.blobAt, Option.map_eq_none_iff,
      FileTree.entryAt_eq_none, FileTree.mem_paths] at hblob
    rw [hnone]
    split
    · rename_i hsync
      refine (Option.eq_none_iff_forall_ne_some.mpr fun bytes hfile => hblob ?_).symm
      obtain ⟨mtimeNs, hlookup⟩ := contentAt_eq_some.mp hfile
      exact ⟨⟨path, _, _, _, _⟩, hplain.slashes.mem_entries.mpr ⟨bytes, mtimeNs, hlookup, hsync, rfl⟩, rfl⟩
    · rfl
  | some e =>
    obtain ⟨he, rfl⟩ := FileTree.entryAt_mem hentry
    rw [FileTree.blobAt, hentry, Option.map_some, eq_comm, FileTree.blobAt_eq_some hplain.slashes.shape.nodup]
      at hblob
    obtain ⟨d, hd, hpath, hid⟩ := hblob
    obtain ⟨bytes, mtimeNs, hlookup, hsync, heq⟩ := hplain.slashes.mem_entries.mp hd
    have hfile := contentAt_eq_some.mpr ⟨mtimeNs, hlookup⟩
    obtain ⟨stored, hobject, hcopied⟩ := h.file e he
    have hname : e.blobId = objectId sha256 bytes := by rw [← hid, heq]
    obtain rfl : stored = bytes := hobjects d.path bytes stored hfile (hname ▸ hobject)
    rw [← hpath, if_pos hsync, hfile, hpath]
    exact contentAt_eq_some.mpr ⟨_, hcopied⟩

/-- What a line of newcomers leaves as it is. -/
structure Replicated (sha256 : Bytes → Digest) (disk : Disk) (objects : String → Option Bytes)
    (s : ServerFs × List ShareDir) : Prop where
  copies : ∀ dir ∈ s.2, Copies disk.dir dir
  objects : s.1.objects = objects
  tree : ∃ tree, Shared sha256 s.1 tree ∧ SameMap tree (buildTree sha256 disk.dir) ∧
    tree.treeHash = (buildTree sha256 disk.dir).treeHash

theorem Replicated.replicate {objects : String → Option Bytes} {s : ServerFs × List ShareDir}
    (h : Replicated sha256 disk objects s)
    (hplain : Plain disk.dir) (hobjects : Backed sha256 disk.dir objects) (n : Newcomer)
    (hreal : n.env.symlinkView = false)
    (hwrites : ∀ p ∈ (buildTree sha256 disk.dir).paths, n.env.fails p = false) :
    ∃ s', System.replicate sha256 s n = some s' ∧ Replicated sha256 disk objects s' := by
  obtain ⟨tree, hshared, hsame, hhash⟩ := h.tree
  have hpaths (p) (hp : p ∈ tree.paths) : p ∈ (buildTree sha256 disk.dir).paths := by
    have hblob := hsame p
    by_contra hnot
    rw [FileTree.blobAt, FileTree.blobAt, FileTree.entryAt_eq_none.mpr hnot, Option.map_none,
      Option.map_eq_none_iff, FileTree.entryAt_eq_none] at hblob
    exact hblob hp
  obtain ⟨disk', fs', hsync, hfiles, hkept, hnew⟩ :=
    hshared.newcomer n hreal fun p hp => hwrites p (hpaths p hp)
  refine ⟨(fs', s.2 ++ [disk'.dir]), by rw [System.replicate, hsync]; rfl, ?_, hkept.trans h.objects, ?_⟩
  · intro dir hdir
    rcases List.mem_append.mp hdir with hold | hlast
    · exact h.copies dir hold
    · obtain rfl := List.mem_singleton.mp hlast
      exact hfiles.copies hplain hsame (h.objects ▸ hobjects)
  · refine ⟨_, hnew, fun p => (hfiles.sameMap hshared p).trans (hsame p), ?_⟩
    exact (hfiles.treeHash hshared).trans hhash

end

/-- A share directory with a file at the top and one further down. -/
def twoFiles : Disk :=
  { newcomer with dir := ((∅ : ShareDir).insert "d/b" (.file [2] 7)).insert "a" (.file [1] 5) }

def twoNewcomers : List Newcomer :=
  [⟨noPeers, "acme/m1/maka", fun _ => true, fun _ => none⟩,
    ⟨noPeers, "acme/m2/maka", fun _ => false, fun _ => none⟩]

theorem contentAt_twoFiles (h : contentAt twoFiles.dir path = some bytes) : bytes = [1] ∨ bytes = [2] := by
  obtain ⟨mtimeNs, hlookup⟩ := contentAt_eq_some.mp h
  by_cases ha : path = "a"
  · subst ha
    cases hlookup
    exact .inl rfl
  · rw [twoFiles, AList.lookup_insert_ne ha] at hlookup
    by_cases hb : path = "d/b"
    · subst hb
      cases hlookup
      exact .inr rfl
    · rw [AList.lookup_insert_ne hb, AList.lookup_empty] at hlookup
      cases hlookup

theorem twoFiles_plain : Plain twoFiles.dir := ⟨by unfold Slashed; decide +kernel, by decide +kernel⟩

theorem twoFiles_noCollision : NoCollision Digest.sha256 twoFiles ServerFs.empty where
  files path bytes path' other hfile hother hhash := by
    have hne : Digest.sha256 [1] ≠ Digest.sha256 [2] := by decide +kernel
    rcases contentAt_twoFiles hfile with rfl | rfl <;> rcases contentAt_twoFiles hother with rfl | rfl
    · rfl
    · exact absurd hhash.symm hne
    · exact absurd hhash hne
    · rfl
  cache path bytes other _ h := by cases h
  objects path bytes other _ h := by cases h
  empty h := absurd h (by decide +kernel)
  known old h := by cases h

end Nsmt.System
