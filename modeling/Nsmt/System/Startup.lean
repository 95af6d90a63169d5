import Nsmt.Client.Fs
import Nsmt.Lib.Runs
import Nsmt.Server.Session

/-!
# The start-up phase of a client

`fs_mode` up to its loop: the client asks for the difference to its own tree,
pulls what changed, removes what is gone, builds its tree anew and pushes it.
The order is meant to keep an empty share directory from replacing the shared
tree. `startup_keeps_iff` says what it achieves: a path survives if the client
has it already or can fetch its object; a path whose object neither the server
nor a peer can give is dropped from the shared tree.
-/

namespace Nsmt.System

open Nsmt.Lib Nsmt.Core Nsmt.Server Nsmt.Client

/-- What the server does not have, a peer may. -/
def withServer (fs : ServerFs) (env : PullEnv) : PullEnv :=
  { env with fetch := fun blobId => (fs.getObject blobId).or (env.fetch blobId) }

/-- One entry of `sync_push`. `accepted` says whether the upload goes through: a
push that is denied the lock or the quota returns all the same. -/
def pushEntry (accepted : FileTreeEntry → Bool) (state : Disk × ServerFs) (e : FileTreeEntry) :
    Option (Disk × ServerFs) :=
  let store (bytes : Bytes) := if accepted e then state.2.putObject e.blobId bytes else state.2
  match state.1.cache e.blobId with
  | some bytes => some (state.1, store bytes)
  | none =>
    (state.1.read e.path).map fun bytes =>
      ({ state.1 with cache := ensureObjectLocal state.1.cache e.blobId bytes }, store bytes)

/-- `sync_push` with the server's side of it. -/
def syncPush (sha256 : Bytes → Digest) (accepted : FileTreeEntry → Bool) (tree : FileTree)
    (disk : Disk) (fs : ServerFs) : Option (Disk × ServerFs) :=
  (tree.entries.foldlM (pushEntry accepted) (disk, fs)).map fun (disk, fs) =>
    (disk, fs.saveTree { tree with treeHash := treeHash sha256 tree })

/-- The answer to `request_diff` with the hash of a tree. -/
def requestDiff (fs : ServerFs) (oldTree : String) : FileDiffResult :=
  Session.diffResult (fs.getTree oldTree) fs.latestTree

def initialSync (sha256 : Bytes → Digest) (env : PullEnv) (requester : String)
    (accepted : FileTreeEntry → Bool) (disk : Disk) (fs : ServerFs) : Option (Disk × ServerFs) :=
  let diff := requestDiff fs (buildTree sha256 disk.dir).treeHash
  (initialPull sha256 (withServer fs env) requester diff disk).bind fun disk =>
    syncPush sha256 accepted (buildTree sha256 disk.dir) disk fs

theorem syncPush_latest (h : syncPush sha256 accepted tree disk fs = some (disk', fs')) :
    fs'.latestTree = some { tree with treeHash := treeHash sha256 tree } := by
  obtain ⟨⟨mid, midFs⟩, -, heq⟩ := Option.map_eq_some_iff.mp h
  cases heq
  exact ServerFs.latestTree_saveTree _ _

/-- The session's turn on a tree frame is the `save_tree` of `sync_push`. -/
theorem onFileTree_store (cfg : Config) (now : Nat) (server : ServerState) (session : Session)
    (h : tree.treeHash = treeHash cfg.sha256 tree) :
    (session.handle cfg now server (.fileTree tree)).server.store session.userDomain =
      (server.store session.userDomain).saveTree
        { tree with treeHash := treeHash cfg.sha256 tree } := by
  have hlog : isCharBoundary tree.treeHash 12 = true := by
    rw [h]
    exact Digest.isCharBoundary _ (by omega)
  simp only [Session.handle, Session.onFileTree, hlog, if_true, Session.stay,
    ServerState.store_setStore]
  rfl

-- ---------------------------------------------------------------------------
-- The files behind a pull
-- ---------------------------------------------------------------------------

/-- What pulling `changed` does in the view of real files. -/
structure Pulled (env : PullEnv) (requester : String) (remote : FileTree) (changed : List String)
    (disk disk' : Disk) : Prop where
  link : ∀ k, disk'.IsLink k ↔ disk.IsLink k
  keeps : ∀ k, disk.IsFile k → disk'.IsFile k
  takes : ∀ q ∈ changed, ∀ e, remote.entryAt q = some e → env.fetch e.blobId ≠ none →
    ¬ disk.IsLink q → disk'.IsFile q
  only : ∀ k, disk'.IsFile k → disk.IsFile k ∨
    (∃ e, remote.entryAt k = some e ∧ env.fetch e.blobId ≠ none ∧ ¬ disk.IsLink k) ∨
    ∃ path timestampMs, k = conflictPath requester path timestampMs

section
variable {sha256 : Bytes → Digest} {env : PullEnv} {requester : String} {remote : FileTree}

theorem keepConflict_files (sha256 : Bytes → Digest) (env : PullEnv) (requester : String) (disk : Disk)
    (e : FileTreeEntry) :
    (∀ k, (keepConflict sha256 env requester disk e).IsLink k ↔ disk.IsLink k) ∧
    (∀ k, disk.IsFile k → (keepConflict sha256 env requester disk e).IsFile k) ∧
    ∀ k, (keepConflict sha256 env requester disk e).IsFile k → disk.IsFile k ∨
      ∃ path timestampMs, k = conflictPath requester path timestampMs := by
  unfold keepConflict
  split
  · exact ⟨fun _ => .rfl, fun _ => id, fun _ => .inl⟩
  · simp only
    split
    · refine ⟨fun _ => Disk.isLink_writeFile, fun _ h => Disk.isFile_writeFile.mpr (.inl h), ?_⟩
      intro k h
      exact (Disk.isFile_writeFile.mp h).imp_right fun hk => ⟨_, _, hk.1⟩
    · exact ⟨fun _ => .rfl, fun _ => id, fun _ => .inl⟩

theorem materialize_real (hreal : env.symlinkView = false)
    (h : materialize env disk e bytes = some disk') :
    disk' = disk.writeFile e.path bytes (env.mtimeNs e.path) := by
  simp only [materialize, hreal, Bool.false_eq_true, if_false] at h
  split at h
  · cases h
  · exact (Option.some.inj h).symm

theorem pullPath_pulled (hreal : env.symlinkView = false)
    (h : pullPath sha256 env requester remote disk q = some disk') :
    Pulled env requester remote [q] disk disk' := by
  unfold pullPath at h
  split at h
  · rename_i hnone
    obtain rfl := Option.some.inj h
    refine ⟨fun _ => .rfl, fun _ => id, ?_, fun _ => .inl⟩
    intro q' hq e he
    rw [List.mem_singleton.mp hq, hnone] at he
    cases he
  · rename_i e hentry
    split at h
    · rename_i hmissing
      obtain rfl := Option.some.inj h
      refine ⟨fun _ => .rfl, fun _ => id, ?_, fun _ => .inl⟩
      intro q' hq e' he hfetch
      rw [List.mem_singleton.mp hq, hentry] at he
      obtain rfl := Option.some.inj he
      exact absurd hmissing hfetch
    · rename_i bytes hbytes
      obtain ⟨mid, hmid, rfl⟩ := Option.map_eq_some_iff.mp h
      have hpath : e.path = q := (FileTree.entryAt_mem hentry).2
      obtain ⟨hlink, hkeeps, honly⟩ := keepConflict_files sha256 env requester disk e
      have hwrite := materialize_real hreal hmid
      rw [hpath] at hwrite
      subst hwrite
      refine ⟨fun k => Disk.isLink_writeFile.trans (hlink k),
        fun k hk => Disk.isFile_writeFile.mpr (.inl (hkeeps k hk)), ?_, fun k hk => ?_⟩
      · intro q' hq e' he hfetch hnot
        rw [List.mem_singleton.mp hq] at hnot ⊢
        exact Disk.isFile_writeFile.mpr (.inr ⟨rfl, (hlink q).not.mpr hnot⟩)
      · rcases Disk.isFile_writeFile.mp hk with hold | ⟨rfl, hnot⟩
        · exact (honly k hold).imp_right .inr
        · exact .inr (.inl ⟨e, hentry, by simp [hbytes], (hlink k).not.mp hnot⟩)

theorem Pulled.trans (h : Pulled env requester remote a disk mid)
    (h' : Pulled env requester remote b mid disk') :
    Pulled env requester remote (a ++ b) disk disk' where
  link k := (h'.link k).trans (h.link k)
  keeps k hk := h'.keeps k (h.keeps k hk)
  takes q hq e he hfetch hnot := by
    rcases List.mem_append.mp hq with hq | hq
    · exact h'.keeps q (h.takes q hq e he hfetch hnot)
    · exact h'.takes q hq e he hfetch ((h.link q).not.mpr hnot)
  only k hk := by
    rcases h'.only k hk with hmid | ⟨e, he, hfetch, hnot⟩ | hconflict
    · exact h.only k hmid
    · exact .inr (.inl ⟨e, he, hfetch, (h.link k).not.mp hnot⟩)
    · exact .inr (.inr hconflict)

theorem pullPaths_pulled (hreal : env.symlinkView = false)
    (h : pullPaths sha256 env requester remote changed disk = some disk') :
    Pulled env requester remote changed disk disk' := by
  induction changed generalizing disk with
  | nil =>
    obtain rfl := Option.some.inj h
    exact ⟨fun _ => .rfl, fun _ => id, by simp, fun _ => .inl⟩
  | cons q changed ih =>
    rw [pullPaths, List.foldlM_cons] at h
    obtain ⟨mid, hmid, hrest⟩ := Option.bind_eq_some_iff.mp h
    exact (pullPath_pulled hreal hmid).trans (ih hrest)

end

theorem lookup_removePaths (removed : List String) (disk : Disk) (k : String) :
    (removePaths removed disk).dir.lookup k = if k ∈ removed then none else disk.dir.lookup k := by
  unfold removePaths
  induction removed generalizing disk with
  | nil => simp
  | cons p removed ih =>
    rw [List.foldl_cons]
    refine (ih { disk with dir := disk.dir.erase p }).trans ?_
    by_cases hk : k = p
    · subst hk
      simp
    · simp [hk, AList.lookup_erase_ne hk]

-- ---------------------------------------------------------------------------
-- The shared tree behind the phase
-- ---------------------------------------------------------------------------

/-- The client has the path, or can fetch its object and put a file there. -/
def Obtainable (sha256 : Bytes → Digest) (env : PullEnv) (disk : Disk) (fs : ServerFs)
    (latest : FileTree) (p : String) : Prop :=
  p ∈ (buildTree sha256 disk.dir).paths ∨
    ∃ e, latest.entryAt p = some e ∧ (fs.objects e.blobId ≠ none ∨ env.fetch e.blobId ≠ none) ∧
      ¬ disk.IsLink p

/-- A start-up phase in the view of real files: the latest tree has paths as
`build_tree` reports them, the tree archived under the client's hash is a tree
of that hash, and it does not collide with the client's own. -/
structure StartUp (sha256 : Bytes → Digest) (env : PullEnv) (disk : Disk) (fs : ServerFs)
    (latest : FileTree) : Prop where
  real : env.symlinkView = false
  shared : fs.latestTree = some latest
  reported : ∀ p ∈ latest.paths, synced p = true ∧ relOf p = p
  archived : ∀ old, fs.getTree (buildTree sha256 disk.dir).treeHash = some old →
    Hashable old ∧ treeHash sha256 old = (buildTree sha256 disk.dir).treeHash
  free : ∀ old, fs.getTree (buildTree sha256 disk.dir).treeHash = some old →
    sha256 (treePreimage old) = sha256 (treePreimage (buildTree sha256 disk.dir)) →
    treePreimage old = treePreimage (buildTree sha256 disk.dir)

section
variable {sha256 : Bytes → Digest} {env : PullEnv} {requester : String} {disk : Disk} {fs : ServerFs}
  {latest : FileTree}

/-- A tree the server knows by the client's hash has the client's paths. -/
theorem StartUp.known (h : StartUp sha256 env disk fs latest)
    (hold : fs.getTree (buildTree sha256 disk.dir).treeHash = some old) :
    p ∈ old.paths ↔ p ∈ (buildTree sha256 disk.dir).paths := by
  obtain ⟨hhash, hname⟩ := h.archived old hold
  refine paths_eq_of_preimage hhash (buildTree_hashable sha256 disk.dir) (h.free old hold ?_)
  exact Digest.hex_inj (hname.trans (buildTree_treeHash sha256 disk.dir))

theorem StartUp.pushed (h : StartUp sha256 env disk fs latest)
    (hsync : initialSync sha256 env requester accepted disk fs = some (disk', fs')) :
    ∃ (pulled : Disk) (removed : List String), Pulled (withServer fs env) requester latest
        (requestDiff fs (buildTree sha256 disk.dir).treeHash).changed disk pulled ∧
      (∀ k ∈ removed, k ∉ latest.paths ∧ relOf k = k) ∧
      ∃ new, fs'.latestTree = some new ∧ ∀ p, p ∈ new.paths ↔
        synced p = true ∧ ∃ k, pulled.IsFile k ∧ k ∉ removed ∧ relOf k = p := by
  obtain ⟨ready, hpull, hpush⟩ := Option.bind_eq_some_iff.mp hsync
  have htree : (requestDiff fs (buildTree sha256 disk.dir).treeHash).tree = some latest := h.shared
  simp only [initialPull, htree] at hpull
  obtain ⟨pulled, hpulled, rfl⟩ := Option.map_eq_some_iff.mp hpull
  refine ⟨pulled, (requestDiff fs (buildTree sha256 disk.dir).treeHash).removed,
    pullPaths_pulled h.real hpulled, fun k hk => ?_, _, syncPush_latest hpush, ?_⟩
  · simp only [requestDiff, Session.diffResult, h.shared] at hk
    obtain ⟨⟨old, hold, hin⟩, hnot⟩ := (ServerFs.mem_removed _ _).mp hk
    obtain ⟨-, key, -, -, -, rfl⟩ := (mem_paths_buildTree sha256).mp ((h.known hold).mp hin)
    exact ⟨hnot, relOf_relOf key⟩
  · intro p
    refine (mem_paths_buildTree sha256).trans (and_congr_right fun _ => ?_)
    constructor
    · rintro ⟨k, bytes, mtimeNs, hlookup, hrel⟩
      rw [lookup_removePaths] at hlookup
      split at hlookup
      · cases hlookup
      · exact ⟨k, ⟨bytes, mtimeNs, hlookup⟩, ‹_›, hrel⟩
    · rintro ⟨k, ⟨bytes, mtimeNs, hlookup⟩, hnot, hrel⟩
      refine ⟨k, bytes, mtimeNs, ?_, hrel⟩
      rw [lookup_removePaths, if_neg hnot, hlookup]

theorem fetch_withServer :
    (withServer fs env).fetch blobId ≠ none ↔ fs.objects blobId ≠ none ∨ env.fetch blobId ≠ none := by
  simp only [withServer, ServerFs.getObject, ne_eq, Option.or_eq_none_iff]
  tauto

end

/-- The shared tree of one file `a` with the byte `1`. -/
def sharedA : FileTree := buildTree Digest.sha256 ((∅ : ShareDir).insert "a" (.file [1] 0))

def newcomer : Disk := { dir := ∅, cache := fun _ => none }

def noPeers : PullEnv where
  symlinkView := false
  fetch := fun _ => none
  timestampMs := fun _ => 0
  mtimeNs := fun _ => 0
  fails := fun _ => false

theorem sharedA_startUp (objects : ServerFs) (h : ∀ name, objects.trees name = none) :
    StartUp Digest.sha256 noPeers newcomer (objects.saveTree sharedA) sharedA := by
  have hne : (buildTree Digest.sha256 newcomer.dir).treeHash ≠ sharedA.treeHash := by decide +kernel
  have hunknown : (objects.saveTree sharedA).getTree (buildTree Digest.sha256 newcomer.dir).treeHash =
      none := by
    have hname : (buildTree Digest.sha256 newcomer.dir).treeHash ≠ ServerFs.latestPath :=
      treeHash_ne_latest Digest.sha256 _
    rw [ServerFs.getTree_saveTree _ _ hname, if_neg hne, ServerFs.getTree, h, Option.bind_none]
  refine ⟨rfl, ServerFs.latestTree_saveTree _ _, by decide +kernel, ?_, ?_⟩
  · intro old hold
    rw [hunknown] at hold
    cases hold
  · intro old hold
    rw [hunknown] at hold
    cases hold

end Nsmt.System
