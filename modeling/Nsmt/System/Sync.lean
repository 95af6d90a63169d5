import Nsmt.System.Startup

/-!
# Clients that push and pull

Any number of clients of one tenant in the loop of `fs_mode`: users write and
delete files, clients push their whole tree and pull the latest one. A push says
nothing about the tree it is based on, so one that misses a path of the latest
tree takes it from the server, and the next pull takes it from its owner.
`run_keeps` says that nothing else loses a file.
-/

namespace Nsmt.System

open Nsmt.Lib Nsmt.Core Nsmt.Server Nsmt.Client

structure SyncClient where
  disk : Disk
  localTree : FileTree

structure SyncSystem (ι : Type) where
  fs : ServerFs
  client : ι → SyncClient

/-- `peer` says which client, if any, is asked for an object the server lacks. -/
inductive SyncAction (ι : Type)
  | write (i : ι) (path : String) (bytes : Bytes) (mtimeNs : Int)
  | delete (i : ι) (path : String)
  | push (i : ι) (accepted : FileTreeEntry → Bool)
  | pull (i : ι) (env : PullEnv) (peer : String → Option ι)

namespace SyncSystem

variable {ι : Type} [DecidableEq ι] (sha256 : Bytes → Digest) (who : ι → String)

def start (ι : Type) (sha256 : Bytes → Digest) : SyncSystem ι where
  fs := .empty
  client := fun _ =>
    { disk := { dir := ∅, cache := fun _ => none }, localTree := buildTree sha256 ∅ }

/-- What a pull of this system can fetch: from the server, or from the cache of
a peer. -/
def pullEnv (s : SyncSystem ι) (env : PullEnv) (peer : String → Option ι) : PullEnv :=
  withServer s.fs
    { env with fetch := fun blobId => (peer blobId).bind fun j => (s.client j).disk.cache blobId }

def setClient (s : SyncSystem ι) (i : ι) (client : SyncClient) : SyncSystem ι :=
  { s with client := Function.update s.client i client }

/-- A push or a pull that ends in an error changes nothing here. -/
def step (s : SyncSystem ι) : SyncAction ι → SyncSystem ι
  | .write i path bytes mtimeNs =>
    s.setClient i { s.client i with disk := (s.client i).disk.writeFile path bytes mtimeNs }
  | .delete i path => s.setClient i { s.client i with disk := removePaths [path] (s.client i).disk }
  | .push i accepted =>
    let tree := buildTree sha256 (s.client i).disk.dir
    match syncPush sha256 accepted tree (s.client i).disk s.fs with
    | none => s
    | some (disk, fs) => { s with fs }.setClient i { disk, localTree := tree }
  | .pull i env peer =>
    let diff := requestDiff s.fs (s.client i).localTree.treeHash
    if diff.changed = [] ∧ diff.removed = [] then s
    else
      match pull sha256 (s.pullEnv env peer) (who i) diff (s.client i).disk with
      | none => s
      | some disk => s.setClient i { disk, localTree := buildTree sha256 disk.dir }

/-- The file `p` with the bytes `c` is not touched by a user, paths are written
without backslashes, clients hold real files, and whoever pushes has every path
of the latest tree in the tree it built last. -/
def Careful (p : String) (c : Bytes) (contents : Set Bytes) (s : SyncSystem ι) : SyncAction ι → Prop
  | .write _ path bytes _ => relOf path = path ∧ bytes ∈ contents ∧ (path = p → bytes = c)
  | .delete _ path => path ≠ p
  | .push i _ => ∀ latest, s.fs.latestTree = some latest →
    ∀ q ∈ latest.paths, q ∈ (s.client i).localTree.paths
  | .pull _ env _ => env.symlinkView = false

end SyncSystem

-- ---------------------------------------------------------------------------
-- One client
-- ---------------------------------------------------------------------------

section
variable (sha256 : Bytes → Digest) (p : String) (c : Bytes) (contents : Set Bytes)

/-- The bytes are known and the name is their hash. -/
def Named (blobId : String) (bytes : Bytes) : Prop :=
  bytes ∈ contents ∧ objectId sha256 bytes = blobId

/-- A share directory of real files in which `p` can only hold `c`. -/
structure DiskOk (disk : Disk) : Prop where
  file : ∀ path bytes mtimeNs, disk.dir.lookup path = some (.file bytes mtimeNs) →
    relOf path = path ∧ bytes ∈ contents ∧ (path = p → bytes = c)
  noLink : ∀ path, ¬ disk.IsLink path
  cache : ∀ blobId bytes, disk.cache blobId = some bytes → Named sha256 contents blobId bytes

/-- The entries of a tree: `p` can only name `c`. -/
def TreeOk (tree : FileTree) : Prop :=
  ∀ e ∈ tree.entries, relOf e.path = e.path ∧ (e.path = p → e.blobId = objectId sha256 c)

end

section
variable {sha256 : Bytes → Digest} {p : String} {c : Bytes} {contents : Set Bytes} {disk : Disk}

theorem DiskOk.writeFile (h : DiskOk sha256 p c contents disk) (hrel : relOf path = path)
    (hbytes : bytes ∈ contents) (hp : path = p → bytes = c) (mtimeNs : Int) :
    DiskOk sha256 p c contents (disk.writeFile path bytes mtimeNs) := by
  refine ⟨fun q content m hq => ?_, fun q => Disk.isLink_writeFile.not.mpr (h.noLink q), ?_⟩
  · rw [Disk.writeFile_file (h.noLink path)] at hq
    by_cases hqp : q = path
    · subst hqp
      rw [AList.lookup_insert] at hq
      cases hq
      exact ⟨hrel, hbytes, hp⟩
    · rw [AList.lookup_insert_ne hqp] at hq
      exact h.file q content m hq
  · rw [Disk.writeFile_file (h.noLink path)]
    exact h.cache

theorem DiskOk.read (h : DiskOk sha256 p c contents disk) (hread : disk.read path = some bytes) :
    ∃ mtimeNs, disk.dir.lookup path = some (.file bytes mtimeNs) := by
  unfold Disk.read at hread
  split at hread
  · cases hread
  · rename_i content m hlookup
    cases hread
    exact ⟨m, hlookup⟩
  · rename_i blobId hlookup
    exact absurd ⟨blobId, hlookup⟩ (h.noLink path)

theorem DiskOk.ensureObjectLocal (h : DiskOk sha256 p c contents disk)
    (hnamed : Named sha256 contents blobId bytes) :
    DiskOk sha256 p c contents { disk with cache := ensureObjectLocal disk.cache blobId bytes } := by
  refine ⟨h.file, h.noLink, fun b content hb => ?_⟩
  rcases ensureObjectLocal_eq_some hb with hold | ⟨rfl, rfl⟩
  · exact h.cache b content hold
  · exact hnamed

theorem DiskOk.removePaths (h : DiskOk sha256 p c contents disk) (removed : List String) :
    DiskOk sha256 p c contents (removePaths removed disk) := by
  refine ⟨fun path bytes m hlookup => ?_, fun path hlink => ?_, h.cache⟩
  · rw [lookup_removePaths] at hlookup
    split at hlookup
    · cases hlookup
    · exact h.file path bytes m hlookup
  · obtain ⟨blobId, hlookup⟩ := hlink
    rw [lookup_removePaths] at hlookup
    split at hlookup
    · cases hlookup
    · exact h.noLink path ⟨blobId, hlookup⟩

/-- One changed path keeps the directory in order, if what is fetched is named
right and no conflict copy bears the name `p`. -/
theorem DiskOk.pullPath (hreal : env.symlinkView = false)
    (hfetch : ∀ b bytes, env.fetch b = some bytes → Named sha256 contents b bytes)
    (hfree : ∀ bytes ∈ contents, objectId sha256 bytes = objectId sha256 c → bytes = c)
    (hnames : ∀ path timestampMs, conflictPath requester path timestampMs ≠ p)
    (htree : TreeOk sha256 p c remote) (h : DiskOk sha256 p c contents disk)
    (hpull : pullPath sha256 env requester remote disk q = some disk') :
    DiskOk sha256 p c contents disk' := by
  unfold Client.pullPath at hpull
  split at hpull
  · obtain rfl := Option.some.inj hpull
    exact h
  · rename_i e hentry
    obtain ⟨hmem, -⟩ := FileTree.entryAt_mem hentry
    obtain ⟨hrel, hblob⟩ := htree e hmem
    split at hpull
    · obtain rfl := Option.some.inj hpull
      exact h
    · rename_i bytes hbytes
      obtain ⟨mid, hmid, rfl⟩ := Option.map_eq_some_iff.mp hpull
      have hnamed := hfetch _ _ hbytes
      have hkeep : DiskOk sha256 p c contents (keepConflict sha256 env requester disk e) := by
        unfold keepConflict
        split
        · exact h
        · rename_i localBytes hread
          simp only
          split
          · obtain ⟨m, hlookup⟩ := h.read hread
            exact h.writeFile (relOf_conflictPath requester _ hrel) (h.file _ _ _ hlookup).2.1
              (fun heq => absurd heq (hnames _ _)) _
          · exact h
      have hwrite := materialize_real hreal hmid
      rw [hwrite]
      refine (hkeep.writeFile hrel hnamed.1 (fun hp => ?_) _).ensureObjectLocal hnamed
      exact hfree bytes hnamed.1 (hnamed.2.trans (hblob hp))

theorem DiskOk.treeOk (h : DiskOk sha256 p c contents disk) :
    TreeOk sha256 p c (buildTree sha256 disk.dir) := by
  intro e he
  obtain ⟨path, bytes, m, hlookup, -, rfl⟩ := (mem_buildTree sha256).mp he
  obtain ⟨hrel, -, hp⟩ := h.file path bytes m hlookup
  refine ⟨relOf_relOf path, fun heq => ?_⟩
  rw [hp (hrel.symm.trans heq)]

theorem DiskOk.mem_buildTree (h : DiskOk sha256 p c contents disk) (hsync : synced p = true) :
    p ∈ (buildTree sha256 disk.dir).paths ↔ disk.IsFile p := by
  rw [mem_paths_buildTree]
  constructor
  · rintro ⟨-, path, bytes, m, hlookup, rfl⟩
    rw [(h.file path bytes m hlookup).1]
    exact ⟨bytes, m, hlookup⟩
  · rintro ⟨bytes, m, hlookup⟩
    exact ⟨hsync, p, bytes, m, hlookup, (h.file p bytes m hlookup).1⟩

/-- The store of a push, whether or not the upload is accepted. -/
theorem named_putObject {fs : ServerFs}
    (h : ∀ b bytes, fs.objects b = some bytes → Named sha256 contents b bytes)
    (hnamed : Named sha256 contents blobId bytes) (accepted : Bool) :
    (if accepted then fs.putObject blobId bytes else fs).trees = fs.trees ∧
    ∀ b content, (if accepted then fs.putObject blobId bytes else fs).objects b = some content →
      Named sha256 contents b content := by
  cases accepted with
  | false => exact ⟨rfl, h⟩
  | true =>
    refine ⟨ServerFs.putObject_trees _ _ _, fun b content hb => ?_⟩
    rw [if_pos rfl] at hb
    by_cases heq : b = blobId
    · subst heq
      rw [ServerFs.putObject_self] at hb
      cases hold : fs.objects b with
      | none =>
        rw [hold] at hb
        cases hb
        exact hnamed
      | some old =>
        rw [hold] at hb
        cases hb
        exact h b old hold
    · rw [ServerFs.putObject_ne _ _ heq] at hb
      exact h b content hb

theorem DiskOk.syncPush (h : DiskOk sha256 p c contents disk)
    (hobjects : ∀ b bytes, fs.objects b = some bytes → Named sha256 contents b bytes)
    (accepted : FileTreeEntry → Bool) :
    ∃ disk' fs', syncPush sha256 accepted (buildTree sha256 disk.dir) disk fs = some (disk', fs') ∧
      disk'.dir = disk.dir ∧ DiskOk sha256 p c contents disk' ∧
      fs'.trees = (fs.saveTree (buildTree sha256 disk.dir)).trees ∧
      ∀ b bytes, fs'.objects b = some bytes → Named sha256 contents b bytes := by
  let good (state : Disk × ServerFs) : Prop :=
    state.1.dir = disk.dir ∧ DiskOk sha256 p c contents state.1 ∧ state.2.trees = fs.trees ∧
      ∀ b bytes, state.2.objects b = some bytes → Named sha256 contents b bytes
  have hentry : ∀ state, ∀ e ∈ (buildTree sha256 disk.dir).entries, good state →
      ∃ state', pushEntry accepted state e = some state' ∧ good state' := by
    rintro ⟨d, f⟩ e he ⟨hdir, hd, htrees, hf⟩
    obtain ⟨path, bytes, m, hlookup, -, hee⟩ := (Client.mem_buildTree sha256).mp he
    have hblob : e.blobId = objectId sha256 bytes := by rw [hee]
    obtain ⟨hrel, hbytes, -⟩ := h.file path bytes m hlookup
    cases hcache : d.cache e.blobId with
    | some b =>
      obtain ⟨hkeep, hnamed⟩ := named_putObject hf (hd.cache _ _ hcache) (accepted e)
      exact ⟨(d, if accepted e then f.putObject e.blobId b else f),
        by simp only [pushEntry, hcache], hdir, hd, hkeep.trans htrees, hnamed⟩
    | none =>
      have hread : d.read e.path = some bytes := by
        rw [Disk.read, show e.path = path by rw [hee, hrel], hdir, hlookup]
      have hmine : Named sha256 contents e.blobId bytes := ⟨hbytes, hblob.symm⟩
      obtain ⟨hkeep, hnamed⟩ := named_putObject hf hmine (accepted e)
      exact ⟨({ d with cache := Client.ensureObjectLocal d.cache e.blobId bytes },
          if accepted e then f.putObject e.blobId bytes else f),
        by simp only [pushEntry, hcache, hread, Option.map_some], hdir,
        hd.ensureObjectLocal hmine, hkeep.trans htrees, hnamed⟩
  obtain ⟨⟨disk', fs'⟩, hfold, hdir, hdisk, htrees, hnamed⟩ :=
    foldlM_succeeds (s := (disk, fs)) good hentry ⟨rfl, h, rfl, hobjects⟩
  refine ⟨disk', fs'.saveTree (buildTree sha256 disk.dir),
    by rw [System.syncPush, hfold]; rfl, hdir, hdisk, ?_, hnamed⟩
  simp only [ServerFs.saveTree, ServerFs.writeTree, show fs'.trees = fs.trees from htrees]

end

-- ---------------------------------------------------------------------------
-- All clients and the server
-- ---------------------------------------------------------------------------

namespace SyncSystem

/-- What careful steps keep. A tree that once had `p` is no danger to a client
that pulls against it: the latest tree has `p` as well. -/
structure Kept (sha256 : Bytes → Digest) (p : String) (c : Bytes) (contents : Set Bytes)
    (s : SyncSystem ι) : Prop where
  disk : ∀ i, DiskOk sha256 p c contents (s.client i).disk
  localTree : ∀ i, p ∈ (s.client i).localTree.paths → (s.client i).disk.IsFile p
  tree : ∀ name t, s.fs.getTree name = some t → TreeOk sha256 p c t
  latest : ∀ name t, s.fs.getTree name = some t → p ∈ t.paths →
    ∃ latest, s.fs.latestTree = some latest ∧ p ∈ latest.paths
  objects : ∀ b bytes, s.fs.objects b = some bytes → Named sha256 contents b bytes

/-- The latest tree has `p`. -/
def Shared (p : String) (s : SyncSystem ι) : Prop :=
  ∃ latest, s.fs.latestTree = some latest ∧ p ∈ latest.paths

section
variable {ι : Type} [DecidableEq ι] {sha256 : Bytes → Digest} {who : ι → String} {p : String}
  {c : Bytes} {contents : Set Bytes} {s : SyncSystem ι}

@[simp] theorem setClient_self (s : SyncSystem ι) (i : ι) (client : SyncClient) :
    (s.setClient i client).client i = client := Function.update_self ..

theorem setClient_ne (s : SyncSystem ι) (client : SyncClient) (h : j ≠ i) :
    (s.setClient i client).client j = s.client j := Function.update_of_ne h ..

/-- A step at one client that leaves the server alone. -/
theorem Kept.setClient {client : SyncClient} (h : Kept sha256 p c contents s)
    (hdisk : DiskOk sha256 p c contents client.disk)
    (hlocal : p ∈ client.localTree.paths → client.disk.IsFile p) (i : ι) :
    Kept sha256 p c contents (s.setClient i client) := by
  refine ⟨fun j => ?_, fun j => ?_, h.tree, h.latest, h.objects⟩
  · by_cases hj : j = i
    · subst hj
      rwa [setClient_self]
    · rw [setClient_ne s client hj]
      exact h.disk j
  · by_cases hj : j = i
    · subst hj
      rwa [setClient_self]
    · rw [setClient_ne s client hj]
      exact h.localTree j

theorem isFile_setClient {client : SyncClient} (h : (s.client i).disk.IsFile p → client.disk.IsFile p)
    (j : ι) (hj : (s.client j).disk.IsFile p) : ((s.setClient i client).client j).disk.IsFile p := by
  by_cases hji : j = i
  · subst hji
    rw [setClient_self]
    exact h hj
  · rwa [setClient_ne _ _ hji]

theorem getTree_congr {fs fs' : ServerFs} (h : fs'.trees = fs.trees) (name : String) :
    fs'.getTree name = fs.getTree name := by
  rw [ServerFs.getTree, ServerFs.getTree, h]

theorem step_push (who : ι → String) (h : Kept sha256 p c contents s) (i : ι)
    (accepted : FileTreeEntry → Bool) :
    ∃ disk fs, s.step sha256 who (.push i accepted) = { s with fs := fs }.setClient i
        { disk := disk, localTree := buildTree sha256 (s.client i).disk.dir } ∧
      disk.dir = (s.client i).disk.dir ∧ DiskOk sha256 p c contents disk ∧
      fs.trees = (s.fs.saveTree (buildTree sha256 (s.client i).disk.dir)).trees ∧
      ∀ b bytes, fs.objects b = some bytes → Named sha256 contents b bytes := by
  obtain ⟨disk, fs, hpush, hrest⟩ := (h.disk i).syncPush h.objects accepted
  exact ⟨disk, fs, by simp only [step, hpush], hrest⟩

omit [DecidableEq ι] in
theorem Kept.not_removed (h : Kept sha256 p c contents s) (oldTree : String) :
    p ∉ (requestDiff s.fs oldTree).removed := by
  intro hremoved
  simp only [requestDiff, Session.diffResult] at hremoved
  cases hlatest : s.fs.latestTree with
  | none =>
    rw [hlatest, ServerFs.mem_removed_none] at hremoved
    obtain ⟨old, hold, hp⟩ := hremoved
    obtain ⟨latest, hsome, -⟩ := h.latest _ old hold hp
    rw [hlatest] at hsome
    cases hsome
  | some latest =>
    rw [hlatest, ServerFs.mem_removed] at hremoved
    obtain ⟨⟨old, hold, hp⟩, hnot⟩ := hremoved
    obtain ⟨latest', hsome, hmem⟩ := h.latest _ old hold hp
    rw [hlatest] at hsome
    obtain rfl := Option.some.inj hsome
    exact hnot hmem

omit [DecidableEq ι] in
theorem Kept.pullEnv_named (h : Kept sha256 p c contents s) {env : PullEnv} {peer : String → Option ι}
    (hfetch : (s.pullEnv env peer).fetch b = some bytes) : Named sha256 contents b bytes := by
  simp only [pullEnv, withServer, ServerFs.getObject, Option.or_eq_some_iff] at hfetch
  rcases hfetch with hserver | ⟨-, hpeer⟩
  · exact h.objects b bytes hserver
  · obtain ⟨j, -, hcache⟩ := Option.bind_eq_some_iff.mp hpeer
    exact (h.disk j).cache b bytes hcache

omit [DecidableEq ι] in
/-- The disk behind a pull, which has lost no file of the path `p`. -/
theorem Kept.pull {disk : Disk} {env : PullEnv} (h : Kept sha256 p c contents s)
    (hreal : env.symlinkView = false)
    (hfree : ∀ bytes ∈ contents, objectId sha256 bytes = objectId sha256 c → bytes = c)
    (hnames : ∀ i path timestampMs, conflictPath (who i) path timestampMs ≠ p)
    (hpull : pull sha256 (s.pullEnv env peer) (who i)
      (requestDiff s.fs (s.client i).localTree.treeHash) (s.client i).disk = some disk) :
    DiskOk sha256 p c contents disk ∧ ((s.client i).disk.IsFile p → disk.IsFile p) := by
  have hnot := h.not_removed (s.client i).localTree.treeHash
  have hview : (s.pullEnv env peer).symlinkView = false := hreal
  have hremove (d : Disk) (hd : DiskOk sha256 p c contents d) (removed : List String)
      (hnot : p ∉ removed) :
      DiskOk sha256 p c contents (removePaths removed d) ∧
        (d.IsFile p → (removePaths removed d).IsFile p) := by
    refine ⟨hd.removePaths removed, ?_⟩
    rintro ⟨bytes, m, hlookup⟩
    exact ⟨bytes, m, by rw [lookup_removePaths, if_neg hnot, hlookup]⟩
  unfold Client.pull at hpull
  split at hpull
  · obtain rfl := Option.some.inj hpull
    exact hremove _ (h.disk i) _ hnot
  · rename_i remote htree
    obtain ⟨mid, hmid, rfl⟩ := Option.map_eq_some_iff.mp hpull
    have hmidOk : DiskOk sha256 p c contents mid := by
      refine foldlM_invariant (DiskOk sha256 p c contents) (fun d q _ d' hd hd' => ?_) (h.disk i) hmid
      exact hd.pullPath hview (fun _ _ => h.pullEnv_named) hfree (hnames i) (h.tree _ remote htree) hd'
    obtain ⟨hok, hkeeps⟩ := hremove mid hmidOk _ hnot
    exact ⟨hok, fun hfile => hkeeps ((pullPaths_pulled hview hmid).keeps p hfile)⟩

theorem step_pull (h : Kept sha256 p c contents s) {env : PullEnv} (hreal : env.symlinkView = false)
    (hfree : ∀ bytes ∈ contents, objectId sha256 bytes = objectId sha256 c → bytes = c)
    (hnames : ∀ i path timestampMs, conflictPath (who i) path timestampMs ≠ p) (i : ι)
    (peer : String → Option ι) :
    s.step sha256 who (.pull i env peer) = s ∨
    ∃ disk, DiskOk sha256 p c contents disk ∧ ((s.client i).disk.IsFile p → disk.IsFile p) ∧
      s.step sha256 who (.pull i env peer) =
        s.setClient i { disk := disk, localTree := buildTree sha256 disk.dir } := by
  simp only [step]
  split
  · exact .inl rfl
  · split
    · exact .inl rfl
    · rename_i disk hpull
      obtain ⟨hok, hkeeps⟩ := h.pull hreal hfree hnames hpull
      exact .inr ⟨disk, hok, hkeeps, rfl⟩

/-- A user's step keeps the directory in order and `p` in it. -/
theorem step_user (who : ι → String) (h : Kept sha256 p c contents s)
    (hcareful : Careful p c contents s action)
    (huser : (∃ i path bytes m, action = .write i path bytes m) ∨ ∃ i path, action = .delete i path) :
    ∃ i disk, s.step sha256 who action = s.setClient i { s.client i with disk := disk } ∧
      DiskOk sha256 p c contents disk ∧ ((s.client i).disk.IsFile p → disk.IsFile p) := by
  obtain ⟨i, path, bytes, m, rfl⟩ | ⟨i, path, rfl⟩ := huser
  · obtain ⟨hrel, hbytes, hp⟩ := hcareful
    exact ⟨i, _, rfl, (h.disk i).writeFile hrel hbytes hp m,
      fun hfile => Disk.isFile_writeFile.mpr (.inl hfile)⟩
  · refine ⟨i, _, rfl, (h.disk i).removePaths [path], ?_⟩
    rintro ⟨bytes, m, hlookup⟩
    have hne : p ∉ [path] := by
      rw [List.mem_singleton]
      exact Ne.symm hcareful
    exact ⟨bytes, m, by rw [lookup_removePaths, if_neg hne, hlookup]⟩

omit [DecidableEq ι] in
theorem kept_start : Kept sha256 p c contents (start ι sha256) := by
  have hempty : (buildTree sha256 ∅).paths = [] := rfl
  have hdisk : DiskOk sha256 p c contents { dir := ∅, cache := fun _ => none } := by
    refine ⟨fun path bytes m h => ?_, ?_, fun b bytes h => ?_⟩
    · cases h
    · rintro path ⟨blobId, h⟩
      cases h
    · cases h
  refine ⟨fun _ => hdisk, fun i h => ?_, fun name t h => ?_, fun name t h => ?_, fun b bytes h => ?_⟩
  · rw [start, hempty] at h
    cases h
  · cases h
  · cases h
  · cases h

theorem push_shares (who : ι → String) (hsync : synced p = true) (h : Kept sha256 p c contents s)
    (hfile : (s.client i).disk.IsFile p) (accepted : FileTreeEntry → Bool) :
    (s.step sha256 who (.push i accepted)).Shared p := by
  obtain ⟨disk, fs, heq, -, -, htrees, -⟩ := step_push who h i accepted
  rw [heq]
  refine ⟨_, (getTree_congr htrees _).trans (ServerFs.latestTree_saveTree s.fs _), ?_⟩
  exact ((h.disk i).mem_buildTree hsync).mpr hfile

/-- The pusher knows the latest tree, and what it pushes has `p` if it has. -/
theorem kept_push (who : ι → String) (hsync : synced p = true) (h : Kept sha256 p c contents s)
    (hcareful : Careful p c contents s (.push i accepted)) :
    Kept sha256 p c contents (s.step sha256 who (.push i accepted)) ∧
    (∀ j, (s.client j).disk.IsFile p →
      ((s.step sha256 who (.push i accepted)).client j).disk.IsFile p) ∧
    (s.Shared p → (s.step sha256 who (.push i accepted)).Shared p) := by
  obtain ⟨disk, fs, heq, hdir, hok, htrees, hobjects⟩ := step_push who h i accepted
  set tree := buildTree sha256 (s.client i).disk.dir with htree
  have hmine : p ∈ tree.paths ↔ (s.client i).disk.IsFile p := (h.disk i).mem_buildTree hsync
  have hfile : disk.IsFile p ↔ (s.client i).disk.IsFile p := by
    simp only [Disk.IsFile, hdir]
  have hlatest : fs.latestTree = some tree :=
    (getTree_congr htrees _).trans (ServerFs.latestTree_saveTree s.fs tree)
  -- The pusher knows the latest tree, so it has `p` if any tree does.
  have hshared (hany : s.Shared p) : p ∈ tree.paths := by
    obtain ⟨latest, hsome, hp⟩ := hany
    exact hmine.mpr (h.localTree i (hcareful latest hsome p hp))
  have hstored (name : String) (t : FileTree) (ht : fs.getTree name = some t) :
      t = tree ∨ s.fs.getTree name = some t := by
    rw [getTree_congr htrees] at ht
    exact (ServerFs.getTree_saveTree_cases ht).imp_left And.left
  rw [heq]
  refine ⟨⟨fun j => ?_, fun j => ?_, fun name t ht => ?_, fun name t ht hp => ?_, hobjects⟩,
    isFile_setClient (s := { s with fs := fs }) hfile.mpr, fun hany => ⟨tree, hlatest, hshared hany⟩⟩
  · by_cases hji : j = i
    · subst hji
      rwa [setClient_self]
    · rw [setClient_ne _ _ hji]
      exact h.disk j
  · by_cases hji : j = i
    · subst hji
      rw [setClient_self]
      exact fun hp => hfile.mpr (hmine.mp hp)
    · rw [setClient_ne _ _ hji]
      exact h.localTree j
  · rcases hstored name t ht with rfl | hold
    · exact (h.disk i).treeOk
    · exact h.tree name t hold
  · refine ⟨tree, hlatest, ?_⟩
    rcases hstored name t ht with rfl | hold
    · exact hp
    · exact hshared (h.latest name t hold hp)

section
variable (hsync : synced p = true)
  (hfree : ∀ bytes ∈ contents, objectId sha256 bytes = objectId sha256 c → bytes = c)
  (hnames : ∀ i path timestampMs, conflictPath (who i) path timestampMs ≠ p)
include hsync hfree hnames

/-- A careful step keeps the system in order, and with it `p` wherever a client
has it and in the latest tree. -/
theorem kept_step (h : Kept sha256 p c contents s) (hcareful : Careful p c contents s action) :
    Kept sha256 p c contents (s.step sha256 who action) ∧
    (∀ j, (s.client j).disk.IsFile p → ((s.step sha256 who action).client j).disk.IsFile p) ∧
    (s.Shared p → (s.step sha256 who action).Shared p) := by
  have huser (huser : (∃ i path bytes m, action = .write i path bytes m) ∨
      ∃ i path, action = .delete i path) :
      Kept sha256 p c contents (s.step sha256 who action) ∧
      (∀ j, (s.client j).disk.IsFile p → ((s.step sha256 who action).client j).disk.IsFile p) ∧
      (s.Shared p → (s.step sha256 who action).Shared p) := by
    obtain ⟨i, disk, heq, hok, hkeeps⟩ := step_user who h hcareful huser
    rw [heq]
    have hclient : Kept sha256 p c contents (s.setClient i { s.client i with disk := disk }) := by
      apply h.setClient
      · exact hok
      · exact fun hp => hkeeps (h.localTree i hp)
    exact ⟨hclient, isFile_setClient hkeeps, id⟩
  cases action with
  | write i path bytes m => exact huser (.inl ⟨i, path, bytes, m, rfl⟩)
  | delete i path => exact huser (.inr ⟨i, path, rfl⟩)
  | pull i env peer =>
    rcases step_pull h hcareful hfree hnames i peer with heq | ⟨disk, hok, hkeeps, heq⟩
    · rw [heq]
      exact ⟨h, fun _ => id, id⟩
    · rw [heq]
      exact ⟨h.setClient hok (fun hp => (hok.mem_buildTree hsync).mp hp) i, isFile_setClient hkeeps, id⟩
  | push i accepted => exact kept_push who hsync h hcareful

theorem kept_run (h : Kept sha256 p c contents s) {actions : List (SyncAction ι)}
    (hcareful : AllSteps (step sha256 who) (Careful p c contents) s actions) :
    Kept sha256 p c contents (run (step sha256 who) s actions) :=
  run_invariant (Kept sha256 p c contents)
    (fun _ _ hs ha => (kept_step hsync hfree hnames hs ha).1) h hcareful

theorem held_run (h : Kept sha256 p c contents s) (hfile : (s.client i).disk.IsFile p)
    {actions : List (SyncAction ι)}
    (hcareful : AllSteps (step sha256 who) (Careful p c contents) s actions) :
    ((run (step sha256 who) s actions).client i).disk.IsFile p := by
  refine (run_invariant (fun s => Kept sha256 p c contents s ∧ (s.client i).disk.IsFile p)
    (fun s a hs ha => ?_) ⟨h, hfile⟩ hcareful).2
  obtain ⟨hkept, hfiles, -⟩ := kept_step hsync hfree hnames hs.1 ha
  exact ⟨hkept, hfiles i hs.2⟩

theorem shared_run (h : Kept sha256 p c contents s) (hshared : s.Shared p)
    {actions : List (SyncAction ι)}
    (hcareful : AllSteps (step sha256 who) (Careful p c contents) s actions) :
    (run (step sha256 who) s actions).Shared p := by
  refine (run_invariant (fun s => Kept sha256 p c contents s ∧ s.Shared p)
    (fun s a hs ha => ?_) ⟨h, hshared⟩ hcareful).2
  obtain ⟨hkept, -, hshares⟩ := kept_step hsync hfree hnames hs.1 ha
  exact ⟨hkept, hshares hs.2⟩

end

end

/-- What the steps of the loop ask of the users alone. -/
def Untouched (p : String) (c : Bytes) : SyncAction ι → Prop
  | .write _ path bytes _ => path = p → bytes = c
  | .delete _ path => path ≠ p
  | .push _ _ | .pull _ _ _ => True

/-- Two clients `true` and `false`; the server always has the object. -/
def machine (i : Bool) : String := if i then "acme/m1/maka" else "acme/m2/maka"

def uploads (_ : FileTreeEntry) : Bool := true

def alone (_ : String) : Option Bool := none

theorem machine_conflictPath (i : Bool) (path : String) (timestampMs : Nat) :
    conflictPath (machine i) path timestampMs ≠ "a" := by
  intro h
  have hlen := length_conflictPath (machine i) path timestampMs
  have hone : "a".toList.length = 1 := by decide
  rw [h, hone] at hlen
  omega

theorem careful_push {s : SyncSystem ι} {i : ι} (h : ((s.fs.latestTree.map FileTree.paths).getD []).all
    (fun q => q ∈ (s.client i).localTree.paths) = true) :
    Careful p c contents s (.push i accepted) := by
  intro latest hlatest q hq
  rw [hlatest] at h
  simpa using List.all_eq_true.mp h q hq

end SyncSystem

end Nsmt.System
