import Nsmt.Server.Concurrent

/-!
# Trees along a run

Trees arrive as `FILE_TREE` frames, among any other frames of any number of
sessions, and are archived under their hash. `Archive` is what every run keeps:
a tree file lies under the hash of what it holds, and the latest tree is also
archived under its own. With the patch law of `diff` this makes a pull land on
the latest tree, although trees pushed again overwrite an archived one that
differs in modification times.
-/

namespace Nsmt.Server

open Nsmt.Lib Nsmt.Core

/-- What the tree files of a store hold when all trees that arrive are among
`trees`. -/
structure Archive (trees : Set FileTree) (fs : ServerFs) : Prop where
  arrived : ∀ name t, fs.getTree name = some t → t ∈ trees
  named : ∀ name t, name ≠ ServerFs.latestPath → fs.getTree name = some t → name = t.treeHash
  latest : ∀ t, fs.latestTree = some t → fs.getTree t.treeHash = some t

theorem Archive.empty (trees : Set FileTree) (h : ∀ name, fs.trees name = none) :
    Archive trees fs := by
  have hget (name : String) (t : FileTree) : fs.getTree name ≠ some t := by
    simp [ServerFs.getTree, h]
  exact ⟨fun name t ht => absurd ht (hget name t), fun name t _ ht => absurd ht (hget name t),
    fun t ht => absurd ht (hget _ t)⟩

theorem Archive.saveTree (h : Archive trees fs) (ht : tree ∈ trees)
    (hne : tree.treeHash ≠ ServerFs.latestPath) : Archive trees (fs.saveTree tree) := by
  refine ⟨fun name t hget => ?_, fun name t hname hget => ?_, fun t hlatest => ?_⟩
  · rcases ServerFs.getTree_saveTree_cases hget with ⟨rfl, -⟩ | hold
    · exact ht
    · exact h.arrived name t hold
  · rcases ServerFs.getTree_saveTree_cases hget with ⟨rfl, hnames⟩ | hold
    · exact hnames.resolve_left hname
    · exact h.named name t hname hold
  · obtain rfl := Option.some.inj ((fs.latestTree_saveTree tree).symm.trans hlatest)
    rw [ServerFs.getTree_saveTree fs tree hne, if_pos rfl]

theorem Archive.of_trees (h : Archive trees fs) (htrees : fs'.trees = fs.trees) :
    Archive trees fs' := by
  have hget : fs'.getTree = fs.getTree := by
    funext name
    simp only [ServerFs.getTree, htrees]
  refine ⟨?_, ?_, ?_⟩
  · rw [hget]
    exact h.arrived
  · rw [hget]
    exact h.named
  · intro t
    rw [ServerFs.latestTree, hget]
    exact h.latest t

-- ---------------------------------------------------------------------------
-- Runs
-- ---------------------------------------------------------------------------

section
variable {ι : Type} [DecidableEq ι] {cfg : Config} {trees : Set FileTree}
  (hbuilt : ∀ t ∈ trees, BuiltTree cfg.sha256 t)

/-- A tree frame carries one of the `trees`. -/
def CarriesTreeOf (trees : Set FileTree) (e : Event ι) : Prop :=
  ∀ tree, e.frame = .fileTree tree → tree ∈ trees

include hbuilt

theorem step_trees {sys : Sessions ι} {e : Event ι} (he : CarriesTreeOf trees e) (dir : String) :
    (((sys.step cfg e).server.fs dir).trees = (sys.server.fs dir).trees) ∨
      ∃ tree ∈ trees,
        ((sys.step cfg e).server.fs dir).trees = ((sys.server.fs dir).saveTree tree).trees := by
  rw [Sessions.step_server]
  cases hready : sys.turn e.session with
  | failed => exact .inl rfl
  | panicked => exact .inl rfl
  | ready session =>
    obtain ⟨hstep, hdirs⟩ := handle_store cfg e.now sys.server session e.frame
    by_cases hdir : dir = sanitize session.userDomain
    · subst hdir
      rcases hstep.trees with hsame | ⟨tree, hframe, hsaved⟩
      · exact .inl hsame
      · refine .inr ⟨tree, he tree hframe, ?_⟩
        rw [(hbuilt tree (he tree hframe)).rehash] at hsaved
        exact congrArg ServerFs.trees hsaved
    · exact .inl (congrArg ServerFs.trees (hdirs dir hdir))

theorem hash_ne_latest (ht : tree ∈ trees) : tree.treeHash ≠ ServerFs.latestPath := by
  rw [(hbuilt tree ht).hash]
  exact treeHash_ne_latest cfg.sha256 tree

theorem step_archive {sys : Sessions ι} {e : Event ι} (he : CarriesTreeOf trees e)
    (h : Archive trees (sys.server.fs dir)) : Archive trees ((sys.step cfg e).server.fs dir) := by
  rcases step_trees hbuilt he dir with hsame | ⟨tree, htree, hsaved⟩
  · exact h.of_trees hsame
  · exact (h.saveTree htree (hash_ne_latest hbuilt htree)).of_trees hsaved

theorem step_getTree {sys : Sessions ι} {e : Event ι} (he : CarriesTreeOf trees e) {name : String}
    (h : (sys.server.fs dir).getTree name ≠ none) :
    ((sys.step cfg e).server.fs dir).getTree name ≠ none := by
  rcases step_trees hbuilt he dir with hsame | ⟨tree, htree, hsaved⟩
  · rwa [ServerFs.getTree, hsame]
  · rw [ServerFs.getTree, hsaved, ← ServerFs.getTree]
    by_cases hname : name = ServerFs.latestPath
    · subst hname
      rw [← ServerFs.latestTree, ServerFs.latestTree_saveTree]
      simp
    · rw [ServerFs.getTree_saveTree _ tree hname]
      split
      · simp
      · exact h

theorem run_archive {sys : Sessions ι} {events : List (Event ι)}
    (he : ∀ e ∈ events, CarriesTreeOf trees e) (h : Archive trees (sys.server.fs dir)) :
    Archive trees ((run (Sessions.step cfg) sys events).server.fs dir) := by
  have hstep (s : Sessions ι) (e : Event ι) (hs : Archive trees (s.server.fs dir))
      (hc : CarriesTreeOf trees e) : Archive trees ((s.step cfg e).server.fs dir) :=
    step_archive hbuilt hc hs
  exact run_invariant (fun s : Sessions ι => Archive trees (s.server.fs dir)) hstep h
    (AllSteps.of_forall fun e hmem _ => he e hmem)

theorem run_getTree {sys : Sessions ι} {events : List (Event ι)}
    (he : ∀ e ∈ events, CarriesTreeOf trees e) (h : (sys.server.fs dir).getTree name ≠ none) :
    ((run (Sessions.step cfg) sys events).server.fs dir).getTree name ≠ none := by
  have hstep (s : Sessions ι) (e : Event ι) (hs : (s.server.fs dir).getTree name ≠ none)
      (hc : CarriesTreeOf trees e) : ((s.step cfg e).server.fs dir).getTree name ≠ none :=
    step_getTree hbuilt hc hs
  exact run_invariant (fun s : Sessions ι => (s.server.fs dir).getTree name ≠ none) hstep h
    (AllSteps.of_forall fun e hmem _ => he e hmem)

/-- The frame that carries a tree to a session of the store saves it there. -/
theorem step_saves {sys : Sessions ι} {e : Event ι} (hframe : e.frame = .fileTree tree)
    (htree : tree ∈ trees) (hready : sys.turn e.session = .ready session)
    (hdir : sanitize session.userDomain = dir) :
    (sys.step cfg e).server.fs dir = (sys.server.fs dir).saveTree tree := by
  subst hdir
  have hb := hbuilt tree htree
  rw [Sessions.step_server, hready, hframe]
  simp only [Turn.handle, Session.handle, Session.onFileTree, hb.loggable, if_true, Session.stay,
    setStore_fs_self, hb.rehash]
  rfl

/-- The two trees read for a hash that was saved earlier. -/
theorem run_saved {sys : Sessions ι} {before after : List (Event ι)} {e : Event ι}
    (hempty : ∀ name, (sys.server.fs dir).trees name = none)
    (hall : ∀ x ∈ before ++ e :: after, CarriesTreeOf trees x)
    (hframe : e.frame = .fileTree tree)
    (hready : (run (Sessions.step cfg) sys before).turn e.session = .ready session)
    (hdir : sanitize session.userDomain = dir) :
    ∃ old latest,
      ((run (Sessions.step cfg) sys (before ++ e :: after)).server.fs dir).getTree tree.treeHash =
        some old ∧ old ∈ trees ∧ old.treeHash = tree.treeHash ∧
      ((run (Sessions.step cfg) sys (before ++ e :: after)).server.fs dir).latestTree =
        some latest ∧ latest ∈ trees ∧ (tree.treeHash = latest.treeHash → old = latest) := by
  have harch := run_archive hbuilt hall (Archive.empty trees hempty)
  have htree := hall e (by simp) tree hframe
  have hafter : ∀ x ∈ after, CarriesTreeOf trees x := fun x hx => hall x (by simp [hx])
  have hne := hash_ne_latest hbuilt htree
  have hkeeps (name : String)
      (hname : ((((run (Sessions.step cfg) sys before).step cfg e).server.fs dir).getTree name ≠ none)) :
      ((run (Sessions.step cfg) sys (before ++ e :: after)).server.fs dir).getTree name ≠ none := by
    rw [run_append, run_cons]
    exact run_getTree hbuilt hafter hname
  rw [step_saves hbuilt hframe htree hready hdir] at hkeeps
  obtain ⟨old, hold⟩ := Option.ne_none_iff_exists'.mp (hkeeps tree.treeHash (by
    rw [ServerFs.getTree_saveTree _ tree hne, if_pos rfl]
    simp))
  obtain ⟨latest, hlatest⟩ := Option.ne_none_iff_exists'.mp (hkeeps ServerFs.latestPath (by
    rw [← ServerFs.latestTree, ServerFs.latestTree_saveTree]
    simp))
  refine ⟨old, latest, hold, harch.arrived _ _ hold, (harch.named _ _ hne hold).symm, hlatest,
    harch.arrived _ _ hlatest, fun heq => ?_⟩
  have hself := harch.latest latest hlatest
  rw [← heq, hold] at hself
  exact Option.some.inj hself

end

/-- A tree of one empty file. -/
def emptyFileTree (path : String) (mtimeNs : Int) : FileTree :=
  let entries := [⟨path, objectId Digest.sha256 [], 0o644, 0, mtimeNs⟩]
  { treeHash := treeHash Digest.sha256 { treeHash := "", entries }, entries }

theorem emptyFileTree_preimage (path : String) (mtimeNs : Int) :
    treePreimage (emptyFileTree path mtimeNs) =
      utf8 path ++ utf8 (objectId Digest.sha256 []) ++ le 2 0o644 ++ le 8 0 := by
  simp [treePreimage, sortedEntries, emptyFileTree, FileTreeEntry.hashed]

theorem emptyFileTree_built (path : String) (mtimeNs : Int) :
    BuiltTree Digest.sha256 (emptyFileTree path mtimeNs) where
  shape :=
    { nodup := by simp [emptyFileTree]
      blob := by simp [emptyFileTree, objectId, Digest.blobText]
      mode := by simp [emptyFileTree]
      size := by simp [emptyFileTree] }
  hash := rfl

end Nsmt.Server
