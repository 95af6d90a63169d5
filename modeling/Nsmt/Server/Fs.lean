import Nsmt.Core.Messages
import Mathlib.Data.List.AList
import Mathlib.Logic.Function.Basic

/-!
# The server's file store

`ServerFs`: the objects, the directory of tree files and the directory of
partial uploads of one tenant. `latest.json` lies in the same directory as the
archived trees, so it is the tree file of the name `latest`.

`diff_patch` is the law of `ServerFs::diff`: replacing the changed paths by
their entries in the latest tree and dropping the removed ones turns the old
path-to-blob map into the latest one.
-/

namespace Nsmt.Server

open Nsmt.Lib Nsmt.Core

/-- What a tree file holds. `std::fs::write` truncates before it writes, and
the empty text is no JSON. -/
inductive TreeFile
  | truncated
  | json (tree : FileTree)
  deriving DecidableEq, Repr

def TreeFile.parse : TreeFile → Option FileTree
  | .truncated => none
  | .json tree => some tree

/-- The store below `server/<tenant>/`. Tree files and partial uploads are
named without their extensions `.json` and `.part`. -/
structure ServerFs where
  objects : String → Option Bytes
  trees : String → Option TreeFile
  tmp : String → Option Bytes

namespace ServerFs

def empty : ServerFs := { objects := fun _ => none, trees := fun _ => none, tmp := fun _ => none }

/-- `LocalObjectStore::put`: an object that exists is left alone. -/
def putObject (fs : ServerFs) (blobId : String) (bytes : Bytes) : ServerFs :=
  match fs.objects blobId with
  | some _ => fs
  | none => { fs with objects := Function.update fs.objects blobId (some bytes) }

def getObject (fs : ServerFs) (blobId : String) : Option Bytes := fs.objects blobId

def latestPath : String := "latest"

def writeTree (fs : ServerFs) (name : String) (file : TreeFile) : ServerFs :=
  { fs with trees := Function.update fs.trees name (some file) }

def saveTree (fs : ServerFs) (tree : FileTree) : ServerFs :=
  (fs.writeTree tree.treeHash (.json tree)).writeTree latestPath (.json tree)

def getTree (fs : ServerFs) (treeHash : String) : Option FileTree :=
  (fs.trees treeHash).bind TreeFile.parse

def latestTree (fs : ServerFs) : Option FileTree := fs.getTree latestPath

/-- `std::fs::remove_file` on a partial upload, errors ignored. -/
def removeTemp (fs : ServerFs) (tempPath : String) : ServerFs :=
  { fs with tmp := Function.update fs.tmp tempPath none }

/-- The partial upload opened with `create`, without truncation, and written at
an offset. -/
def writeTemp (fs : ServerFs) (tempPath : String) (file : Bytes) : ServerFs :=
  { fs with tmp := Function.update fs.tmp tempPath (some file) }

-- ---------------------------------------------------------------------------
-- Differences of two trees
-- ---------------------------------------------------------------------------

abbrev EntryMap := AList fun _ : String => FileTreeEntry

def oldMap (old : Option FileTree) : EntryMap :=
  match old with
  | some o => o.entries.foldl (fun m e => m.insert e.path e) ∅
  | none => ∅

/-- The loop over the latest entries: what changed, and what is left of the
old map once every path seen is taken out. -/
def diffEntries : EntryMap → List FileTreeEntry → List String × EntryMap
  | m, [] => ([], m)
  | m, e :: es =>
    let (changed, rest) := diffEntries (m.erase e.path) es
    match m.lookup e.path with
    | none => (e.path :: changed, rest)
    | some o =>
      if o.blobId ≠ e.blobId ∨ o.mtimeNs ≠ e.mtimeNs then (e.path :: changed, rest)
      else (changed, rest)

/-- The removed paths come in the order of the map, which for a `HashMap` is
unspecified. -/
def diff (old latest : Option FileTree) : List String × List String :=
  let (changed, rest) := diffEntries (oldMap old) ((latest.map FileTree.entries).getD [])
  (changed, rest.keys)

/-- The comparison of `diff`: an entry differs when its path is new, or its
blob or its modification time is another one. -/
def Differs (o : Option FileTreeEntry) (e : FileTreeEntry) : Prop :=
  ∀ d, o = some d → d.blobId ≠ e.blobId ∨ d.mtimeNs ≠ e.mtimeNs

theorem diffEntries_cons (m : EntryMap) (e : FileTreeEntry) (es : List FileTreeEntry) :
    (p ∈ (diffEntries m (e :: es)).1 ↔
      (p = e.path ∧ Differs (m.lookup e.path) e) ∨ p ∈ (diffEntries (m.erase e.path) es).1) ∧
    (diffEntries m (e :: es)).2 = (diffEntries (m.erase e.path) es).2 := by
  rw [diffEntries]
  cases hl : m.lookup e.path with
  | none => simp [Differs]
  | some o =>
    by_cases hd : o.blobId ≠ e.blobId ∨ o.mtimeNs ≠ e.mtimeNs
    · simp [Differs, hd]
    · simp [Differs, hd]

theorem mem_diffEntries_rest (m : EntryMap) (es : List FileTreeEntry) :
    p ∈ (diffEntries m es).2 ↔ p ∈ m ∧ p ∉ es.map FileTreeEntry.path := by
  induction es generalizing m with
  | nil => simp [diffEntries]
  | cons e es ih =>
    rw [(diffEntries_cons (p := p) m e es).2, ih, AList.mem_erase]
    simp only [List.map_cons, List.mem_cons, not_or]
    tauto

theorem mem_diffEntries_changed (m : EntryMap) {es : List FileTreeEntry}
    (hn : (es.map FileTreeEntry.path).Nodup) :
    p ∈ (diffEntries m es).1 ↔ ∃ e ∈ es, e.path = p ∧ Differs (m.lookup e.path) e := by
  induction es generalizing m with
  | nil => simp [diffEntries]
  | cons e es ih =>
    obtain ⟨he, hn⟩ := List.nodup_cons.mp hn
    -- Taking `e.path` out of the map is not seen by the entries behind it.
    have hrest : ∀ d ∈ es, (m.erase e.path).lookup d.path = m.lookup d.path := by
      intro d hd
      exact AList.lookup_erase_ne fun heq => he (heq ▸ List.mem_map_of_mem hd)
    rw [(diffEntries_cons m e es).1, ih _ hn]
    constructor
    · rintro (⟨rfl, hdiff⟩ | ⟨d, hd, hp, hdiff⟩)
      · exact ⟨e, List.mem_cons_self .., rfl, hdiff⟩
      · exact ⟨d, List.mem_cons_of_mem e hd, hp, hrest d hd ▸ hdiff⟩
    · rintro ⟨d, hd, hp, hdiff⟩
      rcases List.mem_cons.mp hd with rfl | hd
      · exact .inl ⟨hp.symm, hdiff⟩
      · exact .inr ⟨d, hd, hp, (hrest d hd).symm ▸ hdiff⟩

theorem mem_foldl_insert (es : List FileTreeEntry) (m : EntryMap) :
    p ∈ es.foldl (fun m e => m.insert e.path e) m ↔ p ∈ m ∨ p ∈ es.map FileTreeEntry.path := by
  induction es generalizing m with
  | nil => simp
  | cons e es ih =>
    rw [List.foldl_cons, ih, AList.mem_insert, List.map_cons, List.mem_cons]
    tauto

theorem lookup_foldl_insert {es : List FileTreeEntry} (hn : (es.map FileTreeEntry.path).Nodup)
    (m : EntryMap) : (es.foldl (fun m e => m.insert e.path e) m).lookup p =
      (es.find? fun e => e.path = p).or (m.lookup p) := by
  induction es generalizing m with
  | nil => simp
  | cons e es ih =>
    obtain ⟨he, hn⟩ := List.nodup_cons.mp hn
    rw [List.foldl_cons, ih hn]
    by_cases hp : e.path = p
    · subst hp
      have hnone : es.find? (fun d => d.path = e.path) = none := by
        rw [List.find?_eq_none]
        intro d hd heq
        exact he (by simpa using ⟨d, hd, by simpa using heq⟩)
      simp [hnone, AList.lookup_insert]
    · rw [AList.lookup_insert_ne (Ne.symm hp), List.find?_cons_of_neg (by simpa using hp)]

theorem mem_oldMap (old : Option FileTree) : p ∈ oldMap old ↔ ∃ o, old = some o ∧ p ∈ o.paths := by
  cases old with
  | none => simp [oldMap]
  | some o => simp [oldMap, mem_foldl_insert, FileTree.paths]

theorem lookup_oldMap {o : FileTree} (hn : o.paths.Nodup) :
    (oldMap (some o)).lookup p = o.entryAt p := by
  rw [oldMap, lookup_foldl_insert hn, AList.lookup_empty, Option.or_none]
  rfl

theorem mem_removed (old : Option FileTree) (latest : FileTree) :
    p ∈ (diff old (some latest)).2 ↔ (∃ o, old = some o ∧ p ∈ o.paths) ∧ p ∉ latest.paths := by
  rw [← mem_oldMap]
  exact mem_diffEntries_rest (oldMap old) latest.entries

theorem mem_removed_none (old : Option FileTree) :
    p ∈ (diff old none).2 ↔ ∃ o, old = some o ∧ p ∈ o.paths := by
  rw [← mem_oldMap]
  rfl

theorem mem_changed_known {old latest : FileTree} (ho : old.paths.Nodup) (hl : latest.paths.Nodup) :
    p ∈ (diff (some old) (some latest)).1 ↔
      ∃ e ∈ latest.entries, e.path = p ∧ Differs (old.entryAt p) e := by
  refine (mem_diffEntries_changed (oldMap (some old)) hl).trans ?_
  constructor
  · rintro ⟨e, he, rfl, hd⟩
    exact ⟨e, he, rfl, lookup_oldMap ho ▸ hd⟩
  · rintro ⟨e, he, rfl, hd⟩
    exact ⟨e, he, rfl, (lookup_oldMap ho).symm ▸ hd⟩

theorem mem_old_of_not_changed (old : Option FileTree) {latest : FileTree} (hp : p ∈ latest.paths)
    (h : p ∉ (diff old (some latest)).1) : ∃ o, old = some o ∧ p ∈ o.paths := by
  rw [← mem_oldMap]
  have hmem (m : EntryMap) (es : List FileTreeEntry) (hp : p ∈ es.map FileTreeEntry.path)
      (h : p ∉ (diffEntries m es).1) : p ∈ m := by
    induction es generalizing m with
    | nil => cases hp
    | cons e es ih =>
      rw [(diffEntries_cons m e es).1, not_or] at h
      by_cases hpe : p = e.path
      · by_contra hnot
        refine h.1 ⟨hpe, ?_⟩
        rw [AList.lookup_eq_none.mpr (hpe ▸ hnot)]
        simp [Differs]
      · have hrest := ih _ ((List.mem_cons.mp hp).resolve_left hpe) h.2
        exact (AList.mem_erase.mp hrest).2
  exact hmem (oldMap old) latest.entries hp h

theorem changed_subset (old : Option FileTree) {latest : FileTree} (hl : latest.paths.Nodup)
    (h : p ∈ (diff old (some latest)).1) : p ∈ latest.paths := by
  obtain ⟨e, he, hp, -⟩ := (mem_diffEntries_changed (oldMap old) hl).mp h
  exact FileTree.mem_paths.mpr ⟨e, he, hp⟩

/-- A path of the latest tree that is not reported has its blob already. -/
theorem blobAt_of_not_changed {old latest : FileTree} (ho : old.paths.Nodup)
    (hl : latest.paths.Nodup) (hp : p ∈ latest.paths)
    (h : p ∉ (diff (some old) (some latest)).1) : old.blobAt p = latest.blobAt p := by
  obtain ⟨e, he, rfl⟩ := FileTree.mem_paths.mp hp
  rw [mem_changed_known ho hl] at h
  cases hd : old.entryAt e.path with
  | none => exact absurd ⟨e, he, rfl, by simp [Differs, hd]⟩ h
  | some d =>
    have hsame : d.blobId = e.blobId := by
      by_contra hne
      refine h ⟨e, he, rfl, fun d' hd' => ?_⟩
      rw [hd] at hd'
      obtain rfl := Option.some.inj hd'
      exact .inl hne
    rw [FileTree.blobAt, FileTree.blobAt, hd, FileTree.entryAt_of_mem hl he, Option.map_some,
      Option.map_some, hsame]

/-- A client's path-to-blob map after a diff is applied to it. -/
def patch (changed removed : List String) (latest : FileTree) (blobs : String → Option String) :
    String → Option String := fun p =>
  if p ∈ changed then latest.blobAt p else if p ∈ removed then none else blobs p

theorem diff_patch {old latest : FileTree} (ho : old.paths.Nodup) (hl : latest.paths.Nodup) :
    patch (diff (some old) (some latest)).1 (diff (some old) (some latest)).2 latest old.blobAt =
      latest.blobAt := by
  funext p
  unfold patch
  have hnone (t : FileTree) (h : p ∉ t.paths) : t.blobAt p = none := by
    rw [FileTree.blobAt, FileTree.entryAt_eq_none.mpr h, Option.map_none]
  by_cases hp : p ∈ latest.paths
  · have hr : p ∉ (diff (some old) (some latest)).2 := fun h => ((mem_removed _ _).mp h).2 hp
    by_cases hc : p ∈ (diff (some old) (some latest)).1
    · rw [if_pos hc]
    · rw [if_neg hc, if_neg hr]
      exact blobAt_of_not_changed ho hl hp hc
  · rw [if_neg fun h => hp (changed_subset _ hl h), hnone latest hp]
    split
    · rfl
    · rename_i hr
      apply hnone old
      intro ho'
      exact hr ((mem_removed _ _).mpr ⟨⟨old, rfl, ho'⟩, hp⟩)

theorem changed_removed_disjoint (old : Option FileTree) {latest : FileTree}
    (hl : latest.paths.Nodup) (hc : p ∈ (diff old (some latest)).1) :
    p ∉ (diff old (some latest)).2 :=
  fun hr => ((mem_removed _ _).mp hr).2 (changed_subset _ hl hc)

theorem diff_self {t : FileTree} (h : t.paths.Nodup) : diff (some t) (some t) = ([], []) := by
  have hc : (diff (some t) (some t)).1 = [] := by
    apply List.eq_nil_iff_forall_not_mem.mpr
    intro p hp
    obtain ⟨e, he, rfl, hd⟩ := (mem_changed_known h h).mp hp
    have hd := hd e (FileTree.entryAt_of_mem h he)
    tauto
  have hr : (diff (some t) (some t)).2 = [] := by
    apply List.eq_nil_iff_forall_not_mem.mpr
    intro p hp
    obtain ⟨⟨o, heq, ho⟩, hn⟩ := (mem_removed _ _).mp hp
    obtain rfl := Option.some.inj heq
    exact hn ho
  exact Prod.ext hc hr

-- ---------------------------------------------------------------------------
-- Operations field by field
-- ---------------------------------------------------------------------------

theorem putObject_self (fs : ServerFs) (blobId : String) (bytes : Bytes) :
    (fs.putObject blobId bytes).objects blobId = some ((fs.objects blobId).getD bytes) := by
  unfold putObject
  cases h : fs.objects blobId with
  | none => simp
  | some old => simp [h]

theorem putObject_ne (fs : ServerFs) (bytes : Bytes) (h : other ≠ blobId) :
    (fs.putObject blobId bytes).objects other = fs.objects other := by
  unfold putObject
  cases fs.objects blobId with
  | none => simp [h]
  | some old => rfl

@[simp] theorem putObject_trees (fs : ServerFs) (blobId : String) (bytes : Bytes) :
    (fs.putObject blobId bytes).trees = fs.trees := by
  unfold putObject
  cases fs.objects blobId <;> rfl

@[simp] theorem putObject_tmp (fs : ServerFs) (blobId : String) (bytes : Bytes) :
    (fs.putObject blobId bytes).tmp = fs.tmp := by
  unfold putObject
  cases fs.objects blobId <;> rfl

@[simp] theorem removeTemp_tmp_self (fs : ServerFs) (tempPath : String) :
    (fs.removeTemp tempPath).tmp tempPath = none := Function.update_self ..

theorem removeTemp_tmp_ne (fs : ServerFs) (h : other ≠ tempPath) :
    (fs.removeTemp tempPath).tmp other = fs.tmp other := Function.update_of_ne h ..

@[simp] theorem writeTemp_tmp_self (fs : ServerFs) (tempPath : String) (file : Bytes) :
    (fs.writeTemp tempPath file).tmp tempPath = some file := Function.update_self ..

theorem writeTemp_tmp_ne (fs : ServerFs) (file : Bytes) (h : other ≠ tempPath) :
    (fs.writeTemp tempPath file).tmp other = fs.tmp other := Function.update_of_ne h ..

@[simp] theorem removeTemp_objects (fs : ServerFs) (tempPath : String) :
    (fs.removeTemp tempPath).objects = fs.objects := rfl

@[simp] theorem writeTemp_objects (fs : ServerFs) (tempPath : String) (file : Bytes) :
    (fs.writeTemp tempPath file).objects = fs.objects := rfl

@[simp] theorem removeTemp_trees (fs : ServerFs) (tempPath : String) :
    (fs.removeTemp tempPath).trees = fs.trees := rfl

@[simp] theorem saveTree_objects (fs : ServerFs) (tree : FileTree) :
    (fs.saveTree tree).objects = fs.objects := rfl

@[simp] theorem saveTree_tmp (fs : ServerFs) (tree : FileTree) :
    (fs.saveTree tree).tmp = fs.tmp := rfl

theorem putObject_mono (fs : ServerFs) (blobId : String) (bytes : Bytes)
    (h : fs.objects other = some data) : (fs.putObject blobId bytes).objects other = some data := by
  by_cases hb : other = blobId
  · subst hb
    rw [putObject_self, h, Option.getD_some]
  · rw [putObject_ne fs bytes hb, h]

theorem latestTree_saveTree (fs : ServerFs) (tree : FileTree) :
    (fs.saveTree tree).latestTree = some tree := by
  simp [saveTree, latestTree, getTree, writeTree, TreeFile.parse]

theorem getTree_saveTree (fs : ServerFs) (tree : FileTree) (h : name ≠ latestPath) :
    (fs.saveTree tree).getTree name =
      if name = tree.treeHash then some tree else fs.getTree name := by
  by_cases ht : name = tree.treeHash
  · subst ht
    simp [saveTree, getTree, writeTree, TreeFile.parse, h]
  · simp [saveTree, getTree, writeTree, h, ht]

/-- A tree read after another one is saved is that one, under one of its two names,
or was there. -/
theorem getTree_saveTree_cases {fs : ServerFs} (h : (fs.saveTree tree).getTree name = some t) :
    (t = tree ∧ (name = latestPath ∨ name = tree.treeHash)) ∨ fs.getTree name = some t := by
  by_cases hname : name = latestPath
  · subst hname
    have hlatest := (fs.latestTree_saveTree tree).symm.trans h
    exact .inl ⟨(Option.some.inj hlatest).symm, .inl rfl⟩
  · rw [getTree_saveTree fs tree hname] at h
    split at h
    · exact .inl ⟨(Option.some.inj h).symm, .inr ‹_›⟩
    · exact .inr h

end ServerFs

theorem treeHash_ne_latest (sha256 : Bytes → Digest) (t : FileTree) :
    treeHash sha256 t ≠ ServerFs.latestPath := by
  intro h
  have hlen := (sha256 (treePreimage t)).blobText.1
  rw [show Digest.hex _ = ServerFs.latestPath from h] at hlen
  revert hlen
  decide

end Nsmt.Server
