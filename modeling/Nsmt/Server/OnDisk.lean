import Nsmt.Lib.Paths
import Nsmt.Server.Session

/-!
# Where a tenant's files lie

The path strings that the server and a peer hand to the file system for a frame.
Blob ids and tree hashes come from the client and are joined as they are, so
`..` and absolute paths lead out of the tenant's directory. `confined_iff` says
which strings do not.
-/

namespace Nsmt.Server

open Nsmt.Lib Nsmt.Lib.Paths Nsmt.Core

/-- The copy of `sanitize` that `object_store_for` uses. -/
def sanitizeDomain (s : String) : String := sanitize s

namespace OnDisk

/-- `root` of `ServerFs::new`. -/
def root (home domain : String) : String := join (join home "server") (sanitize domain)

/-- The root of the local object store of `object_store_for`. -/
def objectStoreRoot (home domain : String) : String :=
  join (join (join home "server") (sanitizeDomain domain)) "objects"

def treesDir (root : String) : String := join root "trees"

def latestPath (root : String) : String := join (treesDir root) "latest.json"

def treePath (root treeHash : String) : String := join (treesDir root) (treeHash ++ ".json")

def tempPathFor (root blobId : String) : String := join (join root "tmp") (blobId ++ ".part")

/-- `LocalObjectStore::put` creates its root, looks for the object and writes it. -/
def putPaths (objects key : String) : List String := [objects, join objects key]

def getPaths (objects key : String) : List String := [join objects key]

/-- `handle_chunk`, and behind the last chunk the completion: the temporary file
is read, stored and removed. -/
def chunkPaths (home domain blobId : String) : List String :=
  let tempPath := tempPathFor (root home domain) blobId
  [parent tempPath, tempPath] ++ putPaths (objectStoreRoot home domain) blobId

/-- The file that `serve_peer` reads. -/
def servePeerPath (objectsDir blobId : String) : String := join objectsDir blobId

end OnDisk

/-- The paths that a turn can read, create, write or delete. -/
def Session.paths (home : String) (session : Session) : ClientFrame → List String
  | .fileChunk _ =>
    match session.pendingUpload with
    | some pu => OnDisk.chunkPaths home session.userDomain pu.blobId
    | none => []
  | .filePut msg => [OnDisk.tempPathFor (OnDisk.root home session.userDomain) msg.blobId]
  | .fileGet msg => OnDisk.getPaths (OnDisk.objectStoreRoot home session.userDomain) msg.blobId
  | .fileDiff msg =>
    [OnDisk.treePath (OnDisk.root home session.userDomain) msg.oldTree,
      OnDisk.latestPath (OnDisk.root home session.userDomain)]
  | _ => []

namespace OnDisk

/-- The tenant's directory, `server/<sanitize(domain)>/` below the home. -/
def tenantDir (home domain : String) : Place := normalize (root home domain)

def Confined (home : String) (session : Session) (frame : ClientFrame) : Prop :=
  ∀ path ∈ session.paths home frame, (normalize path).Within (tenantDir home session.userDomain)

-- ---------------------------------------------------------------------------
-- The tenant's own directories
-- ---------------------------------------------------------------------------

theorem sanitize_chars (domain : String) : ∀ c ∈ (sanitize domain).toList, c ≠ '/' ∧ c ≠ '.' := by
  intro c hc
  simp only [sanitize, String.toList_ofList, List.mem_map] at hc
  obtain ⟨d, -, rfl⟩ := hc
  split
  · rename_i hd
    constructor
    · rintro rfl
      revert hd
      decide
    · rintro rfl
      revert hd
      decide
  · decide

theorem tenantDir_last (home domain : String) :
    ∃ front name, (tenantDir home domain).names = front ++ [name] ∧ '.' ∉ name := by
  have hserver : normalize (join home "server") = (normalize home).descend ["server".toList] :=
    normalize_join_name home (by decide) (by simp [Ordinary])
  have hslash : '/' ∉ (sanitize domain).toList := fun h => (sanitize_chars domain _ h).1 rfl
  have hdot : '.' ∉ (sanitize domain).toList := fun h => (sanitize_chars domain _ h).2 rfl
  by_cases hempty : (sanitize domain).toList = []
  · refine ⟨(normalize home).names, "server".toList, ?_, by decide⟩
    rw [tenantDir, root, normalize_join _ (isAbsolute_name hslash), pieces_name hslash, hempty, hserver,
      Place.walk_empty_piece]
    rfl
  · have hordinary : Ordinary (sanitize domain).toList := by
      refine ⟨hempty, ?_, ?_⟩
      · intro h
        exact hdot (by rw [h]; simp)
      · intro h
        exact hdot (by rw [h]; simp)
    refine ⟨(normalize home).names ++ ["server".toList], (sanitize domain).toList, ?_, hdot⟩
    rw [tenantDir, root, normalize_join_name _ hslash hordinary, hserver]
    simp [Place.descend]

theorem normalize_objectStoreRoot (home domain : String) :
    normalize (objectStoreRoot home domain) = (tenantDir home domain).descend ["objects".toList] :=
  normalize_join_name _ (by decide) (by simp [Ordinary])

theorem normalize_treesDir (home domain : String) :
    normalize (treesDir (root home domain)) = (tenantDir home domain).descend ["trees".toList] :=
  normalize_join_name _ (by decide) (by simp [Ordinary])

theorem normalize_tmp (home domain : String) :
    normalize (join (root home domain) "tmp") = (tenantDir home domain).descend ["tmp".toList] :=
  normalize_join_name _ (by decide) (by simp [Ordinary])

theorem object_within (home domain blobId : String) :
    (normalize (join (objectStoreRoot home domain) blobId)).Within (tenantDir home domain) ↔
      Stays (tenantDir home domain) 1 blobId :=
  within_join (normalize_objectStoreRoot home domain) blobId

theorem treePath_within (home domain treeHash : String) :
    (normalize (treePath (root home domain) treeHash)).Within (tenantDir home domain) ↔
      Stays (tenantDir home domain) 1 (treeHash ++ ".json") :=
  within_join (normalize_treesDir home domain) _

theorem tempPathFor_within (home domain blobId : String) :
    (normalize (tempPathFor (root home domain) blobId)).Within (tenantDir home domain) ↔
      Stays (tenantDir home domain) 1 (blobId ++ ".part") :=
  within_join (normalize_tmp home domain) _

theorem latestPath_within (home domain : String) :
    (normalize (latestPath (root home domain))).Within (tenantDir home domain) := by
  have hlatest : normalize (latestPath (root home domain)) =
      (normalize (treesDir (root home domain))).descend ["latest.json".toList] :=
    normalize_join_name _ (by decide) (by simp [Ordinary])
  rw [hlatest, normalize_treesDir, Place.descend_descend]
  exact Place.descend_within ..

/-- The directory of a temporary file lies in `dir` if the file does: the file's
name has a dot, and the one of `dir` has none. -/
theorem parent_within {path : String} {stem : List Char} {dir : Place}
    (hend : path.toList = stem ++ ".part".toList)
    (hlast : ∃ front name, dir.names = front ++ [name] ∧ '.' ∉ name)
    (h : (normalize path).Within dir) : (normalize (parent path)).Within dir := by
  obtain ⟨last, hsplit, hslash, hfront⟩ := split_parent path
  obtain ⟨stem, hstem⟩ := suffix_last hsplit hfront hend (by decide)
  have hdot : '.' ∈ last := by
    rw [← hstem]
    simp
  have hordinary : Ordinary last := by
    have hlen : 5 ≤ last.length := by
      have hending : ".part".toList.length = 5 := by decide
      rw [← hstem, List.length_append, hending]
      omega
    refine ⟨?_, ?_, ?_⟩
    all_goals
      rintro rfl
      simp at hlen
  rw [normalize_parent hsplit hslash hfront hordinary] at h
  refine h.above fun heq => ?_
  obtain ⟨front, name, hnames, hplain⟩ := hlast
  rw [hnames] at heq
  obtain ⟨-, hname⟩ := List.append_inj' heq rfl
  rw [(List.cons.inj hname).1] at hplain
  exact absurd hdot hplain

theorem tempParent_within
    (h : (normalize (tempPathFor (root home domain) blobId)).Within (tenantDir home domain)) :
    (normalize (parent (tempPathFor (root home domain) blobId))).Within (tenantDir home domain) := by
  obtain ⟨start, hstart⟩ := join_suffix (join (root home domain) "tmp") (blobId ++ ".part")
  rw [String.toList_append, ← List.append_assoc] at hstart
  exact parent_within hstart (tenantDir_last home domain) h

-- ---------------------------------------------------------------------------
-- Frame by frame
-- ---------------------------------------------------------------------------

theorem filePut_confined {session : Session} {msg : FilePut} :
    Confined home session (.filePut msg) ↔
      Stays (tenantDir home session.userDomain) 1 (msg.blobId ++ ".part") := by
  rw [Confined, Session.paths, List.forall_mem_singleton]
  exact tempPathFor_within home session.userDomain msg.blobId

theorem fileChunk_confined {session : Session} (h : session.pendingUpload = some pu) (payload : Bytes) :
    Confined home session (.fileChunk payload) ↔
      Stays (tenantDir home session.userDomain) 1 pu.blobId ∧
      Stays (tenantDir home session.userDomain) 1 (pu.blobId ++ ".part") := by
  simp only [Confined, Session.paths, h, chunkPaths, putPaths, List.cons_append, List.nil_append,
    List.forall_mem_cons, List.not_mem_nil, false_implies, implies_true, and_true]
  rw [tempPathFor_within, object_within, normalize_objectStoreRoot]
  constructor
  · rintro ⟨-, htemp, -, hobject⟩
    exact ⟨hobject, htemp⟩
  · rintro ⟨hobject, htemp⟩
    exact ⟨tempParent_within ((tempPathFor_within ..).mpr htemp), htemp,
      Place.descend_within .., hobject⟩

theorem fileGet_confined {session : Session} {msg : FileGet} :
    Confined home session (.fileGet msg) ↔
      Stays (tenantDir home session.userDomain) 1 msg.blobId := by
  rw [Confined, Session.paths, getPaths, List.forall_mem_singleton]
  exact object_within home session.userDomain msg.blobId

theorem fileDiff_confined {session : Session} {msg : FileDiff} :
    Confined home session (.fileDiff msg) ↔
      Stays (tenantDir home session.userDomain) 1 (msg.oldTree ++ ".json") := by
  rw [Confined, Session.paths, List.forall_mem_cons, List.forall_mem_singleton]
  exact (and_iff_left (latestPath_within home session.userDomain)).trans
    (treePath_within home session.userDomain msg.oldTree)

/-- Sessions of a tenant that use the string `s` in a frame. -/
structure UsesConfined (home domain s : String) : Prop where
  put : ∀ session : Session, session.userDomain = domain →
    ∀ msg : FilePut, msg.blobId = s → Confined home session (.filePut msg)
  chunk : ∀ session : Session, session.userDomain = domain →
    ∀ pu, session.pendingUpload = some pu → pu.blobId = s →
    ∀ payload, Confined home session (.fileChunk payload)
  get : ∀ session : Session, session.userDomain = domain →
    ∀ msg : FileGet, msg.blobId = s → Confined home session (.fileGet msg)
  diff : ∀ session : Session, session.userDomain = domain →
    ∀ msg : FileDiff, msg.oldTree = s → Confined home session (.fileDiff msg)

end OnDisk

end Nsmt.Server
