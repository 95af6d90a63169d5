import Nsmt.Client.ConflictNames

/-!
# Where a pull writes

The pull once more, on a disk with directories: the paths of the tree, of the
removed files and of the conflict copies are joined to the share directory, the
blob ids to the object cache, and every operation notes the places it changes.
`pull_confined_iff` says for which answers of the server they stay where they
belong.
-/

namespace Nsmt.Client

open Nsmt.Lib Nsmt.Lib.Paths Nsmt.Core

/-- A link counts as a file with the bytes it shows. -/
inductive DiskNode
  | dir
  | file (bytes : Bytes)
  deriving DecidableEq, Repr

/-- A place that is created, overwritten, copied or removed for a path of the
share directory, or written for an object of the cache. -/
inductive Touch
  | shared (place : Place)
  | cached (place : Place)
  deriving DecidableEq, Repr

/-- `share_dir()` and `objects_dir()`. -/
structure PullDirs where
  share : String
  objects : String

/-- What a changed path meets: the object, if the server or a peer has it, the time,
whether the local file can be read, and the places at which the disk refuses. -/
structure PullAnswer where
  got : Option Bytes
  nowMs : Nat
  readable : Bool
  refuses : Place → Bool

/-- `aborted` is an error that ends the pull. -/
structure PullDisk where
  disk : Place → Option DiskNode
  touched : List Touch
  aborted : Bool

namespace PullDisk

/-- The components in front of the last one. -/
def wayTo (path : String) : List Piece := (components path).dropLast

/-- A path with this character is refused before the system sees it. -/
def nul : Char := Char.ofNat 0

/-- The path ends in a name, so that it can be one of a file. -/
def IsFilePath (path : String) : Prop :=
  nul ∉ path.toList ∧ ∃ name, (pieces path.toList).getLast? = some name ∧ Ordinary name

instance (path : String) : Decidable (IsFilePath path) :=
  match h : (pieces path.toList).getLast? with
  | some name => decidable_of_iff (nul ∉ path.toList ∧ name ≠ [] ∧ name ≠ ['.'] ∧ name ≠ ['.', '.'])
      (by simp [IsFilePath, h, Ordinary])
  | none => isFalse (by simp [IsFilePath, h])

/-- The path of the directory has a zero character. -/
def NulWay (path : String) : Prop := ∃ piece ∈ wayTo path, nul ∈ piece

instance (path : String) : Decidable (NulWay path) := inferInstanceAs (Decidable (∃ _ ∈ _, _))

/-- All directories on the way are there. -/
def passable (disk : Place → Option DiskNode) (at_ : Place) : List Piece → Bool
  | [] => disk at_ = some .dir
  | piece :: rest => disk at_ = some .dir && passable disk (at_.enter piece) rest

def put (s : PullDisk) (touch : Place → Touch) (place : Place) (node : Option DiskNode) : PullDisk :=
  { s with disk := Function.update s.disk place node, touched := touch place :: s.touched }

def abort (s : PullDisk) : PullDisk := { s with aborted := true }

section
variable (refuses : Place → Bool) (base path : String)

/-- The directories of `create_dir_all` from `at_` on. -/
def createDirs (s : PullDisk) (at_ : Place) : List Piece → PullDisk
  | [] => s
  | piece :: rest =>
    match s.disk (at_.enter piece) with
    | some .dir => createDirs s (at_.enter piece) rest
    | some (.file _) => s.abort
    | none =>
      if refuses (at_.enter piece) then s.abort
      else createDirs (s.put .shared (at_.enter piece) (some .dir)) (at_.enter piece) rest

/-- The place of a file that can be opened: its path ends in a name and its
directories are there. -/
def openAt (disk : Place → Option DiskNode) : Option Place :=
  if IsFilePath path ∧ passable disk (startOf base path) (wayTo path) then
    some (normalize (join base path))
  else none

/-- A file is created or overwritten; `none` is an I/O error. -/
def write (touch : Place → Touch) (s : PullDisk) (bytes : Bytes) : Option PullDisk :=
  match openAt base path s.disk with
  | none => none
  | some place =>
    if refuses place ∨ s.disk place = some .dir then none
    else some (s.put touch place (some (.file bytes)))

def read (s : PullDisk) : Option Bytes :=
  match openAt base path s.disk with
  | none => none
  | some place =>
    match s.disk place with
    | some (.file bytes) => some bytes
    | _ => none

/-- `remove_file`, whose errors are ignored. -/
def remove (s : PullDisk) : PullDisk :=
  match openAt base path s.disk with
  | none => s
  | some place =>
    match s.disk place with
    | some (.file _) => if refuses place then s else s.put .shared place none
    | _ => s

/-- `exists()`: behind a slash, a dot or two dots there must be a directory. -/
def exists_ (s : PullDisk) : Bool :=
  nul ∉ path.toList && passable s.disk (startOf base path) (wayTo path) &&
    if IsFilePath path then (s.disk (normalize (join base path))).isSome
    else s.disk (normalize (join base path)) = some .dir

/-- An object is written unless it is there. The directory of the cache is, so
`create_dir_all` finds it. -/
def storeObject (s : PullDisk) (bytes : Bytes) : PullDisk :=
  if s.exists_ base path then s else (write refuses base path .cached s bytes).getD s.abort

end

section
variable (sha256 : Bytes → Digest) (symlinkView : Bool) (dirs : PullDirs) (requester : String)

/-- A local file that differs is copied; that the copy fails is not noticed. The
file that is copied is noted as well. -/
def keepConflict (answer : PullAnswer) (s : PullDisk) (entry : FileTreeEntry) : PullDisk :=
  match if answer.readable then s.read dirs.share entry.path else none with
  | none => s
  | some localBytes =>
    if objectId sha256 localBytes = entry.blobId then s
    else
      match write answer.refuses dirs.share (conflictPath requester entry.path answer.nowMs) .shared s
          localBytes with
      | some s => { s with touched := .shared (normalize (join dirs.share entry.path)) :: s.touched }
      | none => s

def materialize (answer : PullAnswer) (s : PullDisk) (entry : FileTreeEntry) (bytes : Bytes) : PullDisk :=
  let s :=
    if NulWay entry.path then s.abort
    else createDirs answer.refuses s (startOf dirs.share entry.path) (wayTo entry.path)
  if s.aborted then s
  else if symlinkView then
    let s := storeObject answer.refuses dirs.objects entry.blobId s bytes
    if s.aborted then s
    else
      let s := remove answer.refuses dirs.share entry.path s
      -- A link is only made where nothing is.
      if s.exists_ dirs.share entry.path then s.abort
      else (write answer.refuses dirs.share entry.path .shared s bytes).getD s.abort
  else (write answer.refuses dirs.share entry.path .shared s bytes).getD s.abort

def pullEntry (answer : PullAnswer) (s : PullDisk) (entry : FileTreeEntry) : PullDisk :=
  match answer.got with
  | none => s
  | some bytes =>
    let s := keepConflict sha256 dirs requester answer s entry
    let s := materialize symlinkView dirs answer s entry bytes
    if s.aborted then s else storeObject answer.refuses dirs.objects entry.blobId s bytes

def pullPath (remote : FileTree) (answer : PullAnswer) (s : PullDisk) (p : String) : PullDisk :=
  if s.aborted then s
  else
    match remote.entryAt p with
    | none => s
    | some entry => pullEntry sha256 symlinkView dirs requester answer s entry

/-- Without another answer the request fails, which ends the pull. -/
def pullPaths (remote : FileTree) : List String → List PullAnswer → PullDisk → PullDisk
  | [], _, s => s
  | _ :: _, [], s => s.abort
  | p :: changed, answer :: answers, s =>
    pullPaths remote changed answers (pullPath sha256 symlinkView dirs requester remote answer s p)

def removePaths (refuses : Place → Bool) (removed : List String) (s : PullDisk) : PullDisk :=
  if s.aborted then s else removed.foldl (fun s p => remove refuses dirs.share p s) s

/-- The pull of the start-up phase, or of the loop. -/
def pull (initial : Bool) (diff : FileDiffResult) (answers : List PullAnswer)
    (refuses : Place → Bool) (s : PullDisk) : PullDisk :=
  match diff.tree with
  | none => if initial then s else removePaths dirs refuses diff.removed s
  | some remote =>
    removePaths dirs refuses diff.removed
      (pullPaths sha256 symlinkView dirs requester remote diff.changed answers s)

end

-- ---------------------------------------------------------------------------
-- Where the operations should stay
-- ---------------------------------------------------------------------------

/-- A directory that is always there: the root, the two directories and what is
above them. -/
def Solid (dirs : PullDirs) (place : Place) : Prop :=
  place = rootPlace ∨ (∃ k, place = (normalize dirs.share).climb k) ∨
    ∃ k, place = (normalize dirs.objects).climb k

/-- What exists has a directory above it, and the directories that are always there are. -/
structure WellFormed (dirs : PullDirs) (disk : Place → Option DiskNode) : Prop where
  above : ∀ place, disk place ≠ none → disk place.leave = some .dir
  solid : ∀ place, Solid dirs place → disk place = some .dir

/-- What is done for a path lies in the share directory; an object, in the cache
or there. -/
def Confined (dirs : PullDirs) : Touch → Prop
  | .shared place => place.Within (normalize dirs.share)
  | .cached place => place.Within (normalize dirs.objects) ∨ place.Within (normalize dirs.share)

/-- Every place on the way is in the share directory, or a directory that is always there. -/
def WayStays (dirs : PullDirs) (at_ : Place) : List Piece → Prop
  | [] => True
  | piece :: rest =>
    ((at_.enter piece).Within (normalize dirs.share) ∨ Solid dirs (at_.enter piece)) ∧
      WayStays dirs (at_.enter piece) rest

/-- The way to the place leads through it, so that no file can be there. -/
def Through (at_ : Place) (place : Place) : List Piece → Prop
  | [] => at_.Within place
  | piece :: rest => at_.Within place ∨ Through (at_.enter piece) place rest

/-- No file outside can be reached by the path. -/
def FileStays (dirs : PullDirs) (allowed : Place → Prop) (base path : String) : Prop :=
  IsFilePath path → allowed (normalize (join base path)) ∨ Solid dirs (normalize (join base path)) ∨
    Through (startOf base path) (normalize (join base path)) (wayTo path)

/-- What the entry of a changed path must be like. -/
def EntryStays (dirs : PullDirs) (entry : FileTreeEntry) : Prop :=
  NulWay entry.path ∨
    WayStays dirs (startOf dirs.share entry.path) (wayTo entry.path) ∧
      FileStays dirs (·.Within (normalize dirs.share)) dirs.share entry.path ∧
      FileStays dirs (fun place => Confined dirs (.cached place)) dirs.objects entry.blobId

/-- The strings of an answer that keep the pull where it belongs. -/
def Stays (dirs : PullDirs) (initial : Bool) (diff : FileDiffResult) : Prop :=
  (∀ remote, diff.tree = some remote → ∀ p ∈ diff.changed, ∀ entry, remote.entryAt p = some entry →
    EntryStays dirs entry) ∧
  ((diff.tree = none → initial = false) → ∀ p ∈ diff.removed,
    FileStays dirs (·.Within (normalize dirs.share)) dirs.share p)

-- ---------------------------------------------------------------------------
-- Paths of files
-- ---------------------------------------------------------------------------

theorem components_of_file {path : String} {front : List Piece} {name : Piece}
    (hpieces : pieces path.toList = front ++ [name]) (hname : Ordinary name) :
    components path = front.filter (fun piece => piece ≠ [] ∧ piece ≠ ['.']) ++ [name] := by
  rw [components, hpieces, List.filter_append]
  simp [hname.1, hname.2.1]

theorem IsFilePath.place {path : String} (h : IsFilePath path) (base : String) :
    ∃ name, normalize (join base path) = ((startOf base path).walk (wayTo path)).descend [name] := by
  obtain ⟨-, name, hlast, hname⟩ := h
  obtain ⟨front, hpieces⟩ := List.getLast?_eq_some_iff.mp hlast
  refine ⟨name, ?_⟩
  rw [normalize_join_start, wayTo, components_of_file hpieces hname, List.dropLast_concat,
    Place.walk_append, Place.walk_name _ hname]

/-- The conflict copy of a file lies in the same directory. -/
theorem conflictPath_place {path : String} (h : IsFilePath path) (requester : String) (nowMs : Nat)
    (base : String) : ∃ name,
    normalize (join base (conflictPath requester path nowMs)) =
      ((startOf base path).walk (wayTo path)).descend [name] := by
  obtain ⟨-, last, hlast, hordinary⟩ := h
  obtain ⟨front, last', hpieces, hreplace⟩ := pieces_parent path
  rw [hpieces, List.getLast?_concat] at hlast
  obtain rfl := Option.some.inj hlast
  obtain ⟨name, hcopy, hslash, hname⟩ := conflictPath_split requester path nowMs
  obtain ⟨hpieces', habs⟩ := hreplace name hslash
  have hname : Ordinary name.toList := by
    refine ⟨?_, ?_, ?_⟩ <;> simp [hname]
  refine ⟨name.toList, ?_⟩
  rw [normalize_join_start, hcopy, components_of_file hpieces' hname, Place.walk_append,
    Place.walk_name _ hname, wayTo, components_of_file hpieces hordinary, List.dropLast_concat,
    startOf, startOf, habs]

theorem NulWay.not_file {path : String} (h : NulWay path) : ¬ IsFilePath path := by
  intro hfile
  obtain ⟨piece, hpiece, hnul⟩ := h
  exact hfile.1 (mem_of_mem_pieces (List.mem_filter.mp (List.mem_of_mem_dropLast hpiece)).1 hnul)

variable {dirs : PullDirs} {disk : Place → Option DiskNode} {s s' : PullDisk} {base path : String}
  {place at_ : Place} {touch : Place → Touch} {refuses : Place → Bool}

theorem openAt_eq_some : openAt base path disk = some place ↔
    (IsFilePath path ∧ passable disk (startOf base path) (wayTo path) = true) ∧
      place = normalize (join base path) := by
  unfold openAt
  split
  · rename_i h
    simp [h, eq_comm]
  · rename_i h
    simp [h]

theorem read_eq_some {bytes : Bytes} (h : s.read base path = some bytes) :
    ∃ place, openAt base path s.disk = some place ∧ s.disk place = some (.file bytes) := by
  unfold PullDisk.read at h
  split at h
  · cases h
  · rename_i place hopen
    split at h
    · rename_i bytes' hfile
      obtain rfl := Option.some.inj h
      exact ⟨place, hopen, hfile⟩
    · cases h

theorem passable_walk {ps : List Piece} (h : passable disk at_ ps = true) :
    disk (at_.walk ps) = some .dir := by
  induction ps generalizing at_ with
  | nil => simpa [passable] using h
  | cons piece ps ih =>
    simp only [passable, Bool.and_eq_true] at h
    exact ih h.2

theorem passable_through {ps : List Piece} (h : passable disk at_ ps = true)
    (hthrough : Through at_ place ps) : ∃ q, disk q = some .dir ∧ q.Within place := by
  induction ps generalizing at_ with
  | nil => exact ⟨at_, by simpa [passable] using h, hthrough⟩
  | cons piece ps ih =>
    simp only [passable, Bool.and_eq_true, decide_eq_true_eq] at h
    rcases hthrough with hhere | hlater
    · exact ⟨at_, h.1, hhere⟩
    · exact ih h.2 hlater

-- ---------------------------------------------------------------------------
-- The disk stays well-formed
-- ---------------------------------------------------------------------------

namespace WellFormed

/-- Above a directory there are directories. -/
theorem climb (h : WellFormed dirs disk) (hdir : disk place = some .dir) (k : Nat) :
    disk (place.climb k) = some .dir := by
  induction k with
  | zero => exact hdir
  | succ k ih => exact h.above _ (by simp [ih])

theorem within (h : WellFormed dirs disk) {q : Place} (hdir : disk q = some .dir)
    (hin : q.Within place) : disk place = some .dir := by
  obtain ⟨k, rfl⟩ := hin.exists_climb
  exact h.climb hdir k

theorem start (h : WellFormed dirs disk) (path : String) :
    disk (startOf dirs.share path) = some .dir ∧ disk (startOf dirs.objects path) = some .dir := by
  constructor
  · unfold startOf
    split
    · exact h.solid _ (.inl rfl)
    · exact h.solid _ (.inr (.inl ⟨0, rfl⟩))
  · unfold startOf
    split
    · exact h.solid _ (.inl rfl)
    · exact h.solid _ (.inr (.inr ⟨0, rfl⟩))

/-- A change of what is no directory, in a directory. -/
theorem update (h : WellFormed dirs disk) (hnode : disk place ≠ some .dir)
    (habove : disk place.leave = some .dir) (node : Option DiskNode) :
    WellFormed dirs (Function.update disk place node) := by
  have hleave {q : Place} (hdir : disk q.leave = some .dir) :
      Function.update disk place node q.leave = some .dir := by
    rw [Function.update_of_ne, hdir]
    rintro heq
    exact hnode (heq ▸ hdir)
  constructor
  · intro q hq
    by_cases heq : q = place
    · subst heq
      exact hleave habove
    · rw [Function.update_of_ne heq] at hq
      exact hleave (h.above q hq)
  · intro q hq
    rw [Function.update_of_ne, h.solid q hq]
    rintro rfl
    exact hnode (h.solid _ hq)

/-- What is opened and no directory lies where the path should stay. -/
theorem opened {allowed : Place → Prop} (h : WellFormed dirs disk)
    (hstays : FileStays dirs allowed base path) (hopen : openAt base path disk = some place)
    (hnode : disk place ≠ some .dir) : allowed place ∧ disk place.leave = some .dir := by
  obtain ⟨⟨hfile, hpass⟩, rfl⟩ := openAt_eq_some.mp hopen
  constructor
  · rcases hstays hfile with hallowed | hsolid | hthrough
    · exact hallowed
    · exact absurd (h.solid _ hsolid) hnode
    · obtain ⟨q, hdir, hin⟩ := passable_through hpass hthrough
      exact absurd (h.within hdir hin) hnode
  · obtain ⟨name, hplace⟩ := hfile.place base
    rw [hplace, Place.descend_leave]
    exact passable_walk hpass

end WellFormed

-- ---------------------------------------------------------------------------
-- Every operation stays
-- ---------------------------------------------------------------------------

/-- The disk is well-formed and every touch so far was where it belongs. -/
structure Inv (dirs : PullDirs) (s : PullDisk) : Prop where
  disk : WellFormed dirs s.disk
  touched : ∀ t ∈ s.touched, Confined dirs t

theorem Inv.put (h : Inv dirs s) (htouch : Confined dirs (touch place))
    (hnode : s.disk place ≠ some .dir) (habove : s.disk place.leave = some .dir)
    (node : Option DiskNode) : Inv dirs (s.put touch place node) :=
  ⟨h.disk.update hnode habove node, List.forall_mem_cons.mpr ⟨htouch, h.touched⟩⟩

theorem Inv.abort (h : Inv dirs s) : Inv dirs s.abort := ⟨h.disk, h.touched⟩

theorem Inv.write (h : Inv dirs s)
    (hstays : FileStays dirs (fun place => Confined dirs (touch place)) base path) {bytes : Bytes}
    (hwrite : write refuses base path touch s bytes = some s') : Inv dirs s' := by
  unfold PullDisk.write at hwrite
  split at hwrite
  · cases hwrite
  · rename_i place hopen
    split at hwrite
    · cases hwrite
    · rename_i hfree
      obtain rfl := Option.some.inj hwrite
      obtain ⟨hallowed, habove⟩ := h.disk.opened hstays hopen (not_or.mp hfree).2
      exact h.put hallowed (not_or.mp hfree).2 habove _

theorem Inv.remove (h : Inv dirs s)
    (hstays : FileStays dirs (·.Within (normalize dirs.share)) base path) :
    Inv dirs (remove refuses base path s) := by
  unfold PullDisk.remove
  split
  · exact h
  · rename_i place hopen
    split
    · rename_i bytes hfile
      split
      · exact h
      · have hnode : s.disk place ≠ some .dir := by simp [hfile]
        obtain ⟨hallowed, habove⟩ := h.disk.opened hstays hopen hnode
        have hin : Confined dirs (.shared place) := hallowed
        exact h.put hin hnode habove none
    · exact h

theorem Inv.storeObject (h : Inv dirs s)
    (hstays : FileStays dirs (fun place => Confined dirs (.cached place)) base path) (bytes : Bytes) :
    Inv dirs (storeObject refuses base path s bytes) := by
  unfold PullDisk.storeObject
  split
  · exact h
  · cases hwrite : PullDisk.write refuses base path .cached s bytes with
    | none => exact h.abort
    | some s' => exact h.write hstays hwrite

theorem Inv.createDirs (h : Inv dirs s) (hdir : s.disk at_ = some .dir) {ps : List Piece}
    (hstays : WayStays dirs at_ ps) : Inv dirs (createDirs refuses s at_ ps) := by
  induction ps generalizing s at_ with
  | nil => exact h
  | cons piece ps ih =>
    rw [PullDisk.createDirs]
    split
    · exact ih h ‹_› hstays.2
    · exact h.abort
    · rename_i hnone
      split
      · exact h.abort
      · have hnode : s.disk (at_.enter piece) ≠ some .dir := by simp [hnone]
        have hin : Confined dirs (.shared (at_.enter piece)) :=
          hstays.1.resolve_right fun hsolid => hnode (h.disk.solid _ hsolid)
        -- What is not there is a name in the directory.
        have habove : s.disk (at_.enter piece).leave = some .dir := by
          rcases at_.enter_cases piece with heq | heq | ⟨-, heq⟩
          · rw [heq] at hnode
            exact absurd hdir hnode
          · rw [heq] at hnode
            exact absurd (h.disk.above at_ (by simp [hdir])) hnode
          · rw [heq, Place.descend_leave]
            exact hdir
        exact ih (h.put hin hnode habove _) (by simp [PullDisk.put]) hstays.2

/-- A local file that can be read has its copy beside it. -/
theorem WellFormed.copy_stays (h : WellFormed dirs disk) (requester : String) (nowMs : Nat)
    (hopen : openAt dirs.share path disk = some place) (hnode : disk place ≠ some .dir)
    (hin : place.Within (normalize dirs.share)) :
    FileStays dirs (fun place => Confined dirs (.shared place)) dirs.share
      (conflictPath requester path nowMs) := by
  obtain ⟨⟨hpath, -⟩, rfl⟩ := openAt_eq_some.mp hopen
  -- The file is not the share directory itself, so its directory lies there as well.
  have hbeside : ((startOf dirs.share path).walk (wayTo path)).Within (normalize dirs.share) := by
    obtain ⟨name, hplace⟩ := hpath.place dirs.share
    rw [hplace] at hin hnode
    exact hin.above fun heq => hnode (h.solid _ (.inr (.inl ⟨0, hin.eq_of_names heq.symm⟩)))
  intro _
  obtain ⟨name, hplace⟩ := conflictPath_place hpath requester nowMs dirs.share
  rw [hplace]
  exact .inl ((Place.descend_within ..).trans hbeside)

theorem Inv.keepConflict (h : Inv dirs s) {sha256 : Bytes → Digest} {requester : String}
    {answer : PullAnswer} {entry : FileTreeEntry}
    (hstays : FileStays dirs (·.Within (normalize dirs.share)) dirs.share entry.path) :
    Inv dirs (keepConflict sha256 dirs requester answer s entry) := by
  unfold PullDisk.keepConflict
  split
  · exact h
  · rename_i localBytes hlocal
    have hread : s.read dirs.share entry.path = some localBytes := by
      split at hlocal
      · exact hlocal
      · cases hlocal
    obtain ⟨place, hopen, hfile⟩ := read_eq_some hread
    have hnode : s.disk place ≠ some .dir := by simp [hfile]
    have hin := (h.disk.opened hstays hopen hnode).1
    have hcopy := h.disk.copy_stays requester answer.nowMs hopen hnode hin
    split
    · exact h
    · split
      · rename_i written hwrite
        have hwritten := h.write hcopy hwrite
        rw [(openAt_eq_some.mp hopen).2] at hin
        exact ⟨hwritten.disk, List.forall_mem_cons.mpr ⟨hin, hwritten.touched⟩⟩
      · exact h

theorem Inv.getD (h : Inv dirs s) {written : Option PullDisk}
    (hwritten : ∀ s', written = some s' → Inv dirs s') : Inv dirs (written.getD s.abort) := by
  cases written with
  | none => exact h.abort
  | some s' => exact hwritten s' rfl

section
variable {sha256 : Bytes → Digest} {symlinkView : Bool} {requester : String} {answer : PullAnswer}
  {entry : FileTreeEntry}

theorem materialize_nul (h : NulWay entry.path) (bytes : Bytes) :
    materialize symlinkView dirs answer s entry bytes = s.abort := by
  rw [materialize, if_pos h]
  rfl

theorem Inv.materialize (h : Inv dirs s) (hstays : EntryStays dirs entry) (bytes : Bytes) :
    Inv dirs (materialize symlinkView dirs answer s entry bytes) := by
  by_cases hnul : NulWay entry.path
  · rw [materialize_nul hnul]
    exact h.abort
  obtain ⟨hway, hfile, hobject⟩ := hstays.resolve_left hnul
  have hfile : FileStays dirs (fun place => Confined dirs (.shared place)) dirs.share entry.path := hfile
  have hmade : Inv dirs (PullDisk.createDirs answer.refuses s (startOf dirs.share entry.path)
      (wayTo entry.path)) := h.createDirs (h.disk.start entry.path).1 hway
  unfold PullDisk.materialize
  simp only [if_neg hnul]
  split
  · exact hmade
  · split
    · have hstored : Inv dirs (PullDisk.storeObject answer.refuses dirs.objects entry.blobId _ bytes) :=
        hmade.storeObject hobject bytes
      split
      · exact hstored
      · have hremoved : Inv dirs (PullDisk.remove answer.refuses dirs.share entry.path _) :=
          hstored.remove hfile
        split
        · exact hremoved.abort
        · exact hremoved.getD fun s' hwrite => hremoved.write hfile hwrite
    · exact hmade.getD fun s' hwrite => hmade.write hfile hwrite

theorem Inv.pullEntry (h : Inv dirs s) (hstays : EntryStays dirs entry) :
    Inv dirs (pullEntry sha256 symlinkView dirs requester answer s entry) := by
  unfold PullDisk.pullEntry
  split
  · exact h
  · rename_i bytes hgot
    have hfile : FileStays dirs (·.Within (normalize dirs.share)) dirs.share entry.path :=
      hstays.elim (fun hnul hfile => absurd hfile hnul.not_file) (·.2.1)
    have hwritten : Inv dirs (PullDisk.materialize symlinkView dirs answer
        (PullDisk.keepConflict sha256 dirs requester answer s entry) entry bytes) :=
      (h.keepConflict hfile).materialize hstays bytes
    simp only
    split
    · exact hwritten
    · rcases hstays with hnul | ⟨-, -, hobject⟩
      · rename_i hgoing
        rw [materialize_nul hnul] at hgoing
        exact absurd rfl hgoing
      · exact hwritten.storeObject hobject bytes

theorem Inv.pullPaths (h : Inv dirs s) {remote : FileTree} {changed : List String}
    (hstays : ∀ p ∈ changed, ∀ entry, remote.entryAt p = some entry → EntryStays dirs entry)
    (answers : List PullAnswer) :
    Inv dirs (pullPaths sha256 symlinkView dirs requester remote changed answers s) := by
  induction changed generalizing s answers with
  | nil => simpa only [PullDisk.pullPaths] using h
  | cons p changed ih =>
    obtain ⟨hp, hchanged⟩ := List.forall_mem_cons.mp hstays
    cases answers with
    | nil => exact h.abort
    | cons answer answers =>
      refine ih ?_ hchanged answers
      unfold PullDisk.pullPath
      split
      · exact h
      · split
        · exact h
        · exact h.pullEntry (hp _ ‹_›)

theorem Inv.removePaths (h : Inv dirs s) {removed : List String}
    (hstays : ∀ p ∈ removed, FileStays dirs (·.Within (normalize dirs.share)) dirs.share p) :
    Inv dirs (removePaths dirs refuses removed s) := by
  unfold PullDisk.removePaths
  split
  · exact h
  · clear * - h hstays
    induction removed generalizing s with
    | nil => exact h
    | cons p removed ih =>
      obtain ⟨hp, hremoved⟩ := List.forall_mem_cons.mp hstays
      exact ih (h.remove hp) hremoved

theorem Inv.pull (h : Inv dirs s) {initial : Bool} {diff : FileDiffResult}
    (hstays : Stays dirs initial diff) (answers : List PullAnswer) :
    Inv dirs (pull sha256 symlinkView dirs requester initial diff answers refuses s) := by
  obtain ⟨hchanged, hremoved⟩ := hstays
  unfold PullDisk.pull
  split
  · rename_i htree
    split
    · exact h
    · exact h.removePaths (hremoved fun _ => by simpa using ‹¬ initial = true›)
  · rename_i remote htree
    exact (h.pullPaths (hchanged remote htree) answers).removePaths (hremoved (by simp [htree]))

end

-- ---------------------------------------------------------------------------
-- Reaching a place outside
-- ---------------------------------------------------------------------------

/-- A disk on which everything is a directory but one place and what is below it. -/
def holeDisk (hole : Place) (content : Option DiskNode) (place : Place) : Option DiskNode :=
  if place = hole then content else if place.Within hole then none else some .dir

/-- A place at which a touch is out of bounds: a name in some directory, neither
where touches belong nor a directory that is always there. -/
structure Outside (dirs : PullDirs) (hole : Place) : Prop where
  named : ∃ w name, hole = Place.descend w [name]
  share : ¬ hole.Within (normalize dirs.share)
  solid : ¬ Solid dirs hole

theorem Outside.not_within (h : Outside dirs hole) {q : Place}
    (hq : q.Within (normalize dirs.share) ∨ Solid dirs q) : ¬ q.Within hole := by
  have hclimb {dir : Place} (hin : dir.Within hole) (hsolid : ∀ k, Solid dirs (dir.climb k)) : False := by
    obtain ⟨k, rfl⟩ := hin.exists_climb
    exact h.solid (hsolid k)
  intro hin
  rcases hq with hshare | rfl | ⟨k, rfl⟩ | ⟨k, rfl⟩
  · rcases hin.comparable hshare with hout | hover
    · exact h.share hout
    · exact hclimb hover fun k => .inr (.inl ⟨k, rfl⟩)
  · obtain ⟨w, name, rfl⟩ := h.named
    have hlen := hin.2.2.length_le
    simp [rootPlace, Place.descend] at hlen
  · exact hclimb hin fun j => .inr (.inl ⟨k + j, (Place.climb_add ..).symm⟩)
  · exact hclimb hin fun j => .inr (.inr ⟨k + j, (Place.climb_add ..).symm⟩)

theorem Outside.holeDisk_dir (h : Outside dirs hole) (content : Option DiskNode) {q : Place}
    (hq : q.Within (normalize dirs.share) ∨ Solid dirs q) : holeDisk hole content q = some .dir := by
  have hout := h.not_within hq
  have hne : q ≠ hole := fun heq => hout (heq ▸ Place.within_refl _)
  rw [holeDisk, if_neg hne, if_neg hout]

theorem Outside.wellFormed (h : Outside dirs hole) (content : Option DiskNode) :
    WellFormed dirs (holeDisk hole content) := by
  obtain ⟨w, name, rfl⟩ := h.named
  have hw : ¬ w.Within (w.descend [name]) := by
    intro hin
    have hlen := hin.2.2.length_le
    simp only [Place.descend, List.length_append, List.length_singleton] at hlen
    omega
  have hdir {q : Place} (hout : ¬ q.Within (w.descend [name])) :
      holeDisk (w.descend [name]) content q = some .dir := by
    have hne : q ≠ w.descend [name] := fun heq => hout (heq ▸ Place.within_refl _)
    rw [holeDisk, if_neg hne, if_neg hout]
  refine ⟨fun q hq => ?_, fun q hq => h.holeDisk_dir content (.inr hq)⟩
  by_cases hhole : q = w.descend [name]
  · subst hhole
    rw [Place.descend_leave]
    exact hdir hw
  · refine hdir fun hin => hq ?_
    rw [holeDisk, if_neg hhole, if_pos (hin.of_leave (by simp [Place.descend]))]

def onHole (hole : Place) (content : Option DiskNode) : PullDisk :=
  { disk := holeDisk hole content, touched := [], aborted := false }

-- Later operations leave a touch where it is.

theorem mem_touched_createDirs {t : Touch} (h : t ∈ s.touched) (refuses : Place → Bool) (at_ : Place)
    (ps : List Piece) : t ∈ (createDirs refuses s at_ ps).touched := by
  induction ps generalizing s at_ with
  | nil => exact h
  | cons piece ps ih =>
    rw [createDirs]
    split
    · exact ih h _
    · exact h
    · split
      · exact h
      · exact ih (List.mem_cons_of_mem _ h) _

theorem mem_touched_write {t : Touch} (h : t ∈ s.touched) {bytes : Bytes} :
    t ∈ ((write refuses base path touch s bytes).getD s.abort).touched := by
  unfold write
  split
  · exact h
  · split
    · exact h
    · exact List.mem_cons_of_mem _ h

theorem mem_touched_storeObject {t : Touch} (h : t ∈ s.touched) {bytes : Bytes} :
    t ∈ (storeObject refuses base path s bytes).touched := by
  unfold storeObject
  split
  · exact h
  · exact mem_touched_write h

theorem mem_touched_remove {t : Touch} (h : t ∈ s.touched) :
    t ∈ (remove refuses base path s).touched := by
  unfold remove
  split
  · exact h
  · split
    · split
      · exact h
      · exact List.mem_cons_of_mem _ h
    · exact h

section
variable {hole : Place}

theorem Outside.passable (h : Outside dirs hole) (content : Option DiskNode) {ps : List Piece}
    (hat : at_.Within (normalize dirs.share) ∨ Solid dirs at_) (hway : WayStays dirs at_ ps) :
    passable (holeDisk hole content) at_ ps = true := by
  induction ps generalizing at_ with
  | nil => simpa [PullDisk.passable] using h.holeDisk_dir content hat
  | cons piece ps ih =>
    rw [PullDisk.passable, h.holeDisk_dir content hat, ih hway.1 hway.2]
    rfl

theorem passable_of_not_through {content : Option DiskNode} {ps : List Piece}
    (h : ¬ Through at_ hole ps) : PullDisk.passable (holeDisk hole content) at_ ps = true := by
  have hdir {q : Place} (hout : ¬ q.Within hole) : holeDisk hole content q = some .dir := by
    have hne : q ≠ hole := fun heq => hout (heq ▸ Place.within_refl _)
    rw [holeDisk, if_neg hne, if_neg hout]
  induction ps generalizing at_ with
  | nil => simpa [PullDisk.passable] using hdir h
  | cons piece ps ih =>
    obtain ⟨hhere, hlater⟩ := not_or.mp h
    rw [PullDisk.passable, hdir hhere, ih hlater]
    rfl

theorem createDirs_of_passable {ps : List Piece} (h : PullDisk.passable s.disk at_ ps = true) :
    createDirs refuses s at_ ps = s := by
  induction ps generalizing at_ with
  | nil => rfl
  | cons piece ps ih =>
    simp only [PullDisk.passable, Bool.and_eq_true, decide_eq_true_eq] at h
    have hnext : s.disk (at_.enter piece) = some .dir := by
      cases ps with
      | nil => simpa [PullDisk.passable] using h.2
      | cons => exact (by simpa [PullDisk.passable] using h.2 : _ ∧ _).1
    rw [createDirs, hnext]
    exact ih h.2

theorem Solid.leave {place : Place} (h : Solid dirs place) : Solid dirs place.leave := by
  rcases h with rfl | ⟨k, rfl⟩ | ⟨k, rfl⟩
  · exact .inl rfl
  · exact .inr (.inl ⟨k + 1, rfl⟩)
  · exact .inr (.inr ⟨k + 1, rfl⟩)

/-- A way that leaves the share directory makes a directory outside. -/
theorem createDirs_outside {ps : List Piece}
    (hat : at_.Within (normalize dirs.share) ∨ Solid dirs at_) (hway : ¬ WayStays dirs at_ ps) :
    ∃ hole, Outside dirs hole ∧ .shared hole ∈
      (createDirs (fun _ => false) (onHole hole none) at_ ps).touched := by
  induction ps generalizing at_ with
  | nil => exact absurd trivial hway
  | cons piece ps ih =>
    by_cases hnext : (at_.enter piece).Within (normalize dirs.share) ∨ Solid dirs (at_.enter piece)
    · obtain ⟨hole, hout, hmem⟩ := ih hnext fun hrest => hway ⟨hnext, hrest⟩
      refine ⟨hole, hout, ?_⟩
      have hdir : (onHole hole none).disk (at_.enter piece) = some .dir := hout.holeDisk_dir none hnext
      rw [createDirs, hdir]
      exact hmem
    · have hout : Outside dirs (at_.enter piece) := by
        refine ⟨?_, (not_or.mp hnext).1, (not_or.mp hnext).2⟩
        rcases at_.enter_cases piece with heq | heq | ⟨-, heq⟩
        · rw [heq] at hnext
          exact absurd hat hnext
        · refine absurd ?_ hnext
          rw [heq]
          rcases hat with hin | hsolid
          · by_cases hshare : at_ = normalize dirs.share
            · exact .inr (Solid.leave (.inr (.inl ⟨0, hshare⟩)))
            · exact .inl (hin.leave hshare)
          · exact .inr hsolid.leave
        · exact ⟨at_, piece, heq⟩
      refine ⟨at_.enter piece, hout, ?_⟩
      have hnone : (onHole (at_.enter piece) none).disk (at_.enter piece) = none := by
        simp [onHole, holeDisk]
      rw [createDirs, hnone]
      exact mem_touched_createDirs (List.mem_cons_self ..) ..

end

section
variable {hole : Place} {entry : FileTreeEntry} {answer : PullAnswer}

/-- The server has the object, and the disk refuses nothing. -/
def found : PullAnswer := { got := some [], nowMs := 0, readable := true, refuses := fun _ => false }

def notFound : PullAnswer := { got := none, nowMs := 0, readable := true, refuses := fun _ => false }

theorem mem_touched_materialize {t : Touch} {symlinkView : Bool} {bytes : Bytes}
    (hnul : ¬ NulWay entry.path)
    (h : t ∈ (createDirs answer.refuses s (startOf dirs.share entry.path) (wayTo entry.path)).touched) :
    t ∈ (materialize symlinkView dirs answer s entry bytes).touched := by
  unfold materialize
  simp only [if_neg hnul]
  split
  · exact h
  · split
    · have hstored : t ∈ (storeObject answer.refuses dirs.objects entry.blobId _ bytes).touched :=
        mem_touched_storeObject h
      split
      · exact hstored
      · have hremoved : t ∈ (remove answer.refuses dirs.share entry.path _).touched :=
          mem_touched_remove hstored
        split
        · exact hremoved
        · exact mem_touched_write hremoved
    · exact mem_touched_write h

/-- Without files there is nothing to keep a copy of. -/
theorem keepConflict_onHole (sha256 : Bytes → Digest) (requester : String) (hole : Place)
    (entry : FileTreeEntry) :
    keepConflict sha256 dirs requester answer (onHole hole none) entry = onHole hole none := by
  have hread : (onHole hole none).read dirs.share entry.path = none := by
    by_contra hne
    obtain ⟨bytes, hsome⟩ := Option.ne_none_iff_exists'.mp hne
    obtain ⟨place, -, hfile⟩ := read_eq_some hsome
    simp only [onHole, holeDisk] at hfile
    split at hfile
    · cases hfile
    · split at hfile <;> cases hfile
  rw [keepConflict, hread, ite_self]

theorem start_good (dirs : PullDirs) (path : String) :
    (startOf dirs.share path).Within (normalize dirs.share) ∨ Solid dirs (startOf dirs.share path) := by
  unfold startOf
  split
  · exact .inr (.inl rfl)
  · exact .inl (Place.within_refl _)

theorem openAt_hole {content : Option DiskNode} (hfile : IsFilePath path)
    (hpass : PullDisk.passable (holeDisk hole content) (startOf base path) (wayTo path) = true)
    (hhole : normalize (join base path) = hole) :
    openAt base path (holeDisk hole content) = some hole :=
  openAt_eq_some.mpr ⟨⟨hfile, hpass⟩, hhole.symm⟩

theorem write_hole (hopen : openAt base path (holeDisk hole none) = some hole) (bytes : Bytes) :
    write (fun _ => false) base path touch (onHole hole none) bytes =
      some ((onHole hole none).put touch hole (some (.file bytes))) := by
  have hnone : (onHole hole none).disk hole = none := by simp [onHole, holeDisk]
  have hopen : openAt base path (onHole hole none).disk = some hole := hopen
  simp [write, hopen, hnone]

/-- The object is written before the link is made. -/
theorem mem_touched_object (hnul : ¬ NulWay entry.path) (hhole : normalize (join dirs.objects entry.blobId) = hole)
    (hmade : createDirs found.refuses (onHole hole none) (startOf dirs.share entry.path)
      (wayTo entry.path) = onHole hole none)
    (hpath : IsFilePath entry.blobId)
    (hpass : PullDisk.passable (holeDisk hole none) (startOf dirs.objects entry.blobId)
      (wayTo entry.blobId) = true) :
    .cached hole ∈ (materialize true dirs found (onHole hole none) entry []).touched := by
  have hnone : (onHole hole none).disk hole = none := by simp [onHole, holeDisk]
  have hexists : (onHole hole none).exists_ dirs.objects entry.blobId = false := by
    simp [exists_, hpath, hhole, hnone]
  have hwrite : write found.refuses dirs.objects entry.blobId .cached (onHole hole none) [] = some _ :=
    write_hole (openAt_hole hpath hpass hhole) []
  let stored := (onHole hole none).put .cached hole (some (.file []))
  have hstored : storeObject found.refuses dirs.objects entry.blobId (onHole hole none) [] = stored := by
    rw [storeObject, hexists, hwrite]
    rfl
  have hmem : .cached hole ∈ stored.touched := List.mem_cons_self ..
  have hgoing : (onHole hole none).aborted = false ∧ stored.aborted = false := ⟨rfl, rfl⟩
  have hremoved : .cached hole ∈ (remove found.refuses dirs.share entry.path stored).touched :=
    mem_touched_remove hmem
  simp only [materialize, if_neg hnul, hmade, hstored, hgoing, Bool.false_eq_true, if_false, if_true]
  split
  · exact hremoved
  · exact mem_touched_write hremoved

/-- An entry that does not stay reaches a place outside. -/
theorem pullEntry_outside (sha256 : Bytes → Digest) (requester : String)
    (h : ¬ EntryStays dirs entry) : ∃ symlinkView hole, Outside dirs hole ∧
      ∃ t ∈ (pullEntry sha256 symlinkView dirs requester found (onHole hole none) entry).touched,
        ¬ Confined dirs t := by
  have hmaterialized {symlinkView : Bool} {hole : Place} {t : Touch}
      (hmem : t ∈ (materialize symlinkView dirs found (onHole hole none) entry []).touched) :
      t ∈ (pullEntry sha256 symlinkView dirs requester found (onHole hole none) entry).touched := by
    have hgot : found.got = some [] := rfl
    simp only [pullEntry, hgot, keepConflict_onHole]
    split
    · exact hmem
    · exact mem_touched_storeObject hmem
  obtain ⟨hnul, h⟩ := not_or.mp h
  by_cases hway : WayStays dirs (startOf dirs.share entry.path) (wayTo entry.path)
  · have hmade {hole : Place} (hout : Outside dirs hole) :
        createDirs found.refuses (onHole hole none) (startOf dirs.share entry.path)
          (wayTo entry.path) = onHole hole none :=
      createDirs_of_passable (hout.passable none (start_good dirs entry.path) hway)
    by_cases hfile : FileStays dirs (·.Within (normalize dirs.share)) dirs.share entry.path
    · -- The object: it is written before the link is made.
      have hobject : ¬ FileStays dirs (fun place => Confined dirs (.cached place)) dirs.objects
          entry.blobId := fun hobject => h ⟨hway, hfile, hobject⟩
      simp only [FileStays, Classical.not_imp, not_or] at hobject
      obtain ⟨hpath, hallowed, hsolid, hthrough⟩ := hobject
      obtain ⟨hobjects, hshare⟩ := not_or.mp hallowed
      obtain ⟨name, hnamed⟩ := hpath.place dirs.objects
      have hout : Outside dirs (normalize (join dirs.objects entry.blobId)) :=
        ⟨⟨_, name, hnamed⟩, hshare, hsolid⟩
      refine ⟨true, _, hout, .cached (normalize (join dirs.objects entry.blobId)), hmaterialized ?_,
        hallowed⟩
      exact mem_touched_object hnul rfl (hmade hout) hpath (passable_of_not_through hthrough)
    · simp only [FileStays, Classical.not_imp, not_or] at hfile
      obtain ⟨hpath, hshare, hsolid, hthrough⟩ := hfile
      obtain ⟨name, hnamed⟩ := hpath.place dirs.share
      have hout : Outside dirs (normalize (join dirs.share entry.path)) :=
        ⟨⟨_, name, hnamed⟩, hshare, hsolid⟩
      refine ⟨false, _, hout, .shared (normalize (join dirs.share entry.path)), hmaterialized ?_, hshare⟩
      have hopen : openAt dirs.share entry.path (onHole _ none).disk = some _ :=
        openAt_hole hpath (passable_of_not_through hthrough) rfl
      have hwrite : write found.refuses dirs.share entry.path .shared (onHole _ none) [] = some _ :=
        write_hole hopen []
      have hgoing : (onHole (normalize (join dirs.share entry.path)) none).aborted = false := rfl
      simp only [materialize, if_neg hnul, hmade hout, hgoing, hwrite]
      exact List.mem_cons_self ..
  · obtain ⟨hole, hout, hmem⟩ := createDirs_outside (start_good dirs entry.path) hway
    exact ⟨false, hole, hout, .shared hole, hmaterialized (mem_touched_materialize hnul hmem), hout.share⟩

theorem mem_touched_removePaths {t : Touch} (h : t ∈ s.touched) (refuses : Place → Bool)
    (removed : List String) : t ∈ (removePaths dirs refuses removed s).touched := by
  unfold removePaths
  split
  · exact h
  · clear * - h
    induction removed generalizing s with
    | nil => exact h
    | cons p removed ih => exact ih (mem_touched_remove h)

section
variable {sha256 : Bytes → Digest} {symlinkView : Bool} {requester : String} {remote : FileTree}

theorem pullPaths_notFound (before rest : List String)
    (answers : List PullAnswer) :
    pullPaths sha256 symlinkView dirs requester remote (before ++ rest)
      (List.replicate before.length notFound ++ answers) s =
        pullPaths sha256 symlinkView dirs requester remote rest answers s := by
  induction before with
  | nil => rfl
  | cons p before ih =>
    have hsame : pullPath sha256 symlinkView dirs requester remote notFound s p = s := by
      unfold pullPath
      split
      · rfl
      · split <;> rfl
    rw [List.cons_append, List.length_cons, List.replicate_succ, List.cons_append, pullPaths, hsame]
    exact ih

theorem pullPaths_outside {changed : List String} {p : String} (hp : p ∈ changed)
    (hentry : remote.entryAt p = some entry) {t : Touch}
    (ht : t ∈ (pullEntry sha256 symlinkView dirs requester found (onHole hole none) entry).touched) :
    ∃ answers, t ∈ (pullPaths sha256 symlinkView dirs requester remote changed answers
      (onHole hole none)).touched := by
  obtain ⟨before, rest, rfl⟩ := List.append_of_mem hp
  refine ⟨List.replicate before.length notFound ++ [found], ?_⟩
  have hstep : pullPath sha256 symlinkView dirs requester remote found (onHole hole none) p =
      pullEntry sha256 symlinkView dirs requester found (onHole hole none) entry := by
    have hgoing : (onHole hole none).aborted = false := rfl
    simp [pullPath, hgoing, hentry]
  rw [pullPaths_notFound, pullPaths, hstep]
  cases rest <;> exact ht

end

/-- The only file there is goes when a path names it. -/
theorem remove_hole (base path : String) :
    remove (fun _ => false) base path (onHole hole (some (.file []))) = onHole hole (some (.file [])) ∨
      .shared hole ∈ (remove (fun _ => false) base path (onHole hole (some (.file [])))).touched := by
  unfold remove
  split
  · exact .inl rfl
  · rename_i place hopen
    split
    · rename_i bytes hfile
      have hplace : place = hole := by
        by_contra hne
        simp only [onHole, holeDisk, if_neg hne] at hfile
        split at hfile <;> cases hfile
      rw [hplace]
      exact .inr (List.mem_cons_self ..)
    · exact .inl rfl

theorem mem_touched_remove_hole (hfile : IsFilePath path)
    (hpass : PullDisk.passable (holeDisk hole (some (.file []))) (startOf base path) (wayTo path) = true)
    (hhole : normalize (join base path) = hole) :
    .shared hole ∈ (remove (fun _ => false) base path (onHole hole (some (.file [])))).touched := by
  have hopen : openAt base path (onHole hole (some (.file []))).disk = some hole :=
    openAt_hole hfile hpass hhole
  have hnode : (onHole hole (some (.file []))).disk hole = some (.file []) := by
    simp [onHole, holeDisk]
  simp [remove, hopen, hnode, put]

theorem removePaths_outside {removed : List String} {p : String} (hp : p ∈ removed)
    (hmem : .shared hole ∈ (remove (fun _ => false) dirs.share p (onHole hole (some (.file [])))).touched) :
    .shared hole ∈ (removePaths dirs (fun _ => false) removed (onHole hole (some (.file [])))).touched := by
  induction removed with
  | nil => cases hp
  | cons q removed ih =>
    have hlater {t : Touch} {s : PullDisk} (h : t ∈ s.touched) :
        t ∈ (removed.foldl (fun s p => remove (fun _ => false) dirs.share p s) s).touched := by
      clear * - h
      induction removed generalizing s with
      | nil => exact h
      | cons p removed ih => exact ih (mem_touched_remove h)
    rcases List.mem_cons.mp hp with rfl | hrest
    · exact hlater hmem
    · rcases remove_hole dirs.share q with hsame | htouched
      · have hrest := ih hrest
        simp only [removePaths, onHole, Bool.false_eq_true, if_false, List.foldl_cons] at hrest hsame ⊢
        rw [hsame]
        exact hrest
      · exact hlater htouched

end

-- ---------------------------------------------------------------------------
-- The pull stays exactly for the answers whose paths stay
-- ---------------------------------------------------------------------------

theorem pull_confined_iff (sha256 : Bytes → Digest) (dirs : PullDirs) (requester : String)
    (initial : Bool) (diff : FileDiffResult) :
    (∀ symlinkView answers refuses disk, WellFormed dirs disk →
      ∀ t ∈ (pull sha256 symlinkView dirs requester initial diff answers refuses
        ⟨disk, [], false⟩).touched, Confined dirs t) ↔ Stays dirs initial diff := by
  constructor
  · intro hconfined
    constructor
    · intro remote htree p hp entry hentry
      by_contra hstays
      obtain ⟨symlinkView, hole, hout, t, ht, hleaves⟩ := pullEntry_outside sha256 requester hstays
      obtain ⟨answers, ht⟩ := pullPaths_outside hp hentry ht
      refine hleaves (hconfined symlinkView answers (fun _ => false) _ (hout.wellFormed none) t ?_)
      simp only [pull, htree]
      exact mem_touched_removePaths ht ..
    · intro hinitial p hp hfile
      by_contra houtside
      obtain ⟨hshare, houtside⟩ := not_or.mp houtside
      obtain ⟨hsolid, hthrough⟩ := not_or.mp houtside
      obtain ⟨name, hnamed⟩ := hfile.place dirs.share
      have hout : Outside dirs (normalize (join dirs.share p)) := ⟨⟨_, name, hnamed⟩, hshare, hsolid⟩
      have hremoved := removePaths_outside hp
        (mem_touched_remove_hole hfile (passable_of_not_through hthrough) rfl)
      refine hshare (hconfined false (List.replicate diff.changed.length notFound) (fun _ => false) _
        (hout.wellFormed (some (.file []))) (.shared (normalize (join dirs.share p))) ?_)
      unfold pull
      split
      · rename_i htree
        rw [if_neg (by simp [hinitial htree])]
        exact hremoved
      · rename_i remote htree
        have hnothing : pullPaths sha256 false dirs requester remote (diff.changed ++ [])
            (List.replicate diff.changed.length notFound ++ [])
            (onHole (normalize (join dirs.share p)) (some (.file []))) = onHole _ _ :=
          pullPaths_notFound diff.changed [] []
        rw [List.append_nil, List.append_nil] at hnothing
        rw [← onHole, hnothing]
        exact hremoved
  · intro hstays symlinkView answers refuses disk hdisk t ht
    have hstart : Inv dirs ⟨disk, [], false⟩ := ⟨hdisk, fun t ht => by cases ht⟩
    exact (hstart.pull hstays answers).touched t ht

def homeDirs : PullDirs := { share := "/home/u/share", objects := "/home/u/.nsmt/objects" }

/-- A removed path that names a file beside the share directory. -/
def notesDiff : FileDiffResult :=
  { tree := some { treeHash := "", entries := [] }, changed := [], removed := ["../notes"] }

theorem notes_outside : Outside homeDirs (normalize "/home/u/notes") := by
  have hnot (dir : String) (habs : (normalize dir).absolute = true)
      (hout : ¬ (normalize dir).Within (normalize "/home/u/notes")) (k : Nat) :
      normalize "/home/u/notes" ≠ (normalize dir).climb k := by
    intro heq
    have hin := (Place.within_climb (normalize dir) habs k).1
    rw [← heq] at hin
    exact hout hin
  refine ⟨⟨normalize "/home/u", "notes".toList, by decide +kernel⟩, by decide +kernel, ?_⟩
  rintro (hroot | ⟨k, hshare⟩ | ⟨k, hobjects⟩)
  · exact absurd hroot (by decide +kernel)
  · exact hnot "/home/u/share" (by decide +kernel) (by decide +kernel) k hshare
  · exact hnot "/home/u/.nsmt/objects" (by decide +kernel) (by decide +kernel) k hobjects

theorem removed_escapes : ∃ disk, WellFormed homeDirs disk ∧
    Touch.shared (normalize "/home/u/notes") ∈ (pull Digest.sha256 false homeDirs
      "u/m/a" false notesDiff [] (fun _ => false) ⟨disk, [], false⟩).touched ∧
    ¬ Confined homeDirs (.shared (normalize "/home/u/notes")) := by
  refine ⟨_, notes_outside.wellFormed (some (.file [])), ?_, notes_outside.share⟩
  have hway : WayStays homeDirs (startOf homeDirs.share "../notes") (wayTo "../notes") :=
    ⟨.inr (.inr (.inl ⟨1, by decide +kernel⟩)), trivial⟩
  exact removePaths_outside (List.mem_singleton.mpr rfl) (mem_touched_remove_hole (by decide +kernel)
    (notes_outside.passable _ (start_good homeDirs "../notes") hway) (by decide +kernel))

end PullDisk

end Nsmt.Client
