import Nsmt.Lib.Answers
import Nsmt.Lib.Bytes
import Nsmt.Lib.Paths
import Mathlib.Logic.Function.Basic

/-!
# Object stores

The trait of `nsmt-fs` and what implements it: a directory of files, a map of
the `object_store` crate (S3 and memory are the same code), and a store in front
of another one that puts a prefix to the keys. `fromEnvTenant` is the choice
among them.
-/

namespace Nsmt.Store

open Nsmt.Lib Nsmt.Lib.Paths

/-- No such file or directory. -/
inductive IoError
  | notFound
  deriving DecidableEq, Repr

/-- What can be asked of the object under a key. -/
inductive Action
  | put (bytes : Bytes)
  | get
  | exists_
  | delete
  deriving DecidableEq, Repr

structure Op where
  key : String
  action : Action
  deriving DecidableEq, Repr

inductive Answer
  | done (result : Except IoError Unit)
  | bytes (object : Option Bytes)
  | exists_ (found : Bool)
  deriving DecidableEq

/-- The trait, over a state `σ` of the backend. -/
structure ObjectStore (σ : Type) where
  put : String → Bytes → σ → Except IoError Unit × σ
  get : String → σ → Option Bytes
  exists_ : String → σ → Bool
  delete : String → σ → Except IoError Unit × σ

namespace ObjectStore

variable {σ : Type}

def run (store : ObjectStore σ) (s : σ) (op : Op) : Answer × σ :=
  match op.action with
  | .put bytes => let (result, s) := store.put op.key bytes s; (.done result, s)
  | .get => (.bytes (store.get op.key s), s)
  | .exists_ => (.exists_ (store.exists_ op.key s), s)
  | .delete => let (result, s) := store.delete op.key s; (.done result, s)

end ObjectStore

-- ---------------------------------------------------------------------------
-- The local file system
-- ---------------------------------------------------------------------------

/-- What stands between the slashes of a path or key, empty pieces left out. -/
def segments (s : String) : List Piece := (pieces s.toList).filter (· ≠ [])

/-- Directories and the files in them, by their paths. What an object's key names
is never a directory. -/
structure Disk where
  isDir : List Piece → Bool
  file : List Piece → Option Bytes

/-- `create_dir_all`. -/
def Disk.createDirAll (disk : Disk) (path : List Piece) : Disk :=
  { disk with isDir := fun p => disk.isDir p || p.isPrefixOf path }

/-- `std::fs::write`, into a directory that must be there. -/
def Disk.write (disk : Disk) (path : List Piece) (bytes : Bytes) : Except IoError Unit × Disk :=
  if disk.isDir path.dropLast then
    (.ok (), { disk with file := Function.update disk.file path (some bytes) })
  else (.error .notFound, disk)

/-- `std::fs::remove_file`. -/
def Disk.removeFile (disk : Disk) (path : List Piece) : Except IoError Unit × Disk :=
  match disk.file path with
  | some _ => (.ok (), { disk with file := Function.update disk.file path none })
  | none => (.error .notFound, disk)

/-- `root.join(key)`; an absolute key replaces the root. -/
def pathOf (root : List Piece) (key : String) : List Piece :=
  if isAbsolute key then segments key else root ++ segments key

/-- Keys of the `object_store` crate are the segments of a path, each encoded by
`encode`. -/
abbrev Bucket (κ : Type) := List κ → Option Bytes

/-- `ObjPath::from`. -/
def objPath {κ : Type} (encode : Piece → κ) (key : String) : List κ := (segments key).map encode

/-- What the backends of a process act on: its disk, and the bucket of S3 or of
memory. -/
structure World (κ : Type) where
  disk : Disk
  bucket : Bucket κ

variable {κ : Type} [DecidableEq κ] (encode : Piece → κ)

def localObjectStore (root : List Piece) : ObjectStore (World κ) where
  put key bytes world :=
    let disk := world.disk.createDirAll root
    let path := pathOf root key
    if (disk.file path).isSome then (.ok (), { world with disk })
    else
      let (result, disk) := disk.write path bytes
      (result, { world with disk })
  get key world := world.disk.file (pathOf root key)
  exists_ key world := (world.disk.file (pathOf root key)).isSome
  delete key world :=
    let (result, disk) := world.disk.removeFile (pathOf root key)
    (result, { world with disk })

-- ---------------------------------------------------------------------------
-- Maps that overwrite
-- ---------------------------------------------------------------------------

/-- The crate's `put`, `get`, `head` and `delete` on a bucket. -/
def bucketStore : ObjectStore (Bucket κ) where
  put key bytes bucket := (.ok (), Function.update bucket (objPath encode key) (some bytes))
  get key bucket := bucket (objPath encode key)
  exists_ key bucket := (bucket (objPath encode key)).isSome
  delete key bucket := (.ok (), Function.update bucket (objPath encode key) none)

/-- A store that acts on the bucket of the process. -/
def inWorld (store : ObjectStore (Bucket κ)) : ObjectStore (World κ) where
  put key bytes world :=
    let (result, bucket) := store.put key bytes world.bucket
    (result, { world with bucket })
  get key world := store.get key world.bucket
  exists_ key world := store.exists_ key world.bucket
  delete key world :=
    let (result, bucket) := store.delete key world.bucket
    (result, { world with bucket })

def s3ObjectStore : ObjectStore (World κ) := inWorld (bucketStore encode)

def memoryObjectStore : ObjectStore (World κ) := inWorld (bucketStore encode)

-- ---------------------------------------------------------------------------
-- Prefixes
-- ---------------------------------------------------------------------------

/-- `trim_start_matches('/')`. -/
def trimStartSlashes (s : String) : String := String.ofList (s.toList.dropWhile (· = '/'))

namespace PrefixedObjectStore

/-- The prefix as `new` stores it, with a slash at its end. -/
def slashed (p : String) : String :=
  if p = "" ∨ p.toList.getLast? = some '/' then p else p ++ "/"

def key (p k : String) : String := slashed p ++ trimStartSlashes k

def new {σ : Type} (inner : ObjectStore σ) (p : String) : ObjectStore σ where
  put k bytes s := inner.put (key p k) bytes s
  get k s := inner.get (key p k) s
  exists_ k s := inner.exists_ (key p k) s
  delete k s := inner.delete (key p k) s

theorem new_run {σ : Type} (inner : ObjectStore σ) (p : String) (s : σ) (op : Op) :
    (new inner p).run s op = inner.run s { op with key := key p op.key } := by
  cases haction : op.action with
  | _ => simp [ObjectStore.run, haction, new]

end PrefixedObjectStore

def tenantPrefix (userDomain : String) : String := "t/" ++ userDomain ++ "/objects"

/-- `NSMT_OBJECT_STORE` is `store`, and `s3` whether S3 can be set up. -/
def fromEnvTenant (store : Option String) (s3 : Bool) (root : List Piece) (userDomain : String) :
    ObjectStore (World κ) :=
  let base :=
    match store with
    | some "s3" => if s3 then s3ObjectStore encode else localObjectStore root
    | some "memory" => memoryObjectStore encode
    | _ => localObjectStore root
  match store with
  | some "s3" | some "memory" => PrefixedObjectStore.new base (tenantPrefix userDomain)
  | _ => base

-- ---------------------------------------------------------------------------
-- Segments
-- ---------------------------------------------------------------------------

theorem segments_slash (a b : String) : segments (a ++ "/" ++ b) = segments a ++ segments b := by
  have h : (a ++ "/" ++ b).toList = a.toList ++ '/' :: b.toList := by simp
  rw [segments, h, pieces_append, List.filter_append]
  rfl

theorem segments_name {s : String} (hs : s ≠ "") (hslash : '/' ∉ s.toList) : segments s = [s.toList] := by
  have hne : s.toList ≠ [] := fun h => hs (String.toList_inj.mp h)
  rw [segments, pieces_name hslash]
  simp [hne]

theorem segments_trimStartSlashes (s : String) : segments (trimStartSlashes s) = segments s := by
  have h (cs : List Char) : (pieces (cs.dropWhile (· = '/'))).filter (· ≠ []) =
      (pieces cs).filter (· ≠ []) := by
    induction cs with
    | nil => rfl
    | cons c cs ih =>
      by_cases hc : c = '/'
      · rw [List.dropWhile_cons_of_pos (by simpa using hc), ih, pieces, if_pos hc]
        simp
      · rw [List.dropWhile_cons_of_neg (by simpa using hc)]
  rw [segments, trimStartSlashes, String.toList_ofList, h]
  rfl

/-- The segments every key of a tenant begins with. -/
def tenantSegments (userDomain : String) : List Piece := segments (tenantPrefix userDomain)

theorem slashed_tenantPrefix (userDomain : String) :
    PrefixedObjectStore.slashed (tenantPrefix userDomain) = tenantPrefix userDomain ++ "/" := by
  have hlast : (tenantPrefix userDomain).toList.getLast? = some 's' := by
    rw [tenantPrefix, String.toList_append, List.getLast?_append]
    rfl
  have hne : tenantPrefix userDomain ≠ "" := by
    intro h
    rw [h] at hlast
    cases hlast
  rw [PrefixedObjectStore.slashed, if_neg]
  simp [hlast, hne]

theorem segments_key (userDomain k : String) :
    segments (PrefixedObjectStore.key (tenantPrefix userDomain) k) =
      tenantSegments userDomain ++ segments k := by
  rw [PrefixedObjectStore.key, slashed_tenantPrefix, segments_slash, segments_trimStartSlashes]
  rfl

end Nsmt.Store
