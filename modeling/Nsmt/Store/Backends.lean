import Nsmt.Store.Isolation

/-!
# The backends and the store they stand for

An object is named by its hash, so `put` is documented to leave an object that
is there alone. The directory does, the buckets overwrite; a directory fails to
delete what is not there, and one with a prefix has nobody to create it.
`implements_iff` says on which operations that does not show.
-/

namespace Nsmt.Store

open Nsmt.Lib Nsmt.Lib.Paths

/-- 64 hexadecimal digits. -/
structure HexKey where
  text : String
  length_text : text.toList.length = 64
  digits : ∀ c ∈ text.toList, hexVal c ≠ none
  deriving DecidableEq

/-- The store as the trait documents it. -/
abbrev Objects := HexKey → Option Bytes

def Objects.run (objects : Objects) (op : HexKey × Action) : Answer × Objects :=
  match op.2 with
  | .put bytes =>
    (.done (.ok ()),
      if (objects op.1).isSome then objects else Function.update objects op.1 (some bytes))
  | .get => (.bytes (objects op.1), objects)
  | .exists_ => (.exists_ (objects op.1).isSome, objects)
  | .delete => (.done (.ok ()), Function.update objects op.1 none)

def ObjectStore.runHex {σ : Type} (store : ObjectStore σ) (s : σ) (op : HexKey × Action) : Answer × σ :=
  store.run s { key := op.1.text, action := op.2 }

/-- The objects a store has at first. -/
def ObjectStore.contents {σ : Type} (store : ObjectStore σ) (s : σ) : Objects := fun key =>
  store.get key.text s

-- ---------------------------------------------------------------------------
-- Operations that show no difference
-- ---------------------------------------------------------------------------

/-- On a directory: only what is there is deleted, and what is not there is put
only if the directory is there. -/
def SuitsDisk (dirThere : Bool) (objects : Objects) (op : HexKey × Action) : Prop :=
  match op.2 with
  | .put _ => (objects op.1).isSome = true ∨ dirThere = true
  | .delete => (objects op.1).isSome = true
  | .get | .exists_ => True

/-- What has been put under each key since it was deleted. -/
abbrev Puts := HexKey → List Bytes

def Puts.record (puts : Puts) (op : HexKey × Action) : Puts :=
  match op.2 with
  | .put bytes => Function.update puts op.1 (puts op.1 ++ [bytes])
  | .delete => Function.update puts op.1 []
  | .get | .exists_ => puts

/-- On a bucket: when a key is read, what was put first and what was put last are
the same. -/
def SuitsBucket (puts : Puts) (op : HexKey × Action) : Prop :=
  match op.2 with
  | .get => (puts op.1).head? = (puts op.1).getLast?
  | .put _ | .exists_ | .delete => True

section
variable {κ : Type} [DecidableEq κ] (encode : Piece → κ)

/-- The operations suit the store that `from_env_tenant` chooses. -/
def Suits (store : Option String) (s3 : Bool) (root : List Piece) (userDomain : String)
    (world : World κ) (ops : List (HexKey × Action)) : Prop :=
  let objects := (fromEnvTenant encode store s3 root userDomain).contents world
  let onBucket := AllSteps Puts.record SuitsBucket (fun key => (objects key).toList) ops
  let onDisk (dirThere : Bool) := AllSteps (next Objects.run) (SuitsDisk dirThere) objects ops
  match store with
  | some "s3" =>
    if s3 then onBucket
    -- Nobody creates the directory of the prefix below the root.
    else onDisk ((world.disk.createDirAll root).isDir (root ++ tenantSegments userDomain))
  | some "memory" => onBucket
  | _ => onDisk true

end

-- ---------------------------------------------------------------------------
-- Directories
-- ---------------------------------------------------------------------------

/-- An action on the file at `path`, with the store's root created on the way. -/
def onFile (root : List Piece) (disk : Disk) (path : List Piece) (action : Action) : Answer × Disk :=
  match action with
  | .put bytes =>
    if (disk.file path).isSome then (.done (.ok ()), disk.createDirAll root)
    else
      let (result, disk) := (disk.createDirAll root).write path bytes
      (.done result, disk)
  | .get => (.bytes (disk.file path), disk)
  | .exists_ => (.exists_ (disk.file path).isSome, disk)
  | .delete => let (result, disk) := disk.removeFile path; (.done result, disk)

section
variable {κ : Type}

theorem localObjectStore_run (root : List Piece) (world : World κ) (op : Op) :
    (localObjectStore root).run world op =
      ((onFile root world.disk (pathOf root op.key) op.action).1,
        { world with disk := (onFile root world.disk (pathOf root op.key) op.action).2 }) := by
  cases haction : op.action with
  | put bytes =>
    simp only [ObjectStore.run, haction, localObjectStore, onFile]
    by_cases hfile : (world.disk.file (pathOf root op.key)).isSome = true
    · simp [Disk.createDirAll, hfile]
    · simp [Disk.createDirAll, hfile]
  | _ => simp [ObjectStore.run, haction, localObjectStore, onFile]

@[simp] theorem createDirAll_file (disk : Disk) (root : List Piece) :
    (disk.createDirAll root).file = disk.file := rfl

theorem createDirAll_twice (disk : Disk) (root : List Piece) :
    (disk.createDirAll root).createDirAll root = disk.createDirAll root := by
  simp [Disk.createDirAll]

/-- The files of `dir` are the objects, and `dirThere` says whether it is there
once the root is created. -/
structure OnDisk (root dir : List Piece) (dirThere : Bool) (disk : Disk) (objects : Objects) : Prop where
  file : ∀ key : HexKey, disk.file (dir ++ [key.text.toList]) = objects key
  dir : (disk.createDirAll root).isDir dir = dirThere

theorem HexKey.text_inj {a b : HexKey} (h : a.text.toList = b.text.toList) : a = b := by
  cases a
  cases b
  simpa [String.toList_inj] using h

theorem path_inj {dir : List Piece} {a b : HexKey} :
    dir ++ [a.text.toList] = dir ++ [b.text.toList] ↔ a = b := by
  constructor
  · intro h
    exact HexKey.text_inj (List.cons.inj (List.append_cancel_left h)).1
  · rintro rfl
    rfl

theorem OnDisk.update {root dir : List Piece} {disk : Disk} {isDir : List Piece → Bool}
    (h : OnDisk root dir dirThere disk objects)
    (hdir : (Disk.createDirAll { disk with isDir } root).isDir dir = dirThere) (key : HexKey)
    (object : Option Bytes) :
    OnDisk root dir dirThere
      { isDir, file := Function.update disk.file (dir ++ [key.text.toList]) object }
      (Function.update objects key object) where
  file other := by
    by_cases hother : other = key
    · subst hother
      simp
    · rw [Function.update_of_ne hother]
      exact (Function.update_of_ne (mt path_inj.mp hother) ..).trans (h.file other)
  dir := hdir

/-- An action answers as the documented store does exactly if it suits the
directory, and then leaves it with the same objects. -/
theorem OnDisk.run {root dir : List Piece} {disk : Disk}
    (h : OnDisk root dir dirThere disk objects) (op : HexKey × Action) :
    ((onFile root disk (dir ++ [op.1.text.toList]) op.2).1 = (objects.run op).1 ↔
      SuitsDisk dirThere objects op) ∧
    (SuitsDisk dirThere objects op →
      OnDisk root dir dirThere (onFile root disk (dir ++ [op.1.text.toList]) op.2).2
        (objects.run op).2) := by
  obtain ⟨key, action⟩ := op
  have hfile := h.file key
  have hcreated : ((disk.createDirAll root).createDirAll root).isDir dir = dirThere := by
    rw [createDirAll_twice]
    exact h.dir
  cases action with
  | put bytes =>
    cases hobject : objects key with
    | some old =>
      simp only [onFile, Objects.run, SuitsDisk, hfile, hobject, Option.isSome_some, if_true, true_or,
        forall_const, true_and]
      exact ⟨h.file, hcreated⟩
    | none =>
      simp only [onFile, Objects.run, SuitsDisk, hfile, hobject, Option.isSome_none, Disk.write,
        List.dropLast_concat, h.dir, Bool.false_eq_true, if_false, false_or]
      cases dirThere with
      | true => exact ⟨by simp, fun _ => h.update hcreated key (some bytes)⟩
      | false => simp
  | get => simp [onFile, Objects.run, SuitsDisk, hfile, h]
  | exists_ => simp [onFile, Objects.run, SuitsDisk, hfile, h]
  | delete =>
    cases hobject : objects key with
    | some old =>
      simp only [onFile, Objects.run, SuitsDisk, Disk.removeFile, hfile, hobject, Option.isSome_some,
        forall_const, true_and]
      exact h.update h.dir key none
    | none => simp [onFile, Objects.run, SuitsDisk, Disk.removeFile, hfile, hobject]

theorem onDisk_iff {root dir : List Piece} {store : ObjectStore (World κ)} (world : World κ)
    (hstore : ∀ world op, store.runHex world op =
      ((onFile root world.disk (dir ++ [op.1.text.toList]) op.2).1,
        { world with disk := (onFile root world.disk (dir ++ [op.1.text.toList]) op.2).2 }))
    (ops : List (HexKey × Action)) :
    answers store.runHex world ops = answers Objects.run (store.contents world) ops ↔
      AllSteps (next Objects.run) (SuitsDisk ((world.disk.createDirAll root).isDir dir))
        (store.contents world) ops := by
  generalize hthere : (world.disk.createDirAll root).isDir dir = dirThere
  have hstart : OnDisk root dir dirThere world.disk (store.contents world) := by
    refine ⟨fun key => ?_, hthere⟩
    have hget := congrArg Prod.fst (hstore world (key, .get))
    simp only [ObjectStore.runHex, ObjectStore.run, onFile, Answer.bytes.injEq] at hget
    exact hget.symm
  have hproject : AllSteps (both store.runHex Objects.run) (fun st => SuitsDisk dirThere st.2)
      (world, store.contents world) ops ↔
      AllSteps (next Objects.run) (SuitsDisk dirThere) (store.contents world) ops :=
    AllSteps.map Prod.snd (fun st op => rfl) (SuitsDisk dirThere)
  rw [answers_eq_iff, ← hproject]
  refine AllSteps.iff_of_invariant (fun st => OnDisk root dir dirThere st.1.disk st.2) ?_ ?_ hstart
  · rintro ⟨world, objects⟩ op h
    rw [hstore]
    exact (h.run op).1
  · rintro ⟨world, objects⟩ op h hsuits
    simp only [both, next, hstore]
    exact (h.run op).2 hsuits

end

-- ---------------------------------------------------------------------------
-- Buckets
-- ---------------------------------------------------------------------------

section
variable {κ : Type} [DecidableEq κ] {path : HexKey → List κ}

omit [DecidableEq κ] in
/-- The bucket has what was put last, the documented store what was put first. -/
def OnBucket (path : HexKey → List κ) (bucket : Bucket κ) (objects : Objects) (puts : Puts) : Prop :=
  ∀ key, bucket (path key) = (puts key).getLast? ∧ objects key = (puts key).head?

omit [DecidableEq κ] in
/-- What is there at the start counts as put. -/
theorem OnBucket.start (h : ∀ key, bucket (path key) = objects key) :
    OnBucket path bucket objects fun key => (objects key).toList := by
  intro key
  cases hobject : objects key with
  | none => simp [h, hobject]
  | some old => simp [h, hobject]

theorem OnBucket.update (h : OnBucket path bucket objects puts) (hpath : Function.Injective path)
    {key : HexKey} {list : List Bytes} (hlast : last = list.getLast?) {objects' : Objects}
    (hfirst : objects' key = list.head?) (hother : ∀ other, other ≠ key → objects' other = objects other) :
    OnBucket path (Function.update bucket (path key) last) objects' (Function.update puts key list) := by
  intro other
  by_cases hk : other = key
  · subst hk
    simp [hlast, hfirst]
  · rw [Function.update_of_ne (hpath.ne hk), Function.update_of_ne hk, hother other hk]
    exact h other

theorem OnBucket.run (h : OnBucket path bucket objects puts) (hpath : Function.Injective path)
    (op : HexKey × Action) :
    ((onCell bucket (path op.1) op.2).1 = (objects.run op).1 ↔ SuitsBucket puts op) ∧
      OnBucket path (onCell bucket (path op.1) op.2).2 (objects.run op).2 (puts.record op) := by
  obtain ⟨key, action⟩ := op
  obtain ⟨hlast, hfirst⟩ := h key
  cases action with
  | put bytes =>
    simp only [onCell, cell, Objects.run, SuitsBucket, Puts.record, true_and]
    refine h.update hpath (by simp) ?_ fun other hother => ?_
    · cases hputs : puts key with
      | nil => simp [hfirst, hputs]
      | cons first rest => simp [hfirst, hputs]
    · split
      · rfl
      · exact Function.update_of_ne hother ..
  | get =>
    simp only [onCell, cell, Objects.run, SuitsBucket, Puts.record, hlast, hfirst, Answer.bytes.injEq]
    refine ⟨eq_comm, ?_⟩
    rwa [← hlast, Function.update_eq_self]
  | exists_ =>
    have hsame : (bucket (path key)).isSome = (objects key).isSome := by
      rw [hlast, hfirst]
      cases puts key with
      | nil => rfl
      | cons first rest => simp
    simp only [onCell, cell, Objects.run, SuitsBucket, Puts.record, Function.update_eq_self, hsame, true_and]
    exact h
  | delete =>
    simp only [onCell, cell, Objects.run, SuitsBucket, Puts.record, true_and]
    have hlast : (none : Option Bytes) = ([] : List Bytes).getLast? := rfl
    refine h.update hpath hlast ?_ fun other hother => ?_
    · exact Function.update_self ..
    · exact Function.update_of_ne hother ..

theorem onBucket_iff {store : ObjectStore (World κ)} (hpath : Function.Injective path)
    (hstore : ∀ world op, store.runHex world op =
      ((onCell world.bucket (path op.1) op.2).1,
        { world with bucket := (onCell world.bucket (path op.1) op.2).2 }))
    (world : World κ) (ops : List (HexKey × Action)) :
    answers store.runHex world ops = answers Objects.run (store.contents world) ops ↔
      AllSteps Puts.record SuitsBucket (fun key => (store.contents world key).toList) ops := by
  set objects := store.contents world
  set puts : Puts := fun key => (objects key).toList
  have hstart : OnBucket path world.bucket objects puts := by
    refine .start fun key => ?_
    have hget := congrArg Prod.fst (hstore world (key, .get))
    simp only [ObjectStore.runHex, ObjectStore.run, onCell, cell, Answer.bytes.injEq] at hget
    exact hget.symm
  let step (st : (World κ × Objects) × Puts) (op : HexKey × Action) :=
    (both store.runHex Objects.run st.1 op, st.2.record op)
  let same (st : World κ × Objects) (op : HexKey × Action) : Prop :=
    (store.runHex st.1 op).1 = (st.2.run op).1
  have hanswers : AllSteps step (fun st op => (store.runHex st.1.1 op).1 = (st.1.2.run op).1)
      ((world, objects), puts) ops ↔
      AllSteps (both store.runHex Objects.run)
        (fun st op => (store.runHex st.1 op).1 = (st.2.run op).1) (world, objects) ops :=
    AllSteps.map Prod.fst (fun st op => rfl) same
  have hputs : AllSteps step (fun st => SuitsBucket st.2) ((world, objects), puts) ops ↔
      AllSteps Puts.record SuitsBucket puts ops :=
    AllSteps.map Prod.snd (fun st op => rfl) SuitsBucket
  rw [answers_eq_iff, ← hanswers, ← hputs]
  refine AllSteps.iff_of_invariant (fun st => OnBucket path st.1.1.bucket st.1.2 st.2) ?_ ?_ hstart
  · rintro ⟨⟨world, objects⟩, puts⟩ op h
    simp only [hstore]
    exact (h.run hpath op).1
  · rintro ⟨⟨world, objects⟩, puts⟩ op h -
    simp only [step, both, next, hstore]
    exact (h.run hpath op).2

end

-- ---------------------------------------------------------------------------
-- The stores of `from_env_tenant`
-- ---------------------------------------------------------------------------

theorem HexKey.no_slash (key : HexKey) : '/' ∉ key.text.toList := by
  intro h
  exact key.digits '/' h (by decide)

theorem HexKey.segments (key : HexKey) : segments key.text = [key.text.toList] := by
  refine segments_name (fun h => ?_) key.no_slash
  have hlen := key.length_text
  rw [h] at hlen
  cases hlen

section
variable {κ : Type} [DecidableEq κ] {encode : Piece → κ}

omit [DecidableEq κ] in
theorem localObjectStore_runHex (root : List Piece) (world : World κ) (op : HexKey × Action) :
    (localObjectStore root).runHex world op =
      ((onFile root world.disk (root ++ [op.1.text.toList]) op.2).1,
        { world with disk := (onFile root world.disk (root ++ [op.1.text.toList]) op.2).2 }) := by
  rw [ObjectStore.runHex, localObjectStore_run, pathOf, if_neg, HexKey.segments]
  simp [isAbsolute_name op.1.no_slash]

omit [DecidableEq κ] in
theorem prefixedLocal_runHex (root : List Piece) (userDomain : String) (world : World κ)
    (op : HexKey × Action) :
    (PrefixedObjectStore.new (localObjectStore root) (tenantPrefix userDomain)).runHex world op =
      ((onFile root world.disk (root ++ tenantSegments userDomain ++ [op.1.text.toList]) op.2).1,
        { world with
          disk := (onFile root world.disk
            (root ++ tenantSegments userDomain ++ [op.1.text.toList]) op.2).2 }) := by
  have hpath : pathOf root (PrefixedObjectStore.key (tenantPrefix userDomain) op.1.text) =
      root ++ tenantSegments userDomain ++ [op.1.text.toList] := by
    have hrelative : isAbsolute (PrefixedObjectStore.key (tenantPrefix userDomain) op.1.text) = false := by
      rw [PrefixedObjectStore.key, slashed_tenantPrefix]
      simp [isAbsolute, tenantPrefix]
    rw [pathOf, hrelative, if_neg (by simp), segments_key, HexKey.segments, List.append_assoc]
  rw [ObjectStore.runHex, PrefixedObjectStore.new_run, localObjectStore_run, hpath]

/-- Where a bucket has the object of a tenant. -/
def bucketPath (encode : Piece → κ) (userDomain : String) (key : HexKey) : List κ :=
  (tenantSegments userDomain).map encode ++ [encode key.text.toList]

omit [DecidableEq κ] in
theorem bucketPath_injective (hencode : Function.Injective encode) (userDomain : String) :
    Function.Injective (bucketPath encode userDomain) := by
  intro a b h
  exact HexKey.text_inj (hencode (List.cons.inj (List.append_cancel_left h)).1)

theorem prefixedBucket_runHex (userDomain : String) (world : World κ) (op : HexKey × Action) :
    (PrefixedObjectStore.new (inWorld (bucketStore encode)) (tenantPrefix userDomain)).runHex world op =
      ((onCell world.bucket (bucketPath encode userDomain op.1) op.2).1,
        { world with
          bucket := (onCell world.bucket (bucketPath encode userDomain op.1) op.2).2 }) := by
  have hpath : objPath encode (PrefixedObjectStore.key (tenantPrefix userDomain) op.1.text) =
      bucketPath encode userDomain op.1 := by
    rw [objPath_key, objPath, HexKey.segments]
    rfl
  rw [ObjectStore.runHex, PrefixedObjectStore.new_run]
  obtain ⟨key, action⟩ := op
  cases action with
  | _ => simp [ObjectStore.run, inWorld, bucketStore, hpath, onCell, cell]

/-- A store answers as documented exactly if the operations suit it. -/
theorem implements_iff (hencode : Function.Injective encode) (store : Option String) (s3 : Bool)
    (root : List Piece) (userDomain : String) (world : World κ) (ops : List (HexKey × Action)) :
    answers (fromEnvTenant encode store s3 root userDomain).runHex world ops =
        answers Objects.run ((fromEnvTenant encode store s3 root userDomain).contents world) ops ↔
      Suits encode store s3 root userDomain world ops := by
  have hroot : (world.disk.createDirAll root).isDir root = true := by
    simp [Disk.createDirAll]
  have hbucket := onBucket_iff (bucketPath_injective hencode userDomain)
    (prefixedBucket_runHex userDomain) world ops
  unfold Suits
  split
  · cases s3 with
    | true => exact hbucket
    | false => exact onDisk_iff world (prefixedLocal_runHex root userDomain) ops
  · exact hbucket
  · rename_i hs3 hmemory
    have hlocal : fromEnvTenant encode store s3 root userDomain = localObjectStore root := by
      unfold fromEnvTenant
      split
      · exact absurd rfl hs3
      · exact absurd rfl hmemory
      · rfl
    rw [hlocal, ← hroot]
    exact onDisk_iff world (localObjectStore_runHex root) ops

/-- Sixty-four zeros. -/
def zeroKey : HexKey where
  text := String.ofList (List.replicate 64 '0')
  length_text := by simp
  digits := by
    intro c hc
    rw [String.toList_ofList] at hc
    obtain rfl := List.eq_of_mem_replicate hc
    decide

/-- Neither a directory nor an object. -/
def emptyWorld : World Piece where
  disk := { isDir := fun _ => false, file := fun _ => none }
  bucket := fun _ => none

/-- The directory of a tenant, asked for what has been put. -/
theorem implements_iff_local :
    answers (fromEnvTenant id none false ["objects".toList] "acme").runHex emptyWorld
        [(zeroKey, .put [1]), (zeroKey, .get)] =
      answers Objects.run ((fromEnvTenant id none false ["objects".toList] "acme").contents emptyWorld)
        [(zeroKey, .put [1]), (zeroKey, .get)] :=
  (implements_iff Function.injective_id none false ["objects".toList] "acme" emptyWorld
    [(zeroKey, .put [1]), (zeroKey, .get)]).mpr ⟨.inr rfl, trivial, trivial⟩

/-- The second `put` of a memory backend replaces the object. -/
theorem memory_put_overwrites : ¬ ∀ (store : Option String) (s3 : Bool) (root : List Piece)
    (userDomain : String) (world : World Piece) (ops : List (HexKey × Action)),
    answers (fromEnvTenant id store s3 root userDomain).runHex world ops =
      answers Objects.run ((fromEnvTenant id store s3 root userDomain).contents world) ops := by
  intro h
  have hread := h (some "memory") false [] "acme" emptyWorld
    [(zeroKey, .put [1]), (zeroKey, .put [2]), (zeroKey, .get)]
  revert hread
  decide +kernel

end

end Nsmt.Store
