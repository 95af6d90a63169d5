import Nsmt.Lib.DirPaths
import Nsmt.Server.Admin

/-!
# Archives of tenants

`tar_dir` writes the files of a directory one after the other, each with its path and
two lengths of 32 bits; `untar_dir` goes through the bytes of an archive and writes
what it finds below a directory. `restore_robust_iff` says when a restore does what
its reply says.
-/

namespace Nsmt.Server

open Nsmt.Lib Nsmt.Lib.Utf8 Nsmt.Lib.UnixPaths Nsmt.Lib.Dirs

/-- The disk of the server, with files of bytes. -/
abbrev ServerDisk := Disk Bytes

structure Record where
  rel : Bytes
  data : Bytes
  deriving DecidableEq, Repr

/-- The lengths are narrowed to `u32`. -/
def Record.toBytes (r : Record) : Bytes := le 4 r.rel.length ++ le 4 r.data.length ++ r.rel ++ r.data

/-- `&buf[i..j]`; `none` is a panic. -/
def sliceBytes (buf : Bytes) (i j : Nat) : Option Bytes :=
  if i ≤ j ∧ j ≤ buf.length then some ((buf.take j).drop i) else none

def u32At (buf : Bytes) (i : Nat) : Option Nat := (sliceBytes buf i (i + 4)).map ofLe

/-- A record and where the next one begins, or that the record is not complete. The outer
`none` is a panic. -/
def recordAt (buf : Bytes) (i : Nat) : Option (Option (Record × Nat)) :=
  (u32At buf i).bind fun relLen =>
    (u32At buf (i + 4)).bind fun dataLen =>
      if i + 8 + relLen + dataLen > buf.length then some none
      else
        (sliceBytes buf (i + 8) (i + 8 + relLen)).bind fun rel =>
          (sliceBytes buf (i + 8 + relLen) (i + 8 + relLen + dataLen)).map fun data =>
            some ({ rel := rel, data := data }, i + 8 + relLen + dataLen)

theorem recordAt_next {buf : Bytes} {i next : Nat} {r : Record} (h : recordAt buf i = some (some (r, next))) :
    i < next := by
  obtain ⟨relLen, -, h⟩ := Option.bind_eq_some_iff.mp h
  obtain ⟨dataLen, -, h⟩ := Option.bind_eq_some_iff.mp h
  split at h
  · cases h
  · obtain ⟨rel, -, h⟩ := Option.bind_eq_some_iff.mp h
    obtain ⟨data, -, h⟩ := Option.map_eq_some_iff.mp h
    cases h
    omega

/-- The disk, the number of files that were written, and the places of all files that
were opened for writing. -/
structure Extraction where
  disk : ServerDisk
  count : Nat
  targets : List (List Name)

section
variable (faults : Faults Bytes) (cwd dst : List Name)

/-- The path of a record, as text. -/
def Record.path (r : Record) : Bytes := encode (fromUtf8Lossy r.rel)

/-- A file below the destination, with the directories that its path needs. -/
def extractFile (d : ServerDisk) (r : Record) : ServerDisk × Bool :=
  ((d.createDirs faults [] (startOf dst r.path ++ wayTo r.path)).1).write dst r.path faults r.data

def extractStep (x : Extraction) (r : Record) : Extraction where
  disk := (extractFile faults dst x.disk r).1
  count := if (extractFile faults dst x.disk r).2 then x.count + 1 else x.count
  targets := x.targets ++ [placeOf dst r.path]

/-- The loop of `untar_dir`, from a position on. -/
def untarFrom (buf : Bytes) (i : Nat) (x : Extraction) : Option Extraction :=
  if i + 8 ≤ buf.length then
    match _h : recordAt buf i with
    | none => none
    | some none => some x
    | some (some (r, next)) => untarFrom buf next (extractStep faults dst x r)
  else some x
termination_by buf.length - i
decreasing_by
  have hnext := recordAt_next _h
  omega

/-- Errors while the destination is made are ignored. -/
def startAt (d : ServerDisk) : Extraction where
  disk := (d.createDirs faults [] dst).1
  count := 0
  targets := []

/-- `-1` stands for an archive that cannot be read. -/
def untarDir (archive : Bytes) (d : ServerDisk) : Option (Extraction × Int) :=
  match d.read cwd archive faults with
  | none => some ({ disk := d, count := 0, targets := [] }, -1)
  | some buf => (untarFrom faults dst buf 0 (startAt faults dst d)).map fun x => (x, x.count)

-- ---------------------------------------------------------------------------
-- The endpoint
-- ---------------------------------------------------------------------------

def sanitizeChar (c : Char) : Char := if c.isAlphanum || c = '-' || c = '_' then c else '_'

/-- The directory of a tenant; `server` is that of all tenants. -/
def tenantDir (server : List Name) (domain : Text) : List Name := placeOf server (encode (domain.map sanitizeChar))

structure RestoreReq where
  archive : Text
  domain : Text

inductive RestoreReply
  | error (message : Text)
  | restored (ok : Bool) (domain : Text) (entries : Nat)
  deriving DecidableEq

/-- What a restore does to the disk, the files it writes, and its reply. -/
def restoreTenant (cfg : AdminConfig) (token : Option String) (server : List Name) (b : RestoreReq) (d : ServerDisk) :
    Option (Extraction × RestoreReply) :=
  let untouched : Extraction := { disk := d, count := 0, targets := [] }
  if AdminState.authorized cfg token then
    if d.exists_ cwd (encode b.archive) then
      (untarDir faults cwd (tenantDir server b.domain) (encode b.archive) d).map fun (x, count) =>
        (x, .restored (count ≥ 0) b.domain count.toNat)
    else some (untouched, .error ("archive not found: ".toList ++ b.archive))
  else some (untouched, .error "unauthorized".toList)

end

-- ---------------------------------------------------------------------------
-- Reading records
-- ---------------------------------------------------------------------------

/-- Both lengths of a record fit their fields. -/
def Record.Fits (r : Record) : Prop := r.rel.length < 2 ^ 32 ∧ r.data.length < 2 ^ 32

/-- The bytes are these records and nothing else. -/
def Complete (buf : Bytes) (rs : List Record) : Prop := (∀ r ∈ rs, r.Fits) ∧ buf = rs.flatMap Record.toBytes

section
variable {faults : Faults Bytes} {dst : List Name} {buf front rest : Bytes} {i : Nat} {r : Record} {x : Extraction}

theorem sliceBytes_append (front mid rest : Bytes) :
    sliceBytes (front ++ mid ++ rest) front.length (front.length + mid.length) = some mid := by
  rw [sliceBytes, if_pos (by simp), ← List.length_append, List.take_left, List.drop_left]

theorem u32At_append {n : Nat} (h : n < 2 ^ 32) : u32At (front ++ le 4 n ++ rest) front.length = some n := by
  have hslice := sliceBytes_append front (le 4 n) rest
  rw [length_le] at hslice
  rw [u32At, hslice, Option.map_some, ofLe_le, Nat.mod_eq_of_lt (by omega)]

/-- A record whose lengths fit is read as it was written. -/
theorem recordAt_toBytes (h : r.Fits) :
    recordAt (front ++ r.toBytes ++ rest) front.length = some (some (r, (front ++ r.toBytes).length)) := by
  have hrel : u32At (front ++ r.toBytes ++ rest) front.length = some r.rel.length := by
    have hsplit : front ++ r.toBytes ++ rest =
        front ++ le 4 r.rel.length ++ (le 4 r.data.length ++ r.rel ++ r.data ++ rest) := by simp [Record.toBytes]
    rw [hsplit, u32At_append h.1]
  have hdata : u32At (front ++ r.toBytes ++ rest) (front.length + 4) = some r.data.length := by
    have hsplit : front ++ r.toBytes ++ rest =
        (front ++ le 4 r.rel.length) ++ le 4 r.data.length ++ (r.rel ++ r.data ++ rest) := by simp [Record.toBytes]
    have hlength : front.length + 4 = (front ++ le 4 r.rel.length).length := by simp
    rw [hsplit, hlength, u32At_append h.2]
  have hpath : sliceBytes (front ++ r.toBytes ++ rest) (front.length + 8) (front.length + 8 + r.rel.length) =
      some r.rel := by
    have hsplit : front ++ r.toBytes ++ rest =
        (front ++ le 4 r.rel.length ++ le 4 r.data.length) ++ r.rel ++ (r.data ++ rest) := by simp [Record.toBytes]
    have hlength : front.length + 8 = (front ++ le 4 r.rel.length ++ le 4 r.data.length).length := by simp
    rw [hsplit, hlength, sliceBytes_append]
  have hbytes : sliceBytes (front ++ r.toBytes ++ rest) (front.length + 8 + r.rel.length)
      (front.length + 8 + r.rel.length + r.data.length) = some r.data := by
    have hsplit : front ++ r.toBytes ++ rest =
        (front ++ le 4 r.rel.length ++ le 4 r.data.length ++ r.rel) ++ r.data ++ rest := by simp [Record.toBytes]
    have hlength : front.length + 8 + r.rel.length =
        (front ++ le 4 r.rel.length ++ le 4 r.data.length ++ r.rel).length := by
      simp
      omega
    rw [hsplit, hlength, sliceBytes_append]
  have hend : (front ++ r.toBytes).length = front.length + 8 + r.rel.length + r.data.length := by
    simp [Record.toBytes]
    omega
  have hin : ¬ front.length + 8 + r.rel.length + r.data.length > (front ++ r.toBytes ++ rest).length := by
    rw [← hend]
    simp
  rw [recordAt, hrel, Option.bind_some, hdata, Option.bind_some, if_neg hin, hpath, Option.bind_some, hbytes, hend]
  rfl

/-- The records of an archive that is nothing else are extracted one after the other. -/
theorem untarFrom_records {rs : List Record} (h : ∀ r ∈ rs, r.Fits) :
    untarFrom faults dst (front ++ rs.flatMap Record.toBytes) front.length x =
      some (rs.foldl (extractStep faults dst) x) := by
  induction rs generalizing front x with
  | nil =>
    rw [untarFrom, if_neg (by simp)]
    rfl
  | cons r rs ih =>
    obtain ⟨hr, hrs⟩ := List.forall_mem_cons.mp h
    have hsplit : front ++ (r :: rs).flatMap Record.toBytes = front ++ r.toBytes ++ rs.flatMap Record.toBytes := by simp
    have hroom : front.length + 8 ≤ (front ++ r.toBytes ++ rs.flatMap Record.toBytes).length := by
      simp [Record.toBytes]
      omega
    rw [hsplit, untarFrom, if_pos hroom]
    split
    · rename_i hnone
      rw [recordAt_toBytes hr] at hnone
      cases hnone
    · rename_i hnone
      rw [recordAt_toBytes hr] at hnone
      cases hnone
    · rename_i found next hfound
      rw [recordAt_toBytes hr] at hfound
      cases hfound
      exact ih hrs

theorem sliceBytes_isSome {j : Nat} (hi : i ≤ j) (hj : j ≤ buf.length) : ∃ bytes, sliceBytes buf i j = some bytes :=
  ⟨_, if_pos ⟨hi, hj⟩⟩

/-- With room for a header nothing is read out of bounds. -/
theorem recordAt_isSome (h : i + 8 ≤ buf.length) : recordAt buf i ≠ none := by
  obtain ⟨a, ha⟩ := sliceBytes_isSome (show i ≤ i + 4 by omega) (show i + 4 ≤ buf.length by omega)
  obtain ⟨b, hb⟩ := sliceBytes_isSome (show i + 4 ≤ i + 4 + 4 by omega) (show i + 4 + 4 ≤ buf.length by omega)
  rw [recordAt, u32At, ha, Option.map_some, Option.bind_some, u32At, hb, Option.map_some, Option.bind_some]
  split
  · simp
  · obtain ⟨rel, hrel⟩ := sliceBytes_isSome (show i + 8 ≤ i + 8 + ofLe a by omega)
      (show i + 8 + ofLe a ≤ buf.length by omega)
    obtain ⟨data, hdata⟩ := sliceBytes_isSome (show i + 8 + ofLe a ≤ i + 8 + ofLe a + ofLe b by omega)
      (show i + 8 + ofLe a + ofLe b ≤ buf.length by omega)
    rw [hrel, Option.bind_some, hdata]
    simp

theorem untarFrom_isSome : ∃ x', untarFrom faults dst buf i x = some x' := by
  fun_induction untarFrom faults dst buf i x with
  | case1 i x hroom hnone => exact absurd hnone (recordAt_isSome hroom)
  | case2 i x hroom hnone => exact ⟨x, rfl⟩
  | case3 i x hroom r next hfound ih => exact ih
  | case4 i x hroom => exact ⟨x, rfl⟩

end

-- ---------------------------------------------------------------------------
-- What a restore is to do
-- ---------------------------------------------------------------------------

section
variable (faults : Faults Bytes) (cwd : List Name) (cfg : AdminConfig) (token : Option String) (server : List Name)
  (b : RestoreReq) (d : ServerDisk)

/-- Every record is written when its turn comes. -/
def AllWritten (dst : List Name) (rs : List Record) : Prop :=
  AllSteps (fun d r => (extractFile faults dst d r).1) (fun d r => (extractFile faults dst d r).2 = true)
    (startAt faults dst d).disk rs

instance (dst : List Name) (rs : List Record) : Decidable (AllWritten faults d dst rs) :=
  inferInstanceAs (Decidable (AllSteps _ _ _ _))

/-- The place is below the destination. -/
def IsBelow (dst p : List Name) : Prop := dst <+: p ∧ p ≠ dst

instance (dst p : List Name) : Decidable (IsBelow dst p) := inferInstanceAs (Decidable (_ ∧ _))

/-- A restore ends, writes below the directory of the tenant, and says that it is well
only if the whole archive is records and all of them were written. -/
def RestoreRobust : Prop :=
  ∃ x reply, restoreTenant faults cwd cfg token server b d = some (x, reply) ∧
    (∀ p ∈ x.targets, IsBelow (tenantDir server b.domain) p) ∧
    ∀ domain entries, reply = .restored true domain entries →
      ∃ buf rs, d.read cwd (encode b.archive) faults = some buf ∧ Complete buf rs ∧
        AllWritten faults d (tenantDir server b.domain) rs

/-- An archive that is read has only records, which all stay below the directory of the
tenant and can be written. -/
def SoundArchive : Prop :=
  ∀ buf, d.read cwd (encode b.archive) faults = some buf →
    ∃ rs, Complete buf rs ∧ (∀ r ∈ rs, IsBelow (tenantDir server b.domain) (placeOf (tenantDir server b.domain) r.path)) ∧
      AllWritten faults d (tenantDir server b.domain) rs

end

section
variable {faults : Faults Bytes} {cwd dst : List Name} {d : ServerDisk} {archive : Bytes}

theorem exists_of_read {buf : Bytes} (h : d.read cwd archive faults = some buf) : d.exists_ cwd archive = true := by
  unfold Disk.read at h
  split at h
  · rename_i content hfind
    rw [Disk.exists_, hfind]
    rfl
  · cases h

theorem targets_foldl (rs : List Record) (x : Extraction) :
    (rs.foldl (extractStep faults dst) x).targets = x.targets ++ rs.map fun r => placeOf dst r.path := by
  induction rs generalizing x with
  | nil => simp
  | cons r rs ih =>
    rw [List.foldl_cons, ih]
    simp [extractStep]

/-- An archive that is nothing but records is extracted to their places. -/
theorem untarFrom_complete {buf : Bytes} {rs : List Record} (h : Complete buf rs) (x : Extraction) :
    untarFrom faults dst buf 0 x = some (rs.foldl (extractStep faults dst) x) := by
  have hrecords : untarFrom faults dst ([] ++ rs.flatMap Record.toBytes) 0 x = some (rs.foldl (extractStep faults dst) x) :=
    untarFrom_records h.1
  rwa [List.nil_append, ← h.2] at hrecords

theorem untarDir_isSome : ∃ x count, untarDir faults cwd dst archive d = some (x, count) := by
  unfold untarDir
  split
  · exact ⟨_, _, rfl⟩
  · rename_i buf _
    obtain ⟨x, hx⟩ : ∃ x, untarFrom faults dst buf 0 (startAt faults dst d) = some x := untarFrom_isSome
    exact ⟨x, x.count, by rw [hx]; rfl⟩

end

/-- A restore always ends; it is robust if and only if, for a caller with the token, the
archive that is read is sound. -/
theorem restore_robust_iff (faults : Faults Bytes) (cwd : List Name) (cfg : AdminConfig) (token : Option String)
    (server : List Name) (b : RestoreReq) (d : ServerDisk) :
    (restoreTenant faults cwd cfg token server b d).isSome = true ∧
      (RestoreRobust faults cwd cfg token server b d ↔
        (AdminState.authorized cfg token = true → SoundArchive faults cwd server b d)) := by
  obtain ⟨x, count, huntar⟩ : ∃ x count,
      untarDir faults cwd (tenantDir server b.domain) (encode b.archive) d = some (x, count) := untarDir_isSome
  by_cases hallowed : AdminState.authorized cfg token = true
  · by_cases hthere : d.exists_ cwd (encode b.archive) = true
    · have hrestore : restoreTenant faults cwd cfg token server b d =
          some (x, .restored (count ≥ 0) b.domain count.toNat) := by
        rw [restoreTenant, if_pos hallowed, if_pos hthere, huntar]
        rfl
      refine ⟨by rw [hrestore]; rfl, ?_⟩
      simp only [hallowed, true_imp_iff]
      constructor
      · rintro ⟨x', reply, heq, hbelow, hok⟩ buf hread
        rw [hrestore] at heq
        cases heq
        simp only [untarDir, hread] at huntar
        obtain ⟨x', hfrom, heq⟩ := Option.map_eq_some_iff.mp huntar
        cases heq
        obtain ⟨buf', rs, hread', hcomplete, hwritten⟩ := hok b.domain x.count (by simp)
        rw [hread] at hread'
        cases hread'
        refine ⟨rs, hcomplete, fun r hr => hbelow _ ?_, hwritten⟩
        rw [untarFrom_complete hcomplete, Option.some.injEq] at hfrom
        rw [← hfrom, targets_foldl]
        exact List.mem_append_right _ (List.mem_map_of_mem hr)
      · intro hsound
        refine ⟨x, _, hrestore, ?_, ?_⟩
        · cases hread : d.read cwd (encode b.archive) faults with
          | none =>
            simp only [untarDir, hread] at huntar
            cases huntar
            simp
          | some buf =>
            obtain ⟨rs, hcomplete, hbelow, -⟩ := hsound buf hread
            simp only [untarDir, hread, untarFrom_complete hcomplete, Option.map_some] at huntar
            cases huntar
            rw [targets_foldl]
            intro p hp
            obtain ⟨r, hr, rfl⟩ := List.mem_map.mp (by simpa [startAt] using hp)
            exact hbelow r hr
        · intro domain entries hreply
          cases hread : d.read cwd (encode b.archive) faults with
          | none =>
            simp only [untarDir, hread] at huntar
            cases huntar
            cases hreply
          | some buf =>
            obtain ⟨rs, hcomplete, -, hwritten⟩ := hsound buf hread
            exact ⟨buf, rs, rfl, hcomplete, hwritten⟩
    · have hrestore : restoreTenant faults cwd cfg token server b d = some ({ disk := d, count := 0, targets := [] },
          .error ("archive not found: ".toList ++ b.archive)) := by
        rw [restoreTenant, if_pos hallowed, if_neg hthere]
      refine ⟨by rw [hrestore]; rfl, iff_of_true ⟨_, _, hrestore, by simp, nofun⟩ fun _ buf hread => ?_⟩
      exact absurd (exists_of_read hread) hthere
  · have hrestore : restoreTenant faults cwd cfg token server b d =
        some ({ disk := d, count := 0, targets := [] }, .error "unauthorized".toList) := by
      rw [restoreTenant, if_neg hallowed]
    exact ⟨by rw [hrestore]; rfl, iff_of_true ⟨_, _, hrestore, by simp, nofun⟩ fun h => absurd h hallowed⟩

/-- A record whose path leads out of the directory of its tenant. -/
def escaping : Record where
  rel := encode "../x".toList
  data := []

/-- A disk with an archive of one record. -/
def archiveDisk (r : Record) : ServerDisk := ((Disk.bare).write [] (utf8 "a") .none r.toBytes).1

/-- A restore writes beside the directory of the tenant. -/
theorem restore_escapes : ¬ ∀ (faults : Faults Bytes) (cwd : List Name) (cfg : AdminConfig) (token : Option String)
    (server : List Name) (b : RestoreReq) (d : ServerDisk), RestoreRobust faults cwd cfg token server b d := by
  intro h
  obtain ⟨x, reply, hrestore, hbelow, -⟩ := h .none [] AdminState.tokenConfig (some "s3cret") [utf8 "s"]
    { archive := "a".toList, domain := "t".toList } (archiveDisk escaping)
  have hthere : (archiveDisk escaping).exists_ [] (encode "a".toList) = true := by decide +kernel
  have hread : (archiveDisk escaping).read [] (encode "a".toList) .none = some escaping.toBytes := by decide +kernel
  have hcomplete : Complete escaping.toBytes [escaping] :=
    ⟨List.forall_mem_singleton.mpr ⟨by decide, by decide⟩, by simp⟩
  have hallowed : AdminState.authorized AdminState.tokenConfig (some "s3cret") = true := rfl
  simp only [restoreTenant, hallowed, hthere, if_true, untarDir, hread, untarFrom_complete hcomplete,
    Option.map_some] at hrestore
  cases hrestore
  have hplace : placeOf (tenantDir [utf8 "s"] "t".toList) escaping.path = [utf8 "s", utf8 "x"] := by
    rw [Record.path, escaping, fromUtf8Lossy_encode]
    decide
  rw [targets_foldl] at hbelow
  have htarget : [utf8 "s", utf8 "x"] ∈ [escaping].map fun r => placeOf (tenantDir [utf8 "s"] "t".toList) r.path :=
    List.mem_map.mpr ⟨escaping, List.mem_singleton_self _, hplace⟩
  exact absurd (hbelow _ (List.mem_append_right _ htarget)) (by decide)

end Nsmt.Server
