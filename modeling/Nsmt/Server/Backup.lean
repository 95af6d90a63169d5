import Nsmt.Server.Archive

/-!
# Backups of tenants

What `tar_dir` writes of a directory and what `untar_dir` makes of it elsewhere.
`restore_undoes_backup_iff` says that this is the same files if and only if the length
of each fits into 32 bits.
-/

namespace Nsmt.Server

open Nsmt.Lib Nsmt.Lib.Utf8 Nsmt.Lib.UnixPaths Nsmt.Lib.Dirs

section
variable (faults : Faults Bytes) (cwd src : List Name)

/-- The files below a directory, in the order in which `read_dir` gives them. -/
def collectFiles (d : ServerDisk) : List (List Name) := d.files (fun _ => false) src

/-- The record of a file, if it can be read. -/
def recordOf (d : ServerDisk) (rel : List Name) : Option Record :=
  match d.node (src ++ rel) with
  | some (.file data) =>
    if faults.unread (src ++ rel) then none
    else some { rel := encode (fromUtf8Lossy (joined rel)), data := data }
  | _ => none

/-- `listing` is what `collect_files` has found. `-1` stands for an archive that cannot be
written. -/
def tarDir (out : Bytes) (listing : List (List Name)) (d : ServerDisk) : ServerDisk × Int :=
  let records := listing.filterMap (recordOf faults src d)
  let (d, ok) := d.write cwd out faults (records.flatMap Record.toBytes)
  (d, if ok then records.length else -1)

end

-- ---------------------------------------------------------------------------
-- What one record does
-- ---------------------------------------------------------------------------

section
variable {src dst rel : List Name} {d : ServerDisk} {r : Record}

/-- Where no file is in the way, a record becomes a file, and there are directories in
front of it. -/
theorem extractFile_spec (hdst : ∀ name ∈ dst, IsName name) (hrel : ∀ name ∈ rel, IsName name) (hne : rel ≠ [])
    (hpath : r.path = joined rel) (hfree : ∀ q, q <+: dst ++ rel.dropLast → ¬ d.IsFile q)
    (htarget : d.node (dst ++ rel) ≠ some .dir) :
    (extractFile .none dst d r).2 = true ∧ ∀ p, (extractFile .none dst d r).1.node p =
      if p = dst ++ rel then some (.file r.data) else if p <+: dst ++ rel.dropLast then some .dir else d.node p := by
  have hpieces : ∀ name ∈ dst ++ rel.dropLast, IsName name := fun name hname =>
    (List.mem_append.mp hname).elim (hdst name) fun hname => hrel name (List.mem_of_mem_dropLast hname)
  have hscan {q : List Name} : q ∈ (dst ++ rel.dropLast).scanl enter [] ↔ q <+: dst ++ rel.dropLast := by
    rw [mem_scanl_names hpieces]
    simp
  have hok : (d.createDirs .none [] (dst ++ rel.dropLast)).2 = true := by
    refine Disk.createDirs_ok d.root fun q hq => ?_
    have hnot := hfree q (hscan.mp hq)
    cases hnode : d.node q with
    | none => exact .inr ⟨rfl, rfl, fun name hname => hpieces name ((hscan.mp hq).subset hname)⟩
    | some node =>
      cases node with
      | dir => exact .inl rfl
      | file content => exact absurd ⟨content, hnode⟩ hnot
  have hmade (q : List Name) (hq : q <+: dst ++ rel.dropLast) :
      (d.createDirs .none [] (dst ++ rel.dropLast)).1.node q = some .dir :=
    Disk.dirs_of_createDirs d.root hok q (hscan.mpr hq)
  have hkept (q : List Name) (hq : ¬ q <+: dst ++ rel.dropLast) :
      (d.createDirs .none [] (dst ++ rel.dropLast)).1.node q = d.node q :=
    Disk.node_createDirs fun hmem => hq (hscan.mp hmem)
  have hbelow : ¬ dst ++ rel <+: dst ++ rel.dropLast := by
    intro hle
    have hlength := hle.length_le
    have hpos := List.length_pos_of_ne_nil hne
    simp only [List.length_append, List.length_dropLast] at hlength
    omega
  have hwrite : (extractFile .none dst d r).2 = true := by
    rw [extractFile, hpath, startOf_joined dst hrel, wayTo_joined hrel hne]
    refine Disk.write_joined_ok hrel hne (fun front hfront => ?_) ?_ rfl rfl
    · exact hmade _ ((List.prefix_append_right_inj dst).mpr hfront)
    · rwa [hkept _ hbelow]
  refine ⟨hwrite, fun p => ?_⟩
  rw [extractFile, hpath, startOf_joined dst hrel, wayTo_joined hrel hne] at hwrite ⊢
  have hwritten := (Disk.write_cases _ _ _ _ _).resolve_left fun hsame => by
    rw [hsame] at hwrite
    cases hwrite
  rw [hwritten.node, placeOf_joined dst hrel hne]
  split
  · rfl
  · split
    · rename_i hq
      exact hmade p hq
    · rename_i hq
      exact hkept p hq

end

-- ---------------------------------------------------------------------------
-- What a backup and a restore are to do
-- ---------------------------------------------------------------------------

/-- Nothing lies below the destination, and no file is on the way to it. -/
structure EmptyDestination (d : ServerDisk) (dst : List Name) : Prop where
  names : ∀ name ∈ dst, IsName name
  clear : ∀ q, q <+: dst → ¬ d.IsFile q
  empty : ∀ rel, rel ≠ [] → d.node (dst ++ rel) = none

/-- Both report the number of files, and what is extracted of the archive has the same
files with the same bytes. -/
def RestoresBackup (cwd src dst : List Name) (out : Bytes) (listing : List (List Name)) (d : ServerDisk) : Prop :=
  ∃ x count, untarDir .none cwd dst out (tarDir .none cwd src out listing d).1 = some (x, count) ∧
    (tarDir .none cwd src out listing d).2 = listing.length ∧ count = listing.length ∧
    ∀ rel data, x.disk.node (dst ++ rel) = some (.file data) ↔ d.node (src ++ rel) = some (.file data)

/-- These files have been extracted, and nothing else but directories for them. -/
structure Unpacked (s : ServerDisk) (src dst : List Name) (done : List (List Name)) (d : ServerDisk) : Prop where
  file_iff : ∀ rel data, d.node (dst ++ rel) = some (.file data) ↔ rel ∈ done ∧ s.node (src ++ rel) = some (.file data)
  dirs : ∀ rel, d.node (dst ++ rel) = some .dir → rel = [] ∨ s.node (src ++ rel) = some .dir
  clear : ∀ q, q <+: dst → ¬ d.IsFile q

section
variable {s d : ServerDisk} {cwd src dst rel : List Name} {done listing : List (List Name)} {r : Record} {data : Bytes}
  {out buf : Bytes}

/-- What lies in front of a file is no file. -/
theorem isDir_of_front (hfile : s.node (src ++ rel) = some (.file data)) (hne : rel ≠ []) {front : List Name}
    (hfront : front <+: rel.dropLast) : s.node (src ++ front) = some .dir := by
  obtain ⟨more, hmore⟩ := hfront.trans (List.dropLast_prefix rel)
  have hlater : more ≠ [] := by
    rintro rfl
    have hlength := hfront.length_le
    have hpos := List.length_pos_of_ne_nil hne
    rw [List.append_nil] at hmore
    rw [hmore, List.length_dropLast] at hlength
    omega
  refine Disk.isDir_of_below (q := more) ?_ hlater
  rw [List.append_assoc, hmore, hfile]
  simp

theorem Unpacked.step (h : Unpacked s src dst done d) (hdst : ∀ name ∈ dst, IsName name)
    (hfile : s.node (src ++ rel) = some (.file r.data)) (hne : rel ≠ []) (hpath : r.path = joined rel) :
    (extractFile .none dst d r).2 = true ∧ Unpacked s src dst (done ++ [rel]) (extractFile .none dst d r).1 := by
  have hrel : ∀ name ∈ rel, IsName name := fun name hname =>
    s.named _ (by simp [hfile]) name (List.mem_append_right src hname)
  have hfree : ∀ q, q <+: dst ++ rel.dropLast → ¬ d.IsFile q := by
    rintro q hq ⟨content, hcontent⟩
    rcases List.prefix_or_prefix_of_prefix hq (List.prefix_append dst rel.dropLast) with hle | ⟨front, rfl⟩
    · exact h.clear q hle ⟨content, hcontent⟩
    · have hfront : front <+: rel.dropLast := (List.prefix_append_right_inj dst).mp hq
      have hsame := ((h.file_iff front content).mp hcontent).2
      rw [isDir_of_front hfile hne hfront] at hsame
      cases hsame
  have htarget : d.node (dst ++ rel) ≠ some .dir := by
    intro hdir
    rcases h.dirs rel hdir with hnil | hdir
    · exact hne hnil
    · rw [hfile] at hdir
      cases hdir
  obtain ⟨hok, hnode⟩ := extractFile_spec hdst hrel hne hpath hfree htarget
  have hbelow (rel' : List Name) : (extractFile .none dst d r).1.node (dst ++ rel') =
      if rel' = rel then some (.file r.data) else if rel' <+: rel.dropLast then some .dir else d.node (dst ++ rel') := by
    simp only [hnode, List.append_right_inj, List.prefix_append_right_inj]
  refine ⟨hok, fun rel' data => ?_, fun rel' hdir => ?_, ?_⟩
  · rw [hbelow, List.mem_append, List.mem_singleton]
    split
    · rename_i heq
      rw [heq, hfile]
      simp
    · rename_i hother
      split
      · rename_i hfront
        rw [isDir_of_front hfile hne hfront]
        simp
      · rw [h.file_iff]
        simp [hother]
  · rw [hbelow] at hdir
    split at hdir
    · cases hdir
    · split at hdir
      · rename_i hfront
        exact .inr (isDir_of_front hfile hne hfront)
      · exact h.dirs rel' hdir
  · rintro q hq ⟨content, hcontent⟩
    have hshort : q ≠ dst ++ rel := by
      rintro rfl
      have hlength := hq.length_le
      have hpos := List.length_pos_of_ne_nil hne
      rw [List.length_append] at hlength
      omega
    rw [hnode, if_neg hshort, if_pos (hq.trans (List.prefix_append ..))] at hcontent
    cases hcontent

/-- All records of a list are extracted and counted. -/
theorem Unpacked.foldl (hdst : ∀ name ∈ dst, IsName name) {x : Extraction} (h : Unpacked s src dst done x.disk)
    (hfiles : ∀ rel ∈ listing, rel ≠ [] ∧ IsText (joined rel) ∧ s.IsFile (src ++ rel)) :
    Unpacked s src dst (done ++ listing)
        ((listing.filterMap (recordOf .none src s)).foldl (extractStep .none dst) x).disk ∧
      ((listing.filterMap (recordOf .none src s)).foldl (extractStep .none dst) x).count = x.count + listing.length := by
  induction listing generalizing done x with
  | nil => simpa using h
  | cons rel listing ih =>
    obtain ⟨⟨hne, ⟨cs, hcs⟩, data, hdata⟩, hothers⟩ := List.forall_mem_cons.mp hfiles
    have hrecord : recordOf .none src s rel = some { rel := joined rel, data := data } := by
      rw [recordOf, hdata, ← hcs, fromUtf8Lossy_encode]
      rfl
    have hpath : Record.path { rel := joined rel, data := data } = joined rel := by
      rw [Record.path, ← hcs, fromUtf8Lossy_encode]
    obtain ⟨hok, hstep⟩ := h.step (r := { rel := joined rel, data := data }) hdst hdata hne hpath
    obtain ⟨hdisk, hcount⟩ := ih (x := extractStep .none dst x { rel := joined rel, data := data }) hstep hothers
    rw [List.filterMap_cons_some hrecord, List.foldl_cons, hcount]
    have hone : (extractStep .none dst x { rel := joined rel, data := data }).count = x.count + 1 := if_pos hok
    refine ⟨by simpa using hdisk, ?_⟩
    rw [hone, List.length_cons]
    omega

theorem unpacked_start (hempty : EmptyDestination d dst) : Unpacked s src dst [] (startAt .none dst d).disk := by
  have hfile {p : List Name} {content : Bytes} : (startAt .none dst d).disk.node p = some (.file content) ↔
      d.node p = some (.file content) := (Disk.keeps_createDirs d .none [] dst p).file_iff
  refine ⟨fun rel data => ?_, fun rel hdir => ?_, fun q hq => ?_⟩
  · rw [hfile]
    by_cases hnil : rel = []
    · have hclear := hempty.clear dst List.prefix_rfl
      rw [hnil, List.append_nil]
      simp only [List.not_mem_nil, false_and, iff_false]
      exact fun hnode => hclear ⟨data, hnode⟩
    · simp [hempty.empty rel hnil]
  · by_contra hnot
    rw [not_or] at hnot
    have hmade : dst ++ rel ∉ dst.scanl enter [] := by
      rw [mem_scanl_names hempty.names]
      rintro ⟨front, hfront, heq⟩
      rw [List.nil_append] at heq
      rw [← heq] at hfront
      have hlength := hfront.length_le
      have hpos := List.length_pos_of_ne_nil hnot.1
      rw [List.length_append] at hlength
      omega
    have hsame : (startAt .none dst d).disk.node (dst ++ rel) = d.node (dst ++ rel) := Disk.node_createDirs hmade
    rw [hsame, hempty.empty rel hnot.1] at hdir
    cases hdir
  · rintro ⟨content, hcontent⟩
    exact hempty.clear q hq ⟨content, hfile.mp hcontent⟩

-- ---------------------------------------------------------------------------
-- Long files
-- ---------------------------------------------------------------------------

theorem u32At_lt {i n : Nat} (h : u32At buf i = some n) : n < 2 ^ 32 := by
  obtain ⟨bytes, hbytes, rfl⟩ := Option.map_eq_some_iff.mp h
  unfold sliceBytes at hbytes
  split at hbytes
  · rename_i hin
    cases hbytes
    have hlt := ofLe_lt ((buf.take (i + 4)).drop i)
    have hlength : ((buf.take (i + 4)).drop i).length = 4 := by
      rw [List.length_drop, List.length_take]
      omega
    rw [hlength] at hlt
    omega
  · cases hbytes

/-- No record that is read has more bytes than its field can say. -/
theorem recordAt_short {i next : Nat} (h : recordAt buf i = some (some (r, next))) : r.data.length < 2 ^ 32 := by
  obtain ⟨relLen, -, h⟩ := Option.bind_eq_some_iff.mp h
  obtain ⟨dataLen, hdataLen, h⟩ := Option.bind_eq_some_iff.mp h
  split at h
  · cases h
  · obtain ⟨rel, -, h⟩ := Option.bind_eq_some_iff.mp h
    obtain ⟨data, hdata, h⟩ := Option.map_eq_some_iff.mp h
    cases h
    unfold sliceBytes at hdata
    split at hdata
    · cases hdata
      have hlt := u32At_lt hdataLen
      rw [List.length_drop, List.length_take]
      omega
    · cases hdata

/-- Files that an archive has made are not longer than a field can say. -/
theorem untarFrom_short {i : Nat} {x x' : Extraction} (h : untarFrom .none dst buf i x = some x') {p : List Name}
    (hfile : x'.disk.node p = some (.file data)) : x.disk.node p = some (.file data) ∨ data.length < 2 ^ 32 := by
  fun_induction untarFrom .none dst buf i x with
  | case1 => cases h
  | case2 =>
    cases h
    exact .inl hfile
  | case3 i x hroom r next hfound ih =>
    rcases ih h with hbefore | hshort
    · rw [extractStep, extractFile] at hbefore
      dsimp only at hbefore
      rcases Disk.write_cases (x.disk.createDirs .none [] (startOf dst r.path ++ wayTo r.path)).1 dst r.path .none
        r.data with hsame | hwritten
      · rw [hsame] at hbefore
        exact .inl ((Disk.keeps_createDirs ..).file_iff.mp hbefore)
      · rw [hwritten.node] at hbefore
        split at hbefore
        · cases hbefore
          exact .inr (recordAt_short hfound)
        · exact .inl ((Disk.keeps_createDirs ..).file_iff.mp hbefore)
    · exact .inr hshort
  | case4 =>
    cases h
    exact .inl hfile

-- ---------------------------------------------------------------------------
-- Backup and restore
-- ---------------------------------------------------------------------------

theorem mem_collectFiles : rel ∈ collectFiles src d ↔ rel ≠ [] ∧ d.IsFile (src ++ rel) := by
  rw [collectFiles, Disk.mem_files]
  simp [Disk.IsFile]

/-- Every file that was found and can be read has its record. -/
theorem length_records (hfiles : ∀ rel ∈ listing, d.IsFile (src ++ rel)) :
    (listing.filterMap (recordOf .none src d)).length = listing.length := by
  induction listing with
  | nil => rfl
  | cons rel listing ih =>
    obtain ⟨⟨data, hdata⟩, hothers⟩ := List.forall_mem_cons.mp hfiles
    have hrecord : recordOf .none src d rel = some { rel := encode (fromUtf8Lossy (joined rel)), data := data } := by
      rw [recordOf, hdata]
      rfl
    rw [List.filterMap_cons_some hrecord, List.length_cons, ih hothers, List.length_cons]

/-- The bytes that `tar_dir` writes. -/
def tarBytes (src : List Name) (listing : List (List Name)) (d : ServerDisk) : Bytes :=
  (listing.filterMap (recordOf .none src d)).flatMap Record.toBytes

/-- An archive that is written is there, and everything else is as it was. -/
theorem tarDir_written (h : 0 ≤ (tarDir .none cwd src out listing d).2) :
    (tarDir .none cwd src out listing d).2 = (listing.filterMap (recordOf .none src d)).length ∧
      (tarDir .none cwd src out listing d).1.read cwd out .none = some (tarBytes src listing d) ∧
      ∀ p, p ≠ placeOf cwd out → (tarDir .none cwd src out listing d).1.node p = d.node p := by
  have hok : (d.write cwd out .none (tarBytes src listing d)).2 = true := by
    by_contra hfailed
    have hcount : (tarDir .none cwd src out listing d).2 = -1 := if_neg hfailed
    rw [hcount] at h
    exact absurd h (by decide)
  refine ⟨if_pos hok, Disk.read_write hok rfl, fun p hp => ?_⟩
  have hwritten := (Disk.write_cases d cwd out .none (tarBytes src listing d)).resolve_left fun hsame => by
    rw [hsame] at hok
    cases hok
  have hnode := hwritten.node p
  rwa [if_neg hp] at hnode

theorem EmptyDestination.tarDir (h : EmptyDestination d dst)
    (hout : ¬ dst <+: placeOf cwd out ∧ ¬ placeOf cwd out <+: dst)
    (hwritten : 0 ≤ (tarDir .none cwd src out listing d).2) :
    EmptyDestination (tarDir .none cwd src out listing d).1 dst := by
  obtain ⟨-, -, hsame⟩ := tarDir_written hwritten
  refine ⟨h.names, ?_, fun rel hne => ?_⟩
  · rintro q hq ⟨content, hcontent⟩
    rw [hsame q fun heq => hout.2 (heq ▸ hq)] at hcontent
    exact h.clear q hq ⟨content, hcontent⟩
  · rw [hsame _ fun heq => hout.1 (heq ▸ List.prefix_append ..), h.empty rel hne]

theorem complete_tarBytes (hfiles : ∀ rel ∈ listing, IsText (joined rel)) (hpaths : ∀ rel ∈ listing, (joined rel).length < 2 ^ 32)
    (hshort : ∀ rel ∈ listing, ∀ data, d.node (src ++ rel) = some (.file data) → data.length < 2 ^ 32) :
    Complete (tarBytes src listing d) (listing.filterMap (recordOf .none src d)) := by
  refine ⟨fun r hr => ?_, rfl⟩
  obtain ⟨rel, hrel, hrecord⟩ := List.mem_filterMap.mp hr
  unfold recordOf at hrecord
  split at hrecord
  · rename_i data hdata
    cases hrecord
    obtain ⟨cs, hcs⟩ := hfiles rel hrel
    refine ⟨?_, hshort rel hrel data hdata⟩
    show (encode (fromUtf8Lossy (joined rel))).length < 2 ^ 32
    rw [← hcs, fromUtf8Lossy_encode, hcs]
    exact hpaths rel hrel
  · cases hrecord

/-- What is restored fits the fields of its records. -/
theorem short_of_restores (hdst : EmptyDestination d dst)
    (hout : ¬ dst <+: placeOf cwd out ∧ ¬ placeOf cwd out <+: dst)
    (hwritten : 0 ≤ (tarDir .none cwd src out listing d).2) (h : RestoresBackup cwd src dst out listing d)
    (hdata : d.node (src ++ rel) = some (.file data)) : data.length < 2 ^ 32 := by
  obtain ⟨-, hread, -⟩ := tarDir_written hwritten
  obtain ⟨x, count, huntar, -, -, hsame⟩ := h
  simp only [untarDir, hread] at huntar
  obtain ⟨x', hfrom, heq⟩ := Option.map_eq_some_iff.mp huntar
  cases heq
  rcases untarFrom_short hfrom ((hsame rel data).mpr hdata) with hbefore | hshort
  · have hstart : Unpacked d src dst [] (startAt .none dst (tarDir .none cwd src out listing d).1).disk :=
      unpacked_start (hdst.tarDir hout hwritten)
    rw [hstart.file_iff rel data] at hbefore
    exact absurd hbefore.1 List.not_mem_nil
  · exact hshort

end

/-- A restore into an empty directory undoes a backup if and only if no file has `2 ^ 32`
bytes or more. -/
theorem restore_undoes_backup_iff (d : ServerDisk) (cwd src dst : List Name) (out : Bytes) (listing : List (List Name))
    (hsrc : d.node src = some .dir) (hlist : listing.Perm (collectFiles src d))
    (htext : ∀ rel ∈ listing, IsText (joined rel)) (hpaths : ∀ rel ∈ listing, (joined rel).length < 2 ^ 32)
    (hdst : EmptyDestination d dst) (hout : ¬ dst <+: placeOf cwd out ∧ ¬ placeOf cwd out <+: dst)
    (hwritten : 0 ≤ (tarDir .none cwd src out listing d).2) :
    RestoresBackup cwd src dst out listing d ↔
      ∀ rel ∈ listing, ∀ data, d.node (src ++ rel) = some (.file data) → data.length < 2 ^ 32 := by
  constructor
  · intro h rel hrel data hdata
    exact short_of_restores hdst hout hwritten h hdata
  · intro hshort
    obtain ⟨hcount, hread, -⟩ := tarDir_written hwritten
    have hfiles : ∀ rel ∈ listing, rel ≠ [] ∧ d.IsFile (src ++ rel) := fun rel hrel =>
      mem_collectFiles.mp (hlist.mem_iff.mp hrel)
    rw [length_records fun rel hrel => (hfiles rel hrel).2] at hcount
    have hstart : Unpacked d src dst [] (startAt .none dst (tarDir .none cwd src out listing d).1).disk :=
      unpacked_start (hdst.tarDir hout hwritten)
    obtain ⟨hdisk, hextracted⟩ := hstart.foldl hdst.names fun rel hrel =>
      ⟨(hfiles rel hrel).1, htext rel hrel, (hfiles rel hrel).2⟩
    have huntar : untarDir .none cwd dst out (tarDir .none cwd src out listing d).1 =
        some ((listing.filterMap (recordOf .none src d)).foldl (extractStep .none dst)
          (startAt .none dst (tarDir .none cwd src out listing d).1), (listing.length : Int)) := by
      simp only [untarDir, hread, untarFrom_complete (complete_tarBytes htext hpaths hshort), Option.map_some]
      rw [hextracted]
      simp [startAt]
    refine ⟨_, _, huntar, hcount, rfl, fun rel data => ?_⟩
    rw [hdisk.file_iff, List.nil_append]
    refine ⟨fun h => h.2, fun h => ⟨?_, h⟩⟩
    rw [hlist.mem_iff, mem_collectFiles]
    refine ⟨?_, data, h⟩
    rintro rfl
    rw [List.append_nil, hsrc] at h
    cases h

/-- A directory with one file. -/
def oneFile (data : Bytes) : ServerDisk :=
  ((((Disk.bare).createDirs .none [] [utf8 "s"]).1).write [utf8 "s"] (utf8 "a") .none data).1

theorem collectFiles_oneFile (data : Bytes) : collectFiles [utf8 "s"] (oneFile data) = [[utf8 "a"]] := rfl

theorem emptyDestination_oneFile (data : Bytes) : EmptyDestination (oneFile data) [utf8 "t"] := by
  have hnone : (oneFile data).node [utf8 "t"] = none := rfl
  refine ⟨by decide, ?_, fun rel hne => Disk.node_eq_none_of_not_dir (by rw [hnone]; simp) hne⟩
  rintro q hq ⟨content, hcontent⟩
  have hboth : q = [] ∨ q = [utf8 "t"] := by
    cases q with
    | nil => exact .inl rfl
    | cons name q =>
      obtain ⟨rfl, hrest⟩ := List.cons_prefix_cons.mp hq
      exact .inr (by rw [List.prefix_nil.mp hrest])
  rcases hboth with rfl | rfl
  · cases hcontent
  · cases hcontent

theorem written_oneFile (data : Bytes) : 0 ≤ (tarDir .none [] [utf8 "s"] (utf8 "b") [[utf8 "a"]] (oneFile data)).2 := by
  have hok (content : Bytes) : ((oneFile data).write [] (utf8 "b") .none content).2 = true :=
    Disk.write_name_ok (by decide) rfl nofun rfl rfl
  rw [tarDir]
  dsimp only
  rw [if_pos (hok _)]
  exact Int.natCast_nonneg _

theorem restore_undoes_backup_iff_small :
    RestoresBackup [] [utf8 "s"] [utf8 "t"] (utf8 "b") [[utf8 "a"]] (oneFile [1, 2, 3]) := by
  refine (restore_undoes_backup_iff (oneFile [1, 2, 3]) [] [utf8 "s"] [utf8 "t"] (utf8 "b") [[utf8 "a"]] rfl .rfl ?_ ?_
    (emptyDestination_oneFile _) (by decide) (written_oneFile _)).mpr ?_
  · exact List.forall_mem_singleton.mpr ⟨"a".toList, by decide⟩
  · exact List.forall_mem_singleton.mpr (by decide)
  · refine List.forall_mem_singleton.mpr fun data hdata => ?_
    cases hdata
    decide

/-- A file of `2 ^ 32` bytes is not restored. -/
theorem long_file_lost : ¬ ∀ (d : ServerDisk) (cwd src dst : List Name) (out : Bytes) (listing : List (List Name)),
    d.node src = some .dir → listing.Perm (collectFiles src d) → (∀ rel ∈ listing, IsText (joined rel)) →
    (∀ rel ∈ listing, (joined rel).length < 2 ^ 32) → EmptyDestination d dst →
    (¬ dst <+: placeOf cwd out ∧ ¬ placeOf cwd out <+: dst) → 0 ≤ (tarDir .none cwd src out listing d).2 →
    RestoresBackup cwd src dst out listing d := by
  intro h
  let data : Bytes := List.replicate (2 ^ 32) 0
  have hout : ¬ [utf8 "t"] <+: placeOf [] (utf8 "b") ∧ ¬ placeOf [] (utf8 "b") <+: [utf8 "t"] := by decide
  have hrestores := h (oneFile data) [] [utf8 "s"] [utf8 "t"] (utf8 "b") [[utf8 "a"]] rfl .rfl
    (List.forall_mem_singleton.mpr ⟨"a".toList, by decide⟩) (List.forall_mem_singleton.mpr (by decide))
    (emptyDestination_oneFile data) hout (written_oneFile data)
  have hnode : (oneFile data).node ([utf8 "s"] ++ [utf8 "a"]) = some (.file data) := rfl
  have hlength := short_of_restores (emptyDestination_oneFile data) hout (written_oneFile data) hrestores hnode
  rw [List.length_replicate] at hlength
  exact absurd hlength (Nat.lt_irrefl _)

end Nsmt.Server
