import Nsmt.Okf.Escapes
import Nsmt.Okf.Index

/-!
# Which commands stay in their library

For every argument vector `commands_confined_iff` says whether its commands stay in their
library on every disk, and what has to be on the disk for `libs new` and `index`.
-/

namespace Nsmt.Okf

open Nsmt.Lib Nsmt.Lib.Utf8 Nsmt.Lib.UnixPaths Nsmt.Lib.Dirs

-- ---------------------------------------------------------------------------
-- Indexing
-- ---------------------------------------------------------------------------

section
variable {base : List (List Name)} {lib : List Name} {d : OkfDisk} {c : List Name} {concept : Name}

theorem zero_not_mem_shown (h : ∀ name ∈ c, IsName name) : 0 ∉ encode (shown c) := by
  intro hmem
  obtain ⟨x, hx, hzero⟩ := of_mem_encode hmem (by decide)
  obtain ⟨y, hy, rfl⟩ := List.mem_map.mp hx
  split at hzero
  · exact absurd hzero (by decide)
  · refine zero_not_mem_joined h (mem_of_mem_lossy (List.mem_flatMap.mpr ⟨y, hy, ?_⟩) (by decide))
    have hy' : y = Char.ofNat 0 := Char.toNat_inj.mp hzero
    rw [hy']
    decide

theorem isConceptName_fresh (n : Nat) : isConceptName (List.replicate (n + 3) 97 ++ utf8 ".md") = true := by
  have hreverse : (List.replicate (n + 3) (97 : UInt8) ++ utf8 ".md").reverse =
      100 :: 109 :: 46 :: List.replicate (n + 3) 97 := by
    rw [List.reverse_append, List.reverse_replicate]
    rfl
  have hne : List.replicate (n + 3) (97 : UInt8) ++ utf8 ".md" ≠ [46, 46] :=
    fun heq => absurd (List.cons.inj heq).1 (by decide)
  have hdrop : (100 :: 109 :: 46 :: List.replicate (n + 3) (97 : UInt8)).dropWhile (· ≠ 46) =
      46 :: List.replicate (n + 3) 97 := rfl
  have htake : (100 :: 109 :: 46 :: List.replicate (n + 3) (97 : UInt8)).takeWhile (· ≠ 46) = [100, 109] := rfl
  have hextension : (splitExtension 46 (List.replicate (n + 3) 97 ++ utf8 ".md")).2 = some (utf8 "md") := by
    rw [splitExtension, if_neg hne, hreverse, hdrop, htake]
    dsimp only
    rw [if_neg (by simp)]
    rfl
  have hindex : List.replicate (n + 3) 97 ++ utf8 ".md" ≠ indexMd := fun heq => absurd (List.cons.inj heq).1 (by decide)
  have hlog : List.replicate (n + 3) 97 ++ utf8 ".md" ≠ logMd := fun heq => absurd (List.cons.inj heq).1 (by decide)
  simp [isConceptName, hextension, hindex, hlog]

/-- A disk with one concept, in one directory of the library. -/
structure Shelf (base : List (List Name)) (lib c : List Name) (concept : Name) (d : OkfDisk) : Prop where
  dirs : ∀ s ∈ base, d.node s = some .dir
  far : ∀ q, ¬ Near lib base q → d.node q = none
  file : ∀ q, d.IsFile q ↔ q = lib ++ c ++ [concept]

theorem exists_shelf (hbase : ∀ s ∈ base, ∀ name ∈ s, IsName name) (hlib : lib ∈ base) (hc : ∀ name ∈ c, IsName name)
    (hconcept : IsName concept) (hfree : ∀ s ∈ base, ¬ lib ++ c ++ [concept] <+: s) :
    ∃ d, Shelf base lib c concept d := by
  have hnamed : ∀ s ∈ base ++ [lib ++ c], ∀ name ∈ s, IsName name := by
    intro s hs
    rcases List.mem_append.mp hs with hs | hs
    · exact hbase s hs
    · rw [List.mem_singleton.mp hs]
      exact fun name hname => (List.mem_append.mp hname).elim (hbase lib hlib name) (hc name)
  have hdir {s : List Name} (hs : s ∈ base ++ [lib ++ c]) : (Disk.ofDirs _ hnamed : OkfDisk).node s = some .dir :=
    Disk.dir_ofDirs hs List.prefix_rfl
  have hnone {q : List Name} (hq : ∀ s ∈ base ++ [lib ++ c], ¬ q <+: s) :
      (Disk.ofDirs _ hnamed : OkfDisk).node q = none := by
    rw [Disk.node_ofDirs (by simp), if_neg]
    exact fun ⟨s, hs, hle⟩ => hq s hs hle
  have hvacant : (Disk.ofDirs _ hnamed : OkfDisk).node (lib ++ c ++ [concept]) = none := by
    refine hnone fun s hs hle => ?_
    rcases List.mem_append.mp hs with hs | hs
    · exact hfree s hs hle
    · have hlen := hle.length_le
      rw [List.mem_singleton.mp hs, List.length_append, List.length_singleton] at hlen
      omega
  obtain ⟨d, hput⟩ := Disk.exists_put (d := (Disk.ofDirs _ hnamed : OkfDisk))
    ⟨hdir (List.mem_append_right _ (List.mem_singleton_self _)), hconcept, by rw [hvacant]; exact nofun⟩
    (.file (.text []))
  refine ⟨d, fun s hs => ?_, fun q hq => ?_, fun q => ⟨fun hfile => ?_, ?_⟩⟩
  · rw [Disk.node_put hput, if_neg, hdir (List.mem_append_left _ hs)]
    exact fun heq => hfree s hs (heq ▸ List.prefix_rfl)
  · rw [Disk.node_put hput, if_neg]
    · refine hnone fun s hs hle => ?_
      rcases List.mem_append.mp hs with hs | hs
      · exact hq (.inr ⟨s, hs, hle⟩)
      · rw [List.mem_singleton.mp hs] at hle
        rcases List.prefix_or_prefix_of_prefix hle (List.prefix_append lib c) with hle | hle
        · exact hq (.inr ⟨lib, hlib, hle⟩)
        · exact hq (.inl hle)
    · rintro rfl
      exact hq (.inl (by simp))
  · by_contra hne
    obtain ⟨content, hcontent⟩ := hfile
    rw [Disk.node_put hput, if_neg hne] at hcontent
    exact Disk.not_isFile_ofDirs ⟨content, hcontent⟩
  · rintro rfl
    exact ⟨_, by rw [Disk.node_put hput, if_pos rfl]⟩

namespace Shelf

variable (h : Shelf base lib c concept d)
include h

theorem mem_concepts (hname : isConceptName concept = true) (htrash : trashDir ∉ c) {rel : List Name} :
    rel ∈ collectMdFiles lib d ↔ rel = c ++ [concept] := by
  rw [mem_collectMdFiles]
  constructor
  · rintro ⟨-, ⟨page, hpage⟩, -, -⟩
    have hplace := (h.file _).mp ⟨page, hpage⟩
    rw [List.append_assoc] at hplace
    exact List.append_cancel_left hplace
  · rintro rfl
    obtain ⟨page, hpage⟩ := (h.file (lib ++ c ++ [concept])).mpr rfl
    exact ⟨by simp, ⟨page, by rwa [← List.append_assoc]⟩, by simpa using htrash, by simpa using hname⟩

theorem groupDirs_eq (hname : isConceptName concept = true) (htrash : trashDir ∉ c) (hne : c ≠ []) :
    groupDirs (collectMdFiles lib d) = [shown c] := by
  refine List.perm_singleton.mp ((List.perm_ext_iff_of_nodup nodup_groupDirs (List.nodup_singleton _)).mpr fun dir => ?_)
  rw [mem_groupDirs, List.mem_singleton]
  constructor
  · rintro ⟨rel, hrel, -, rfl⟩
    rw [(h.mem_concepts hname htrash).mp hrel, dirOf, List.dropLast_concat]
  · rintro rfl
    refine ⟨c ++ [concept], (h.mem_concepts hname htrash).mpr rfl, ?_, ?_⟩
    · rwa [List.dropLast_concat]
    · rw [dirOf, List.dropLast_concat]

theorem createDirs_ok (hlib : lib ∈ base) (hnames : ∀ name ∈ lib, IsName name) {path : Bytes} (hzero : 0 ∉ path)
    (hfresh : lib ++ c ++ [concept] ∉ passed lib path) :
    (d.createDirs Env.quiet.faults (startOf lib path) (wayTo path)).2 = true := by
  refine Disk.createDirs_ok (dir_startOf (h.dirs lib hlib) _) fun q hq => ?_
  have hpassed : q ∈ passed lib path := passed_of_made hq
  cases hnode : d.node q with
  | none => exact .inr ⟨rfl, rfl, named_passed hnames hzero hpassed⟩
  | some node =>
    cases node with
    | dir => exact .inl rfl
    | file content =>
      rw [(h.file q).mp ⟨content, hnode⟩] at hpassed
      exact absurd hpassed hfresh

end Shelf

theorem keepsDirs_writeRootIndex {env : Env} {files : List (List Name)} :
    Disk.KeepsDirs d (writeRootIndex env lib files d).1 :=
  Disk.KeepsDirs.andThen (Disk.keepsDirs_createDirs _ _ _ _) (Disk.keepsDirs_write _ _ _ _ _)

theorem isFile_writeRootIndex {env : Env} {files : List (List Name)} {p : List Name} (h : d.IsFile p) :
    (writeRootIndex env lib files d).1.IsFile p :=
  Disk.IsFile.andThen (keeps_createLib.isFile h) fun h => h.write _

/-- With one concept in a directory that is shown by a path that leads out of the library,
the index of the directory is written outside. -/
theorem index_escapes (hbase : ∀ s ∈ base, ∀ name ∈ s, IsName name) (hlib : lib ∈ base) (hc : ∀ name ∈ c, IsName name)
    (hne : c ≠ []) (htrash : trashDir ∉ c) (h : ¬ IndexInside base lib (shown c)) :
    ∃ d, (∀ s ∈ base, d.node s = some .dir) ∧ (∀ rel ∈ collectMdFiles lib d, rel.dropLast = c) ∧
      ∃ p, ¬ lib <+: p ∧ (runCommand .quiet lib .index d).1.node p ≠ d.node p := by
  obtain ⟨n, hconcept, hfresh⟩ := exists_fresh (lib ++ c)
    (passed lib (indexPath (shown c)) ++ base.flatMap List.inits) (utf8 ".md") (by decide) (by decide)
  rw [List.mem_append, not_or] at hfresh
  have hfree : ∀ s ∈ base, ¬ lib ++ c ++ [List.replicate (n + 3) 97 ++ utf8 ".md"] <+: s := fun s hs hle =>
    hfresh.2 (List.mem_flatMap.mpr ⟨s, hs, (List.mem_inits _ _).mpr hle⟩)
  obtain ⟨d, hshelf⟩ := exists_shelf hbase hlib hc hconcept hfree
  have hname := isConceptName_fresh n
  have hzero : 0 ∉ indexPath (shown c) := zero_not_mem_joinPath (zero_not_mem_shown hc) (by decide)
  have hmake := hshelf.createDirs_ok hlib (hbase lib hlib) hzero hfresh.1
  have hmade := Disk.dirs_of_createDirs (dir_startOf (hshelf.dirs lib hlib) _) hmake
  refine ⟨d, hshelf.dirs, fun rel hrel => ?_, ?_⟩
  · rw [(hshelf.mem_concepts hname htrash).mp hrel, List.dropLast_concat]
  · unfold runCommand
    rw [if_pos (hshelf.dirs lib hlib)]
    simp only [generateIndex, hshelf.groupDirs_eq hname htrash hne, writeDirIndexes]
    by_cases hnear : ∀ q ∈ made lib (indexPath (shown c)), Near lib base q
    · have hfar : ¬ Near lib base (placeOf lib (indexPath (shown c))) := fun hplace =>
        h (List.forall_mem_cons.mpr ⟨hplace, hnear⟩)
      have hlast := getLast?_joinPath (encode (shown c)) isName_indexMd
      have hnot : (d.createDirs Env.quiet.faults (startOf lib (indexPath (shown c))) (wayTo (indexPath (shown c)))).1.node
          (placeOf lib (indexPath (shown c))) ≠ some .dir := by
        rw [Disk.node_createDirs fun hmem => hfar (hnear _ hmem), hshelf.far _ hfar]
        exact (Option.some_ne_none _).symm
      obtain ⟨-, hwritten⟩ := Disk.write_passed Env.quiet.faults
        (dirPage .quiet lib (collectMdFiles lib d) (shown c) d) hzero hlast isName_indexMd
        (fun q hq => hmade q ((made_of_passed hlast isName_indexMd).mpr hq)) hnot rfl
      have hfile : (writeDirIndex .quiet lib (collectMdFiles lib d) (shown c) d).1.IsFile
          (placeOf lib (indexPath (shown c))) := by
        rw [writeDirIndex, andThen, if_pos hmake]
        exact ⟨_, hwritten⟩
      refine ⟨placeOf lib (indexPath (shown c)), fun hle => hfar (.inl hle), ?_⟩
      rw [hshelf.far _ hfar]
      exact (Disk.IsFile.andThen (Disk.IsFile.andThen hfile fun h => h) isFile_writeRootIndex).ne_none
    · simp only [Classical.not_forall] at hnear
      obtain ⟨q, hq, hfar⟩ := hnear
      refine ⟨q, fun hle => hfar (.inl hle), ?_⟩
      have hdir : (writeDirIndex .quiet lib (collectMdFiles lib d) (shown c) d).1.node q = some .dir :=
        dir_andThen (hmade q hq) (Disk.keepsDirs_write _ _ _ _ _)
      rw [hshelf.far q hfar, dir_andThen (dir_andThen hdir (.refl _)) keepsDirs_writeRootIndex]
      exact Option.some_ne_none _

end

-- ---------------------------------------------------------------------------
-- Arguments
-- ---------------------------------------------------------------------------

section
variable {args : List Text} {opts : Opts} {key : String} {v : Text} {lib : Text} {command : LibCommand}

theorem mem_of_optionsOf (h : optionsOf args key = some v) : v = [] ∨ v ∈ args := by
  induction args using optionsOf.induct with
  | case1 => cases h
  | case2 arg =>
    simp only [optionsOf] at h
    split at h
    · exact .inl (Option.some.inj h).symm
    · cases h
  | case3 arg val rest hopt ih =>
    rw [optionsOf, if_pos hopt] at h
    rcases Option.or_eq_some_iff.mp h with h | ⟨-, h⟩
    · exact (ih h).imp_right fun hmem => by simp [hmem]
    · split at h
      · exact .inr (by simp [(Option.some.inj h).symm])
      · cases h
  | case4 arg val rest hopt ih =>
    rw [optionsOf, if_neg hopt] at h
    exact (ih h).imp_right fun hmem => List.mem_cons_of_mem _ hmem

theorem positional_subset : positional args ⊆ args := by
  induction args using positional.induct with
  | case1 => simp [positional]
  | case2 arg hopt =>
    rw [positional, if_pos hopt]
    exact List.nil_subset _
  | case3 arg hopt =>
    rw [positional, if_neg hopt]
    exact List.Subset.refl _
  | case4 arg val rest hopt ih =>
    rw [positional, if_pos hopt]
    exact fun x hx => by simp [ih hx]
  | case5 arg val rest hopt ih =>
    rw [positional, if_neg hopt]
    exact List.cons_subset_cons _ ih

/-- What is given is one of the arguments. -/
theorem mem_of_given {start : Nat} (h : (parseArgs args start).given key = some v) : v ∈ args := by
  obtain ⟨hopt, hne⟩ := Option.filter_eq_some_iff.mp h
  have hlater : optionsOf (args.drop start) key = some v → v ∈ args := fun h =>
    List.mem_of_mem_drop ((mem_of_optionsOf h).resolve_left (of_decide_eq_true hne))
  unfold parseArgs at hopt
  split at hopt
  · rcases Option.or_eq_some_iff.mp hopt with h | ⟨-, h⟩
    · exact List.mem_of_mem_drop (positional_subset (List.mem_of_mem_head? h))
    · exact hlater h
  · exact hlater hopt

theorem zero_not_mem_given {start : Nat} (hargs : ∀ arg ∈ args, Char.ofNat 0 ∉ arg)
    (h : (parseArgs args start).given key = some v) : 0 ∉ encode v := by
  intro hmem
  obtain ⟨c, hc, hzero⟩ := of_mem_encode hmem (by decide)
  obtain rfl : c = Char.ofNat 0 := Char.toNat_inj.mp hzero
  exact hargs v (mem_of_given h) hc

theorem libCommand_cases {sub : Text} (h : libCommand sub opts = some command) : command = .add opts ∨ command = .rm opts ∨
    command = .restore opts ∨ command = .edit opts ∨ command = .index ∨ command = .log opts := by
  unfold libCommand at h
  split_ifs at h <;> simp [← Option.some.inj h]

/-- The options of a command are those of the arguments. -/
theorem opts_of_inLibrary (h : commandOf args = .inLibrary lib command) :
    ∃ sub, libCommand sub (parseArgs args 5) = some command := by
  simp only [commandOf] at h
  split at h
  · split at h
    · cases h
    · split at h <;> cases h
  · split at h
    · cases h
    · cases hcommand : libCommand (args[4]?.getD "help".toList) (parseArgs args 5) with
      | none =>
        rw [hcommand] at h
        cases h
      | some command' =>
        rw [hcommand] at h
        obtain ⟨-, rfl⟩ := OkfCommand.inLibrary.inj h
        exact ⟨_, hcommand⟩

theorem opts_of_libRm {force : Bool} (h : commandOf args = .libRm opts force) : opts = parseArgs args 5 := by
  simp only [commandOf] at h
  split at h
  · split at h
    · cases h
    · split at h
      · exact (OkfCommand.libRm.inj h).1.symm
      · cases h
  · split at h
    · cases h
    · cases hcommand : libCommand (args[4]?.getD "help".toList) (parseArgs args 5) with
      | none =>
        rw [hcommand] at h
        cases h
      | some command' =>
        rw [hcommand] at h
        cases h

end

-- ---------------------------------------------------------------------------
-- Every argument vector
-- ---------------------------------------------------------------------------

section
variable {root : List Name} {args : List Text} {base : List (List Name)} {lib : List Name}

theorem escapes_of_not_inside (hbase : ∀ s ∈ base, ∀ name ∈ s, IsName name) (hlib : lib ∈ base)
    (hargs : ∀ arg ∈ args, Char.ofNat 0 ∉ arg) {command : LibCommand} {sub : Text}
    (hcommand : libCommand sub (parseArgs args 5) = some command) (h : ¬ CommandInside base lib command) :
    Escapes base lib command := by
  have hzero : ∀ rel, (parseArgs args 5).given "path" = some rel → 0 ∉ encode rel := fun _ =>
    zero_not_mem_given hargs
  rcases libCommand_cases hcommand with rfl | rfl | rfl | rfl | rfl | rfl
  · exact escapes_add hbase hlib hzero h
  · exact escapes_rm hbase hlib hzero h
  · exact escapes_restore hbase hlib hzero h
  · exact escapes_edit hbase hlib hzero h
  · exact absurd trivial h
  · exact absurd trivial h

theorem named_base (hnames : ∀ name ∈ root, IsName name) {lib : Text} (hvalid : validLibName lib = true) :
    ∀ s ∈ [root, placeOf root (encode lib)], ∀ name ∈ s, IsName name := by
  rw [List.forall_mem_cons, List.forall_mem_singleton]
  exact ⟨hnames, named_placeOf hnames (bytes_of_valid hvalid).2.2⟩

theorem resolveLib_eq {lib : Text} {d : OkfDisk} (hvalid : validLibName lib = true)
    (hdirs : ∀ s ∈ [root, placeOf root (encode lib)], d.node s = some .dir) :
    resolveLib root lib d = some (placeOf root (encode lib)) := by
  rw [List.forall_mem_cons, List.forall_mem_singleton] at hdirs
  refine if_pos ⟨hvalid, Disk.find_iff.mpr ⟨(bytes_of_valid hvalid).2.2, ?_, hdirs.2⟩⟩
  rw [startOf_valid hvalid, splitOn_valid hvalid]
  simp [Disk.passable, hdirs.1]

/-- A disk on which a path leads to a directory with something in it. -/
theorem exists_filled (hnames : ∀ name ∈ root, IsName name) {path : Bytes} (hzero : 0 ∉ path) :
    ∃ d : OkfDisk, d.find root path = some .dir ∧ d.node (placeOf root path ++ [indexMd]) = some .dir := by
  have hnamed : ∀ s ∈ (placeOf root path ++ [indexMd]) :: passed root path, ∀ name ∈ s, IsName name := by
    rw [List.forall_mem_cons]
    refine ⟨fun name hname => ?_, fun s hs => named_passed hnames hzero hs⟩
    exact (List.mem_append.mp hname).elim (named_placeOf hnames hzero name)
      fun hname => List.mem_singleton.mp hname ▸ isName_indexMd
  refine ⟨Disk.ofDirs _ hnamed, Disk.find_iff.mpr ⟨hzero, Disk.passable_passed.mpr fun q hq => ?_, ?_⟩, ?_⟩
  · exact Disk.dir_ofDirs (List.mem_cons_of_mem _ hq) List.prefix_rfl
  · exact Disk.dir_ofDirs (List.mem_cons_self ..) (List.prefix_append ..)
  · exact Disk.dir_ofDirs (List.mem_cons_self ..) List.prefix_rfl

/-- What leads out of a library does so on some disk. -/
theorem inside_of_confined (hnames : ∀ name ∈ root, IsName name) (hargs : ∀ arg ∈ args, Char.ofNat 0 ∉ arg)
    (h : ∀ env d, RootReady root args d → DirsReady root args d → Confined env root args d) : PathsInside root args := by
  unfold PathsInside
  cases hcommand : commandOf args with
  | libNew opts => trivial
  | libRm opts force =>
    dsimp only
    rintro rfl name hgiven
    have hzero : 0 ∉ encode name := by
      rw [opts_of_libRm hcommand] at hgiven
      exact zero_not_mem_given hargs hgiven
    obtain ⟨d, hfind, hbelow⟩ := exists_filled hnames hzero
    have hchanged : (runOkf .quiet root args d).node (placeOf root (encode name) ++ [indexMd]) ≠
        d.node (placeOf root (encode name) ++ [indexMd]) := by
      simp only [runOkf, hcommand, cmdLibRm, hgiven, if_true]
      rw [hbelow, Env.quiet, Disk.removeDirAll_below hfind (List.cons_ne_nil _ _)]
      exact nofun
    have hallowed := h .quiet d (by simp only [RootReady, hcommand]) (by simp only [DirsReady, hcommand]) _ hchanged
    simp only [Allowed, hcommand] at hallowed
    obtain ⟨name', seg, hgiven', hseg, hplace, -⟩ := hallowed
    rw [hgiven] at hgiven'
    obtain rfl := Option.some.inj hgiven'
    exact ⟨seg, hseg, hplace⟩
  | inLibrary lib command =>
    dsimp only
    intro hvalid
    by_contra hnot
    obtain ⟨sub, hsub⟩ := opts_of_inLibrary hcommand
    obtain ⟨env, d, hdirs, p, hout, hchanged⟩ :=
      escapes_of_not_inside (named_base hnames hvalid) (by simp) hargs hsub hnot
    refine hout ?_
    have hallowed := h env d (by simp only [RootReady, hcommand]) ?_ p ?_
    · simpa only [Allowed, hcommand] using hallowed
    · unfold DirsReady
      rw [hcommand]
      cases command with
      | index => exact absurd trivial hnot
      | _ => trivial
    · simpa only [runOkf, hcommand, resolveLib_eq hvalid hdirs] using hchanged
  | reads => trivial

/-- Where there is no root and no file in the way of it, making a library makes the root. -/
theorem root_made {d : OkfDisk} {opts : Opts} {name : Text} (hnames : ∀ name ∈ root, IsName name)
    (hgiven : opts.given "path" = some name) (hvalid : validLibName name = true) (hroot : d.node root ≠ some .dir)
    (hfiles : ¬ ∃ q, q <+: root ∧ d.IsFile q) : (cmdLibNew .quiet root opts d).1.node root = some .dir := by
  have hnew : ¬ d.exists_ root (encode name) = true := by
    intro hexists
    obtain ⟨node, hnode⟩ := Option.isSome_iff_exists.mp hexists
    have hpassed := Disk.passable_passed.mp (Disk.find_iff.mp hnode).2.1 _ startOf_mem_passed
    rw [startOf_valid hvalid] at hpassed
    exact hroot hpassed
  have hvacant {q : List Name} (hle : q <+: root) : d.node q = some .dir ∨ d.node q = none := by
    cases hnode : d.node q with
    | none => exact .inr rfl
    | some node =>
      cases node with
      | dir => exact .inl rfl
      | file content => exact absurd ⟨q, hle, content, hnode⟩ hfiles
  have hplaces {q : List Name} : q ∈ (root ++ [encode name]).scanl enter [] ↔ q <+: root ∨ q = enter root (encode name) := by
    rw [List.scanl_append, List.mem_append, mem_scanl_names hnames]
    simp [foldl_enter_names [] hnames]
  have hmake : (d.createDirs Env.quiet.faults [] (root ++ [encode name])).2 = true := by
    refine Disk.createDirs_ok d.root fun q hq => ?_
    obtain ⟨-, hslash, hzero⟩ := bytes_of_valid hvalid
    have hon {q : List Name} (hle : q <+: root) :
        d.node q = some .dir ∨ d.node q = none ∧ Env.quiet.faults.denied q = false ∧ ∀ name ∈ q, IsName name :=
      (hvacant hle).imp_right fun hnone => ⟨hnone, rfl, fun name hname => hnames name (hle.subset hname)⟩
    rcases hplaces.mp hq with hle | rfl
    · exact hon hle
    · rcases enter_cases root (encode name) with heq | heq | heq
      · rw [heq]
        exact hon List.prefix_rfl
      · rw [heq]
        exact hon (List.dropLast_prefix root)
      · refine .inr ⟨?_, rfl, enter_named hnames hslash hzero⟩
        rw [heq]
        exact Disk.node_eq_none_of_not_dir hroot (List.cons_ne_nil _ _)
  have hmade := Disk.dirs_of_createDirs d.root hmake root (hplaces.mpr (.inl List.prefix_rfl))
  simp only [cmdLibNew, hgiven]
  rw [if_neg (by simp [hvalid, hnew]), splitOn_valid hvalid]
  exact dir_andThen hmade (Disk.KeepsDirs.andThen (Disk.keepsDirs_write _ _ _ _ _) (Disk.keepsDirs_write _ _ _ _ _))

theorem rootReady_of_confined {d : OkfDisk} (hnames : ∀ name ∈ root, IsName name)
    (h : ∀ env, Confined env root args d) : RootReady root args d := by
  unfold RootReady
  cases hcommand : commandOf args with
  | libNew opts =>
    dsimp only
    intro name hgiven hvalid
    by_contra hnot
    rw [not_or] at hnot
    have hmade := root_made hnames hgiven hvalid hnot.1 hnot.2
    have hchanged : (runOkf .quiet root args d).node root ≠ d.node root := by
      simp only [runOkf, hcommand, hmade]
      exact Ne.symm hnot.1
    have hallowed := h .quiet root hchanged
    simp only [Allowed, hcommand] at hallowed
    obtain ⟨-, seg, -, -, -, hle⟩ := hallowed
    have hlen := hle.length_le
    rw [List.length_append, List.length_singleton] at hlen
    omega
  | _ => trivial

end

/-- An argument vector stays in its library on every disk if and only if its paths lead
nowhere else: where there is a root for a new library, and with directories of concepts
that are shown by paths inside of the library. Both are needed. -/
theorem commands_confined_iff (root : List Name) (args : List Text) (hnames : ∀ name ∈ root, IsName name)
    (hargs : ∀ arg ∈ args, Char.ofNat 0 ∉ arg) :
    ((∀ env d, RootReady root args d → DirsReady root args d → Confined env root args d) ↔ PathsInside root args) ∧
      (∀ d, (∀ env, Confined env root args d) → RootReady root args d) ∧
      ∀ lib c, commandOf args = .inLibrary lib .index → validLibName lib = true → c ≠ [] →
        (∀ name ∈ c, IsName name) → trashDir ∉ c →
        ((∀ env d, (∀ rel ∈ collectMdFiles (placeOf root (encode lib)) d, rel.dropLast = c) → Confined env root args d) ↔
          IndexInside [root, placeOf root (encode lib)] (placeOf root (encode lib)) (shown c)) := by
  refine ⟨⟨inside_of_confined hnames hargs, fun hinside env d => confined_of_inside hnames hinside⟩,
    fun d => rootReady_of_confined hnames, fun lib c hcommand hvalid hne hc htrash => ⟨fun h => ?_, fun h env d hshelf => ?_⟩⟩
  · by_contra hnot
    obtain ⟨d, hdirs, hshelf, p, hout, hchanged⟩ :=
      index_escapes (named_base hnames hvalid) (by simp) hc hne htrash hnot
    refine hout ?_
    have hallowed := h .quiet d hshelf p ?_
    · simpa only [Allowed, hcommand] using hallowed
    · simpa only [runOkf, hcommand, resolveLib_eq hvalid hdirs] using hchanged
  · refine confined_of_inside hnames ?_ ?_ ?_
    · simp only [PathsInside, hcommand]
      exact fun _ => trivial
    · simp only [RootReady, hcommand]
    · simp only [DirsReady, hcommand]
      intro dir hdir
      obtain ⟨rel, hrel, -, rfl⟩ := mem_groupDirs.mp hdir
      rw [dirOf, hshelf rel hrel]
      exact h

def okfArgs (rest : List String) : List Text := (["yggd", "127.0.0.1:5555", "okf"] ++ rest).map String.toList

/-- A library `kb` with nothing in it. -/
def kbDisk : OkfDisk := Disk.ofDirs [[utf8 "okf", utf8 "kb"]] (by decide)

theorem commands_confined_iff_add :
    Confined .quiet [utf8 "okf"] (okfArgs ["kb", "add", "sub/x.md", "--type", "T"]) kbDisk := by
  have hcommand : commandOf (okfArgs ["kb", "add", "sub/x.md", "--type", "T"]) =
      .inLibrary "kb".toList (.add (parseArgs (okfArgs ["kb", "add", "sub/x.md", "--type", "T"]) 5)) := rfl
  have hrel : (parseArgs (okfArgs ["kb", "add", "sub/x.md", "--type", "T"]) 5).given "path" =
      some "sub/x.md".toList := by decide
  have hinside : PathsInside [utf8 "okf"] (okfArgs ["kb", "add", "sub/x.md", "--type", "T"]) := by
    simp only [PathsInside, hcommand, CommandInside]
    intro _ rel _ hgiven _ _ _
    rw [hrel] at hgiven
    obtain rfl := Option.some.inj hgiven
    exact ⟨by decide, fun _ => by decide⟩
  refine (commands_confined_iff [utf8 "okf"] (okfArgs ["kb", "add", "sub/x.md", "--type", "T"]) (by decide)
    (by decide)).1.mpr hinside .quiet kbDisk ?_ ?_
  · simp only [RootReady, hcommand]
  · simp only [DirsReady, hcommand]

/-- `add` writes a concept next to the library, and `libs rm` removes the root with all
libraries. -/
theorem paths_leave_library :
    ¬ Confined .quiet [utf8 "okf"] (okfArgs ["kb", "add", "../x.md", "--type", "T"]) kbDisk ∧
      ¬ Confined .quiet [utf8 "okf"] (okfArgs ["libs", "rm", "..", "--force"]) kbDisk := by
  constructor
  · intro h
    have hallowed := h [utf8 "okf", utf8 "x.md"] (by decide +kernel)
    have hcommand : commandOf (okfArgs ["kb", "add", "../x.md", "--type", "T"]) =
        .inLibrary "kb".toList (.add (parseArgs (okfArgs ["kb", "add", "../x.md", "--type", "T"]) 5)) := rfl
    simp only [Allowed, hcommand] at hallowed
    exact absurd hallowed (by decide)
  · intro h
    have hallowed := h [utf8 "okf"] (by decide +kernel)
    have hcommand : commandOf (okfArgs ["libs", "rm", "..", "--force"]) =
        .libRm (parseArgs (okfArgs ["libs", "rm", "..", "--force"]) 5) true := rfl
    simp only [Allowed, hcommand] at hallowed
    obtain ⟨name, seg, -, -, -, hle⟩ := hallowed
    have hlen := hle.length_le
    simp at hlen

end Nsmt.Okf
