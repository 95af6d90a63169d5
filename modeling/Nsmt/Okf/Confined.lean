import Nsmt.Okf.Commands
import Nsmt.Okf.Trash

/-!
# Commands that stay in their library

`valid_lib_name` keeps the name of a library from leading out of the root. Nothing
does so for the path that `add`, `rm`, `restore` and `edit` are given, for the name
that `libs rm` is given, and for the directories that `index` writes to.
-/

namespace Nsmt.Okf

open Nsmt.Lib Nsmt.Lib.Utf8 Nsmt.Lib.UnixPaths Nsmt.Lib.Dirs

/-- Where a command may change something: in its library, or in one library of the root. -/
def Allowed (root : List Name) (args : List Text) (p : List Name) : Prop :=
  match commandOf args with
  | .libNew opts | .libRm opts _ => ∃ name seg, opts.given "path" = some name ∧ IsName seg ∧
      placeOf root (encode name) = root ++ [seg] ∧ root ++ [seg] <+: p
  | .inLibrary lib _ => placeOf root (encode lib) <+: p
  | .reads => False

def Confined (env : Env) (root : List Name) (args : List Text) (d : OkfDisk) : Prop :=
  ∀ p, (runOkf env root args d).node p ≠ d.node p → Allowed root args p

-- ---------------------------------------------------------------------------
-- Paths that lead nowhere else
-- ---------------------------------------------------------------------------

section
variable (base : List (List Name)) (lib : List Name)

/-- What is there once a path has been found. -/
def found (path : Bytes) : List (List Name) := base ++ placeOf lib path :: passed lib path

/-- What is found at the first path can be moved to the second. -/
structure CanMove (src dst : Bytes) : Prop where
  src_name : ∃ name ∈ (trimmed src).getLast?, IsName name
  dst_name : ∃ name ∈ (trimmed dst).getLast?, IsName name
  apart : ¬ placeOf lib src <+: placeOf lib dst
  free : ∀ s ∈ found base lib src ++ made lib dst, placeOf lib dst <+: s → s = placeOf lib dst

/-- What is made on the way lies in the library, and so do both ends of a move. -/
structure MovesInside (src dst : Bytes) : Prop where
  dirs : ∀ q ∈ made lib dst, Near lib (found base lib src) q
  ends : CanMove base lib src dst → lib <+: placeOf lib src ∧ lib <+: placeOf lib dst

/-- Wherever the first path leads to something, the second does, too. -/
def AlwaysFound (src dst : Bytes) : Prop := ∀ q ∈ placeOf lib dst :: passed lib dst, ∃ s ∈ found base lib src, q <+: s

def CommandInside : LibCommand → Prop
  | .add opts => ∀ rel ftype, opts.given "path" = some rel → opts.given "type" = some ftype → rel ∉ reserved →
      ".md".toList <:+ rel → (∀ q ∈ made lib (encode rel), Near lib base q) ∧
        (statusOf opts ∈ statuses → Near lib base (placeOf lib (encode rel)))
  | .rm opts => ∀ rel, opts.given "path" = some rel → rel ∉ reserved → MovesInside base lib (encode rel) (inTrash rel)
  | .restore opts => ∀ rel, opts.given "path" = some rel →
      AlwaysFound base lib (inTrash rel) (encode rel) ∨ MovesInside base lib (inTrash rel) (encode rel)
  | .edit opts => ∀ rel, opts.given "path" = some rel → (opts.given "status").all (· ∈ statuses) = true →
      Near lib (base ++ passed lib (encode rel)) (placeOf lib (encode rel))
  | .index | .log _ => True

/-- The index of a directory is written inside of the library. -/
def IndexInside (dir : Text) : Prop :=
  ∀ q ∈ placeOf lib (indexPath dir) :: made lib (indexPath dir), Near lib base q

end

/-- No path that the command is given leads out of its library. -/
def PathsInside (root : List Name) (args : List Text) : Prop :=
  match commandOf args with
  | .libRm opts force => force = true → ∀ name, opts.given "path" = some name →
      ∃ seg, IsName seg ∧ placeOf root (encode name) = root ++ [seg]
  | .inLibrary lib command => validLibName lib = true →
      CommandInside [root, placeOf root (encode lib)] (placeOf root (encode lib)) command
  | .libNew _ | .reads => True

/-- There is a root to make a library in, or a file in the way of it. -/
def RootReady (root : List Name) (args : List Text) (d : OkfDisk) : Prop :=
  match commandOf args with
  | .libNew opts => ∀ name, opts.given "path" = some name → validLibName name = true →
      d.node root = some .dir ∨ ∃ q, q <+: root ∧ d.IsFile q
  | _ => True

/-- No directory of concepts that is to get an index is shown by a path out of the library. -/
def DirsReady (root : List Name) (args : List Text) (d : OkfDisk) : Prop :=
  match commandOf args with
  | .inLibrary lib .index => ∀ dir ∈ groupDirs (collectMdFiles (placeOf root (encode lib)) d),
      IndexInside [root, placeOf root (encode lib)] (placeOf root (encode lib)) dir
  | _ => True

-- ---------------------------------------------------------------------------
-- In a library
-- ---------------------------------------------------------------------------

section
variable {env : Env} {base : List (List Name)} {lib : List Name} {d : OkfDisk} {opts : Opts} {entry : Text}
  {src dst : Bytes}

theorem within_appendLog (hlib : d.node lib = some .dir) : Disk.Within lib d (appendLog env lib d entry).1 where
  dir := by rw [node_appendLog hlib (by simp), hlib]
  outside := fun p hp => node_appendLog hlib fun heq => hp (heq ▸ List.prefix_append ..)

theorem there_of_found (h : d.exists_ lib src = true) : ∀ s ∈ placeOf lib src :: passed lib src, d.node s ≠ none := by
  obtain ⟨node, hnode⟩ := Option.isSome_iff_exists.mp h
  obtain ⟨-, hpass, hplace⟩ := Disk.find_iff.mp hnode
  rw [List.forall_mem_cons]
  exact ⟨by simp [hplace], fun s hs => by simp [Disk.passable_passed.mp hpass s hs]⟩

theorem there_of_exists (hbase : ∀ s ∈ base, d.node s = some .dir) (h : d.exists_ lib src = true) :
    ∀ s ∈ found base lib src, d.node s ≠ none := by
  intro s hs
  rcases List.mem_append.mp hs with hs | hs
  · simp [hbase s hs]
  · exact there_of_found h s hs

theorem dir_startOf (hlib : d.node lib = some .dir) (path : Bytes) : d.node (startOf lib path) = some .dir := by
  unfold startOf
  split
  · exact d.root
  · exact hlib

/-- What has been moved could be moved on any disk. -/
theorem canMove_of_rename (hlib : d.node lib = some .dir) (hthere : ∀ s ∈ found base lib src, d.node s ≠ none)
    (hdirs : (d.createDirs env.faults (startOf lib dst) (wayTo dst)).2 = true)
    (hok : ((prepared env lib dst d).rename lib src env.faults dst).2 = true)
    (hmovable : (prepared env lib dst d).Movable (placeOf lib src) (placeOf lib dst)) : CanMove base lib src dst := by
  have hpaths := Disk.renames_of_rename hok
  refine ⟨hpaths.src_name, hpaths.dst_name, hmovable.apart, fun s hs hle => Disk.fits_last hmovable.fits hle ?_⟩
  rcases List.mem_append.mp hs with hs | hs
  · rw [keeps_prepared.there (hthere s hs)]
    exact hthere s hs
  · have hmade := Disk.dirs_of_createDirs (dir_startOf hlib dst) hdirs s hs
    rw [prepared, hmade]
    exact Option.some_ne_none _

theorem status_of_edited {raw doc : Text} {now : Text} (h : editDocument env.yaml opts now raw = some doc) :
    (opts.given "status").all (· ∈ statuses) = true := by
  unfold editDocument at h
  obtain ⟨c, -, h⟩ := Option.bind_eq_some_iff.mp h
  obtain ⟨lines, -, h⟩ := Option.bind_eq_some_iff.mp h
  by_contra hnot
  rw [if_neg hnot] at h
  cases h

theorem passable_of_read {path : Bytes} {page : Page} (h : d.read lib path env.faults = some page) :
    d.passable (startOf lib path) (path.splitOn slash) = true := by
  unfold Disk.read at h
  split at h
  · rename_i hfind
    exact (Disk.find_iff.mp hfind).2.1
  · cases h

/-- Moving stays in the library if its parts do. -/
theorem within_relocate (hprepared : Disk.Within lib d (prepared env lib dst d))
    (hmoved : ∀ d', (d.createDirs env.faults (startOf lib dst) (wayTo dst)).2 = true →
      ((prepared env lib dst d).rename lib src env.faults dst).2 = true → placeOf lib src ≠ placeOf lib dst →
      Disk.Renamed (prepared env lib dst d) (placeOf lib src) (placeOf lib dst) d' →
      Disk.Within lib (prepared env lib dst d) d') : Disk.Within lib d (relocate env lib src dst entry d).1 := by
  rcases relocate_cases env lib src dst entry d with hsame | ⟨hdirs, hok, hlog⟩
  · rw [hsame]
    exact hprepared
  · rw [hlog]
    obtain ⟨-, hrenamed⟩ := (Disk.rename_cases ..).resolve_left fun h => by rw [h] at hok; cases hok
    have hwithin : Disk.Within lib (prepared env lib dst d)
        ((prepared env lib dst d).rename lib src env.faults dst).1 := by
      by_cases heq : placeOf lib src = placeOf lib dst
      · rw [hrenamed.same heq]
        exact .refl hprepared.dir
      · exact hmoved _ hdirs hok heq hrenamed
    exact (hprepared.trans hwithin).trans (within_appendLog hwithin.dir)

theorem within_of_movesInside (hlib : d.node lib = some .dir) (hbase : ∀ s ∈ base, d.node s = some .dir)
    (hfound : d.exists_ lib src = true) (h : MovesInside base lib src dst) :
    Disk.Within lib d (relocate env lib src dst entry d).1 := by
  have hthere := there_of_exists hbase hfound
  have hprepared : Disk.Within lib d (prepared env lib dst d) := Disk.within_createDirs hlib hthere h.dirs
  refine within_relocate hprepared fun d' hdirs hok hne hrenamed => ?_
  obtain ⟨hsrc, hdst⟩ := h.ends (canMove_of_rename hlib hthere hdirs hok (hrenamed.movable hne))
  exact Disk.within_renamed hprepared.dir hrenamed hsrc hdst

/-- A place that is always found is not found only if there is a file at the first path,
and then it is a directory. -/
theorem within_of_alwaysFound (hlib : d.node lib = some .dir) (hbase : ∀ s ∈ base, d.node s = some .dir)
    (hfound : d.exists_ lib src = true) (hfree : ¬ d.exists_ lib dst = true) (h : AlwaysFound base lib src dst) :
    Disk.Within lib d (relocate env lib src dst entry d).1 := by
  have hthere := there_of_exists hbase hfound
  have hmade : ∀ q ∈ made lib dst, Near lib (found base lib src) q := fun q hq =>
    .inr (h q (List.mem_cons_of_mem _ (passed_of_made hq)))
  have hprepared : Disk.Within lib d (prepared env lib dst d) := Disk.within_createDirs hlib hthere hmade
  refine within_relocate hprepared fun d' hdirs hok hne hrenamed => ?_
  exfalso
  -- What is in front of a place that is found is a directory, and so is it, unless it is the last one.
  have hdir {q s : List Name} (hs : s ∈ found base lib src) (hle : q <+: s) (hq : q ≠ placeOf lib src) :
      d.node q = some .dir := by
    obtain ⟨rest, rfl⟩ := hle
    by_cases hrest : rest = []
    · rw [hrest, List.append_nil] at hs
      rcases List.mem_append.mp hs with hs | hs
      · exact hbase q hs
      · obtain ⟨node, hnode⟩ := Option.isSome_iff_exists.mp hfound
        exact Disk.passable_passed.mp (Disk.find_iff.mp hnode).2.1 q ((List.mem_cons.mp hs).resolve_left hq)
    · exact Disk.isDir_of_below (hthere _ hs) hrest
  obtain ⟨s, hs, hle⟩ := h _ (List.mem_cons_self ..)
  have hdst := hdir hs hle (Ne.symm hne)
  have hfile : d.node (placeOf lib src) ≠ some .dir := by
    intro hsrc
    refine hfree (Option.isSome_iff_exists.mpr ⟨.dir, Disk.find_iff.mpr ⟨?_, ?_, hdst⟩⟩)
    · exact (Disk.renames_of_rename hok).no_zero
    · refine Disk.passable_passed.mpr fun q hq => ?_
      obtain ⟨s, hs, hle⟩ := h q (List.mem_cons_of_mem _ hq)
      by_cases heq : q = placeOf lib src
      · rw [heq, hsrc]
      · exact hdir hs hle heq
  have hfits := (hrenamed.movable hne).fits
  have hdst' : (prepared env lib dst d).node (placeOf lib dst) = some .dir :=
    Disk.keepsDirs_createDirs d env.faults _ _ _ hdst
  have hsrc' : (prepared env lib dst d).node (placeOf lib src) = d.node (placeOf lib src) :=
    keeps_prepared.there (hthere _ (List.mem_append_right _ (List.mem_cons_self ..)))
  rw [hsrc'] at hfits
  unfold Disk.fits at hfits
  split at hfits
  · rename_i hsrc
    exact hfile hsrc
  · exact of_decide_eq_true hfits hdst'
  · cases hfits

theorem within_cmdRm (hlib : d.node lib = some .dir) (hbase : ∀ s ∈ base, d.node s = some .dir)
    (h : CommandInside base lib (.rm opts)) : Disk.Within lib d (cmdRm env lib opts d).1 := by
  cases hrel : opts.given "path" with
  | none => simpa only [cmdRm, hrel] using Disk.Within.refl hlib
  | some rel =>
    rw [cmdRm_eq hrel]
    split
    · exact .refl hlib
    · rename_i hallowed
      rw [not_or, not_not] at hallowed
      exact within_of_movesInside hlib hbase hallowed.2 (h rel hrel hallowed.1)

theorem within_cmdRestore (hlib : d.node lib = some .dir) (hbase : ∀ s ∈ base, d.node s = some .dir)
    (h : CommandInside base lib (.restore opts)) : Disk.Within lib d (cmdRestore env lib opts d).1 := by
  cases hrel : opts.given "path" with
  | none => simpa only [cmdRestore, hrel] using Disk.Within.refl hlib
  | some rel =>
    rw [cmdRestore_eq hrel]
    split
    · exact .refl hlib
    · rename_i hallowed
      rw [not_or, not_not] at hallowed
      rcases h rel hrel with hfound | hinside
      · exact within_of_alwaysFound hlib hbase hallowed.1 hallowed.2 hfound
      · exact within_of_movesInside hlib hbase hallowed.1 hinside

theorem within_cmdAdd (hlib : d.node lib = some .dir) (hbase : ∀ s ∈ base, d.node s = some .dir)
    (h : CommandInside base lib (.add opts)) : Disk.Within lib d (cmdAdd env lib opts d).1 := by
  unfold cmdAdd
  split
  · rename_i rel ftype hrel htype
    split
    · exact .refl hlib
    · rename_i hallowed
      simp only [not_or, not_not] at hallowed
      obtain ⟨hmade, hplace⟩ := h rel ftype hrel htype hallowed.1 hallowed.2.1
      have hdirs : Disk.Within lib d (d.createDirs env.faults (startOf lib (encode rel)) (wayTo (encode rel))).1 :=
        Disk.within_createDirs hlib (fun s hs => by simp [hbase s hs]) hmade
      refine hdirs.andThen fun _ => ?_
      split
      · rename_i hstatus
        have hwritten := Disk.within_write env.faults
          (Page.text (addDocument opts ftype (titleOf opts rel) (isoNow env.secs))) hdirs.dir
          (fun s hs => Disk.keepsDirs_createDirs d env.faults _ _ s (hbase s hs)) (hplace hstatus)
        exact hwritten.andThen fun _ => within_appendLog hwritten.dir
      · exact .refl hdirs.dir
  · exact .refl hlib

theorem within_cmdEdit (hlib : d.node lib = some .dir) (hbase : ∀ s ∈ base, d.node s = some .dir)
    (h : CommandInside base lib (.edit opts)) : Disk.Within lib d (cmdEdit env lib opts d).1 := by
  unfold cmdEdit
  split
  · rename_i rel hrel
    split
    · rename_i doc hdoc
      obtain ⟨raw, hraw, hedited⟩ := Option.bind_eq_some_iff.mp hdoc
      obtain ⟨page, hread, -⟩ := Option.bind_eq_some_iff.mp hraw
      have hwritten := Disk.within_write env.faults (Page.text doc) hlib (fun s hs => ?_)
        (h rel hrel (status_of_edited hedited))
      · exact hwritten.andThen fun _ => within_appendLog hwritten.dir
      · rcases List.mem_append.mp hs with hs | hs
        · exact hbase s hs
        · exact Disk.passable_passed.mp (passable_of_read hread) s hs
    · exact .refl hlib
  · exact .refl hlib

theorem within_writeDirIndexes (env : Env) (files : List (List Name)) {dirs : List Text} (hlib : d.node lib = some .dir)
    (hbase : ∀ s ∈ base, d.node s = some .dir) (h : ∀ dir ∈ dirs, IndexInside base lib dir) :
    Disk.Within lib d (writeDirIndexes env lib files dirs d).1 := by
  induction dirs generalizing d with
  | nil => exact .refl hlib
  | cons dir dirs ih =>
    obtain ⟨hdir, hdirs⟩ := List.forall_mem_cons.mp h
    obtain ⟨hplace, hmade⟩ := List.forall_mem_cons.mp hdir
    have hmake : Disk.Within lib d
        (d.createDirs env.faults (startOf lib (indexPath dir)) (wayTo (indexPath dir))).1 :=
      Disk.within_createDirs hlib (fun s hs => by simp [hbase s hs]) hmade
    have hkept := Disk.keepsDirs_createDirs d env.faults (startOf lib (indexPath dir)) (wayTo (indexPath dir))
    have hindex : Disk.Within lib d (writeDirIndex env lib files dir d).1 :=
      hmake.andThen fun _ => Disk.within_write _ _ hmake.dir (fun s hs => hkept s (hbase s hs)) hplace
    have hkeeps : Disk.KeepsDirs d (writeDirIndex env lib files dir d).1 :=
      Disk.KeepsDirs.andThen hkept (Disk.keepsDirs_write _ _ _ _ _)
    exact hindex.andThen fun _ => ih hindex.dir (fun s hs => hkeeps s (hbase s hs)) hdirs

theorem within_writeRootIndex {files : List (List Name)} (hlib : d.node lib = some .dir) :
    Disk.Within lib d (writeRootIndex env lib files d).1 := by
  rw [writeRootIndex, createLib_eq hlib]
  have hnear : Near lib [] (placeOf lib indexMd) := by
    rw [placeOf_name lib isName_indexMd]
    exact .inl (List.prefix_append ..)
  exact Disk.Within.andThen (.refl hlib) fun _ => Disk.within_write _ _ hlib (by simp) hnear

/-- A command whose paths lie in the library changes nothing outside of it. -/
theorem within_runCommand (command : LibCommand) (hbase : ∀ s ∈ base, d.node s = some .dir)
    (hlib : d.node lib = some .dir) (h : CommandInside base lib command)
    (hindex : command = .index → ∀ dir ∈ groupDirs (collectMdFiles lib d), IndexInside base lib dir) :
    Disk.Within lib d (runCommand env lib command d).1 := by
  unfold runCommand
  rw [if_pos hlib]
  cases command with
  | add opts => exact within_cmdAdd hlib hbase h
  | rm opts => exact within_cmdRm hlib hbase h
  | restore opts => exact within_cmdRestore hlib hbase h
  | edit opts => exact within_cmdEdit hlib hbase h
  | index =>
    have hdirs := within_writeDirIndexes env (collectMdFiles lib d) hlib hbase (hindex rfl)
    exact hdirs.andThen fun _ => within_writeRootIndex hdirs.dir
  | log opts =>
    show Disk.Within lib d (cmdLog env lib opts d).1
    unfold cmdLog
    split
    · exact within_appendLog hlib
    · exact .refl hlib

end

-- ---------------------------------------------------------------------------
-- Libraries
-- ---------------------------------------------------------------------------

section
variable {env : Env} {root : List Name} {d : OkfDisk} {opts : Opts} {name : Text} {p : List Name}

theorem bytes_of_valid (h : validLibName name = true) :
    encode name ≠ [] ∧ slash ∉ encode name ∧ 0 ∉ encode name := by
  simp only [validLibName, Bool.and_eq_true, decide_eq_true_eq, List.all_eq_true] at h
  obtain ⟨⟨hne, -⟩, hchars⟩ := h
  have hnot {b : UInt8} (hb : b.toNat < 128) (hrefused : ∀ c : Char, c.toNat = b.toNat →
      (c.isLower || c.isDigit || c = '.' || c = '_' || c = '-') = false) : b ∉ encode name := by
    intro hmem
    obtain ⟨c, hc, heq⟩ := of_mem_encode hmem hb
    have hallowed := hchars c hc
    rw [hrefused c heq] at hallowed
    cases hallowed
  refine ⟨fun hnil => hne ?_, hnot (by decide) fun c hc => ?_, hnot (by decide) fun c hc => ?_⟩
  · rw [← fromUtf8Lossy_encode name, hnil]
    exact fromUtf8Lossy_encode []
  · obtain rfl : c = '/' := Char.toNat_inj.mp hc
    decide
  · obtain rfl : c = Char.ofNat 0 := Char.toNat_inj.mp hc
    decide

theorem splitOn_valid (h : validLibName name = true) : (encode name).splitOn slash = [encode name] :=
  List.splitOn_eq_singleton (bytes_of_valid h).2.1

theorem startOf_valid (h : validLibName name = true) : startOf root (encode name) = root :=
  if_neg fun hhead => (bytes_of_valid h).2.1 (List.mem_of_mem_head? hhead)

/-- Below a root that is there, a name that is none for an entry leads to a library that is. -/
theorem exists_of_dots (h : validLibName name = true) (hroot : d.node root = some .dir) (hname : ¬ IsName (encode name)) :
    d.exists_ root (encode name) = true := by
  obtain ⟨hne, hslash, hzero⟩ := bytes_of_valid h
  have hplace : d.node (placeOf root (encode name)) = some .dir := by
    rw [placeOf, ← startOf, startOf_valid h, splitOn_valid h, List.foldl_cons, List.foldl_nil]
    unfold enter
    split
    · exact hroot
    · rename_i hskip
      split
      · exact Disk.dir_of_above (List.dropLast_prefix root) hroot
      · rename_i hup
        refine absurd ⟨hne, hslash, hzero, fun hdot => hskip ?_, hup⟩ hname
        simp [skipped, hdot]
  refine Option.isSome_iff_exists.mpr ⟨.dir, Disk.find_iff.mpr ⟨hzero, ?_, hplace⟩⟩
  rw [startOf_valid h, splitOn_valid h]
  simp [Disk.passable, hroot]

/-- In a root that is there, only the new library is made. -/
theorem changed_of_libNew (hnames : ∀ name ∈ root, IsName name)
    (hready : ∀ name, opts.given "path" = some name → validLibName name = true →
      d.node root = some .dir ∨ ∃ q, q <+: root ∧ d.IsFile q)
    (hp : (cmdLibNew env root opts d).1.node p ≠ d.node p) : ∃ name seg, opts.given "path" = some name ∧
      IsName seg ∧ placeOf root (encode name) = root ++ [seg] ∧ root ++ [seg] <+: p := by
  unfold cmdLibNew at hp
  split at hp
  · rename_i name hgiven
    split at hp
    · exact absurd rfl hp
    · rename_i hallowed
      rw [not_or, not_not] at hallowed
      obtain ⟨hvalid, hnew⟩ := hallowed
      rcases hready name hgiven hvalid with hroot | ⟨q, hle, hfile⟩
      · have hname : IsName (encode name) := by
          by_contra hnot
          exact hnew (exists_of_dots hvalid hroot hnot)
        have hplace := placeOf_name root hname
        refine ⟨name, encode name, hgiven, hname, hplace, ?_⟩
        by_contra hout
        have hmade : ∀ q ∈ (root ++ [encode name]).scanl enter [], Near (root ++ [encode name]) [root] q := by
          have hall : ∀ n ∈ root ++ [encode name], IsName n := fun n hn =>
            (List.mem_append.mp hn).elim (hnames n) fun hn => List.mem_singleton.mp hn ▸ hname
          intro q hq
          obtain ⟨front, hfront, rfl⟩ := (mem_scanl_names hall).mp hq
          rcases List.prefix_concat_iff.mp hfront with rfl | hfront
          · exact .inl (by simp)
          · exact .inr ⟨root, List.mem_singleton_self _, by simpa using hfront⟩
        rw [splitOn_valid hvalid, hplace] at hp
        refine hp (Disk.node_andThen ?_ (Disk.node_andThen ?_ ?_))
        · have hthere : ∀ s ∈ [root], d.node s ≠ none := by simp [hroot]
          exact Disk.outside_createDirs hthere hmade hout
        · refine Disk.outside_write ?_ hout
          rw [placeOf_name _ isName_indexMd]
          exact List.prefix_append ..
        · refine Disk.outside_write ?_ hout
          rw [placeOf_name _ isName_logMd]
          exact List.prefix_append ..
      · obtain ⟨rest, rfl⟩ := hle
        rw [List.append_assoc, Disk.createDirs_of_file []
          (fun name hname => hnames name (List.mem_append_left _ hname)) hfile d.root] at hp
        exact absurd rfl hp
  · exact absurd rfl hp

theorem changed_of_libRm {force : Bool} (h : force = true → ∀ name, opts.given "path" = some name →
      ∃ seg, IsName seg ∧ placeOf root (encode name) = root ++ [seg])
    (hp : (cmdLibRm env root opts force d).1.node p ≠ d.node p) : ∃ name seg, opts.given "path" = some name ∧
      IsName seg ∧ placeOf root (encode name) = root ++ [seg] ∧ root ++ [seg] <+: p := by
  unfold cmdLibRm at hp
  split at hp
  · rename_i name hgiven
    split at hp
    · rename_i hforce
      obtain ⟨seg, hseg, hplace⟩ := h hforce name hgiven
      refine ⟨name, seg, hgiven, hseg, hplace, ?_⟩
      by_contra hout
      rw [← hplace] at hout
      exact hp (Disk.node_removeDirAll hout)
    · exact absurd rfl hp
  · exact absurd rfl hp

end

/-- A command whose paths lead nowhere else stays in its library. -/
theorem confined_of_inside {env : Env} {root : List Name} {args : List Text} {d : OkfDisk}
    (hnames : ∀ name ∈ root, IsName name) (hinside : PathsInside root args) (hroot : RootReady root args d)
    (hdirs : DirsReady root args d) : Confined env root args d := by
  intro p hp
  unfold PathsInside at hinside
  unfold RootReady at hroot
  unfold DirsReady at hdirs
  unfold runOkf at hp
  unfold Allowed
  cases hcommand : commandOf args with
  | libNew opts =>
    simp only [hcommand] at hp hroot ⊢
    exact changed_of_libNew hnames hroot hp
  | libRm opts force =>
    simp only [hcommand] at hp hinside ⊢
    exact changed_of_libRm hinside hp
  | inLibrary lib command =>
    simp only [hcommand] at hp hinside hdirs ⊢
    by_contra hout
    unfold resolveLib at hp
    split at hp
    · rename_i hplace
      split at hplace
      · rename_i hfound
        obtain rfl := Option.some.inj hplace
        obtain ⟨hvalid, hfind⟩ := hfound
        obtain ⟨-, hpass, hlib⟩ := Disk.find_iff.mp hfind
        rw [startOf_valid hvalid, splitOn_valid hvalid] at hpass
        have hbase : ∀ s ∈ [root, placeOf root (encode lib)], d.node s = some .dir := by
          simpa [Disk.passable, hlib] using hpass
        refine hp ((within_runCommand command hbase hlib (hinside hvalid) ?_).outside p hout)
        rintro rfl
        exact hdirs
      · cases hplace
    · exact hp rfl
  | reads =>
    simp only [hcommand] at hp
    exact hp rfl

end Nsmt.Okf
