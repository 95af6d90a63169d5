import Nsmt.Client.Fs
import Nsmt.Lib.UnixPaths
import Mathlib.Data.List.Sort

/-!
# The walk through a share directory

`build_tree` on directories in directories, with names of any bytes. The path of
an entry is decoded from the bytes of the file's path, and its separators are
replaced; whether a file is left out depends on the whole path.
`build_tree_exact_iff` says for which directories the tree describes the files
exactly, and `buildTree_flat` that it is then the tree of the flat directory.
-/

namespace Nsmt.Client

open Nsmt.Lib Nsmt.Lib.Utf8 Nsmt.Lib.UnixPaths Nsmt.Core

/-- What `read_dir` yields, in its order: files, directories with what is in
them, and links and the like. -/
inductive Listing
  | nil
  | file (name : Name) (bytes : Bytes) (mtimeNs : Int) (rest : Listing)
  | dir (name : Name) (entries rest : Listing)
  | other (name : Name) (rest : Listing)

/-- A regular file, with the names that lead to it from the share directory. -/
structure SharedFile where
  names : List Name
  bytes : Bytes
  mtimeNs : Int
  deriving DecidableEq, Repr

namespace Listing

def names : Listing → List Name
  | .nil => []
  | .file name _ _ rest => name :: rest.names
  | .dir name _ rest => name :: rest.names
  | .other name rest => name :: rest.names

/-- As a file system has it: names differ, and a file fits into memory. -/
def Valid : Listing → Prop
  | .nil => True
  | .file name bytes _ rest =>
    IsName name ∧ name ∉ rest.names ∧ bytes.length < 2 ^ 63 ∧ rest.Valid
  | .dir name entries rest => IsName name ∧ name ∉ rest.names ∧ entries.Valid ∧ rest.Valid
  | .other name rest => IsName name ∧ name ∉ rest.names ∧ rest.Valid

/-- The regular files, at any depth. -/
def files (above : List Name) : Listing → List SharedFile
  | .nil => []
  | .file name bytes mtimeNs rest => ⟨above ++ [name], bytes, mtimeNs⟩ :: rest.files above
  | .dir name entries rest => entries.files (above ++ [name]) ++ rest.files above
  | .other _ rest => rest.files above

variable (sha256 : Bytes → Digest)

/-- `walk`; `out` grows by the entry of each file. -/
def walk (root : Bytes) : Bytes → Listing → List FileTreeEntry → List FileTreeEntry
  | _, .nil, out => out
  | here, .file name bytes mtimeNs rest, out =>
    let p := joinPath here name
    let rel := String.ofList (fromUtf8Lossy ((stripPrefix root p).getD p))
    walk root here rest (out ++ (walkEntry sha256 rel (.file bytes mtimeNs)).toList)
  | here, .dir name entries rest, out => walk root here rest (walk root (joinPath here name) entries out)
  | here, .other _ rest, out => walk root here rest out

end Listing

structure ShareTree where
  listing : Listing
  valid : listing.Valid

namespace ShareTree

def files (tree : ShareTree) : List SharedFile := tree.listing.files []

def buildTree (sha256 : Bytes → Digest) (root : Bytes) (tree : ShareTree) : FileTree :=
  let entries := (tree.listing.walk sha256 root root []).insertionSort fun a b => a.path ≤ b.path
  { treeHash := treeHash sha256 { treeHash := "", entries }, entries }

end ShareTree

-- ---------------------------------------------------------------------------
-- What the tree should be
-- ---------------------------------------------------------------------------

/-- A conflict copy or a marker, by its name. -/
def LeftOut (name : Name) : Prop := utf8 ".sync-conflict-" <+: name ∨ utf8 ".nsmt-" <+: name

instance (name : Name) : Decidable (LeftOut name) := inferInstanceAs (Decidable (_ ∨ _))

namespace SharedFile

def fileName (f : SharedFile) : Name := f.names.getLast?.getD []

/-- The name of the file, or of the directory at the top that it is in. -/
def topName (f : SharedFile) : Name := f.names.head?.getD []

/-- The path below the share directory as text. -/
def relText (f : SharedFile) : String := String.ofList (fromUtf8Lossy (joined f.names))

variable (sha256 : Bytes → Digest)

def entry (f : SharedFile) : FileTreeEntry where
  path := relOf f.relText
  blobId := objectId sha256 f.bytes
  mode := 0o644
  size := f.bytes.length % 2 ^ 64
  mtimeNs := f.mtimeNs

/-- The path of the entry, joined to the share directory, leads to the file, and the
hash and the size are the file's. -/
structure Described (cwd : List Name) (root : Bytes) (f : SharedFile) : Prop where
  place : placeOf cwd (joinPath root (utf8 (f.entry sha256).path)) = placeOf cwd (pathBelow root f.names)
  blobId : (f.entry sha256).blobId = objectId sha256 f.bytes
  size : (f.entry sha256).size = f.bytes.length

/-- Text without a backslash. -/
def Plain (f : SharedFile) : Prop := ∀ name ∈ f.names, IsText name ∧ backslash ∉ name

end SharedFile

/-- The tree lists the files that are not marked, each once and as it is. -/
structure ShareTree.Exact (sha256 : Bytes → Digest) (cwd : List Name) (root : Bytes) (tree : ShareTree) :
    Prop where
  listed : ∃ fs : List SharedFile, fs.Perm (tree.files.filter fun f => ¬ LeftOut f.fileName) ∧
    (tree.buildTree sha256 root).entries = fs.map (SharedFile.entry sha256) ∧
    ∀ f ∈ fs, f.Described sha256 cwd root
  sorted : (tree.buildTree sha256 root).paths.Pairwise (· ≤ ·)
  distinct : (tree.buildTree sha256 root).paths.Nodup

-- ---------------------------------------------------------------------------
-- The files of a directory
-- ---------------------------------------------------------------------------

namespace Listing

variable {listing : Listing} {above : List Name} {f : SharedFile}

theorem mem_files (h : f ∈ listing.files above) :
    ∃ name ∈ listing.names, ∃ more, f.names = above ++ name :: more := by
  induction listing generalizing above with
  | nil => cases h
  | file name bytes mtimeNs rest ih =>
    rcases List.mem_cons.mp h with rfl | hrest
    · exact ⟨name, List.mem_cons_self .., [], rfl⟩
    · obtain ⟨next, hnext, more, hnames⟩ := ih hrest
      exact ⟨next, List.mem_cons_of_mem _ hnext, more, hnames⟩
  | dir name entries rest ihentries ihrest =>
    rcases List.mem_append.mp h with hin | hrest
    · obtain ⟨next, -, more, hnames⟩ := ihentries hin
      exact ⟨name, List.mem_cons_self .., next :: more, by simpa using hnames⟩
    · obtain ⟨next, hnext, more, hnames⟩ := ihrest hrest
      exact ⟨next, List.mem_cons_of_mem _ hnext, more, hnames⟩
  | other name rest ih =>
    obtain ⟨next, hnext, more, hnames⟩ := ih h
    exact ⟨next, List.mem_cons_of_mem _ hnext, more, hnames⟩

theorem isName_concat (h : ∀ name ∈ above, IsName name) (hname : IsName name) :
    ∀ n ∈ above ++ [name], IsName n := by
  intro n hn
  rcases List.mem_append.mp hn with hn | hn
  · exact h n hn
  · exact List.mem_singleton.mp hn ▸ hname

theorem Valid.isName (h : listing.Valid) (habove : ∀ name ∈ above, IsName name)
    (hf : f ∈ listing.files above) : ∀ name ∈ f.names, IsName name := by
  induction listing generalizing above with
  | nil => cases hf
  | file name bytes mtimeNs rest ih =>
    obtain ⟨hname, -, -, hrest⟩ := h
    rcases List.mem_cons.mp hf with rfl | hf
    · exact isName_concat habove hname
    · exact ih hrest habove hf
  | dir name entries rest ihentries ihrest =>
    obtain ⟨hname, -, hentries, hrest⟩ := h
    rcases List.mem_append.mp hf with hin | hf
    · exact ihentries hentries (isName_concat habove hname) hin
    · exact ihrest hrest habove hf
  | other name rest ih => exact ih h.2.2 habove hf

theorem Valid.length_lt (h : listing.Valid) (hf : f ∈ listing.files above) : f.bytes.length < 2 ^ 63 := by
  induction listing generalizing above with
  | nil => cases hf
  | file name bytes mtimeNs rest ih =>
    obtain ⟨-, -, hlen, hrest⟩ := h
    rcases List.mem_cons.mp hf with rfl | hf
    · exact hlen
    · exact ih hrest hf
  | dir name entries rest ihentries ihrest =>
    obtain ⟨-, -, hentries, hrest⟩ := h
    exact (List.mem_append.mp hf).elim (ihentries hentries) (ihrest hrest)
  | other name rest ih => exact ih h.2.2 hf

theorem Valid.nodup_names (h : listing.Valid) (above : List Name) :
    ((listing.files above).map SharedFile.names).Nodup := by
  induction listing generalizing above with
  | nil => exact List.nodup_nil
  | file name bytes mtimeNs rest ih =>
    obtain ⟨-, hnew, -, hrest⟩ := h
    refine List.nodup_cons.mpr ⟨fun hmem => ?_, ih hrest above⟩
    obtain ⟨f, hf, hsame⟩ := List.mem_map.mp hmem
    obtain ⟨next, hnext, more, hnames⟩ := mem_files hf
    rw [hnames] at hsame
    simp only [List.append_cancel_left_eq, List.cons.injEq] at hsame
    exact hnew (hsame.1 ▸ hnext)
  | dir name entries rest ihentries ihrest =>
    obtain ⟨-, hnew, hentries, hrest⟩ := h
    rw [files, List.map_append]
    refine List.Nodup.append (ihentries hentries _) (ihrest hrest above) fun names hin hout => ?_
    obtain ⟨f, hf, rfl⟩ := List.mem_map.mp hin
    obtain ⟨g, hg, hsame⟩ := List.mem_map.mp hout
    obtain ⟨inner, -, more, hf⟩ := mem_files hf
    obtain ⟨next, hnext, others, hg⟩ := mem_files hg
    rw [hf, hg] at hsame
    simp only [List.append_assoc, List.singleton_append, List.append_cancel_left_eq,
      List.cons.injEq] at hsame
    exact hnew (hsame.1 ▸ hnext)
  | other name rest ih => exact ih h.2.2 above

/-- The walk adds the entries of the files that are not left out. -/
theorem Valid.walk_eq (sha256 : Bytes → Digest) (root : Bytes) (h : listing.Valid)
    (habove : ∀ name ∈ above, IsName name) (out : List FileTreeEntry) :
    listing.walk sha256 root (pathBelow root above) out =
      out ++ (listing.files above).filterMap fun f => walkEntry sha256 f.relText (.file f.bytes f.mtimeNs) := by
  have hjoin (above : List Name) (name : Name) :
      joinPath (pathBelow root above) name = pathBelow root (above ++ [name]) := by
    simp [pathBelow]
  induction listing generalizing above out with
  | nil => simp [walk, files]
  | file name bytes mtimeNs rest ih =>
    obtain ⟨hname, -, -, hrest⟩ := h
    rw [walk, hjoin, stripPrefix_pathBelow root (isName_concat habove hname) (by simp), ih hrest habove,
      files, List.filterMap_cons, List.append_assoc]
    simp only [SharedFile.relText, Option.getD_some]
    cases walkEntry sha256 (String.ofList (fromUtf8Lossy (joined (above ++ [name]))))
      (.file bytes mtimeNs) <;> rfl
  | dir name entries rest ihentries ihrest =>
    obtain ⟨hname, -, hentries, hrest⟩ := h
    rw [walk, hjoin, ihentries hentries (isName_concat habove hname), ihrest hrest habove, files,
      List.filterMap_append, List.append_assoc]
  | other name rest ih => exact ih h.2.2 habove out

end Listing

-- ---------------------------------------------------------------------------
-- The entry of a file
-- ---------------------------------------------------------------------------

theorem prefix_relOf {cs : List Char} (h : ∀ c ∈ cs, c ≠ '/' ∧ c ≠ '\\') (s : String) :
    cs <+: (relOf s).toList ↔ cs <+: s.toList := by
  rw [relOf, String.toList_ofList]
  generalize s.toList = text
  induction cs generalizing text with
  | nil => simp
  | cons c cs ih =>
    obtain ⟨⟨hslash, hback⟩, hcs⟩ := List.forall_mem_cons.mp h
    cases text with
    | nil => simp
    | cons d text =>
      rw [List.map_cons, List.cons_prefix_cons, List.cons_prefix_cons, ih hcs]
      by_cases hd : d = '\\'
      · simp [hd, hslash, hback]
      · simp [hd]

/-- A beginning without a slash is one of the first name. -/
theorem prefix_joined {bytes : Bytes} (h : slash ∉ bytes) (name : Name) (names : List Name) :
    bytes <+: joined (name :: names) ↔ bytes <+: name := by
  cases names with
  | nil => rw [joined_single]
  | cons next names =>
    rw [joined_cons name (by simp)]
    constructor
    · intro hprefix
      rcases List.prefix_or_prefix_of_prefix hprefix (List.prefix_append name _) with hin | ⟨rest, rfl⟩
      · exact hin
      · cases rest with
        | nil => simp
        | cons b rest =>
          have hb := (List.cons_prefix_cons.mp ((List.prefix_append_right_inj name).mp hprefix)).1
          exact absurd (by simp [hb]) h
    · exact fun hprefix => hprefix.trans (List.prefix_append ..)

namespace SharedFile

variable {f g : SharedFile} {sha256 : Bytes → Digest}

/-- Whether the file is left out depends on the name at the top. -/
theorem synced_iff (h : f.names ≠ []) : synced (relOf f.relText) = true ↔ ¬ LeftOut f.topName := by
  obtain ⟨name, names, hnames⟩ := List.exists_cons_of_ne_nil h
  have hmark (mark : String) (hascii : ∀ c ∈ mark.toList, c.toNat < 128 ∧ c ≠ '/' ∧ c ≠ '\\') :
      mark.toList.isPrefixOf (relOf f.relText).toList = true ↔ utf8 mark <+: name := by
    have hslash : slash ∉ utf8 mark := by
      intro hmem
      obtain ⟨c, hc, hval⟩ := of_mem_encode hmem (by decide)
      exact (hascii c hc).2.1 (Char.toNat_inj.mp hval)
    rw [List.isPrefixOf_iff_prefix, prefix_relOf fun c hc => (hascii c hc).2, relText,
      String.toList_ofList, prefix_fromUtf8Lossy fun c hc => (hascii c hc).1, ← utf8_eq_encode, hnames,
      prefix_joined hslash]
  have htop : f.topName = name := by simp [topName, hnames]
  rw [htop, LeftOut, ← hmark ".sync-conflict-" (by simp), ← hmark ".nsmt-" (by simp)]
  simp only [synced, Bool.not_eq_true', Bool.or_eq_false_iff, not_or, Bool.not_eq_true]

theorem walkEntry_eq (f : SharedFile) :
    walkEntry sha256 f.relText (.file f.bytes f.mtimeNs) =
      if synced (relOf f.relText) then some (f.entry sha256) else none := rfl

theorem Plain.utf8_path (h : f.Plain) (sha256 : Bytes → Digest) : utf8 (f.entry sha256).path = joined f.names := by
  obtain ⟨cs, hcs, hback⟩ := joined_text h
  have hrel : f.relText = String.ofList cs := by rw [relText, ← hcs, fromUtf8Lossy_encode]
  have hpath : relOf f.relText = f.relText := relOf_eq_self.mpr (by rw [hrel, String.toList_ofList]; exact hback)
  show utf8 (relOf f.relText) = joined f.names
  rw [hpath, hrel, utf8_eq_encode, String.toList_ofList, hcs]

theorem described_iff (cwd : List Name) (root : Bytes) (hnames : ∀ name ∈ f.names, IsName name)
    (hne : f.names ≠ []) (hlen : f.bytes.length < 2 ^ 63) :
    f.Described sha256 cwd root ↔ f.Plain := by
  constructor
  · intro h name hname
    have hpiece := names_of_place hnames hne h.place name hname
    rw [utf8_eq_encode] at hpiece
    obtain ⟨part, rfl, hpart⟩ := mem_splitOn_encode hpiece
    refine ⟨⟨part, rfl⟩, fun hmem => ?_⟩
    obtain ⟨c, hc, hval⟩ := of_mem_encode hmem (by decide)
    have hback : c = '\\' := Char.toNat_inj.mp hval
    exact relOf_eq_self.mp (relOf_relOf f.relText) (hback ▸ hpart c hc)
  · intro h
    refine ⟨?_, rfl, Nat.mod_eq_of_lt (by omega)⟩
    rw [h.utf8_path, joinPath_joined root hnames hne]

end SharedFile

namespace ShareTree

variable {tree : ShareTree} {f g : SharedFile} {sha256 : Bytes → Digest}

theorem isName (hf : f ∈ tree.files) : ∀ name ∈ f.names, IsName name :=
  tree.valid.isName (by simp) hf

theorem names_ne_nil (hf : f ∈ tree.files) : f.names ≠ [] := by
  obtain ⟨name, -, more, hnames⟩ := Listing.mem_files hf
  simp [hnames]

theorem described_iff (sha256 : Bytes → Digest) (cwd : List Name) (root : Bytes) (hf : f ∈ tree.files) :
    f.Described sha256 cwd root ↔ f.Plain :=
  SharedFile.described_iff cwd root (isName hf) (names_ne_nil hf) (tree.valid.length_lt hf)

def kept (tree : ShareTree) : List SharedFile := tree.files.filter fun f => synced (relOf f.relText)

theorem mem_kept : f ∈ tree.kept ↔ f ∈ tree.files ∧ ¬ LeftOut f.topName := by
  rw [kept, List.mem_filter]
  exact and_congr_right fun hf => SharedFile.synced_iff (names_ne_nil hf)

theorem buildTree_entries (sha256 : Bytes → Digest) (root : Bytes) (tree : ShareTree) :
    (tree.buildTree sha256 root).entries =
      (tree.kept.map (SharedFile.entry sha256)).insertionSort fun a b => a.path ≤ b.path := by
  have hkept (files : List SharedFile) :
      files.filterMap (fun f => walkEntry sha256 f.relText (.file f.bytes f.mtimeNs)) =
        (files.filter fun f => synced (relOf f.relText)).map (SharedFile.entry sha256) := by
    induction files with
    | nil => rfl
    | cons f files ih =>
      rw [List.filterMap_cons, SharedFile.walkEntry_eq, List.filter_cons]
      split <;> simp_all
  have htop : ∀ name ∈ ([] : List Name), IsName name := by simp
  have hwalk := tree.valid.walk_eq sha256 root htop []
  rw [List.nil_append, hkept] at hwalk
  rw [kept, files, ← hwalk]
  rfl

theorem mem_entries : e ∈ (tree.buildTree sha256 root).entries ↔ ∃ f ∈ tree.kept, f.entry sha256 = e := by
  rw [buildTree_entries, List.mem_insertionSort, List.mem_map]

theorem paths_perm (sha256 : Bytes → Digest) (root : Bytes) (tree : ShareTree) :
    (tree.buildTree sha256 root).paths.Perm (tree.kept.map fun f => relOf f.relText) := by
  have hperm := (List.perm_insertionSort (fun a b : FileTreeEntry => a.path ≤ b.path)
    (tree.kept.map (SharedFile.entry sha256))).map FileTreeEntry.path
  rw [← buildTree_entries, List.map_map] at hperm
  exact hperm

theorem paths_sorted (sha256 : Bytes → Digest) (root : Bytes) (tree : ShareTree) :
    (tree.buildTree sha256 root).paths.Pairwise (· ≤ ·) := by
  rw [FileTree.paths, List.pairwise_map, buildTree_entries]
  have : Std.Total fun a b : FileTreeEntry => a.path ≤ b.path := ⟨fun a b => String.le_total a.path b.path⟩
  have : IsTrans FileTreeEntry fun a b => a.path ≤ b.path := ⟨fun _ _ _ => String.le_trans⟩
  exact List.pairwise_insertionSort _ _

theorem entries_eq_map (sha256 : Bytes → Digest) (root : Bytes) (tree : ShareTree) :
    ∃ fs : List SharedFile, fs.Perm tree.kept ∧
      (tree.buildTree sha256 root).entries = fs.map (SharedFile.entry sha256) := by
  let before (f g : SharedFile) : Prop := (f.entry sha256).path ≤ (g.entry sha256).path
  have : DecidableRel before := fun f g =>
    inferInstanceAs (Decidable ((f.entry sha256).path ≤ (g.entry sha256).path))
  refine ⟨tree.kept.insertionSort before, List.perm_insertionSort before tree.kept, ?_⟩
  rw [buildTree_entries]
  exact (List.map_insertionSort (r := before) (s := fun a b : FileTreeEntry => a.path ≤ b.path)
    (SharedFile.entry sha256) tree.kept fun _ _ _ _ => Iff.rfl).symm

/-- If no two kept files share a path, it says which file it is. -/
theorem inj_of_distinct (h : (tree.buildTree sha256 root).paths.Nodup) (hf : f ∈ tree.kept)
    (hg : g ∈ tree.kept) (hpath : relOf f.relText = relOf g.relText) : f = g :=
  List.inj_on_of_nodup_map ((paths_perm sha256 root tree).nodup_iff.mp h) hf hg hpath

theorem inj_of_names (hf : f ∈ tree.files) (hg : g ∈ tree.files) (h : f.names = g.names) : f = g :=
  List.inj_on_of_nodup_map (tree.valid.nodup_names []) hf hg h

/-- What must hold of the files for the tree to be exact. -/
def Regular (tree : ShareTree) : Prop :=
  ∀ f ∈ tree.files, (LeftOut f.topName ↔ LeftOut f.fileName) ∧ (¬ LeftOut f.fileName → f.Plain)

namespace Regular

theorem kept_eq (h : tree.Regular) : tree.kept = tree.files.filter fun f => ¬ LeftOut f.fileName := by
  refine List.filter_congr fun f hf => ?_
  rw [Bool.eq_iff_iff, decide_eq_true_eq, SharedFile.synced_iff (names_ne_nil hf), (h f hf).1]

theorem plain (h : tree.Regular) (hf : f ∈ tree.kept) : f ∈ tree.files ∧ f.Plain := by
  rw [h.kept_eq, List.mem_filter, decide_eq_true_eq] at hf
  exact ⟨hf.1, (h f hf.1).2 hf.2⟩

theorem distinct (h : tree.Regular) (sha256 : Bytes → Digest) (root : Bytes) :
    (tree.buildTree sha256 root).paths.Nodup := by
  rw [(paths_perm sha256 root tree).nodup_iff]
  have hfiles : tree.kept.Nodup := (List.Nodup.of_map _ (tree.valid.nodup_names [])).filter _
  refine List.Nodup.map_on (fun f hf g hg hpath => ?_) hfiles
  obtain ⟨hfile, hplain⟩ := h.plain hf
  obtain ⟨hgfile, hgplain⟩ := h.plain hg
  have hjoined : joined f.names = joined g.names := by
    rw [← hplain.utf8_path sha256, ← hgplain.utf8_path sha256]
    exact congrArg utf8 hpath
  have hsplit {f : SharedFile} (hf : f ∈ tree.files) : (joined f.names).splitOn slash = f.names :=
    splitOn_joined (fun name hname => (isName hf name hname).2.1) (names_ne_nil hf)
  refine inj_of_names hfile hgfile ?_
  rw [← hsplit hfile, hjoined, hsplit hgfile]

end Regular

theorem build_tree_exact_iff (sha256 : Bytes → Digest) (cwd : List Name) (root : Bytes) (tree : ShareTree) :
    tree.Exact sha256 cwd root ↔ tree.Regular := by
  constructor
  · rintro ⟨⟨fs, hperm, hentries, hdescribed⟩, -, hdistinct⟩
    have hlisted {f : SharedFile} : f ∈ fs ↔ f ∈ tree.files ∧ ¬ LeftOut f.fileName := by
      rw [hperm.mem_iff, List.mem_filter, decide_eq_true_eq]
    -- A file that is listed is kept, since its entry is one of the tree.
    have hkept {f : SharedFile} (hf : f ∈ tree.files) (hmark : ¬ LeftOut f.fileName) : f ∈ tree.kept := by
      have hmem : f.entry sha256 ∈ (tree.buildTree sha256 root).entries :=
        hentries ▸ List.mem_map_of_mem (hlisted.mpr ⟨hf, hmark⟩)
      obtain ⟨g, hg, hsame⟩ := mem_entries.mp hmem
      have hpath : relOf g.relText = relOf f.relText := congrArg FileTreeEntry.path hsame
      have hsynced := (List.mem_filter.mp hg).2
      rw [hpath] at hsynced
      exact List.mem_filter.mpr ⟨hf, hsynced⟩
    intro f hf
    refine ⟨not_iff_not.mp ⟨fun htop => ?_, fun hmark => (mem_kept.mp (hkept hf hmark)).2⟩, fun hmark =>
      (described_iff sha256 cwd root hf).mp (hdescribed f (hlisted.mpr ⟨hf, hmark⟩))⟩
    have hfkept := mem_kept.mpr ⟨hf, htop⟩
    have hmem : f.entry sha256 ∈ fs.map (SharedFile.entry sha256) :=
      hentries ▸ mem_entries.mpr ⟨f, hfkept, rfl⟩
    obtain ⟨g, hg, hsame⟩ := List.mem_map.mp hmem
    obtain ⟨hg, hmark⟩ := hlisted.mp hg
    have hpath : relOf g.relText = relOf f.relText := congrArg FileTreeEntry.path hsame
    rwa [← inj_of_distinct hdistinct (hkept hg hmark) hfkept hpath]
  · intro h
    obtain ⟨fs, hperm, hentries⟩ := entries_eq_map sha256 root tree
    refine ⟨⟨fs, h.kept_eq ▸ hperm, hentries, fun f hf => ?_⟩, paths_sorted .., h.distinct sha256 root⟩
    obtain ⟨hf, hplain⟩ := h.plain (hperm.mem_iff.mp hf)
    exact (described_iff sha256 cwd root hf).mpr hplain

/-- A conflict copy beside `d/a`. -/
def copyBelow : ShareTree where
  listing := .dir (utf8 "d") (.file (utf8 ".sync-conflict-m-d_a-1") [] 0 .nil) .nil
  valid := by simp only [Listing.Valid, IsName, Listing.names]; decide +kernel

theorem copy_below_listed : ¬ copyBelow.Exact Digest.sha256 [] (utf8 "/s") := by
  rintro ⟨⟨fs, hperm, hentries, -⟩, -, -⟩
  have hnone : copyBelow.files.filter (fun f => ¬ LeftOut f.fileName) = [] := by decide +kernel
  rw [hnone, List.perm_nil] at hperm
  let copy : SharedFile := ⟨[utf8 "d", utf8 ".sync-conflict-m-d_a-1"], [], 0⟩
  have hkept : copy ∈ copyBelow.kept := mem_kept.mpr ⟨List.mem_cons_self .., by decide +kernel⟩
  have hmem : copy.entry Digest.sha256 ∈ (copyBelow.buildTree Digest.sha256 (utf8 "/s")).entries :=
    mem_entries.mpr ⟨copy, hkept, rfl⟩
  rw [hentries, hperm] at hmem
  cases hmem

/-- The walk through the flat directory of the same files makes the same tree. -/
theorem buildTree_flat (sha256 : Bytes → Digest) (root : Bytes) (tree : ShareTree) {dir : ShareDir}
    (h : dir.entries = tree.files.map fun f => ⟨f.relText, .file f.bytes f.mtimeNs⟩) :
    tree.buildTree sha256 root = Client.buildTree sha256 dir := by
  have hwalk : tree.listing.walk sha256 root root [] = Client.walk sha256 dir := by
    have htop : ∀ name ∈ ([] : List Name), IsName name := by simp
    have hwalk := tree.valid.walk_eq sha256 root htop []
    rw [List.nil_append] at hwalk
    simp only [Client.walk, h, List.filterMap_map, Function.comp_def]
    exact hwalk
  rw [buildTree, hwalk]
  rfl

end ShareTree

end Nsmt.Client
