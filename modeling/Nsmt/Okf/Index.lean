import Mathlib.Data.List.Pairwise
import Nsmt.Lib.Runs
import Nsmt.Okf.Library

/-!
# What the indexes list

`generate_index` writes an index into the directory of every concept, and one into
the library. An index that it wrote before stays when the last concept of its
directory is removed. `index_exact_iff` says when the links of all indexes are the
concepts.
-/

namespace Nsmt.Okf

open Nsmt.Lib Nsmt.Lib.Utf8 Nsmt.Lib.UnixPaths Nsmt.Lib.Dirs

/-- The files with the name of an index, outside the trash. -/
def indexFiles (lib : List Name) (d : OkfDisk) : List (List Name) :=
  (d.files (· = trashDir) lib).filter fun rel => rel.getLast? = some indexMd

def listedAt (d : OkfDisk) (p : List Name) : List Text :=
  match d.node p with
  | some (.file page) => page.listed
  | _ => []

/-- Where the links of an index lead from its directory. -/
def linksOf (lib : List Name) (d : OkfDisk) (rel : List Name) : List (List Name) :=
  (listedAt d (lib ++ rel)).map fun link => placeOf (lib ++ rel.dropLast) (encode link)

/-- The links to concepts in all indexes are the concepts, each once. -/
def IndexExact (lib : List Name) (d : OkfDisk) : Prop :=
  ((indexFiles lib d).flatMap (linksOf lib d)).Perm ((collectMdFiles lib d).map (lib ++ ·))

/-- Text without a backslash. -/
def PlainPath (rel : List Name) : Prop := ∀ name ∈ rel, IsText name ∧ backslash ∉ name

/-- An index that links to concepts is that of the library, or of a directory that has
a concept. -/
def NoStaleIndex (lib : List Name) (d : OkfDisk) : Prop :=
  ∀ rel ∈ indexFiles lib d, listedAt d (lib ++ rel) ≠ [] →
    rel.dropLast = [] ∨ ∃ c ∈ collectMdFiles lib d, c.dropLast = rel.dropLast

-- ---------------------------------------------------------------------------
-- Paths as they are shown
-- ---------------------------------------------------------------------------

section
variable {lib ns : List Name} {name : Name}

theorem shown_eq {cs : Text} (hcs : encode cs = joined ns) (h : '\\' ∉ cs) : shown ns = cs := by
  rw [shown, ← hcs, fromUtf8Lossy_encode, Text.replaceChar]
  conv_rhs => rw [← List.map_id cs]
  exact List.map_congr_left fun c hc => if_neg (by rintro rfl; exact h hc)

theorem encode_shown (h : PlainPath ns) : encode (shown ns) = joined ns := by
  obtain ⟨cs, hcs, hback⟩ := joined_text h
  rw [shown_eq hcs hback, hcs]

theorem shown_concat (h : PlainPath (ns ++ [name])) (hne : ns ≠ []) :
    shown (ns ++ [name]) = shown ns ++ '/' :: shown [name] := by
  obtain ⟨cs, hcs, hback⟩ := joined_text fun n hn => h n (List.mem_append_left _ hn)
  obtain ⟨part, hpart, hback'⟩ := joined_text fun n hn => h n (List.mem_append_right ns hn)
  rw [shown_eq hcs hback, shown_eq hpart hback']
  refine shown_eq ?_ (by simp [hback, hback'])
  rw [encode_append, encode_cons, hcs, hpart, joined_append hne (by simp)]
  rfl

theorem linkIn_concat (h : PlainPath (ns ++ [name])) (hne : ns ≠ []) :
    linkIn (shown ns) (ns ++ [name]) = shown [name] := by
  have hsplit : shown (ns ++ [name]) = (shown ns ++ "/".toList) ++ shown [name] := by
    rw [shown_concat h hne]
    simp
  rw [linkIn, Text.strip, hsplit, if_pos (List.prefix_append ..), Option.getD_some]
  exact List.drop_left ..

/-- A link to a name leads to it. -/
theorem placeOf_shown (at_ : List Name) (h : PlainPath [name]) (hname : IsName name) :
    placeOf at_ (encode (shown [name])) = at_ ++ [name] := by
  rw [encode_shown h, joined_single, placeOf_name at_ hname]

theorem placeOf_indexPath_shown (h : PlainPath ns) (hnames : ∀ n ∈ ns, IsName n) (hne : ns ≠ []) :
    placeOf lib (indexPath (shown ns)) = lib ++ ns ++ [indexMd] := by
  have hconcat : ∀ n ∈ ns ++ [indexMd], IsName n := by
    intro n hn
    exact (List.mem_append.mp hn).elim (hnames n) fun hn => List.mem_singleton.mp hn ▸ isName_indexMd
  rw [indexPath, encode_shown h, joinPath_joined_name hnames hne isName_indexMd,
    placeOf_joined lib hconcat (by simp), List.append_assoc]

theorem shown_inj {ns' : List Name} (h : PlainPath ns) (h' : PlainPath ns') (hnames : ∀ n ∈ ns, IsName n)
    (hnames' : ∀ n ∈ ns', IsName n) (hne : ns ≠ []) (hne' : ns' ≠ []) (hshown : shown ns = shown ns') :
    ns = ns' := by
  have hjoined : joined ns = joined ns' := by rw [← encode_shown h, hshown, encode_shown h']
  rw [← splitOn_joined (fun n hn => (hnames n hn).2.1) hne, hjoined,
    splitOn_joined (fun n hn => (hnames' n hn).2.1) hne']

end

-- ---------------------------------------------------------------------------
-- What is written
-- ---------------------------------------------------------------------------

section
variable {env : Env} {lib : List Name} {d : OkfDisk} {files : List (List Name)}

/-- There is a file that lists these links. -/
def Lists (d : OkfDisk) (p : List Name) (links : List Text) : Prop :=
  ∃ page, d.node p = some (.file page) ∧ page.listed = links

theorem Lists.keeps {d' : OkfDisk} {p : List Name} {links : List Text} (h : Lists d p links)
    (hkeeps : d.Keeps d' p) : Lists d' p links := by
  obtain ⟨page, hpage, hlisted⟩ := h
  exact ⟨page, hkeeps.file_iff.mpr hpage, hlisted⟩

theorem lists_write {path : Bytes} {page : Page} (h : (d.write lib path env.faults page).2 = true) :
    Lists (d.write lib path env.faults page).1 (placeOf lib path) page.listed := by
  rcases Disk.write_cases d lib path env.faults page with hsame | hwritten
  · rw [hsame] at h
    cases h
  · rw [hwritten.ok_iff, Option.isNone_iff_eq_none] at h
    exact ⟨page, by rw [hwritten.node, if_pos rfl, h, Option.getD_none], rfl⟩

theorem lists_writeDirIndex {dir : Text} (h : (writeDirIndex env lib files dir d).2 = true) :
    Lists (writeDirIndex env lib files dir d).1 (placeOf lib (indexPath dir))
      ((groupOf files dir).map (linkIn dir)) := by
  obtain ⟨-, hwrite⟩ := Disk.andThen_ok h
  rw [writeDirIndex, hwrite] at h ⊢
  have hlists := lists_write h
  simpa [dirPage, indexPage, indexEntry, Function.comp_def] using hlists

theorem lists_writeRootIndex (h : (writeRootIndex env lib files d).2 = true) :
    Lists (writeRootIndex env lib files d).1 (lib ++ [indexMd]) ((files.filter isRootConcept).map shown) := by
  obtain ⟨-, hwrite⟩ := Disk.andThen_ok h
  rw [writeRootIndex, hwrite] at h ⊢
  have hlists := lists_write h
  rw [placeOf_name lib isName_indexMd] at hlists
  simpa [rootPage, indexPage, indexEntry, Function.comp_def] using hlists

theorem keeps_writeDirIndex_of_ne {dir : Text} {p : List Name} (h : p ≠ placeOf lib (indexPath dir)) :
    d.Keeps (writeDirIndex env lib files dir d).1 p :=
  (Disk.keeps_createDirs d env.faults _ _ p).andThen (Disk.keeps_write h)

/-- Indexes at different places are all written, and nothing else. -/
theorem writeDirIndexes_spec {dirs : List Text}
    (hapart : dirs.Pairwise fun dir dir' => placeOf lib (indexPath dir) ≠ placeOf lib (indexPath dir'))
    (h : (writeDirIndexes env lib files dirs d).2 = true) :
    (∀ dir ∈ dirs, Lists (writeDirIndexes env lib files dirs d).1 (placeOf lib (indexPath dir))
      ((groupOf files dir).map (linkIn dir))) ∧
    ∀ p, (∀ dir ∈ dirs, p ≠ placeOf lib (indexPath dir)) →
      d.Keeps (writeDirIndexes env lib files dirs d).1 p := by
  induction dirs generalizing d with
  | nil => exact ⟨by simp, fun p _ => .refl d p⟩
  | cons dir dirs ih =>
    obtain ⟨hfirst, hrest⟩ := Disk.andThen_ok h
    rw [writeDirIndexes, hrest] at h ⊢
    obtain ⟨hne, hapart⟩ := List.pairwise_cons.mp hapart
    obtain ⟨hlists, hkeeps⟩ := ih hapart h
    refine ⟨List.forall_mem_cons.mpr ⟨(lists_writeDirIndex hfirst).keeps (hkeeps _ hne), hlists⟩,
      fun p hp => ?_⟩
    obtain ⟨hp, hothers⟩ := List.forall_mem_cons.mp hp
    exact (keeps_writeDirIndex_of_ne hp).trans (hkeeps p hothers)

/-- The concepts of a directory. -/
def conceptsIn (files : List (List Name)) (ns : List Name) : List (List Name) :=
  files.filter fun rel => rel.dropLast = ns

/-- The directory gets an index: it is the library, or has a concept. -/
def GetsIndex (files : List (List Name)) (ns : List Name) : Prop := ns = [] ∨ ∃ c ∈ files, c.dropLast = ns

/-- Paths of concepts that are plain and have names. -/
structure PlainFiles (files : List (List Name)) : Prop where
  ne_nil : ∀ rel ∈ files, rel ≠ []
  names : ∀ rel ∈ files, ∀ name ∈ rel, IsName name
  plain : ∀ rel ∈ files, PlainPath rel

variable {ns : List Name}

theorem mem_groupDirs {dir : Text} :
    dir ∈ groupDirs files ↔ ∃ rel ∈ files, rel.dropLast ≠ [] ∧ dirOf rel = dir := by
  rw [groupDirs, List.mem_insertionSort, List.mem_dedup, List.mem_map]
  simp [isRootConcept, and_assoc]

theorem nodup_groupDirs : (groupDirs files).Nodup :=
  (List.perm_insertionSort ..).nodup_iff.mpr (List.nodup_dedup _)

namespace PlainFiles

variable (h : PlainFiles files)
include h

theorem split {rel : List Name} (hrel : rel ∈ files) : ∃ name, rel = rel.dropLast ++ [name] :=
  ⟨_, (List.dropLast_append_getLast (h.ne_nil rel hrel)).symm⟩

theorem plain_dir (hc : c ∈ files) : PlainPath c.dropLast :=
  fun name hname => h.plain c hc name (List.mem_of_mem_dropLast hname)

theorem names_dir (hc : c ∈ files) : ∀ name ∈ c.dropLast, IsName name :=
  fun name hname => h.names c hc name (List.mem_of_mem_dropLast hname)

theorem groupOf_dirOf (hc : c ∈ files) (hne : c.dropLast ≠ []) :
    groupOf files (dirOf c) = conceptsIn files c.dropLast := by
  refine List.filter_congr fun rel hrel => ?_
  rw [Bool.eq_iff_iff]
  simp only [isRootConcept, Bool.and_eq_true, Bool.not_eq_true', decide_eq_false_iff_not, decide_eq_true_eq]
  constructor
  · rintro ⟨hroot, hdir⟩
    exact shown_inj (h.plain_dir hrel) (h.plain_dir hc) (h.names_dir hrel) (h.names_dir hc) hroot hne hdir
  · intro hdir
    exact ⟨hdir ▸ hne, by rw [dirOf, hdir, dirOf]⟩

/-- The links of a group lead to its concepts. -/
theorem links_dir (hc : c ∈ files) (hne : c.dropLast ≠ []) :
    ((groupOf files (dirOf c)).map (linkIn (dirOf c))).map
        (fun link => placeOf (lib ++ c.dropLast) (encode link)) =
      (conceptsIn files c.dropLast).map (lib ++ ·) := by
  rw [h.groupOf_dirOf hc hne, List.map_map]
  refine List.map_congr_left fun rel hrel => ?_
  obtain ⟨hrel, hdir⟩ := List.mem_filter.mp hrel
  rw [decide_eq_true_eq] at hdir
  obtain ⟨name, hsplit⟩ := h.split hrel
  rw [hdir] at hsplit
  have hplain := h.plain rel hrel
  have hname := h.names rel hrel
  rw [hsplit] at hplain hname ⊢
  rw [Function.comp_apply, dirOf, linkIn_concat hplain hne, placeOf_shown _
    (fun n hn => hplain n (List.mem_append_right _ hn)) (hname name (by simp)), List.append_assoc]

theorem links_root :
    ((files.filter isRootConcept).map shown).map (fun link => placeOf (lib ++ []) (encode link)) =
      (conceptsIn files []).map (lib ++ ·) := by
  have hfilter : files.filter isRootConcept = conceptsIn files [] := rfl
  rw [hfilter, List.map_map]
  refine List.map_congr_left fun rel hrel => ?_
  obtain ⟨hrel, hdir⟩ := List.mem_filter.mp hrel
  rw [decide_eq_true_eq] at hdir
  obtain ⟨name, hsplit⟩ := h.split hrel
  rw [hdir, List.nil_append] at hsplit
  have hplain := h.plain rel hrel
  have hname := h.names rel hrel
  rw [hsplit] at hplain hname ⊢
  rw [Function.comp_apply, placeOf_shown _ hplain (hname name (by simp)), List.append_nil]

end PlainFiles

theorem plainFiles (h : ∀ rel ∈ collectMdFiles lib d, PlainPath rel) : PlainFiles (collectMdFiles lib d) where
  ne_nil := fun rel hrel => (mem_collectMdFiles.mp hrel).1
  names := by
    intro rel hrel name hname
    obtain ⟨-, ⟨page, hpage⟩, -⟩ := mem_collectMdFiles.mp hrel
    have hthere : d.node (lib ++ rel) ≠ none := by simp [hpage]
    exact d.named _ hthere name (List.mem_append_right _ hname)
  plain := h

/-- After `generate_index` the index of a directory with concepts leads to them, and
no other place has been written. -/
structure Indexed (lib : List Name) (files : List (List Name)) (d d' : OkfDisk) : Prop where
  isFile : ∀ ns, GetsIndex files ns → d'.IsFile (lib ++ ns ++ [indexMd])
  links : ∀ ns, GetsIndex files ns →
    linksOf lib d' (ns ++ [indexMd]) = (conceptsIn files ns).map (lib ++ ·)
  keeps : ∀ p, (∀ ns, GetsIndex files ns → p ≠ lib ++ ns ++ [indexMd]) → d.Keeps d' p

theorem linksOf_of_lists {links : List Text} (h : Lists d (lib ++ ns ++ [indexMd]) links) :
    linksOf lib d (ns ++ [indexMd]) = links.map fun link => placeOf (lib ++ ns) (encode link) := by
  obtain ⟨page, hpage, hlisted⟩ := h
  rw [List.append_assoc] at hpage
  rw [linksOf, listedAt, hpage, List.dropLast_concat]
  simp only [hlisted]

theorem generateIndex_indexed (hfiles : ∀ rel ∈ collectMdFiles lib d, PlainPath rel)
    (hok : (generateIndex env lib d).2 = true) :
    Indexed lib (collectMdFiles lib d) d (generateIndex env lib d).1 := by
  have h := plainFiles hfiles
  set files := collectMdFiles lib d with hset
  have hplace {dir : Text} (hdir : dir ∈ groupDirs files) : ∃ c ∈ files, c.dropLast ≠ [] ∧ dirOf c = dir ∧
      placeOf lib (indexPath dir) = lib ++ c.dropLast ++ [indexMd] := by
    obtain ⟨c, hc, hne, rfl⟩ := mem_groupDirs.mp hdir
    exact ⟨c, hc, hne, rfl, placeOf_indexPath_shown (h.plain_dir hc) (h.names_dir hc) hne⟩
  have hapart : (groupDirs files).Pairwise fun dir dir' =>
      placeOf lib (indexPath dir) ≠ placeOf lib (indexPath dir') := by
    refine nodup_groupDirs.imp_of_mem fun {dir dir'} hdir hdir' hne heq => hne ?_
    obtain ⟨c, -, -, rfl, hleads⟩ := hplace hdir
    obtain ⟨c', -, -, rfl, hleads'⟩ := hplace hdir'
    rw [hleads, hleads'] at heq
    rw [dirOf, List.append_cancel_left (List.append_cancel_right heq), dirOf]
  obtain ⟨hdirs, hroot⟩ := Disk.andThen_ok hok
  rw [generateIndex, ← hset, hroot] at hok ⊢
  obtain ⟨hlists, hkeeps⟩ := writeDirIndexes_spec hapart hdirs
  -- The index of a directory is still there when that of the library has been written.
  have hindex : ∀ ns, GetsIndex files ns → ∃ links,
      Lists (writeRootIndex env lib files (writeDirIndexes env lib files (groupDirs files) d).1).1
        (lib ++ ns ++ [indexMd]) links ∧
      links.map (fun link => placeOf (lib ++ ns) (encode link)) = (conceptsIn files ns).map (lib ++ ·) := by
    rintro ns (rfl | ⟨c, hc, rfl⟩)
    · refine ⟨_, ?_, h.links_root⟩
      simpa using lists_writeRootIndex hok
    · by_cases hne : c.dropLast = []
      · rw [hne]
        refine ⟨_, ?_, h.links_root⟩
        simpa using lists_writeRootIndex hok
      · have hlisted := hlists (dirOf c) (mem_groupDirs.mpr ⟨c, hc, hne, rfl⟩)
        rw [dirOf, placeOf_indexPath_shown (h.plain_dir hc) (h.names_dir hc) hne] at hlisted
        exact ⟨_, hlisted.keeps (keeps_writeRootIndex (by simpa using hne)), h.links_dir hc hne⟩
  refine ⟨fun ns hns => ?_, fun ns hns => ?_, fun p hp => ?_⟩
  · obtain ⟨links, ⟨page, hpage, -⟩, -⟩ := hindex ns hns
    exact ⟨page, hpage⟩
  · obtain ⟨links, hlinks, hleads⟩ := hindex ns hns
    rw [linksOf_of_lists hlinks, hleads]
  · refine (hkeeps p fun dir hdir => ?_).trans (keeps_writeRootIndex (by simpa using hp [] (.inl rfl)))
    obtain ⟨c, hc, -, rfl, hleads⟩ := hplace hdir
    rw [hleads]
    exact hp _ (.inr ⟨c, hc, rfl⟩)

theorem mem_indexFiles {rel : List Name} : rel ∈ indexFiles lib d ↔
    d.IsFile (lib ++ rel) ∧ trashDir ∉ rel.dropLast ∧ rel = rel.dropLast ++ [indexMd] := by
  rw [indexFiles, List.mem_filter, Disk.mem_files]
  constructor
  · rintro ⟨⟨-, hfile, hnames⟩, hlast⟩
    refine ⟨hfile, fun hmem => by simpa using hnames trashDir hmem, ?_⟩
    exact (List.dropLast_append_getLast? indexMd (of_decide_eq_true hlast)).symm
  · rintro ⟨hfile, htrash, hrel⟩
    have hne : rel ≠ [] := by
      rw [hrel]
      simp
    refine ⟨⟨hne, hfile, fun name hname => decide_eq_false fun heq => htrash (heq ▸ hname)⟩, ?_⟩
    rw [hrel]
    simp

theorem nodup_indexFiles : (indexFiles lib d).Nodup := Disk.nodup_files.filter _

theorem nodup_collectMdFiles : (collectMdFiles lib d).Nodup :=
  (List.perm_insertionSort ..).nodup_iff.mpr (Disk.nodup_files.filter _)

namespace Indexed

variable {d' : OkfDisk} (h : Indexed lib (collectMdFiles lib d) d d')
include h

theorem mem_concepts {rel : List Name} : rel ∈ collectMdFiles lib d' ↔ rel ∈ collectMdFiles lib d := by
  simp only [mem_collectMdFiles]
  refine and_congr_right fun hne => ?_
  constructor <;> rintro ⟨⟨page, hpage⟩, htrash, hname⟩ <;> refine ⟨⟨page, ?_⟩, htrash, hname⟩
  all_goals
    have hkeeps : d.Keeps d' (lib ++ rel) := h.keeps _ fun ns _ heq => by
      have hlast := congrArg List.getLast? heq
      rw [List.getLast?_append_of_ne_nil _ hne, List.getLast?_concat] at hlast
      rw [hlast] at hname
      exact absurd hname (by decide)
  · exact hkeeps.file_iff.mp hpage
  · exact hkeeps.file_iff.mpr hpage

/-- Where no index is written, links are what they were. -/
theorem old {rel : List Name} (hrel : rel = rel.dropLast ++ [indexMd])
    (hnot : ¬ GetsIndex (collectMdFiles lib d) rel.dropLast) :
    (rel ∈ indexFiles lib d' ↔ rel ∈ indexFiles lib d) ∧ listedAt d' (lib ++ rel) = listedAt d (lib ++ rel) := by
  have hkeeps : d.Keeps d' (lib ++ rel) := h.keeps _ fun ns hns heq => hnot <| by
    rw [hrel, ← List.append_assoc] at heq
    rwa [List.append_cancel_left (List.append_cancel_right heq)]
  refine ⟨?_, ?_⟩
  · simp only [mem_indexFiles, Disk.IsFile, hkeeps.file_iff]
  · rcases hkeeps with hsame | ⟨hnone, hdir⟩
    · rw [listedAt, hsame, listedAt]
    · rw [listedAt, hdir, listedAt, hnone]

/-- The index of every concept's directory is among the indexes. -/
theorem mem_indexFiles {c : List Name} (hc : c ∈ collectMdFiles lib d) :
    c.dropLast ++ [indexMd] ∈ indexFiles lib d' := by
  refine Okf.mem_indexFiles.mpr ⟨?_, ?_, by simp⟩
  · rw [← List.append_assoc]
    exact h.isFile _ (.inr ⟨c, hc, rfl⟩)
  · rw [List.dropLast_concat]
    exact (mem_collectMdFiles.mp hc).2.2.1

theorem perm_concepts : (collectMdFiles lib d').Perm (collectMdFiles lib d) :=
  (List.perm_ext_iff_of_nodup nodup_collectMdFiles nodup_collectMdFiles).mpr fun _ => h.mem_concepts

/-- Without stale indexes every index links to the concepts of its directory. -/
theorem linksOf_eq (hstale : NoStaleIndex lib d) {rel : List Name} (hrel : rel ∈ indexFiles lib d') :
    linksOf lib d' rel = (conceptsIn (collectMdFiles lib d) rel.dropLast).map (lib ++ ·) := by
  obtain ⟨-, -, hsplit⟩ := Okf.mem_indexFiles.mp hrel
  by_cases hgets : GetsIndex (collectMdFiles lib d) rel.dropLast
  · have hlinks := h.links _ hgets
    rwa [← hsplit] at hlinks
  · obtain ⟨hold, hlisted⟩ := h.old hsplit hgets
    have hnone : conceptsIn (collectMdFiles lib d) rel.dropLast = [] := by
      refine List.filter_eq_nil_iff.mpr fun c hc => ?_
      rw [decide_eq_true_eq]
      exact fun hdir => hgets (.inr ⟨c, hc, hdir⟩)
    rw [hnone, linksOf, hlisted]
    by_contra hne
    exact hgets (hstale rel (hold.mp hrel) fun hnil => hne (by rw [hnil]; rfl))

theorem mem_linksOf {c : List Name} (hc : c ∈ collectMdFiles lib d) :
    lib ++ c ∈ linksOf lib d' (c.dropLast ++ [indexMd]) := by
  rw [h.links _ (.inr ⟨c, hc, rfl⟩)]
  exact List.mem_map_of_mem (List.mem_filter.mpr ⟨hc, decide_eq_true rfl⟩)

theorem exact_iff : IndexExact lib d' ↔ NoStaleIndex lib d := by
  have hconcepts : ((collectMdFiles lib d).map (lib ++ ·)).Nodup :=
    nodup_collectMdFiles.map (List.append_right_injective lib)
  have hexact : IndexExact lib d' ↔ ((indexFiles lib d').flatMap (linksOf lib d')).Perm
      ((collectMdFiles lib d).map (lib ++ ·)) :=
    ⟨fun hperm => hperm.trans (h.perm_concepts.map _), fun hperm => hperm.trans (h.perm_concepts.map _).symm⟩
  rw [hexact]
  constructor
  · intro hperm rel hrel hlisted
    by_contra hnot
    obtain ⟨-, -, hsplit⟩ := Okf.mem_indexFiles.mp hrel
    obtain ⟨hold, hsame⟩ := h.old hsplit hnot
    -- A stale link leads to a concept, to which the index of its directory links, too.
    obtain ⟨place, hplace⟩ := List.exists_mem_of_ne_nil (linksOf lib d' rel) <| by
      rw [linksOf, hsame]
      simpa using hlisted
    have hlinked := hperm.mem_iff.mp (List.mem_flatMap.mpr ⟨rel, hold.mpr hrel, hplace⟩)
    obtain ⟨c, hc, rfl⟩ := List.mem_map.mp hlinked
    have hother : rel ≠ c.dropLast ++ [indexMd] := by
      intro heq
      rw [heq, List.dropLast_concat] at hnot
      exact hnot (.inr ⟨c, hc, rfl⟩)
    have hdisjoint := (List.nodup_flatMap.mp (hperm.nodup_iff.mpr hconcepts)).2
    have : Std.Symm (Function.onFun List.Disjoint (linksOf lib d')) := ⟨fun _ _ hd => hd.symm⟩
    exact hdisjoint.forall (hold.mpr hrel) (h.mem_indexFiles hc) hother hplace (h.mem_linksOf hc)
  · intro hstale
    refine (List.perm_ext_iff_of_nodup ?_ hconcepts).mpr fun place => ?_
    · refine List.nodup_flatMap.mpr ⟨fun rel hrel => ?_, nodup_indexFiles.imp_of_mem ?_⟩
      · rw [h.linksOf_eq hstale hrel]
        exact (nodup_collectMdFiles.filter _).map (List.append_right_injective lib)
      · intro rel other hrel hother hne place hplace hplace'
        rw [h.linksOf_eq hstale hrel] at hplace
        rw [h.linksOf_eq hstale hother] at hplace'
        obtain ⟨c, hc, rfl⟩ := List.mem_map.mp hplace
        obtain ⟨c', hc', heq⟩ := List.mem_map.mp hplace'
        obtain rfl := List.append_cancel_left heq
        have hdir := of_decide_eq_true (List.mem_filter.mp hc).2
        have hdir' := of_decide_eq_true (List.mem_filter.mp hc').2
        refine hne ?_
        rw [(Okf.mem_indexFiles.mp hrel).2.2, (Okf.mem_indexFiles.mp hother).2.2, ← hdir, ← hdir']
    · rw [List.mem_flatMap, List.mem_map]
      constructor
      · rintro ⟨rel, hrel, hplace⟩
        rw [h.linksOf_eq hstale hrel] at hplace
        obtain ⟨c, hc, rfl⟩ := List.mem_map.mp hplace
        exact ⟨c, (List.mem_filter.mp hc).1, rfl⟩
      · rintro ⟨c, hc, rfl⟩
        exact ⟨_, h.mem_indexFiles hc, h.mem_linksOf hc⟩

end Indexed

/-- The paths of all concepts are text without backslashes. -/
def PlainConcepts (lib : List Name) (d : OkfDisk) : Prop := ∀ rel ∈ collectMdFiles lib d, PlainPath rel

end

def pathOpts (rel : String) : Opts := fun key =>
  if key = "path" then some rel.toList else if key = "type" then some "Metric".toList else none

end Nsmt.Okf
