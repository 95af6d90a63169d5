import Mathlib.Data.List.Infix
import Mathlib.Data.Set.Finite.Basic
import Nsmt.Lib.DirPaths

/-!
# Staying below a directory

An operation stays below a directory if the directory is still there and nothing
outside of it has changed. It does so when its path passes only places below the
directory, and places that are there already. A disk of directories only shows what
an operation does where nothing is in its way.
-/

namespace Nsmt.Lib.Dirs

open UnixPaths

variable {κ : Type}

/-- The places that must be directories for a path to lead anywhere. -/
def passed (cwd : List Name) (path : Bytes) : List (List Name) :=
  (path.splitOn slash).dropLast.scanl enter (startOf cwd path)

/-- The places at which `create_dir_all` makes the directory that a path is in. -/
def made (cwd : List Name) (path : Bytes) : List (List Name) := (wayTo path).scanl enter (startOf cwd path)

/-- Below the directory, or in front of a place that is there. -/
def Near (at_ : List Name) (there : List (List Name)) (q : List Name) : Prop :=
  at_ <+: q ∨ ∃ s ∈ there, q <+: s

instance (at_ : List Name) (there : List (List Name)) (q : List Name) : Decidable (Near at_ there q) :=
  inferInstanceAs (Decidable (_ ∨ _))

-- ---------------------------------------------------------------------------
-- What a path passes
-- ---------------------------------------------------------------------------

section
variable {cwd at_ q : List Name} {pieces : List Name} {path : Bytes}

theorem splitOn_concat (path : Bytes) :
    ∃ last, path.splitOn slash = (path.splitOn slash).dropLast ++ [last] :=
  ⟨_, (List.dropLast_append_getLast (List.splitOn_ne_nil slash path)).symm⟩

theorem mem_scanl_prefix {more : List Name} (h : q ∈ pieces.scanl enter at_) :
    q ∈ (pieces ++ more).scanl enter at_ := by
  rw [List.scanl_append]
  exact List.mem_append_left _ h

/-- What is made is passed. -/
theorem passed_of_made (h : q ∈ made cwd path) : q ∈ passed cwd path := by
  obtain ⟨last, hsplit⟩ := splitOn_concat path
  rw [made, wayTo, hsplit, List.filter_append] at h
  rw [passed, ← mem_scanl_filter]
  cases hskip : skipped last with
  | true =>
    rw [List.filter_cons_of_neg (by simp [hskip]), List.filter_nil, List.append_nil] at h
    obtain ⟨more, hmore⟩ := List.dropLast_prefix ((path.splitOn slash).dropLast.filter fun piece => !skipped piece)
    rw [← hmore]
    exact mem_scanl_prefix h
  | false => rwa [List.filter_cons_of_pos (by simp [hskip]), List.filter_nil, List.dropLast_concat] at h

theorem enter_named {piece : Name} (h : ∀ name ∈ at_, IsName name) (hslash : slash ∉ piece) (hzero : 0 ∉ piece) :
    ∀ name ∈ enter at_ piece, IsName name := by
  unfold enter
  split
  · exact h
  · rename_i hskip
    split
    · exact fun name hname => h name (List.mem_of_mem_dropLast hname)
    · rename_i hup
      intro name hname
      rcases List.mem_append.mp hname with hname | hname
      · exact h name hname
      · rw [List.mem_singleton.mp hname]
        simp only [skipped, Bool.decide_or, Bool.or_eq_true, decide_eq_true_eq, not_or] at hskip
        exact ⟨hskip.1, hslash, hzero, hskip.2, hup⟩

theorem scanl_named (h : ∀ name ∈ at_, IsName name) (hpieces : ∀ piece ∈ pieces, slash ∉ piece ∧ 0 ∉ piece) :
    ∀ q ∈ pieces.scanl enter at_, ∀ name ∈ q, IsName name := by
  induction pieces generalizing at_ with
  | nil =>
    rw [List.scanl_nil, List.forall_mem_singleton]
    exact h
  | cons piece pieces ih =>
    obtain ⟨hpiece, hpieces⟩ := List.forall_mem_cons.mp hpieces
    rw [List.scanl_cons, List.forall_mem_cons]
    exact ⟨h, ih (enter_named h hpiece.1 hpiece.2) hpieces⟩

theorem mem_splitOn {piece : Name} (h : piece ∈ path.splitOn slash) : slash ∉ piece ∧ ∀ b ∈ piece, b ∈ path := by
  induction path generalizing piece with
  | nil =>
    rw [List.splitOn_nil, List.mem_singleton] at h
    subst h
    exact ⟨List.not_mem_nil, fun b hb => hb⟩
  | cons c path ih =>
    rw [List.splitOn_cons_eq_if_modifyHead] at h
    split at h
    · rcases List.mem_cons.mp h with rfl | h
      · simp
      · exact ⟨(ih h).1, fun b hb => List.mem_cons_of_mem _ ((ih h).2 b hb)⟩
    · rename_i hslash
      obtain ⟨head, tail, htail⟩ := List.exists_cons_of_ne_nil (List.splitOn_ne_nil slash path)
      rw [htail] at h ih
      rcases List.mem_cons.mp h with rfl | h
      · obtain ⟨hnot, hmem⟩ := ih (List.mem_cons_self ..)
        refine ⟨?_, List.forall_mem_cons.mpr ⟨List.mem_cons_self .., fun b hb => List.mem_cons_of_mem _ (hmem b hb)⟩⟩
        rw [List.mem_cons, not_or]
        exact ⟨fun heq => hslash (beq_iff_eq.mpr heq.symm), hnot⟩
      · obtain ⟨hnot, hmem⟩ := ih (List.mem_cons_of_mem _ h)
        exact ⟨hnot, fun b hb => List.mem_cons_of_mem _ (hmem b hb)⟩

/-- What has no slash belongs to the last piece. -/
theorem splitOn_append_last (front : Bytes) {rest : Bytes} (h : slash ∉ rest) :
    ∃ pieces last, (front ++ rest).splitOn slash = pieces ++ [last ++ rest] := by
  induction front with
  | nil => exact ⟨[], [], by rw [List.nil_append, List.splitOn_eq_singleton h]; rfl⟩
  | cons c front ih =>
    obtain ⟨pieces, last, hsplit⟩ := ih
    rw [List.cons_append, List.splitOn_cons_eq_if_modifyHead, hsplit]
    split
    · exact ⟨[] :: pieces, last, rfl⟩
    · cases pieces with
      | nil => exact ⟨[], c :: last, rfl⟩
      | cons piece pieces => exact ⟨(c :: piece) :: pieces, last, rfl⟩

theorem zero_not_mem_joinPath {base : Bytes} (hbase : 0 ∉ base) (hpath : 0 ∉ path) : 0 ∉ joinPath base path := by
  unfold joinPath
  split
  · exact hpath
  · split
    · simp [hbase, hpath]
    · simp only [List.mem_append, List.mem_cons, not_or]
      exact ⟨hbase, by decide, hpath⟩

/-- A path without a zero passes places with names. -/
theorem named_pieces (hcwd : ∀ name ∈ cwd, IsName name) (hzero : 0 ∉ path) :
    ∀ q ∈ (path.splitOn slash).scanl enter (startOf cwd path), ∀ name ∈ q, IsName name := by
  refine scanl_named ?_ fun piece hpiece => ?_
  · unfold startOf
    split
    · simp
    · exact hcwd
  · obtain ⟨hslash, hmem⟩ := mem_splitOn hpiece
    exact ⟨hslash, fun hz => hzero (hmem 0 hz)⟩

theorem named_passed (hcwd : ∀ name ∈ cwd, IsName name) (hzero : 0 ∉ path) (hq : q ∈ passed cwd path) :
    ∀ name ∈ q, IsName name := by
  obtain ⟨last, hsplit⟩ := splitOn_concat path
  refine named_pieces hcwd hzero q ?_
  rw [hsplit]
  exact mem_scanl_prefix hq

theorem named_placeOf (hcwd : ∀ name ∈ cwd, IsName name) (hzero : 0 ∉ path) :
    ∀ name ∈ placeOf cwd path, IsName name := named_pieces hcwd hzero _ foldl_mem_scanl

/-- A path that does not turn back at its end ends in a name. -/
theorem name_of_not_passed (hzero : 0 ∉ path) (h : ∀ s ∈ passed cwd path, ¬ placeOf cwd path <+: s) :
    ∃ name, (path.splitOn slash).getLast? = some name ∧ IsName name := by
  obtain ⟨last, hsplit⟩ := splitOn_concat path
  have hplace : placeOf cwd path = enter ((path.splitOn slash).dropLast.foldl enter (startOf cwd path)) last := by
    rw [placeOf, ← startOf]
    conv_lhs => rw [hsplit]
    rw [List.foldl_concat]
  have hnot := h _ foldl_mem_scanl
  have hlast : last ∈ path.splitOn slash := by
    rw [hsplit]
    simp
  obtain ⟨hslash, hmem⟩ := mem_splitOn hlast
  rw [hplace] at hnot
  unfold enter at hnot
  split at hnot
  · exact absurd List.prefix_rfl hnot
  · rename_i hskip
    split at hnot
    · exact absurd (List.dropLast_prefix _) hnot
    · rename_i hup
      simp only [skipped, Bool.decide_or, Bool.or_eq_true, decide_eq_true_eq, not_or] at hskip
      refine ⟨last, ?_, hskip.1, hslash, fun hz => hzero (hmem 0 hz), hskip.2, hup⟩
      rw [hsplit]
      exact List.getLast?_concat

theorem startOf_mem_passed : startOf cwd path ∈ passed cwd path := List.mem_of_head? List.head?_scanl

/-- There is always another name with these bytes at its end. -/
theorem exists_fresh (at_ : List Name) (places : List (List Name)) (tail : Bytes) (hslash : slash ∉ tail)
    (hzero : 0 ∉ tail) : ∃ n, IsName (List.replicate (n + 3) 97 ++ tail) ∧
      at_ ++ [List.replicate (n + 3) 97 ++ tail] ∉ places := by
  have hinj : Function.Injective fun n : Nat => at_ ++ [List.replicate (n + 3) (97 : UInt8) ++ tail] := by
    intro n m h
    have hlen := congrArg List.length (List.cons.inj (List.append_cancel_left h)).1
    simpa using hlen
  obtain ⟨_, ⟨n, rfl⟩, hfresh⟩ := (Set.infinite_range_of_injective hinj).exists_notMem_finset places.toFinset
  have hnot {b : UInt8} (hb : b ≠ 97) (htail : b ∉ tail) : b ∉ List.replicate (n + 3) 97 ++ tail := by
    rw [List.mem_append, not_or]
    exact ⟨fun hmem => hb (List.eq_of_mem_replicate hmem), htail⟩
  refine ⟨n, ⟨by simp, hnot (by decide) hslash, hnot (by decide) hzero, ?_, ?_⟩,
    fun hmem => hfresh (List.mem_toFinset.mpr hmem)⟩
  · exact fun heq => absurd (List.cons.inj heq).1 (by decide)
  · exact fun heq => absurd (List.cons.inj heq).1 (by decide)

end

namespace Disk

section
variable {d d' : Disk κ} {cwd at_ p q s src dst : List Name} {there : List (List Name)} {path : Bytes}
  {faults : Faults κ}

theorem passable_passed :
    d.passable (startOf cwd path) (path.splitOn slash) = true ↔ ∀ q ∈ passed cwd path, d.node q = some .dir := by
  obtain ⟨last, hsplit⟩ := splitOn_concat path
  rw [hsplit, passable_concat, passed]

theorem IsFile.ne_none (h : d.IsFile p) : d.node p ≠ none := by
  obtain ⟨content, hfile⟩ := h
  rw [hfile]
  exact Option.some_ne_none _

theorem there_of_above (h : q <+: s) (hs : d.node s ≠ none) : d.node q ≠ none := by
  obtain ⟨rest, rfl⟩ := h
  by_cases hrest : rest = []
  · rwa [hrest, List.append_nil] at hs
  · rw [isDir_of_below hs hrest]
    exact Option.some_ne_none _

theorem dir_of_above (h : q <+: s) (hs : d.node s = some .dir) : d.node q = some .dir := by
  obtain ⟨rest, rfl⟩ := h
  exact isDir_of_prefix hs

theorem node_andThen {r : Disk κ × Bool} {next : Disk κ → Disk κ × Bool} (h : r.1.node p = d.node p)
    (hnext : (next r.1).1.node p = r.1.node p) : (Dirs.andThen r next).1.node p = d.node p := by
  unfold Dirs.andThen
  split
  · exact hnext.trans h
  · exact h

/-- Directories stay directories. -/
def KeepsDirs (d d' : Disk κ) : Prop := ∀ p, d.node p = some .dir → d'.node p = some .dir

theorem KeepsDirs.refl (d : Disk κ) : KeepsDirs d d := fun _ h => h

theorem KeepsDirs.trans {d'' : Disk κ} (h : KeepsDirs d d') (h' : KeepsDirs d' d'') : KeepsDirs d d'' :=
  fun p hp => h' p (h p hp)

theorem KeepsDirs.andThen {r : Disk κ × Bool} {next : Disk κ → Disk κ × Bool} (h : KeepsDirs d r.1)
    (hnext : KeepsDirs r.1 (next r.1).1) : KeepsDirs d (Dirs.andThen r next).1 := by
  unfold Dirs.andThen
  split
  · exact h.trans hnext
  · exact h

theorem keepsDirs_createDirs (d : Disk κ) (faults : Faults κ) (start : List Name) (pieces : List Name) :
    KeepsDirs d (d.createDirs faults start pieces).1 := by
  intro p hp
  rw [(keeps_createDirs d faults start pieces p).there (by simp [hp]), hp]

theorem keepsDirs_write (d : Disk κ) (cwd : List Name) (path : Bytes) (faults : Faults κ) (content : κ) :
    KeepsDirs d (d.write cwd path faults content).1 := by
  intro p hp
  rcases write_cases d cwd path faults content with hsame | hwritten
  · rwa [hsame]
  · rw [hwritten.node, if_neg, hp]
    rintro rfl
    exact hwritten.not_dir hp

-- ---------------------------------------------------------------------------
-- Staying below
-- ---------------------------------------------------------------------------

/-- The directory is still there, and nothing has changed outside of it. -/
structure Within (at_ : List Name) (d d' : Disk κ) : Prop where
  dir : d'.node at_ = some .dir
  outside : ∀ p, ¬ at_ <+: p → d'.node p = d.node p

theorem Within.refl (h : d.node at_ = some .dir) : Within at_ d d := ⟨h, fun _ _ => rfl⟩

theorem Within.trans {d'' : Disk κ} (h : Within at_ d d') (h' : Within at_ d' d'') : Within at_ d d'' :=
  ⟨h'.dir, fun p hp => (h'.outside p hp).trans (h.outside p hp)⟩

theorem Within.andThen {r : Disk κ × Bool} {next : Disk κ → Disk κ × Bool} (h : Within at_ d r.1)
    (hnext : r.2 = true → Within at_ r.1 (next r.1).1) : Within at_ d (Dirs.andThen r next).1 := by
  unfold Dirs.andThen
  split
  · rename_i hok
    exact h.trans (hnext hok)
  · exact h

/-- Only what is near can be made, and what is in front of a place that is there is not. -/
theorem outside_createDirs {start : List Name} {pieces : List Name} (hthere : ∀ s ∈ there, d.node s ≠ none)
    (h : ∀ q ∈ pieces.scanl enter start, Near at_ there q) (hp : ¬ at_ <+: p) :
    (d.createDirs faults start pieces).1.node p = d.node p := by
  by_cases hmem : p ∈ pieces.scanl enter start
  · obtain ⟨s, hs, hle⟩ := (h p hmem).resolve_left hp
    exact (keeps_createDirs d faults start pieces p).there (there_of_above hle (hthere s hs))
  · exact node_createDirs hmem

theorem within_createDirs {start : List Name} {pieces : List Name} (hdir : d.node at_ = some .dir)
    (hthere : ∀ s ∈ there, d.node s ≠ none) (h : ∀ q ∈ pieces.scanl enter start, Near at_ there q) :
    Within at_ d (d.createDirs faults start pieces).1 :=
  ⟨keepsDirs_createDirs d faults start pieces at_ hdir, fun _ => outside_createDirs hthere h⟩

theorem outside_write {content : κ} (h : at_ <+: placeOf cwd path) (hp : ¬ at_ <+: p) :
    (d.write cwd path faults content).1.node p = d.node p := by
  rcases write_cases d cwd path faults content with hsame | hwritten
  · rw [hsame]
  · rw [hwritten.node, if_neg]
    rintro rfl
    exact hp h

theorem within_write (faults : Faults κ) (content : κ) (hdir : d.node at_ = some .dir) (hthere : ∀ s ∈ there, d.node s = some .dir)
    (h : Near at_ there (placeOf cwd path)) : Within at_ d (d.write cwd path faults content).1 := by
  rcases write_cases d cwd path faults content with hsame | hwritten
  · rw [hsame]
    exact .refl hdir
  · -- A directory is not written to.
    have hle : at_ <+: placeOf cwd path := h.resolve_right fun ⟨s, hs, hle⟩ =>
      hwritten.not_dir (dir_of_above hle (hthere s hs))
    exact ⟨keepsDirs_write d cwd path faults content at_ hdir, fun _ => outside_write hle⟩

/-- What is written where the path leads to a name in a directory. -/
theorem write_passed (faults : Faults κ) (content : κ) {name : Name} (hzero : 0 ∉ path) (hlast : (path.splitOn slash).getLast? = some name)
    (hname : IsName name) (hpassed : ∀ q ∈ passed cwd path, d.node q = some .dir)
    (hnot : d.node (placeOf cwd path) ≠ some .dir) (hdenied : faults.denied (placeOf cwd path) = false) :
    (d.write cwd path faults content).2 = (faults.torn (placeOf cwd path)).isNone ∧
      (d.write cwd path faults content).1.node (placeOf cwd path) =
        some (.file ((faults.torn (placeOf cwd path)).getD content)) := by
  have hplace := placeOf_concat cwd hlast hname
  have hparent : d.node ((path.splitOn slash).dropLast.foldl enter (startOf cwd path)) = some .dir :=
    hpassed _ foldl_mem_scanl
  obtain ⟨d', hput⟩ := exists_put ⟨hparent, hname, hplace ▸ hnot⟩
    (.file ((faults.torn (placeOf cwd path)).getD content))
  have hallowed : 0 ∉ path ∧ d.passable (startOf cwd path) (path.splitOn slash) ∧ ¬ faults.denied (placeOf cwd path) :=
    ⟨hzero, passable_passed.mpr hpassed, by simp [hdenied]⟩
  rw [write, if_pos hallowed]
  simp only [hlast, Option.getD_some, hput, true_and]
  rw [node_put hput, if_pos hplace]

/-- Nothing is made behind a file. -/
theorem createDirs_of_file (start : List Name) {front rest : List Name} (h : ∀ name ∈ front, IsName name)
    (hfile : d.IsFile (start ++ front)) (hdir : d.node start = some .dir) :
    d.createDirs faults start (front ++ rest) = (d, false) := by
  induction front generalizing start with
  | nil =>
    obtain ⟨content, hfile⟩ := hfile
    rw [List.append_nil, hdir] at hfile
    cases hfile
  | cons name front ih =>
    obtain ⟨hname, hfront⟩ := List.forall_mem_cons.mp h
    rw [List.append_cons] at hfile
    obtain ⟨content, hcontent⟩ := hfile
    rw [List.cons_append, createDirs, enter_name start hname]
    by_cases hnil : front = []
    · rw [hnil, List.append_nil] at hcontent
      rw [hcontent]
    · have hbelow : d.node (start ++ [name]) = some .dir :=
        isDir_of_below (by rw [hcontent]; exact Option.some_ne_none _) hnil
      rw [hbelow]
      exact ih _ hfront ⟨content, hcontent⟩ hbelow

/-- Nothing lies below a place that an entry is moved to. -/
theorem fits_last {node : Option (Node κ)} (h : d.fits dst node = true) (hle : dst <+: s) (hs : d.node s ≠ none) :
    s = dst := by
  by_contra hne
  have hdir : d.node dst = some .dir := by
    obtain ⟨rest, rfl⟩ := hle
    exact isDir_of_below hs fun hnil => hne (by rw [hnil, List.append_nil])
  unfold fits at h
  split at h
  · rw [decide_eq_true_eq] at h
    obtain ⟨-, hempty⟩ := h.resolve_left (by simp [hdir])
    rcases hempty s (d.covers s hs) hle with heq | hnone
    · exact hne heq
    · exact hs (Option.isNone_iff_eq_none.mp hnone)
  · exact of_decide_eq_true h hdir
  · cases h

theorem within_renamed (hdir : d.node at_ = some .dir) (h : Renamed d src dst d') (hsrc : at_ <+: src)
    (hdst : at_ <+: dst) : Within at_ d d' := by
  by_cases heq : src = dst
  · rw [h.same heq]
    exact .refl hdir
  · have hmovable := h.movable heq
    refine ⟨?_, fun p hp => ?_⟩
    · rw [h.node heq, nodeMoved, if_neg, if_neg, hdir]
      · exact fun hle => hmovable.apart (hle.trans hdst)
      · intro hle
        obtain rfl := hle.eq_of_length_le hdst.length_le
        exact heq (fits_last hmovable.fits hsrc h.there)
    · rw [h.node heq, nodeMoved, if_neg fun hle => hp (hdst.trans hle), if_neg fun hle => hp (hsrc.trans hle)]

end

-- ---------------------------------------------------------------------------
-- Directories only
-- ---------------------------------------------------------------------------

/-- A disk of these directories and those in front of them. -/
def ofDirs (dirs : List (List Name)) (h : ∀ p ∈ dirs, ∀ name ∈ p, IsName name) : Disk κ where
  node := fun p => if ∃ s ∈ [] :: dirs, p <+: s then some .dir else none
  places := ([] :: dirs).flatMap List.inits
  root := by
    rw [if_pos ⟨[], List.mem_cons_self .., List.nil_prefix⟩]
  covers := by
    intro p hp
    split at hp
    · rename_i hle
      obtain ⟨s, hs, hle⟩ := hle
      exact List.mem_flatMap.mpr ⟨s, hs, (List.mem_inits _ _).mpr hle⟩
    · exact absurd rfl hp
  tree := by
    intro p name hp
    split at hp
    · rename_i hle
      obtain ⟨s, hs, hle⟩ := hle
      rw [if_pos ⟨s, hs, (List.prefix_append ..).trans hle⟩]
    · exact absurd rfl hp
  named := by
    intro p hp
    split at hp
    · rename_i hle
      obtain ⟨s, hs, hle⟩ := hle
      intro name hname
      rcases List.mem_cons.mp hs with rfl | hs
      · rw [List.prefix_nil.mp hle] at hname
        cases hname
      · exact h s hs name (hle.subset hname)
    · exact absurd rfl hp

section
variable {d d' : Disk κ} {dirs : List (List Name)} {h : ∀ p ∈ dirs, ∀ name ∈ p, IsName name} {p s : List Name}

theorem node_ofDirs (hne : dirs ≠ []) :
    (ofDirs dirs h : Disk κ).node p = if ∃ s ∈ dirs, p <+: s then some .dir else none := by
  have hiff : (∃ s ∈ [] :: dirs, p <+: s) ↔ ∃ s ∈ dirs, p <+: s := by
    constructor
    · rintro ⟨s, hs, hle⟩
      rcases List.mem_cons.mp hs with rfl | hs
      · obtain ⟨s, hs⟩ := List.exists_mem_of_ne_nil dirs hne
        exact ⟨s, hs, List.prefix_nil.mp hle ▸ List.nil_prefix⟩
      · exact ⟨s, hs, hle⟩
    · rintro ⟨s, hs, hle⟩
      exact ⟨s, List.mem_cons_of_mem _ hs, hle⟩
  show (if ∃ s ∈ [] :: dirs, p <+: s then some Node.dir else none) = _
  simp only [hiff]

theorem dir_ofDirs (hs : s ∈ dirs) (hle : p <+: s) : (ofDirs dirs h : Disk κ).node p = some .dir :=
  if_pos ⟨s, List.mem_cons_of_mem _ hs, hle⟩

theorem not_isFile_ofDirs : ¬ (ofDirs dirs h : Disk κ).IsFile p := by
  rintro ⟨content, hfile⟩
  change (if ∃ s ∈ [] :: dirs, p <+: s then some Node.dir else none) = some (.file content) at hfile
  split at hfile <;> cases hfile

/-- Where there are no files, all directories can be made. -/
theorem createDirs_noFiles {faults : Faults κ} {at_ : List Name} {pieces : List Name} (hfiles : ∀ p, ¬ d.IsFile p)
    (hdir : d.node at_ = some .dir) (hnamed : ∀ q ∈ pieces.scanl enter at_, ∀ name ∈ q, IsName name)
    (hdenied : ∀ q ∈ pieces.scanl enter at_, faults.denied q = true → d.node q ≠ none) :
    (d.createDirs faults at_ pieces).2 = true := by
  refine createDirs_ok hdir fun q hq => ?_
  cases hnode : d.node q with
  | none =>
    refine .inr ⟨rfl, ?_, hnamed q hq⟩
    by_contra hnot
    exact hdenied q hq (Bool.eq_true_of_not_eq_false hnot) hnode
  | some node =>
    cases node with
    | dir => exact .inl rfl
    | file content => exact absurd ⟨content, hnode⟩ (hfiles q)

end

-- ---------------------------------------------------------------------------
-- Removing
-- ---------------------------------------------------------------------------

/-- What cannot be removed, and what is above it. -/
def Stays (d : Disk κ) (faults : Faults κ) (p q : List Name) : Prop :=
  ∃ r ∈ d.places, (d.node r).isSome ∧ p <+: r ∧ faults.denied r ∧ q <+: r

instance (d : Disk κ) (faults : Faults κ) (p q : List Name) : Decidable (d.Stays faults p q) :=
  inferInstanceAs (Decidable (∃ _ ∈ _, _))

/-- All that lies below a place is taken away, and the entry itself if it may be. -/
def clear (d : Disk κ) (faults : Faults κ) (p : List Name) (entry : Bool) : Disk κ where
  node := fun q => if p <+: q ∧ q ≠ [] ∧ (q = p → entry = true) ∧ ¬ d.Stays faults p q then none else d.node q
  places := d.places
  root := by
    rw [if_neg (by simp), d.root]
  covers := by
    intro q hq
    split at hq
    · exact absurd rfl hq
    · exact d.covers q hq
  tree := by
    intro q name hq
    split at hq
    · exact absurd rfl hq
    · rename_i hkept
      rw [if_neg, d.tree q name hq]
      rintro ⟨hle, -, -, hstays⟩
      refine hkept ⟨hle.trans (List.prefix_append ..), by simp, fun heq => ?_, fun ⟨r, hr, hsome, hbelow, hdenied, hle⟩ =>
        hstays ⟨r, hr, hsome, hbelow, hdenied, (List.prefix_append ..).trans hle⟩⟩
      have hlen := hle.length_le
      rw [← heq, List.length_append, List.length_singleton] at hlen
      omega
  named := by
    intro q hq
    split at hq
    · exact absurd rfl hq
    · exact d.named q hq

/-- `remove_dir_all`; an entry is not removed under the names `.` and `..`. -/
def removeDirAll (d : Disk κ) (cwd : List Name) (path : Bytes) (faults : Faults κ) : Disk κ × Bool :=
  if d.find cwd path = some .dir then
    let cleared := d.clear faults (placeOf cwd path) (decide (∃ name ∈ (trimmed path).getLast?, IsName name))
    (cleared, (cleared.node (placeOf cwd path)).isNone)
  else (d, false)

section
variable {d : Disk κ} {cwd p : List Name} {path : Bytes} {faults : Faults κ}

theorem node_removeDirAll (h : ¬ placeOf cwd path <+: p) : (d.removeDirAll cwd path faults).1.node p = d.node p := by
  unfold removeDirAll
  split
  · exact if_neg fun hall => h hall.1
  · rfl

/-- Where nothing fails, all that lies below the directory is gone. -/
theorem removeDirAll_below {rest : List Name} (hdir : d.find cwd path = some .dir) (hrest : rest ≠ []) :
    (d.removeDirAll cwd path .none).1.node (placeOf cwd path ++ rest) = none := by
  rw [removeDirAll, if_pos hdir]
  refine if_pos ⟨List.prefix_append .., by simp [hrest], fun heq => absurd heq (by simp [hrest]), ?_⟩
  rintro ⟨r, -, -, -, hdenied, -⟩
  cases hdenied

end

end Disk

end Nsmt.Lib.Dirs
