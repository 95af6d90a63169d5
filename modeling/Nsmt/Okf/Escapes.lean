import Nsmt.Okf.Confined

/-!
# Commands that leave their library

A path that `Confined` does not allow is one with which a command changes something
outside of the library, on some disk: one with no more directories than the path
needs, in which nothing is in its way.
-/

namespace Nsmt.Okf

open Nsmt.Lib Nsmt.Lib.Utf8 Nsmt.Lib.UnixPaths Nsmt.Lib.Dirs

/-- With all of the base there, the command may change something outside of the library. -/
def Escapes (base : List (List Name)) (lib : List Name) (command : LibCommand) : Prop :=
  ∃ env d, (∀ s ∈ base, d.node s = some .dir) ∧
    ∃ p, ¬ lib <+: p ∧ (runCommand env lib command d).1.node p ≠ d.node p

section
variable {env : Env} {base : List (List Name)} {lib : List Name} {d : OkfDisk} {opts : Opts} {entry rel : Text}
  {src dst : Bytes}

theorem keepsDirs_appendLog : Disk.KeepsDirs d (appendLog env lib d entry).1 := by
  refine Disk.KeepsDirs.andThen (Disk.keepsDirs_createDirs _ _ _ _) ?_
  split
  · exact Disk.keepsDirs_write _ _ _ _ _
  · exact .refl _

theorem dir_andThen {r : OkfDisk × Bool} {next : OkfDisk → OkfDisk × Bool} {p : List Name}
    (h : r.1.node p = some .dir) (hnext : Disk.KeepsDirs r.1 (next r.1).1) : (andThen r next).1.node p = some .dir :=
  Disk.KeepsDirs.andThen (.refl r.1) hnext p h

-- ---------------------------------------------------------------------------
-- Adding
-- ---------------------------------------------------------------------------

/-- A path that ends like a concept's ends in a name. -/
theorem name_of_md (h : ".md".toList <:+ rel) (hzero : 0 ∉ encode rel) :
    ∃ name, ((encode rel).splitOn slash).getLast? = some name ∧ IsName name := by
  obtain ⟨front, rfl⟩ := h
  rw [encode_append] at hzero ⊢
  obtain ⟨pieces, last, hsplit⟩ := splitOn_append_last (encode front) (by decide : slash ∉ encode ".md".toList)
  rw [hsplit]
  have hlast : last ++ encode ".md".toList ∈ (encode front ++ encode ".md".toList).splitOn slash := by
    rw [hsplit]
    simp
  obtain ⟨hslash, hmem⟩ := mem_splitOn hlast
  have hlen : 3 ≤ (last ++ encode ".md".toList).length := by
    rw [List.length_append]
    exact Nat.le_add_left 3 _
  refine ⟨_, List.getLast?_concat, fun hnil => ?_, hslash, fun hz => hzero (hmem 0 hz), fun heq => ?_, fun heq => ?_⟩
  · rw [hnil] at hlen
    simp at hlen
  · rw [heq] at hlen
    simp at hlen
  · rw [heq] at hlen
    simp at hlen

/-- A path that ends in a name passes what is made for it. -/
theorem made_of_passed {path : Bytes} {name : Name} (hlast : (path.splitOn slash).getLast? = some name)
    (hname : IsName name) {q : List Name} : q ∈ made lib path ↔ q ∈ passed lib path := by
  have hsplit : (path.splitOn slash).dropLast ++ [name] = path.splitOn slash :=
    List.dropLast_append_getLast? name hlast
  rw [made, wayTo, ← hsplit, List.filter_append, List.filter_cons_of_pos (by simp [hname.not_skipped]),
    List.filter_nil, List.dropLast_concat, mem_scanl_filter, passed, ← hsplit, List.dropLast_concat]

theorem escapes_add (hbase : ∀ s ∈ base, ∀ name ∈ s, IsName name) (hlib : lib ∈ base)
    (hzero : ∀ rel, opts.given "path" = some rel → 0 ∉ encode rel) (h : ¬ CommandInside base lib (.add opts)) :
    Escapes base lib (.add opts) := by
  simp only [CommandInside, Classical.not_forall] at h
  obtain ⟨rel, ftype, hrel, htype, hfree, hmd, hout⟩ := h
  have hz := hzero rel hrel
  have hnames := hbase lib hlib
  obtain ⟨name, hlast, hname⟩ := name_of_md hmd hz
  have hdir {s : List Name} (hs : s ∈ base) : (Disk.ofDirs base hbase : OkfDisk).node s = some .dir :=
    Disk.dir_ofDirs hs List.prefix_rfl
  have hnone {q : List Name} (hq : ¬ Near lib base q) : (Disk.ofDirs base hbase : OkfDisk).node q = none := by
    rw [Disk.node_ofDirs (List.ne_nil_of_mem hlib), if_neg fun hle => hq (.inr hle)]
  -- The place is not there, or all would be in front of the library.
  have hnew : ¬ (Disk.ofDirs base hbase : OkfDisk).exists_ lib (encode rel) = true := by
    intro hexists
    refine hout ⟨fun q hq => ?_, fun _ => ?_⟩
    · by_contra hnear
      have hthere := there_of_found hexists q (List.mem_cons_of_mem _ (passed_of_made hq))
      exact hthere (hnone hnear)
    · by_contra hnear
      exact there_of_found hexists _ (List.mem_cons_self ..) (hnone hnear)
  have hmake : ((Disk.ofDirs base hbase : OkfDisk).createDirs Env.quiet.faults (startOf lib (encode rel))
      (wayTo (encode rel))).2 = true := by
    refine Disk.createDirs_noFiles (fun _ => Disk.not_isFile_ofDirs) (dir_startOf (hdir hlib) _) ?_ (fun q _ hd => ?_)
    · exact fun q hq => named_passed hnames hz (passed_of_made hq)
    · cases hd
  have hmade := Disk.dirs_of_createDirs (dir_startOf (hdir hlib) _) hmake
  refine ⟨.quiet, Disk.ofDirs base hbase, fun s hs => hdir hs, ?_⟩
  have hallowed : ¬ (rel ∈ reserved ∨ ¬ ".md".toList <:+ rel ∨
      (Disk.ofDirs base hbase : OkfDisk).exists_ lib (encode rel) = true) := by
    simp only [not_or, not_not]
    exact ⟨hfree, hmd, hnew⟩
  unfold runCommand
  rw [if_pos (hdir hlib)]
  simp only [cmdAdd, hrel, htype]
  rw [if_neg hallowed]
  by_cases hnear : ∀ q ∈ made lib (encode rel), Near lib base q
  · -- The concept itself is written outside.
    obtain ⟨hstatus, hfar⟩ := Classical.not_imp.mp fun himp => hout ⟨hnear, himp⟩
    refine ⟨placeOf lib (encode rel), fun hle => hfar (.inl hle), ?_⟩
    rw [andThen, if_pos hmake, if_pos hstatus, hnone hfar]
    have hnot : ((Disk.ofDirs base hbase : OkfDisk).createDirs Env.quiet.faults (startOf lib (encode rel))
        (wayTo (encode rel))).1.node (placeOf lib (encode rel)) ≠ some .dir := by
      rw [Disk.node_createDirs fun hmem => hfar (hnear _ hmem), hnone hfar]
      exact (Option.some_ne_none _).symm
    obtain ⟨-, hwritten⟩ := Disk.write_passed Env.quiet.faults
      (.text (addDocument opts ftype (titleOf opts rel) (isoNow Env.quiet.secs))) hz hlast hname
      (fun q hq => hmade q ((made_of_passed hlast hname).mpr hq)) hnot rfl
    exact (Disk.IsFile.andThen ⟨_, hwritten⟩ isFile_appendLog).ne_none
  · -- A directory is made outside, and stays whatever comes after it.
    simp only [Classical.not_forall] at hnear
    obtain ⟨q, hq, hfar⟩ := hnear
    refine ⟨q, fun hle => hfar (.inl hle), ?_⟩
    rw [hnone hfar, dir_andThen (hmade q hq)]
    · exact Option.some_ne_none _
    · split
      · exact (Disk.keepsDirs_write _ _ _ _ _).andThen keepsDirs_appendLog
      · exact .refl _

-- ---------------------------------------------------------------------------
-- Editing
-- ---------------------------------------------------------------------------

/-- A concept without fields. -/
def bareConcept : Text := "---\n---\n".toList

/-- Every text is read as YAML, and nothing that is written is written to its end. -/
def Env.torn : Env where
  yaml := fun _ => some .null
  secs := 0
  faults := ⟨fun _ => false, fun _ => false, fun _ => some (.text [])⟩

theorem edited_bareConcept (h : (opts.given "status").all (· ∈ statuses) = true) :
    ∃ doc, editDocument Env.torn.yaml opts (isoNow Env.torn.secs) bareConcept = some doc := by
  have hparse : parseDoc Env.torn.yaml bareConcept = some (.null, []) := rfl
  have hlines : rawLines bareConcept = some [] := rfl
  simp only [editDocument, hparse, hlines, Option.bind_eq_bind, Option.bind_some, h, if_true]
  exact ⟨_, rfl⟩

theorem escapes_edit (hbase : ∀ s ∈ base, ∀ name ∈ s, IsName name) (hlib : lib ∈ base)
    (hzero : ∀ rel, opts.given "path" = some rel → 0 ∉ encode rel) (h : ¬ CommandInside base lib (.edit opts)) :
    Escapes base lib (.edit opts) := by
  simp only [CommandInside, Classical.not_forall] at h
  obtain ⟨rel, hrel, hstatus, hfar⟩ := h
  have hz := hzero rel hrel
  have hpassed {s : List Name} (hs : s ∈ base ++ passed lib (encode rel)) : ¬ placeOf lib (encode rel) <+: s :=
    fun hle => hfar (.inr ⟨s, hs, hle⟩)
  obtain ⟨name, hlast, hname⟩ := name_of_not_passed hz fun s hs => hpassed (List.mem_append_right _ hs)
  have hplace := Disk.placeOf_concat lib hlast hname
  have hnamed : ∀ s ∈ base ++ passed lib (encode rel), ∀ name ∈ s, IsName name := fun s hs =>
    (List.mem_append.mp hs).elim (hbase s) (named_passed (hbase lib hlib) hz)
  have hdir {s : List Name} (hs : s ∈ base ++ passed lib (encode rel)) :
      (Disk.ofDirs _ hnamed : OkfDisk).node s = some .dir := Disk.dir_ofDirs hs List.prefix_rfl
  have hfree : (Disk.ofDirs _ hnamed : OkfDisk).node (placeOf lib (encode rel)) ≠ some .dir := by
    rw [Disk.node_ofDirs (List.ne_nil_of_mem (List.mem_append_left _ hlib)), if_neg]
    · exact (Option.some_ne_none _).symm
    · exact fun ⟨s, hs, hle⟩ => hpassed hs hle
  -- The concept lies where the path leads to, behind directories that are all there.
  obtain ⟨d, hput⟩ := Disk.exists_put (d := (Disk.ofDirs _ hnamed : OkfDisk))
    ⟨hdir (List.mem_append_right _ foldl_mem_scanl), hname, hplace ▸ hfree⟩ (.file (.text bareConcept))
  have hthere {s : List Name} (hs : s ∈ base ++ passed lib (encode rel)) : d.node s = some .dir := by
    rw [Disk.node_put hput, if_neg, hdir hs]
    rintro rfl
    exact hpassed hs (hplace ▸ List.prefix_rfl)
  have hfile : d.node (placeOf lib (encode rel)) = some (.file (.text bareConcept)) := by
    rw [Disk.node_put hput, if_pos hplace]
  have hread : d.read lib (encode rel) Env.torn.faults = some (.text bareConcept) := by
    have hfind : d.find lib (encode rel) = some (.file (.text bareConcept)) := Disk.find_iff.mpr
      ⟨hz, Disk.passable_passed.mpr fun q hq => hthere (List.mem_append_right _ hq), hfile⟩
    rw [Disk.read, hfind]
    rfl
  obtain ⟨doc, hdoc⟩ := edited_bareConcept hstatus
  obtain ⟨hfailed, hwritten⟩ := Disk.write_passed Env.torn.faults (.text doc) hz hlast hname
    (fun q hq => hthere (List.mem_append_right _ hq)) (by simp [hfile]) rfl
  refine ⟨.torn, d, fun s hs => hthere (List.mem_append_left _ hs), placeOf lib (encode rel),
    fun hle => hfar (.inl hle), ?_⟩
  unfold runCommand
  rw [if_pos (hthere (List.mem_append_left _ hlib))]
  simp only [cmdEdit, hrel, hread, Option.bind_some, toText_text, hdoc]
  have hstop : (d.write lib (encode rel) Env.torn.faults (.text doc)).2 ≠ true := by
    rw [hfailed]
    exact Bool.false_ne_true
  have htorn : (Env.torn.faults.torn (placeOf lib (encode rel))).getD (.text doc) = .text [] := rfl
  rw [andThen, if_neg hstop, hwritten, hfile, htorn]
  intro hsame
  have htext := congrArg Page.toText (Node.file.inj (Option.some.inj hsame))
  rw [toText_text, toText_text] at htext
  exact absurd htext (by decide)

-- ---------------------------------------------------------------------------
-- Moving
-- ---------------------------------------------------------------------------

/-- A move that something is found for changes something outside of the library; what it
leads to is there only if it always is. -/
def MoveEscapes (base : List (List Name)) (lib : List Name) (src dst : Bytes) : Prop :=
  ∃ env d, (∀ s ∈ base, d.node s = some .dir) ∧ d.exists_ lib src = true ∧
    (d.exists_ lib dst = true → AlwaysFound base lib src dst) ∧
    ∀ entry, ∃ p, ¬ lib <+: p ∧ (relocate env lib src dst entry d).1.node p ≠ d.node p

/-- What a path needs to be found, and the directory it leads to. -/
theorem named_found (hbase : ∀ s ∈ base, ∀ name ∈ s, IsName name) (hlib : lib ∈ base) (hzero : 0 ∉ src) :
    ∀ s ∈ found base lib src, ∀ name ∈ s, IsName name := by
  intro s hs
  rcases List.mem_append.mp hs with hs | hs
  · exact hbase s hs
  · rcases List.mem_cons.mp hs with rfl | hs
    · exact named_placeOf (hbase lib hlib) hzero
    · exact named_passed (hbase lib hlib) hzero hs

theorem exists_of_dirs (hzero : 0 ∉ src) (h : ∀ s ∈ found base lib src, d.node s = some .dir) :
    d.exists_ lib src = true := by
  have hfound : d.find lib src = some .dir := Disk.find_iff.mpr ⟨hzero,
    Disk.passable_passed.mpr fun q hq => h q (List.mem_append_right _ (List.mem_cons_of_mem _ hq)),
    h _ (List.mem_append_right _ (List.mem_cons_self ..))⟩
  rw [Disk.exists_, hfound]
  rfl

/-- Nothing but the move itself is denied. -/
def Env.denying (p : List Name) : Env where
  yaml := fun _ => none
  secs := 0
  faults := { Faults.none with denied := fun q => q = p }

/-- A directory is made outside, and the move is refused. -/
theorem moveEscapes_of_made (hbase : ∀ s ∈ base, ∀ name ∈ s, IsName name) (hlib : lib ∈ base) (hsrc : 0 ∉ src)
    (hdst : 0 ∉ dst) {q : List Name} (hq : q ∈ made lib dst) (hfar : ¬ Near lib (found base lib src) q) :
    MoveEscapes base lib src dst := by
  have hnamed := named_found hbase hlib hsrc
  have hne : found base lib src ≠ [] := List.ne_nil_of_mem (List.mem_append_left _ hlib)
  have hdir : ∀ s ∈ found base lib src, (Disk.ofDirs _ hnamed : OkfDisk).node s = some .dir :=
    fun s hs => Disk.dir_ofDirs hs List.prefix_rfl
  have hlibdir := hdir lib (List.mem_append_left _ hlib)
  have hplace := hdir _ (List.mem_append_right _ (List.mem_cons_self ..))
  refine ⟨.denying (placeOf lib src), Disk.ofDirs _ hnamed, fun s hs => hdir s (List.mem_append_left _ hs),
    exists_of_dirs hsrc hdir, fun hexists q hq => ?_, fun entry => ⟨q, fun hle => hfar (.inl hle), ?_⟩⟩
  · have hthere := there_of_found hexists q hq
    rw [Disk.node_ofDirs hne] at hthere
    by_contra hnot
    exact hthere (if_neg hnot)
  · have hmake : ((Disk.ofDirs _ hnamed : OkfDisk).createDirs (Env.denying (placeOf lib src)).faults
        (startOf lib dst) (wayTo dst)).2 = true := by
      refine Disk.createDirs_noFiles (fun _ => Disk.not_isFile_ofDirs) (dir_startOf hlibdir _)
        (fun q hq => named_passed (hbase lib hlib) hdst (passed_of_made hq)) fun q _ hdenied => ?_
      rw [of_decide_eq_true hdenied, hplace]
      exact Option.some_ne_none _
    have hmade := Disk.dirs_of_createDirs (dir_startOf hlibdir _) hmake q hq
    have hrefused : relocate (.denying (placeOf lib src)) lib src dst entry (Disk.ofDirs _ hnamed) =
        (prepared (.denying (placeOf lib src)) lib dst (Disk.ofDirs _ hnamed), false) := by
      refine (relocate_cases ..).resolve_right fun ⟨_, hok, _⟩ => ?_
      exact (Disk.renames_of_rename hok).allowed (decide_eq_true rfl)
    rw [hrefused]
    rw [prepared, hmade, Disk.node_ofDirs hne, if_neg fun hle => hfar (.inr hle)]
    exact Option.some_ne_none _

/-- Where there are only directories, what can be moved is moved to a place at which
nothing, or only an empty directory, lies. -/
theorem rename_of_canMove (hcan : CanMove base lib src dst) (hnames : ∀ name ∈ lib, IsName name) (hdst : 0 ∉ dst)
    (hfound : d.exists_ lib src = true) (hsrc : d.node (placeOf lib src) = some .dir) (hfiles : ∀ p, ¬ d.IsFile p)
    (hmade : ∀ q ∈ made lib dst, d.node q = some .dir)
    (hlast : ∀ q, placeOf lib dst <+: q → d.node q ≠ none → q = placeOf lib dst) :
    (d.rename lib src .none dst).2 = true := by
  obtain ⟨front, name, tail, hsplits⟩ := exists_splits hcan.dst_name
  have hmade' : ∀ q ∈ front.scanl enter (startOf lib dst), d.node q = some .dir := by
    intro q hq
    refine hmade q ?_
    rwa [made, hsplits.wayTo_eq, mem_scanl_filter]
  refine Disk.Renames.rename_ok ⟨hfound, hdst, ?_, hcan.src_name, hcan.dst_name, Bool.false_ne_true, Bool.false_ne_true⟩ ?_
  · rw [hsplits.trimmed_eq, Disk.passable_concat]
    exact hmade'
  · refine ⟨?_, named_placeOf hnames hdst, placeOf_ne_nil hcan.dst_name lib, hcan.apart, ?_⟩
    · rw [hsplits.placeOf_eq, List.dropLast_concat]
      exact hmade' _ foldl_mem_scanl
    · rw [hsrc]
      refine decide_eq_true ?_
      cases hnode : d.node (placeOf lib dst) with
      | none => exact .inl rfl
      | some node =>
        cases node with
        | dir =>
          refine .inr ⟨rfl, fun q _ hle => ?_⟩
          by_cases hthere : d.node q = none
          · exact .inr (by rw [hthere]; rfl)
          · exact .inl (hlast q hle hthere)
        | file content => exact absurd ⟨content, hnode⟩ (hfiles _)

/-- A disk of directories: what has been found, and a child of what the path leads to. -/
structure Stocked (base : List (List Name)) (lib : List Name) (src : Bytes) (child : Name) (d : OkfDisk) : Prop where
  dirs : ∀ s ∈ found base lib src, d.node s = some .dir
  below : d.node (placeOf lib src ++ [child]) = some .dir
  only : ∀ q, d.node q ≠ none → (∃ s ∈ found base lib src, q <+: s) ∨ q = placeOf lib src ++ [child]
  no_files : ∀ p, ¬ d.IsFile p

theorem exists_stocked (hbase : ∀ s ∈ base, ∀ name ∈ s, IsName name) (hlib : lib ∈ base) (hsrc : 0 ∉ src)
    {child : Name} (hchild : IsName child) : ∃ d, Stocked base lib src child d := by
  have hnamed : ∀ s ∈ found base lib src ++ [placeOf lib src ++ [child]], ∀ name ∈ s, IsName name := by
    intro s hs
    rcases List.mem_append.mp hs with hs | hs
    · exact named_found hbase hlib hsrc s hs
    · rw [List.mem_singleton.mp hs]
      exact fun name hname => (List.mem_append.mp hname).elim
        (named_placeOf (hbase lib hlib) hsrc name) fun hname => List.mem_singleton.mp hname ▸ hchild
  refine ⟨Disk.ofDirs _ hnamed, fun s hs => Disk.dir_ofDirs (List.mem_append_left _ hs) List.prefix_rfl,
    Disk.dir_ofDirs (List.mem_append_right _ (List.mem_singleton_self _)) List.prefix_rfl, fun q hq => ?_,
    fun _ => Disk.not_isFile_ofDirs⟩
  rw [Disk.node_ofDirs (by simp)] at hq
  have hle : ∃ s ∈ found base lib src ++ [placeOf lib src ++ [child]], q <+: s := by
    by_contra hnot
    exact hq (if_neg hnot)
  obtain ⟨s, hs, hle⟩ := hle
  rcases List.mem_append.mp hs with hs | hs
  · exact .inl ⟨s, hs, hle⟩
  · rw [List.mem_singleton.mp hs] at hle
    rcases List.prefix_concat_iff.mp hle with heq | hle
    · exact .inr heq
    · exact .inl ⟨_, List.mem_append_right _ (List.mem_cons_self ..), hle⟩

namespace Stocked

variable {child : Name} (h : Stocked base lib src child d)
include h

theorem lib_dir (hlib : lib ∈ base) : d.node lib = some .dir := h.dirs lib (List.mem_append_left _ hlib)

theorem alwaysFound (hfresh : placeOf lib src ++ [child] ∉ placeOf lib dst :: passed lib dst)
    (hexists : d.exists_ lib dst = true) : AlwaysFound base lib src dst := by
  intro q hq
  refine (h.only q (there_of_found hexists q hq)).resolve_right ?_
  rintro rfl
  exact hfresh hq

theorem createDirs_ok (hlib : lib ∈ base) (hnames : ∀ name ∈ lib, IsName name) (hdst : 0 ∉ dst) :
    (d.createDirs Env.quiet.faults (startOf lib dst) (wayTo dst)).2 = true :=
  Disk.createDirs_noFiles h.no_files (dir_startOf (h.lib_dir hlib) _)
    (fun _ hq => named_passed hnames hdst (passed_of_made hq)) fun _ _ hdenied => nomatch hdenied

/-- What is moved does not lead to anything but an empty directory. -/
theorem last (hcan : CanMove base lib src dst) {q : List Name} (hle : placeOf lib dst <+: q)
    (hq : (prepared .quiet lib dst d).node q ≠ none) : q = placeOf lib dst := by
  have hsrc : placeOf lib src ∈ found base lib src := List.mem_append_right _ (List.mem_cons_self ..)
  by_cases hmade : q ∈ made lib dst
  · exact hcan.free q (List.mem_append_right _ hmade) hle
  · rw [prepared, Disk.node_createDirs hmade] at hq
    rcases h.only q hq with ⟨s, hs, hqs⟩ | rfl
    · obtain rfl := hcan.free s (List.mem_append_left _ hs) (hle.trans hqs)
      exact hqs.eq_of_length_le hle.length_le
    · exfalso
      rcases List.prefix_concat_iff.mp hle with heq | hle
      · exact hcan.apart (heq ▸ List.prefix_append ..)
      · exact hcan.apart (hcan.free _ (List.mem_append_left _ hsrc) hle ▸ List.prefix_rfl)

/-- What has been found is moved. -/
theorem relocate_eq (hlib : lib ∈ base) (hnames : ∀ name ∈ lib, IsName name) (hsrc : 0 ∉ src) (hdst : 0 ∉ dst)
    (hcan : CanMove base lib src dst) (entry : Text) : ∃ d',
    relocate .quiet lib src dst entry d = appendLog .quiet lib d' entry ∧
      ∀ p, d'.node p = (prepared .quiet lib dst d).nodeMoved (placeOf lib src) (placeOf lib dst) p := by
  have hsrcdir := h.dirs _ (List.mem_append_right base (List.mem_cons_self ..))
  have hdirs := h.createDirs_ok hlib hnames hdst
  have hrename : ((prepared .quiet lib dst d).rename lib src Env.quiet.faults dst).2 = true := by
    refine rename_of_canMove hcan hnames hdst ?_ ?_ (fun p hfile => ?_) ?_ fun q hle hq => h.last hcan hle hq
    · exact Disk.exists_keeps (exists_of_dirs hsrc h.dirs) fun p => keeps_prepared
    · rw [keeps_prepared.there (by simp [hsrcdir]), hsrcdir]
    · obtain ⟨content, hfile⟩ := hfile
      exact h.no_files p ⟨content, keeps_prepared.file_iff.mp hfile⟩
    · exact Disk.dirs_of_createDirs (dir_startOf (h.lib_dir hlib) _) hdirs
  obtain ⟨-, hrenamed⟩ := (Disk.rename_cases ..).resolve_left fun h => by rw [h] at hrename; cases hrename
  have hne : placeOf lib src ≠ placeOf lib dst := fun heq => hcan.apart (heq ▸ List.prefix_rfl)
  exact ⟨_, relocate_of_ok hdirs hrename, hrenamed.node hne⟩

end Stocked

/-- What is found is moved, with something in it, from or to a place outside. -/
theorem moveEscapes_of_ends (hbase : ∀ s ∈ base, ∀ name ∈ s, IsName name) (hlib : lib ∈ base) (hsrc : 0 ∉ src)
    (hdst : 0 ∉ dst) (hcan : CanMove base lib src dst) (hends : ¬ (lib <+: placeOf lib src ∧ lib <+: placeOf lib dst)) :
    MoveEscapes base lib src dst := by
  obtain ⟨n, hchild, hfresh⟩ := exists_fresh (placeOf lib src) (placeOf lib dst :: passed lib dst) [] (by simp)
    (by simp)
  set child := List.replicate (n + 3) (97 : UInt8) ++ []
  obtain ⟨d, h⟩ := exists_stocked hbase hlib hsrc hchild
  have hlibfound : lib ∈ found base lib src := List.mem_append_left _ hlib
  have hsrcfound : placeOf lib src ∈ found base lib src := List.mem_append_right _ (List.mem_cons_self ..)
  refine ⟨.quiet, d, fun s hs => h.dirs s (List.mem_append_left _ hs), exists_of_dirs hsrc h.dirs,
    h.alwaysFound hfresh, fun entry => ?_⟩
  obtain ⟨d', heq, hmoved⟩ := h.relocate_eq hlib (hbase lib hlib) hsrc hdst hcan entry
  rw [heq]
  have hprepared {p : List Name} (hp : d.node p = some .dir) : (prepared .quiet lib dst d).node p = some .dir :=
    Disk.keepsDirs_createDirs d _ _ _ p hp
  by_cases hin : lib <+: placeOf lib dst
  · -- What was found outside is gone.
    have hout : ¬ lib <+: placeOf lib src := fun hle => hends ⟨hle, hin⟩
    have hback : ¬ placeOf lib dst <+: placeOf lib src := fun hle =>
      hcan.apart (hcan.free _ (List.mem_append_left _ hsrcfound) hle ▸ List.prefix_rfl)
    have hlibdir : d'.node lib = some .dir := by
      rw [hmoved, Disk.nodeMoved]
      split
      · rename_i hle
        rw [hle.eq_of_length_le hin.length_le, List.drop_length, List.append_nil]
        exact hprepared (h.dirs _ hsrcfound)
      · rw [if_neg fun hle => hcan.apart (hle.trans hin)]
        exact hprepared (h.lib_dir hlib)
    refine ⟨placeOf lib src, hout, ?_⟩
    rw [node_appendLog hlibdir fun heq => hout ⟨_, heq.symm⟩, hmoved, Disk.nodeMoved, if_neg hback,
      if_pos List.prefix_rfl, h.dirs _ hsrcfound]
    exact nofun
  · -- What lay in it is outside now.
    have hnew : d.node (placeOf lib dst ++ [child]) = none := by
      by_contra hthere
      have hlt {s : List Name} (hs : s ∈ found base lib src) : ¬ placeOf lib dst ++ [child] <+: s := by
        intro hle
        have hlen := hle.length_le
        rw [hcan.free s (List.mem_append_left _ hs) ((List.prefix_append ..).trans hle), List.length_append,
          List.length_singleton] at hlen
        omega
      rcases h.only _ hthere with ⟨s, hs, hle⟩ | heq
      · exact hlt hs hle
      · exact hcan.apart (List.append_cancel_right heq ▸ List.prefix_rfl)
    refine ⟨placeOf lib dst ++ [child], fun hle => ?_, ?_⟩
    · rcases List.prefix_concat_iff.mp hle with heq | hle
      · have hlast := hcan.free lib (List.mem_append_left _ hlibfound) ⟨_, heq.symm⟩
        exact hin (hlast ▸ List.prefix_rfl)
      · exact hin hle
    · have hdir : d'.node (placeOf lib dst ++ [child]) = some .dir := by
        rw [hmoved, Disk.nodeMoved, if_pos (List.prefix_append ..), List.drop_left]
        exact hprepared h.below
      rw [keepsDirs_appendLog _ hdir, hnew]
      exact nofun

theorem moveEscapes (hbase : ∀ s ∈ base, ∀ name ∈ s, IsName name) (hlib : lib ∈ base) (hsrc : 0 ∉ src) (hdst : 0 ∉ dst)
    (h : ¬ MovesInside base lib src dst) : MoveEscapes base lib src dst := by
  by_cases hmade : ∀ q ∈ made lib dst, Near lib (found base lib src) q
  · by_cases hcan : CanMove base lib src dst
    · exact moveEscapes_of_ends hbase hlib hsrc hdst hcan fun hends => h ⟨hmade, fun _ => hends⟩
    · exact absurd ⟨hmade, fun hmove => absurd hmove hcan⟩ h
  · simp only [Classical.not_forall] at hmade
    obtain ⟨q, hq, hfar⟩ := hmade
    exact moveEscapes_of_made hbase hlib hsrc hdst hq hfar

theorem zero_not_mem_inTrash (hzero : 0 ∉ encode rel) : 0 ∉ inTrash rel :=
  zero_not_mem_joinPath isName_trashDir.2.2.1 hzero

theorem escapes_rm (hbase : ∀ s ∈ base, ∀ name ∈ s, IsName name) (hlib : lib ∈ base)
    (hzero : ∀ rel, opts.given "path" = some rel → 0 ∉ encode rel) (h : ¬ CommandInside base lib (.rm opts)) :
    Escapes base lib (.rm opts) := by
  simp only [CommandInside, Classical.not_forall] at h
  obtain ⟨rel, hrel, hfree, hout⟩ := h
  have hz := hzero rel hrel
  obtain ⟨env, d, hdir, hfound, -, hmoved⟩ := moveEscapes hbase hlib hz (zero_not_mem_inTrash hz) hout
  refine ⟨env, d, hdir, ?_⟩
  unfold runCommand
  rw [if_pos (hdir lib hlib)]
  dsimp only
  rw [cmdRm_eq hrel, if_neg (by rw [not_or, not_not]; exact ⟨hfree, hfound⟩)]
  exact hmoved _

theorem escapes_restore (hbase : ∀ s ∈ base, ∀ name ∈ s, IsName name) (hlib : lib ∈ base)
    (hzero : ∀ rel, opts.given "path" = some rel → 0 ∉ encode rel) (h : ¬ CommandInside base lib (.restore opts)) :
    Escapes base lib (.restore opts) := by
  simp only [CommandInside, Classical.not_forall, not_or] at h
  obtain ⟨rel, hrel, hnot, hout⟩ := h
  have hz := hzero rel hrel
  obtain ⟨env, d, hdir, hfound, halways, hmoved⟩ := moveEscapes hbase hlib (zero_not_mem_inTrash hz) hz hout
  refine ⟨env, d, hdir, ?_⟩
  unfold runCommand
  rw [if_pos (hdir lib hlib)]
  dsimp only
  rw [cmdRestore_eq hrel, if_neg (by rw [not_or, not_not]; exact ⟨hfound, fun hexists => hnot (halways hexists)⟩)]
  exact hmoved _

end

end Nsmt.Okf
