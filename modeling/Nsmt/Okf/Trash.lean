import Nsmt.Lib.Runs
import Nsmt.Okf.Log

/-!
# Removed concepts

`rm` moves a concept, or a directory of them, to the same path below `.trash`, and
`restore` moves it back. Nothing keeps two removals of one path apart, and the log
is written last, when the move is done.
-/

namespace Nsmt.Okf

open Nsmt.Lib Nsmt.Lib.Utf8 Nsmt.Lib.UnixPaths Nsmt.Lib.Dirs

def Removes (lib : List Name) (d : OkfDisk) (call : Call) (rel : Text) : Prop :=
  (runCommand call.env lib call.command d).2 = true ∧
    ∃ opts, call.command = .rm opts ∧ opts.given "path" = some rel

def Restores (lib : List Name) (d : OkfDisk) (call : Call) (rel : Text) : Prop :=
  (runCommand call.env lib call.command d).2 = true ∧
    ∃ opts, call.command = .restore opts ∧ opts.given "path" = some rel

/-- A concept with this content is what the path leads to, or lies below it. -/
structure Taken (lib : List Name) (d : OkfDisk) (rel : Text) (c rest : List Name) (page : Page) : Prop where
  concept : c ∈ collectMdFiles lib d
  place : lib ++ c = placeOf lib (encode rel) ++ rest
  content : d.node (lib ++ c) = some (.file page)

/-- What a successful `rm` took stays in the trash until a `restore` of it succeeds,
and a `restore` directly after the `rm` brings it back. -/
structure Recoverable (lib : List Name) (start : OkfDisk) (calls : List Call) : Prop where
  kept : ∀ before call between after rel c rest page, calls = before ++ call :: (between ++ after) →
    Removes lib (run (stepCall lib) start before) call rel →
    Taken lib (run (stepCall lib) start before) rel c rest page →
    AllSteps (stepCall lib) (fun d later => ∀ rel', Restores lib d later rel' →
      ¬ placeOf lib (inTrash rel') <+: placeOf lib (inTrash rel) ++ rest)
      (run (stepCall lib) start (before ++ [call])) between →
    (run (stepCall lib) start (before ++ call :: between)).node (placeOf lib (inTrash rel) ++ rest) =
      some (.file page)
  back : ∀ before call after rel c rest page, calls = before ++ call :: after →
    Removes lib (run (stepCall lib) start before) call rel →
    Taken lib (run (stepCall lib) start before) rel c rest page →
    ∀ env opts, env.faults = .none → opts.given "path" = some rel →
      (runCommand env lib (.restore opts) (run (stepCall lib) start (before ++ [call]))).2 = true ∧
      (runCommand env lib (.restore opts) (run (stepCall lib) start (before ++ [call]))).1.node (lib ++ c) =
        some (.file page)

/-- The path stays in the library, and leads neither into the trash nor through the log. -/
structure Proper (rel : Text) : Prop where
  relative : (encode rel).head? ≠ some slash
  inside : Inside [] ((encode rel).splitOn slash) = true
  no_trash : (placeOf [] (encode rel)).head? ≠ some trashDir
  no_log : [logMd] ∉ ((encode rel).splitOn slash).scanl enter []

instance (rel : Text) : Decidable (Proper rel) :=
  decidable_of_iff ((encode rel).head? ≠ some slash ∧ Inside [] ((encode rel).splitOn slash) = true ∧
      (placeOf [] (encode rel)).head? ≠ some trashDir ∧
      [logMd] ∉ ((encode rel).splitOn slash).scanl enter [])
    ⟨fun ⟨relative, inside, no_trash, no_log⟩ => ⟨relative, inside, no_trash, no_log⟩,
      fun h => ⟨h.relative, h.inside, h.no_trash, h.no_log⟩⟩

/-- Nothing is there, or text that can be read. -/
def textOrNothing (env : Env) (p : List Name) : Option (Node Page) → Bool
  | none => true
  | some .dir => false
  | some (.file page) => !env.faults.unread p && page.toText.isSome

/-- The log can be written, and what is there already is text. -/
structure LogWorks (env : Env) (lib : List Name) (d : OkfDisk) : Prop where
  allowed : env.faults.denied (lib ++ [logMd]) = false
  whole : env.faults.torn (lib ++ [logMd]) = none
  text : textOrNothing env (lib ++ [logMd]) (d.node (lib ++ [logMd])) = true

instance (env : Env) (lib : List Name) (d : OkfDisk) : Decidable (LogWorks env lib d) :=
  decidable_of_iff (env.faults.denied (lib ++ [logMd]) = false ∧ env.faults.torn (lib ++ [logMd]) = none ∧
      textOrNothing env (lib ++ [logMd]) (d.node (lib ++ [logMd])) = true)
    ⟨fun ⟨allowed, whole, text⟩ => ⟨allowed, whole, text⟩, fun h => ⟨h.allowed, h.whole, h.text⟩⟩

/-- `add` and `edit` write no file that is in the trash; `rm` and `restore` are given a
proper path, `rm` replaces no file in the trash, and `restore` can write the log. -/
def Careful (lib : List Name) (d : OkfDisk) (call : Call) : Prop :=
  match call.command with
  | .add opts | .edit opts => ∀ rel, opts.given "path" = some rel →
      ¬ (lib ++ [trashDir] <+: placeOf lib (encode rel) ∧ d.IsFile (placeOf lib (encode rel)))
  | .rm opts => ∀ rel, opts.given "path" = some rel → d.exists_ lib (encode rel) = true →
      Proper rel ∧ ¬ (d.IsFile (placeOf lib (encode rel)) ∧ d.IsFile (placeOf lib (inTrash rel)))
  | .restore opts => ∀ rel, opts.given "path" = some rel → d.exists_ lib (inTrash rel) = true →
      Proper rel ∧ LogWorks call.env lib d
  | .index | .log _ => True

instance (lib : List Name) (d : OkfDisk) : (call : Call) → Decidable (Careful lib d call)
  | ⟨_, .add opts⟩ | ⟨_, .edit opts⟩ => inferInstanceAs (Decidable (∀ rel ∈ opts.given "path",
      ¬ (lib ++ [trashDir] <+: placeOf lib (encode rel) ∧ d.IsFile (placeOf lib (encode rel)))))
  | ⟨_, .rm opts⟩ => inferInstanceAs (Decidable (∀ rel ∈ opts.given "path", d.exists_ lib (encode rel) = true →
      Proper rel ∧ ¬ (d.IsFile (placeOf lib (encode rel)) ∧ d.IsFile (placeOf lib (inTrash rel)))))
  | ⟨env, .restore opts⟩ => inferInstanceAs (Decidable (∀ rel ∈ opts.given "path",
      d.exists_ lib (inTrash rel) = true → Proper rel ∧ LogWorks env lib d))
  | ⟨_, .index⟩ | ⟨_, .log _⟩ => isTrue trivial

-- ---------------------------------------------------------------------------
-- The log
-- ---------------------------------------------------------------------------

theorem appendLog_ok {env : Env} {lib : List Name} {d : OkfDisk} {entry : Text} (hlib : d.node lib = some .dir) (h : LogWorks env lib d) :
    (appendLog env lib d entry).2 = true := by
  rw [appendLog_eq hlib]
  have htext := h.text
  have hfile : d.node (lib ++ [logMd]) ≠ some .dir := by
    intro hdir
    rw [hdir] at htext
    cases htext
  split
  · exact Disk.write_name_ok isName_logMd hlib hfile h.allowed h.whole
  · rename_i hread
    rw [Disk.exists_, Disk.read, find_logMd hlib, placeOf_name lib isName_logMd] at hread
    unfold textOrNothing at htext
    split at htext
    · rename_i hnone
      simp [hnone] at hread
    · cases htext
    · rename_i page hpage
      rw [Bool.and_eq_true, Bool.not_eq_true', Option.isSome_iff_ne_none] at htext
      simp [hpage, htext.1, htext.2] at hread

-- ---------------------------------------------------------------------------
-- Proper paths
-- ---------------------------------------------------------------------------

section
variable {lib : List Name} {rel : Text}

theorem Proper.startOf_eq (h : Proper rel) (lib : List Name) : startOf lib (encode rel) = lib := if_neg h.relative

theorem Proper.placeOf_eq (h : Proper rel) (lib : List Name) :
    placeOf lib (encode rel) = lib ++ placeOf [] (encode rel) := by
  have hfold := foldl_inside h.inside lib
  rw [List.append_nil] at hfold
  rw [placeOf, placeOf, if_neg h.relative, hfold, ite_self]

theorem Proper.splitOn_inTrash (h : Proper rel) :
    (inTrash rel).splitOn slash = trashDir :: (encode rel).splitOn slash := by
  have hjoin := joinPath_name [] isName_trashDir h.relative
  rw [List.nil_append, List.nil_append] at hjoin
  rw [inTrash, hjoin, splitOn_append_of_not_mem isName_trashDir.2.1, List.splitOn_cons_eq_if_modifyHead,
    if_pos (by simp)]
  simp

theorem Proper.head_inTrash (h : Proper rel) : (inTrash rel).head? ≠ some slash := by
  have hjoin := joinPath_name [] isName_trashDir h.relative
  rw [List.nil_append, List.nil_append] at hjoin
  rw [inTrash, hjoin, List.head?_append_of_ne_nil _ isName_trashDir.1]
  exact isName_trashDir.head

theorem Proper.placeOf_inTrash (h : Proper rel) (lib : List Name) :
    placeOf lib (inTrash rel) = lib ++ [trashDir] ++ placeOf [] (encode rel) := by
  have hfold := foldl_inside h.inside (lib ++ [trashDir])
  rw [List.append_nil] at hfold
  rw [placeOf, placeOf, if_neg h.head_inTrash, h.splitOn_inTrash, List.foldl_cons,
    enter_name lib isName_trashDir, hfold, ite_self]

end

-- ---------------------------------------------------------------------------
-- Moving with a log entry
-- ---------------------------------------------------------------------------

/-- What `rm` and `restore` have in common. -/
def relocate (env : Env) (lib : List Name) (src dst : Bytes) (entry : Text) (d : OkfDisk) : OkfDisk × Bool :=
  andThen (d.createDirs env.faults (startOf lib dst) (wayTo dst)) fun d =>
    andThen (d.rename lib src env.faults dst) fun d => appendLog env lib d entry

section
variable {env : Env} {lib : List Name} {opts : Opts} {d : OkfDisk} {rel entry : Text} {src dst : Bytes} {p : List Name}

theorem cmdRm_eq (hrel : opts.given "path" = some rel) : cmdRm env lib opts d =
    if rel ∈ reserved ∨ ¬ d.exists_ lib (encode rel) then (d, false)
    else relocate env lib (encode rel) (inTrash rel) (logLink "**Deprecation**: Removed".toList rel rel) d := by
  rw [cmdRm, hrel]
  rfl

theorem cmdRestore_eq (hrel : opts.given "path" = some rel) : cmdRestore env lib opts d =
    if ¬ d.exists_ lib (inTrash rel) ∨ d.exists_ lib (encode rel) then (d, false)
    else relocate env lib (inTrash rel) (encode rel) (logLink "**Update**: Restored".toList rel rel) d := by
  rw [cmdRestore, hrel]
  rfl

/-- The disk once the directories in front of `dst` have been made. -/
def prepared (env : Env) (lib : List Name) (dst : Bytes) (d : OkfDisk) : OkfDisk :=
  (d.createDirs env.faults (startOf lib dst) (wayTo dst)).1

/-- Nothing is moved, or all is done but for the log. -/
theorem relocate_cases (env : Env) (lib : List Name) (src dst : Bytes) (entry : Text) (d : OkfDisk) :
    relocate env lib src dst entry d = (prepared env lib dst d, false) ∨
      (d.createDirs env.faults (startOf lib dst) (wayTo dst)).2 = true ∧
      ((prepared env lib dst d).rename lib src env.faults dst).2 = true ∧
      relocate env lib src dst entry d =
        appendLog env lib ((prepared env lib dst d).rename lib src env.faults dst).1 entry := by
  unfold relocate andThen
  split
  · rename_i hdirs
    dsimp only
    split
    · rename_i hrename
      exact .inr ⟨hdirs, hrename, rfl⟩
    · rename_i hrename
      refine .inl ?_
      rcases Disk.rename_cases (prepared env lib dst d) lib src env.faults dst with hsame | ⟨hok, -⟩
      · exact hsame
      · exact absurd hok hrename
  · rename_i hdirs
    exact .inl (Prod.ext rfl (Bool.eq_false_of_not_eq_true hdirs))

/-- A file that a move would hide is one that it replaces by a file. -/
theorem replaced_of_prefix {src dst : List Name} {page : Page} (h : d.Movable src dst)
    (hpage : d.node p = some (.file page)) (hle : dst <+: p) : dst = p ∧ d.IsFile src := by
  obtain ⟨rest, rfl⟩ := hle
  have hfits := h.fits
  have hdir (hne : rest ≠ []) : d.node dst = some .dir :=
    Disk.isDir_of_below (by simp [hpage] : d.node (dst ++ rest) ≠ none) hne
  unfold Disk.fits at hfits
  split at hfits
  · rw [decide_eq_true_eq] at hfits
    exfalso
    by_cases hrest : rest = []
    · simp [hrest] at hpage
      simp [hpage] at hfits
    · rcases hfits with hnone | ⟨-, hempty⟩
      · simp [hdir hrest] at hnone
      · have hthere : d.node (dst ++ rest) ≠ none := by simp [hpage]
        rcases hempty _ (d.covers _ hthere) (List.prefix_append ..) with heq | hnone
        · exact hrest (by simpa using heq)
        · exact hthere (Option.isNone_iff_eq_none.mp hnone)
  · rename_i content hsrc
    rw [decide_eq_true_eq] at hfits
    by_cases hrest : rest = []
    · exact ⟨by simp [hrest], content, hsrc⟩
    · exact absurd (hdir hrest) hfits
  · cases hfits

/-- A move takes away only what it moves, and a file that it replaces. -/
theorem node_moved {src dst : List Name} {d' : OkfDisk} {page : Page} (h : Disk.Renamed d src dst d')
    (hpage : d.node p = some (.file page)) (hsrc : ¬ src <+: p) (hdst : dst = p → ¬ d.IsFile src) :
    d'.node p = some (.file page) := by
  by_cases hne : src = dst
  · rw [h.same hne, hpage]
  · have hnot : ¬ dst <+: p := by
      intro hle
      obtain ⟨heq, hfile⟩ := replaced_of_prefix (h.movable hne) hpage hle
      exact hdst heq hfile
    rw [h.node hne, Disk.nodeMoved, if_neg hnot, if_neg hsrc, hpage]

theorem keeps_prepared : d.Keeps (prepared env lib dst d) p := Disk.keeps_createDirs d env.faults _ _ p

theorem keeps_cmdAdd (hplace : ∀ rel, opts.given "path" = some rel → p ≠ placeOf lib (encode rel))
    (hlog : p ≠ lib ++ [logMd]) : d.Keeps (cmdAdd env lib opts d).1 p := by
  unfold cmdAdd
  split
  · rename_i rel ftype hrel htype
    split
    · exact .refl d p
    · refine (Disk.keeps_createDirs d env.faults _ _ p).andThen ?_
      split
      · exact (Disk.keeps_write (hplace rel hrel)).andThen (keeps_appendLog hlog)
      · exact .refl _ p
  · exact .refl d p

theorem keeps_cmdEdit (hplace : ∀ rel, opts.given "path" = some rel → p ≠ placeOf lib (encode rel))
    (hlog : p ≠ lib ++ [logMd]) : d.Keeps (cmdEdit env lib opts d).1 p := by
  unfold cmdEdit
  split
  · rename_i rel hrel
    split
    · exact (Disk.keeps_write (hplace rel hrel)).andThen (keeps_appendLog hlog)
    · exact .refl d p
  · exact .refl d p

theorem keeps_cmdLog (hlog : p ≠ lib ++ [logMd]) : d.Keeps (cmdLog env lib opts d).1 p := by
  unfold cmdLog
  split
  · exact keeps_appendLog hlog
  · exact .refl d p

end

-- ---------------------------------------------------------------------------
-- What stays in the trash
-- ---------------------------------------------------------------------------

section
variable {env : Env} {lib : List Name} {opts : Opts} {d : OkfDisk} {rel : Text} {c : List Name} {page : Page}

/-- A proper path leads to nothing that is, or has in it, a part of the trash. -/
theorem Proper.not_prefix (h : Proper rel) (hne : placeOf [] (encode rel) ≠ []) :
    ¬ lib ++ placeOf [] (encode rel) <+: lib ++ [trashDir] ++ c := by
  intro hle
  rw [List.append_assoc, List.prefix_append_right_inj] at hle
  have hhead := h.no_trash
  obtain ⟨name, rest, hplace⟩ := List.exists_cons_of_ne_nil hne
  rw [hplace] at hle hhead
  rw [List.singleton_append, List.cons_prefix_cons] at hle
  exact hhead (by rw [hle.1, List.head?_cons])

theorem trash_ne_log : lib ++ [trashDir] ++ c ≠ lib ++ [logMd] := by
  intro heq
  rw [List.append_assoc] at heq
  have hname : trashDir = logMd := (List.cons.inj (List.append_cancel_left heq)).1
  exact absurd hname (by decide)

theorem kept_of_rm (hrel : opts.given "path" = some rel)
    (hcareful : d.exists_ lib (encode rel) = true →
      Proper rel ∧ ¬ (d.IsFile (placeOf lib (encode rel)) ∧ d.IsFile (placeOf lib (inTrash rel))))
    (hpage : d.node (lib ++ [trashDir] ++ c) = some (.file page)) :
    (cmdRm env lib opts d).1.node (lib ++ [trashDir] ++ c) = some (.file page) := by
  rw [cmdRm_eq hrel]
  split
  · exact hpage
  · rename_i hfound
    rw [not_or, not_not] at hfound
    obtain ⟨hproper, hfree⟩ := hcareful hfound.2
    rcases relocate_cases env lib (encode rel) (inTrash rel) (logLink "**Deprecation**: Removed".toList rel rel) d
      with hnot | ⟨-, hrename, hlog⟩
    · rw [hnot]
      exact keeps_prepared.file_iff.mpr hpage
    · rw [hlog]
      refine (keeps_appendLog trash_ne_log).file_iff.mpr ?_
      obtain ⟨-, hrenamed⟩ := (Disk.rename_cases ..).resolve_left fun h => by rw [h] at hrename; cases hrename
      have hne := placeOf_ne_nil (Disk.renames_of_rename hrename).src_name []
      refine node_moved hrenamed (keeps_prepared.file_iff.mpr hpage) ?_ fun heq hfile => hfree ⟨?_, ?_⟩
      · rw [hproper.placeOf_eq]
        exact hproper.not_prefix hne
      · exact hfile.imp fun _ => keeps_prepared.file_iff.mp
      · rw [heq]
        exact ⟨page, hpage⟩

/-- What lies in the library, but not below the place that is proper, is not moved back. -/
theorem node_restored {d' : OkfDisk} {p : List Name} (hproper : Proper rel)
    (hrenamed : Disk.Renamed d (placeOf lib (inTrash rel)) (placeOf lib (encode rel)) d')
    (htrash : ¬ lib ++ [trashDir] <+: p) (hplace : ¬ lib ++ placeOf [] (encode rel) <+: p) :
    d'.node p = d.node p := by
  rw [hproper.placeOf_eq, hproper.placeOf_inTrash] at hrenamed
  have hdiff : lib ++ [trashDir] ++ placeOf [] (encode rel) ≠ lib ++ placeOf [] (encode rel) := by
    intro heq
    have hlen := congrArg List.length heq
    simp at hlen
  rw [hrenamed.node hdiff, Disk.nodeMoved, if_neg hplace, if_neg]
  exact fun hle => htrash ((List.prefix_append ..).trans hle)

theorem Proper.log_not_passed (h : Proper rel) (hdst : ∃ name ∈ (trimmed (encode rel)).getLast?, IsName name)
    (lib : List Name) : lib ++ [logMd] ∉ (wayTo (encode rel)).scanl enter lib := by
  obtain ⟨front, name, tail, hsplits⟩ := exists_splits hdst
  have hinside : Inside [] front = true := by
    have hinside := h.inside
    rw [hsplits.split] at hinside
    exact inside_front hinside
  have hscan := scanl_inside hinside lib
  rw [List.append_nil] at hscan
  rw [hsplits.wayTo_eq, mem_scanl_filter, hscan, List.mem_map]
  rintro ⟨q, hq, heq⟩
  rw [List.append_cancel_left heq] at hq
  refine h.no_log ?_
  rw [hsplits.split, List.scanl_append]
  exact List.mem_append_left _ hq

theorem Proper.not_log (h : Proper rel) : placeOf [] (encode rel) ≠ [logMd] := by
  intro heq
  refine h.no_log ?_
  rw [← heq, placeOf, ite_self]
  exact foldl_mem_scanl

theorem Proper.not_prefix_log (h : Proper rel) (hne : placeOf [] (encode rel) ≠ []) :
    ¬ lib ++ placeOf [] (encode rel) <+: lib ++ [logMd] := by
  intro hle
  rw [List.prefix_append_right_inj] at hle
  obtain ⟨name, rest, hplace⟩ := List.exists_cons_of_ne_nil hne
  have hnot := h.not_log
  rw [hplace] at hle hnot
  rw [List.cons_prefix_cons] at hle
  exact hnot (by rw [hle.1, List.prefix_nil.mp hle.2])

theorem restored_lib {d' : OkfDisk} (hproper : Proper rel) (hne : placeOf [] (encode rel) ≠ [])
    (hrenamed : Disk.Renamed d (placeOf lib (inTrash rel)) (placeOf lib (encode rel)) d')
    (hlib : d.node lib = some .dir) : d'.node lib = some .dir := by
  have hbelow (names : List Name) (hnames : names ≠ []) : ¬ lib ++ names <+: lib := fun hle => by
    have hlen := hle.length_le
    rw [List.length_append] at hlen
    exact hnames (List.length_eq_zero_iff.mp (by omega))
  rw [node_restored hproper hrenamed (hbelow _ (by simp)) (hbelow _ hne), hlib]

theorem LogWorks.of_node {d' : OkfDisk} (h : LogWorks env lib d)
    (hsame : d'.node (lib ++ [logMd]) = d.node (lib ++ [logMd])) : LogWorks env lib d' where
  allowed := h.allowed
  whole := h.whole
  text := by rw [hsame]; exact h.text

theorem prepared_log (hproper : Proper rel) (hdst : ∃ name ∈ (trimmed (encode rel)).getLast?, IsName name)
    (h : LogWorks env lib d) : LogWorks env lib (prepared env lib (encode rel) d) := by
  refine h.of_node (Disk.node_createDirs ?_)
  rw [hproper.startOf_eq]
  exact hproper.log_not_passed hdst lib

theorem restored_log {d' : OkfDisk} (hproper : Proper rel) (hne : placeOf [] (encode rel) ≠ [])
    (hrenamed : Disk.Renamed d (placeOf lib (inTrash rel)) (placeOf lib (encode rel)) d')
    (h : LogWorks env lib d) : LogWorks env lib d' := by
  refine h.of_node (node_restored hproper hrenamed ?_ (hproper.not_prefix_log hne))
  rw [List.prefix_append_right_inj]
  decide

/-- A `restore` that is not of it, and does not fail at the log only, keeps it. -/
theorem kept_of_restore (hlib : d.node lib = some .dir) (hrel : opts.given "path" = some rel)
    (hcareful : d.exists_ lib (inTrash rel) = true → Proper rel ∧ LogWorks env lib d)
    (hother : (cmdRestore env lib opts d).2 = true → ¬ placeOf lib (inTrash rel) <+: lib ++ [trashDir] ++ c)
    (hpage : d.node (lib ++ [trashDir] ++ c) = some (.file page)) :
    (cmdRestore env lib opts d).1.node (lib ++ [trashDir] ++ c) = some (.file page) := by
  rw [cmdRestore_eq hrel] at hother ⊢
  split
  · exact hpage
  · rename_i hfound
    rw [if_neg hfound] at hother
    rw [not_or, not_not] at hfound
    obtain ⟨hproper, hworks⟩ := hcareful hfound.1
    rcases relocate_cases env lib (inTrash rel) (encode rel) (logLink "**Update**: Restored".toList rel rel) d
      with hnot | ⟨-, hrename, hlog⟩
    · rw [hnot]
      exact keeps_prepared.file_iff.mpr hpage
    · obtain ⟨-, hrenamed⟩ := (Disk.rename_cases ..).resolve_left fun h => by rw [h] at hrename; cases hrename
      have hne := placeOf_ne_nil (Disk.renames_of_rename hrename).dst_name []
      have hlib' : (prepared env lib (encode rel) d).node lib = some .dir := by
        rw [keeps_prepared.there (by simp [hlib]), hlib]
      have hworks' := prepared_log hproper (Disk.renames_of_rename hrename).dst_name hworks
      rw [hlog] at hother ⊢
      have hok := hother <| appendLog_ok (restored_lib hproper hne hrenamed hlib')
        (restored_log hproper hne hrenamed hworks')
      refine (keeps_appendLog trash_ne_log).file_iff.mpr ?_
      refine node_moved hrenamed (keeps_prepared.file_iff.mpr hpage) hok fun heq => ?_
      rw [hproper.placeOf_eq] at heq
      have hle : lib ++ placeOf [] (encode rel) <+: lib ++ [trashDir] ++ c := by rw [heq]
      exact absurd hle (hproper.not_prefix hne)

/-- What one careful command keeps in the trash. -/
theorem step_kept {call : Call} (hname : isConceptName (c.getLast?.getD []) = true)
    (hpage : d.node (lib ++ [trashDir] ++ c) = some (.file page)) (hcareful : Careful lib d call)
    (hother : ∀ rel, Restores lib d call rel → ¬ placeOf lib (inTrash rel) <+: lib ++ [trashDir] ++ c) :
    (stepCall lib d call).node (lib ++ [trashDir] ++ c) = some (.file page) := by
  have hne : c ≠ [] := by
    rintro rfl
    exact absurd hname (by decide)
  have hindex : (lib ++ [trashDir] ++ c).getLast? ≠ some indexMd := by
    rw [List.getLast?_append_of_ne_nil _ hne]
    intro hlast
    rw [hlast] at hname
    exact absurd hname (by decide)
  obtain ⟨env, command⟩ := call
  unfold stepCall
  unfold Restores at hother
  unfold runCommand at hother ⊢
  split
  · rename_i hlib
    rw [if_pos hlib] at hother
    -- What `add` and `edit` write is not the file in the trash.
    have hwritten {opts : Opts} (hfree : ∀ rel, opts.given "path" = some rel →
        ¬ (lib ++ [trashDir] <+: placeOf lib (encode rel) ∧ d.IsFile (placeOf lib (encode rel)))) :
        ∀ rel, opts.given "path" = some rel → lib ++ [trashDir] ++ c ≠ placeOf lib (encode rel) := by
      intro rel hrel heq
      refine hfree rel hrel ?_
      rw [← heq]
      exact ⟨List.prefix_append .., page, hpage⟩
    cases command with
    | add opts => exact (keeps_cmdAdd (hwritten hcareful) trash_ne_log).file_iff.mpr hpage
    | edit opts => exact (keeps_cmdEdit (hwritten hcareful) trash_ne_log).file_iff.mpr hpage
    | index => exact (keeps_generateIndex hindex).file_iff.mpr hpage
    | log opts => exact (keeps_cmdLog trash_ne_log).file_iff.mpr hpage
    | rm opts =>
      cases hrel : opts.given "path" with
      | none => simpa [cmdRm, hrel] using hpage
      | some rel => exact kept_of_rm hrel (hcareful rel hrel) hpage
    | restore opts =>
      cases hrel : opts.given "path" with
      | none => simpa [cmdRestore, hrel] using hpage
      | some rel =>
        exact kept_of_restore hlib hrel (hcareful rel hrel) (fun hok => hother rel ⟨hok, opts, rfl, hrel⟩) hpage
  · exact hpage

theorem run_kept (hname : isConceptName (c.getLast?.getD []) = true)
    (hpage : d.node (lib ++ [trashDir] ++ c) = some (.file page)) {calls : List Call}
    (hcareful : AllSteps (stepCall lib) (Careful lib) d calls)
    (hother : AllSteps (stepCall lib) (fun d call => ∀ rel, Restores lib d call rel →
      ¬ placeOf lib (inTrash rel) <+: lib ++ [trashDir] ++ c) d calls) :
    (run (stepCall lib) d calls).node (lib ++ [trashDir] ++ c) = some (.file page) := by
  induction calls generalizing d with
  | nil => exact hpage
  | cons call calls ih => exact ih (step_kept hname hpage hcareful.1 hother.1) hcareful.2 hother.2

end

-- ---------------------------------------------------------------------------
-- What `rm` leaves
-- ---------------------------------------------------------------------------

/-- What a successful `rm` of a proper path has done to a disk. -/
structure Removed (lib : List Name) (rel : Text) (d d' : OkfDisk) (front : List Name) (name : Name)
    (tail : List Name) : Prop where
  splits : Splits (encode rel) front name tail
  lib_dir : d'.node lib = some .dir
  log : ∃ t, d'.node (lib ++ [logMd]) = some (.file (.text t))
  found : d.exists_ lib (encode rel) = true
  no_zero : 0 ∉ inTrash rel
  trash_name : ∃ name ∈ (trimmed (inTrash rel)).getLast?, IsName name
  trash_way : ∀ x ∈ front.scanl enter [], d'.node (lib ++ [trashDir] ++ x) = some .dir
  way : ∀ x ∈ front.scanl enter [], d'.node (lib ++ x) = some .dir ∨ d'.node (lib ++ x) = none
  gone : d'.node (lib ++ placeOf [] (encode rel)) = none
  moved : ∀ rest, d.node (lib ++ placeOf [] (encode rel) ++ rest) ≠ none →
    d'.node (lib ++ [trashDir] ++ placeOf [] (encode rel) ++ rest) =
      d.node (lib ++ placeOf [] (encode rel) ++ rest)
  last : ∀ x ∈ front.scanl enter [], placeOf [] (encode rel) <+: x →
    x = placeOf [] (encode rel) ∧ d.node (lib ++ x) = some .dir

section
variable {env : Env} {lib : List Name} {opts : Opts} {d d' : OkfDisk} {rel : Text} {front tail : List Name} {name : Name}

/-- The directories on a proper path, from the library and from the trash. -/
theorem Proper.scanl_front (h : Proper rel) (hsplits : Splits (encode rel) front name tail) (base : List Name) :
    front.scanl enter base = (front.scanl enter []).map (base ++ ·) := by
  have hinside := h.inside
  rw [hsplits.split] at hinside
  have hscan := scanl_inside (inside_front hinside) base
  rwa [List.append_nil] at hscan

/-- Where a directory that was made for the move lies at or below what is moved, it is
an empty directory that another one replaces. -/
theorem last_of_movable {src dst x : List Name} (h : d.Movable src dst) (hdir : d.node (dst ++ x) = some .dir) :
    x = [] ∧ d.node src = some .dir := by
  have hdst := Disk.isDir_of_prefix hdir
  have hfits := h.fits
  unfold Disk.fits at hfits
  split at hfits
  · rename_i hsrc
    rw [decide_eq_true_eq, hdst] at hfits
    have hthere : d.node (dst ++ x) ≠ none := by simp [hdir]
    rcases hfits with hnone | ⟨-, hempty⟩
    · cases hnone
    · rcases hempty _ (d.covers _ hthere) (List.prefix_append ..) with heq | hnone
      · exact ⟨by simpa using heq, hsrc⟩
      · exact absurd (Option.isNone_iff_eq_none.mp hnone) hthere
  · rw [decide_eq_true_eq] at hfits
    exact absurd hdst hfits
  · cases hfits

/-- The places that the path passes, in the library, in the trash. -/
theorem Proper.way_inTrash (h : Proper rel) (hsplits : Splits (encode rel) front name tail) :
    Splits (inTrash rel) (trashDir :: front) name tail ∧
      ∀ base q, q ∈ (trashDir :: front).scanl enter base ↔
        q = base ∨ ∃ x ∈ front.scanl enter [], q = base ++ [trashDir] ++ x := by
  refine ⟨hsplits.joinPath isName_trashDir h.relative, fun base q => ?_⟩
  rw [List.scanl_cons, enter_name base isName_trashDir, h.scanl_front hsplits, List.mem_cons, List.mem_map]
  simp only [eq_comm]

theorem found_iff (h : Proper rel) (hsplits : Splits (encode rel) front name tail) :
    d.exists_ lib (encode rel) = true ↔ 0 ∉ encode rel ∧
      (∀ x ∈ front.scanl enter [], d.node (lib ++ x) = some .dir) ∧
      (tail ≠ [] → d.node (lib ++ placeOf [] (encode rel)) = some .dir) ∧
      d.node (lib ++ placeOf [] (encode rel)) ≠ none := by
  have hplace : front.foldl enter lib ++ [name] = lib ++ placeOf [] (encode rel) := by
    rw [← h.placeOf_eq, hsplits.placeOf_eq, h.startOf_eq]
  rw [Disk.exists_, Option.isSome_iff_exists]
  simp only [Disk.find_iff, exists_and_left, h.startOf_eq, Disk.passable_iff hsplits, h.scanl_front hsplits lib,
    List.forall_mem_map, hplace, h.placeOf_eq lib, and_assoc]
  rw [← Option.isSome_iff_exists, Option.isSome_iff_ne_none]

theorem found_inTrash_iff (h : Proper rel) (hsplits : Splits (encode rel) front name tail) :
    d.exists_ lib (inTrash rel) = true ↔ 0 ∉ inTrash rel ∧ d.node lib = some .dir ∧
      (∀ x ∈ front.scanl enter [], d.node (lib ++ [trashDir] ++ x) = some .dir) ∧
      (tail ≠ [] → d.node (lib ++ [trashDir] ++ placeOf [] (encode rel)) = some .dir) ∧
      d.node (lib ++ [trashDir] ++ placeOf [] (encode rel)) ≠ none := by
  obtain ⟨hsplits', hway⟩ := h.way_inTrash hsplits
  have hstart : startOf lib (inTrash rel) = lib := if_neg h.head_inTrash
  have hplace : (trashDir :: front).foldl enter lib ++ [name] = lib ++ [trashDir] ++ placeOf [] (encode rel) := by
    rw [← h.placeOf_inTrash, hsplits'.placeOf_eq, hstart]
  have hdirs : (∀ q ∈ (trashDir :: front).scanl enter lib, d.node q = some .dir) ↔ d.node lib = some .dir ∧
      ∀ x ∈ front.scanl enter [], d.node (lib ++ [trashDir] ++ x) = some .dir := by
    simp only [hway, forall_eq_or_imp, forall_exists_index, and_imp]
    exact and_congr_right fun _ => ⟨fun hall x hx => hall _ x hx rfl, fun hall q x hx heq => heq ▸ hall x hx⟩
  rw [Disk.exists_, Option.isSome_iff_exists]
  simp only [Disk.find_iff, exists_and_left, hstart, Disk.passable_iff hsplits', hdirs, hplace,
    h.placeOf_inTrash lib, and_assoc]
  rw [← Option.isSome_iff_exists, Option.isSome_iff_ne_none]

/-- Where what was moved to the trash is, and what is as it was. -/
theorem node_removed {src dst p : List Name} (hrenamed : Disk.Renamed d src dst d') (hne : src ≠ dst) :
    (∀ rest, d'.node (dst ++ rest) = d.node (src ++ rest)) ∧
      (¬ dst <+: p → src <+: p → d'.node p = none) ∧
      (¬ dst <+: p → ¬ src <+: p → d'.node p = d.node p) := by
  refine ⟨fun rest => ?_, fun hdst hsrc => ?_, fun hdst hsrc => ?_⟩
  · rw [hrenamed.node hne, Disk.nodeMoved, if_pos (List.prefix_append ..), List.drop_left]
  · rw [hrenamed.node hne, Disk.nodeMoved, if_neg hdst, if_pos hsrc]
  · rw [hrenamed.node hne, Disk.nodeMoved, if_neg hdst, if_neg hsrc]

theorem prepared_trash (h : Proper rel) (hsplits : Splits (encode rel) front name tail)
    (hlib : d.node lib = some .dir)
    (hdirs : (d.createDirs env.faults (startOf lib (inTrash rel)) (wayTo (inTrash rel))).2 = true) :
    ∀ x ∈ front.scanl enter [], (prepared env lib (inTrash rel) d).node (lib ++ [trashDir] ++ x) = some .dir := by
  obtain ⟨hsplits', hway⟩ := h.way_inTrash hsplits
  have hstart : startOf lib (inTrash rel) = lib := if_neg h.head_inTrash
  unfold prepared
  rw [hstart, hsplits'.wayTo_eq] at hdirs ⊢
  intro x hx
  refine Disk.dirs_of_createDirs hlib hdirs _ (mem_scanl_filter.mpr ?_)
  exact (hway lib _).mpr (.inr ⟨x, hx, rfl⟩)

theorem removed_of_relocate (hproper : Proper rel) (hlib : d.node lib = some .dir)
    (hfound : d.exists_ lib (encode rel) = true) {entry : Text}
    (hok : (relocate env lib (encode rel) (inTrash rel) entry d).2 = true) :
    ∃ front name tail, Removed lib rel d (relocate env lib (encode rel) (inTrash rel) entry d).1 front name tail := by
  obtain ⟨hdirs, hrename, hlog⟩ := (relocate_cases ..).resolve_left fun h => by rw [h] at hok; cases hok
  have hpaths := Disk.renames_of_rename hrename
  obtain ⟨front, name, tail, hsplits⟩ := exists_splits hpaths.src_name
  obtain ⟨-, hrenamed⟩ := (Disk.rename_cases ..).resolve_left fun h => by rw [h] at hrename; cases hrename
  have hne := placeOf_ne_nil hpaths.src_name []
  have htrash := prepared_trash hproper hsplits hlib hdirs
  obtain ⟨hzero, hway, hslash, hthere⟩ := (found_iff hproper hsplits).mp hfound
  have hkeeps (p : List Name) : d.Keeps (prepared env lib (inTrash rel) d) p := keeps_prepared
  rw [hlog] at hok ⊢
  rw [hproper.placeOf_eq, hproper.placeOf_inTrash] at hrenamed
  generalize prepared env lib (inTrash rel) d = d₁ at *
  generalize (d₁.rename lib (encode rel) env.faults (inTrash rel)).1 = d₂ at *
  have hplace_apart : lib ++ placeOf [] (encode rel) ≠ lib ++ [logMd] := fun heq =>
    hproper.not_log (List.append_cancel_left heq)
  have hway_apart : ∀ x ∈ front.scanl enter [], lib ++ x ≠ lib ++ [logMd] := by
    intro x hx heq
    refine hproper.no_log ?_
    rw [hsplits.split, List.scanl_append, ← List.append_cancel_left heq]
    exact List.mem_append_left _ hx
  have hoff (x : List Name) : ¬ lib ++ placeOf [] (encode rel) <+: lib ++ [trashDir] ++ x := hproper.not_prefix hne
  obtain ⟨t, ht⟩ : ∃ t, placeOf [] (encode rel) = t := ⟨_, rfl⟩
  rw [ht] at hrenamed hne hslash hthere hplace_apart hoff
  have hdiff : lib ++ t ≠ lib ++ [trashDir] ++ t := fun heq => hoff t (by rw [heq])
  have hmovable := hrenamed.movable hdiff
  have hkept {p : List Name} (h : d.node p = some .dir) : d₁.node p = some .dir := by
    rw [(hkeeps p).there (by simp [h]), h]
  have hshort {names : List Name} (hnames : names ≠ []) : ¬ lib ++ names <+: lib := by
    intro hle
    have hlen := hle.length_le
    rw [List.length_append] at hlen
    exact hnames (List.length_eq_zero_iff.mp (by omega))
  have hmoved := (node_removed (p := []) hrenamed hdiff).1
  have hgone {p : List Name} := (node_removed (p := p) hrenamed hdiff).2.1
  have hsame {p : List Name} := (node_removed (p := p) hrenamed hdiff).2.2
  have hlib₂ : d₂.node lib = some .dir := by
    rw [hsame (by rw [List.append_assoc]; exact hshort (by simp)) (hshort hne), hkept hlib]
  -- At the place in the trash there was nothing, or an empty directory.
  have hlast (rest : List Name) (hdir : d₁.node (lib ++ [trashDir] ++ t ++ rest) = some .dir) :
      rest = [] ∧ d₂.node (lib ++ [trashDir] ++ t) = some .dir := by
    obtain ⟨hrest, hsrc⟩ := last_of_movable hmovable hdir
    have hhere := hmoved []
    rw [List.append_nil, List.append_nil] at hhere
    exact ⟨hrest, hhere.trans hsrc⟩
  refine ⟨front, name, tail, hsplits, ?_, ?_, hfound, hpaths.no_zero, hpaths.dst_name,
    fun x hx => ?_, fun x hx => ?_, ?_, fun rest hrest => ?_, fun x hx hle => ?_⟩
  · rw [node_appendLog hlib₂ (by simp), hlib₂]
  · obtain ⟨content, -, hlog⟩ := appendLog_text hlib₂ hok
    exact ⟨_, hlog⟩
  · rw [node_appendLog hlib₂ trash_ne_log]
    by_cases hle : t <+: x
    · obtain ⟨rest, rfl⟩ := hle
      have hdir := htrash _ hx
      rw [← List.append_assoc] at hdir
      obtain ⟨rfl, hhere⟩ := hlast rest hdir
      rw [List.append_nil, hhere]
    · rw [hsame (by rwa [List.prefix_append_right_inj]) (hoff x), htrash x hx]
  · rw [node_appendLog hlib₂ (hway_apart x hx)]
    by_cases hle : lib ++ [trashDir] ++ t <+: lib ++ x
    · obtain ⟨rest, hrest⟩ := hle
      have hdir := hkept (hway x hx)
      rw [← hrest] at hdir ⊢
      obtain ⟨rfl, hhere⟩ := hlast rest hdir
      exact .inl (by rw [List.append_nil, hhere])
    · by_cases hsrc : lib ++ t <+: lib ++ x
      · exact .inr (hgone hle hsrc)
      · exact .inl (by rw [hsame hle hsrc, hkept (hway x hx)])
  · rw [ht, node_appendLog hlib₂ hplace_apart]
    refine hgone (fun hle => ?_) (List.prefix_refl _)
    have hlen := hle.length_le
    simp only [List.length_append, List.length_singleton] at hlen
    omega
  · rw [ht] at hrest ⊢
    rw [List.append_assoc (lib ++ [trashDir]), node_appendLog hlib₂ trash_ne_log, ← List.append_assoc, hmoved rest,
      (hkeeps _).there hrest]
  · rw [ht] at hle ⊢
    obtain ⟨rest, rfl⟩ := hle
    have hdir := htrash _ hx
    rw [← List.append_assoc] at hdir
    obtain ⟨rfl, -⟩ := hlast rest hdir
    exact ⟨List.append_nil t, hway _ hx⟩

-- ---------------------------------------------------------------------------
-- The way back
-- ---------------------------------------------------------------------------

theorem Removed.found_inTrash (h : Removed lib rel d d' front name tail) (hproper : Proper rel) :
    d'.exists_ lib (inTrash rel) = true := by
  obtain ⟨-, -, hslash, hthere⟩ := (found_iff hproper h.splits).mp h.found
  have hmoved := h.moved []
  rw [List.append_nil, List.append_nil] at hmoved
  refine (found_inTrash_iff hproper h.splits).mpr ⟨h.no_zero, h.lib_dir, h.trash_way, fun htail => ?_, ?_⟩
  · rw [hmoved hthere, hslash htail]
  · rw [hmoved hthere]
    exact hthere

theorem Removed.not_found (h : Removed lib rel d d' front name tail) (hproper : Proper rel) :
    ¬ d'.exists_ lib (encode rel) = true := by
  intro hfound
  obtain ⟨-, -, -, hthere⟩ := (found_iff hproper h.splits).mp hfound
  exact hthere h.gone

theorem Removed.prepared_way (h : Removed lib rel d d' front name tail) (hproper : Proper rel)
    (hfaults : env.faults = .none) :
    (d'.createDirs env.faults (startOf lib (encode rel)) (wayTo (encode rel))).2 = true ∧
      ∀ x ∈ front.scanl enter [], (prepared env lib (encode rel) d').node (lib ++ x) = some .dir := by
  obtain ⟨-, hway, -, -⟩ := (found_iff hproper h.splits).mp h.found
  have hpassed (q : List Name) : q ∈ (wayTo (encode rel)).scanl enter lib ↔
      ∃ x ∈ front.scanl enter [], lib ++ x = q := by
    rw [h.splits.wayTo_eq, mem_scanl_filter, hproper.scanl_front h.splits lib, List.mem_map]
  have hok : (d'.createDirs env.faults lib (wayTo (encode rel))).2 = true := by
    refine Disk.createDirs_ok h.lib_dir fun q hq => ?_
    obtain ⟨x, hx, rfl⟩ := (hpassed q).mp hq
    refine (h.way x hx).imp_right fun hnone => ⟨hnone, by rw [hfaults]; rfl, ?_⟩
    exact d.named _ (by simp [hway x hx])
  unfold prepared
  rw [hproper.startOf_eq]
  exact ⟨hok, fun x hx => Disk.dirs_of_createDirs h.lib_dir hok _ ((hpassed _).mpr ⟨x, hx, rfl⟩)⟩

/-- At the place itself there is nothing, or an empty directory that was on the way. -/
theorem Removed.vacant (h : Removed lib rel d d' front name tail) (hproper : Proper rel)
    (hfaults : env.faults = .none) :
    (∀ rest ≠ [], (prepared env lib (encode rel) d').node (lib ++ placeOf [] (encode rel) ++ rest) = none) ∧
      ((prepared env lib (encode rel) d').node (lib ++ placeOf [] (encode rel)) = none ∨
        d.node (lib ++ placeOf [] (encode rel)) = some .dir ∧
        (prepared env lib (encode rel) d').node (lib ++ placeOf [] (encode rel)) = some .dir) := by
  obtain ⟨-, hdirs⟩ := h.prepared_way hproper hfaults
  have hpassed {x : List Name} (hx : x ∉ front.scanl enter []) :
      (prepared env lib (encode rel) d').node (lib ++ x) = d'.node (lib ++ x) := by
    refine Disk.node_createDirs ?_
    rw [hproper.startOf_eq, h.splits.wayTo_eq, mem_scanl_filter, hproper.scanl_front h.splits lib, List.mem_map]
    rintro ⟨y, hy, heq⟩
    exact hx (List.append_cancel_left heq ▸ hy)
  constructor
  · intro rest hrest
    rw [List.append_assoc, hpassed fun hx => ?_, ← List.append_assoc]
    · exact Disk.node_eq_none_of_not_dir (by simp [h.gone]) hrest
    · obtain ⟨heq, -⟩ := h.last _ hx (List.prefix_append ..)
      exact hrest (by simpa using heq)
  · by_cases hx : placeOf [] (encode rel) ∈ front.scanl enter []
    · exact .inr ⟨(h.last _ hx (List.prefix_refl _)).2, hdirs _ hx⟩
    · exact .inl (by rw [hpassed hx, h.gone])

/-- Where the directories on the way have been made, there is room for what comes back. -/
theorem Removed.movable (h : Removed lib rel d d' front name tail) (hproper : Proper rel)
    (hfaults : env.faults = .none) :
    (prepared env lib (encode rel) d').Movable (lib ++ [trashDir] ++ placeOf [] (encode rel))
      (lib ++ placeOf [] (encode rel)) := by
  obtain ⟨-, hway, -, hthere⟩ := (found_iff hproper h.splits).mp h.found
  obtain ⟨-, hdirs⟩ := h.prepared_way hproper hfaults
  have hplace : placeOf [] (encode rel) = front.foldl enter [] ++ [name] := by
    rw [h.splits.placeOf_eq, hproper.startOf_eq]
  refine ⟨?_, d.named _ hthere, by simp [hplace], fun hle => ?_, ?_⟩
  · rw [hplace, ← List.append_assoc, List.dropLast_concat]
    exact hdirs _ foldl_mem_scanl
  · have hlen := hle.length_le
    simp only [List.length_append, List.length_singleton] at hlen
    omega
  · obtain ⟨hbelow, hhere⟩ := h.vacant hproper hfaults
    have hmoved := h.moved []
    rw [List.append_nil, List.append_nil] at hmoved
    have hsrc : (prepared env lib (encode rel) d').node (lib ++ [trashDir] ++ placeOf [] (encode rel)) =
        d.node (lib ++ placeOf [] (encode rel)) := by
      rw [keeps_prepared.there (by rwa [hmoved hthere]), hmoved hthere]
    rw [hsrc]
    rcases hhere with hnone | ⟨hsrcdir, hdir⟩
    · cases hnode : d.node (lib ++ placeOf [] (encode rel)) with
      | none => exact absurd hnode hthere
      | some node => cases node <;> simp [Disk.fits, hnone]
    · rw [hsrcdir]
      refine decide_eq_true (.inr ⟨hdir, fun q _ hle => ?_⟩)
      obtain ⟨rest, rfl⟩ := hle
      by_cases hrest : rest = []
      · exact .inl (by rw [hrest, List.append_nil])
      · exact .inr (by rw [hbelow rest hrest]; rfl)

theorem relocate_of_ok {src dst : Bytes} {entry : Text}
    (hdirs : (d.createDirs env.faults (startOf lib dst) (wayTo dst)).2 = true)
    (hrename : ((prepared env lib dst d).rename lib src env.faults dst).2 = true) :
    relocate env lib src dst entry d =
      appendLog env lib ((prepared env lib dst d).rename lib src env.faults dst).1 entry := by
  unfold prepared at hrename ⊢
  simp only [relocate, andThen, hdirs, hrename, if_true]

/-- Where nothing fails, what a successful `rm` took comes back. -/
theorem Removed.restore (h : Removed lib rel d d' front name tail) (hproper : Proper rel)
    (hfaults : env.faults = .none) (hrel : opts.given "path" = some rel) :
    (cmdRestore env lib opts d').2 = true ∧
      ∀ rest page, d.node (lib ++ placeOf [] (encode rel) ++ rest) = some (.file page) →
        (cmdRestore env lib opts d').1.node (lib ++ placeOf [] (encode rel) ++ rest) = some (.file page) := by
  obtain ⟨hzero, -, -, hthere⟩ := (found_iff hproper h.splits).mp h.found
  obtain ⟨hdirs, hway⟩ := h.prepared_way hproper hfaults
  have hend : ∃ name ∈ (trimmed (encode rel)).getLast?, IsName name :=
    ⟨name, by rw [h.splits.trimmed_eq]; simp, h.splits.isName⟩
  have hne := placeOf_ne_nil hend []
  have hpaths : (prepared env lib (encode rel) d').Renames lib (inTrash rel) (encode rel) env.faults := by
    refine ⟨Disk.exists_keeps (h.found_inTrash hproper) fun p => keeps_prepared, hzero, ?_, h.trash_name, hend, ?_, ?_⟩
    · rw [h.splits.trimmed_eq, hproper.startOf_eq, Disk.passable_concat, hproper.scanl_front h.splits lib,
        List.forall_mem_map]
      exact hway
    · rw [hfaults]
      exact Bool.false_ne_true
    · rw [hfaults]
      exact Bool.false_ne_true
  have hmovable := h.movable hproper hfaults
  rw [← hproper.placeOf_eq lib, ← hproper.placeOf_inTrash lib] at hmovable
  have hrename := hpaths.rename_ok hmovable
  obtain ⟨-, hrenamed⟩ := (Disk.rename_cases ..).resolve_left fun h => by rw [h] at hrename; cases hrename
  have hfound : ¬ (¬ d'.exists_ lib (inTrash rel) ∨ d'.exists_ lib (encode rel)) := by
    rw [not_or, not_not]
    exact ⟨h.found_inTrash hproper, h.not_found hproper⟩
  rw [cmdRestore_eq hrel, if_neg hfound, relocate_of_ok hdirs hrename]
  have hlib : (prepared env lib (encode rel) d').node lib = some .dir := by
    rw [keeps_prepared.there (by simp [h.lib_dir]), h.lib_dir]
  have hworks : LogWorks env lib d' := by
    obtain ⟨t, ht⟩ := h.log
    refine ⟨by rw [hfaults]; rfl, by rw [hfaults]; rfl, ?_⟩
    rw [ht, textOrNothing, toText_text, hfaults]
    rfl
  have hlib' := restored_lib hproper hne hrenamed hlib
  refine ⟨appendLog_ok hlib' (restored_log hproper hne hrenamed (prepared_log hproper hend hworks)), ?_⟩
  intro rest page hpage
  have hapart : lib ++ placeOf [] (encode rel) ++ rest ≠ lib ++ [logMd] := by
    intro heq
    have hle : lib ++ placeOf [] (encode rel) <+: lib ++ [logMd] := heq ▸ List.prefix_append ..
    exact hproper.not_prefix_log hne hle
  rw [node_appendLog hlib' hapart]
  rw [hproper.placeOf_eq, hproper.placeOf_inTrash] at hrenamed
  have hdiff : lib ++ [trashDir] ++ placeOf [] (encode rel) ≠ lib ++ placeOf [] (encode rel) := by
    intro heq
    have hlen := congrArg List.length heq
    simp at hlen
  rw [(node_removed (p := []) hrenamed hdiff).1 rest]
  refine keeps_prepared.file_iff.mpr ?_
  rw [h.moved rest (by rw [hpage]; exact Option.some_ne_none _), hpage]

end

section
variable {lib : List Name} {start : OkfDisk} {calls : List Call}

/-- What a careful `rm` that succeeds leaves. -/
theorem removed_of_removes {d : OkfDisk} {call : Call} {rel : Text} (hremoves : Removes lib d call rel)
    (hcareful : Careful lib d call) :
    d.node lib = some .dir ∧ Proper rel ∧ ∃ front name tail, Removed lib rel d (stepCall lib d call) front name tail := by
  obtain ⟨hok, opts, hcommand, hrel⟩ := hremoves
  obtain ⟨env, command⟩ := call
  obtain rfl : command = .rm opts := hcommand
  unfold stepCall
  unfold runCommand at hok ⊢
  split at hok
  · rename_i hlib
    rw [if_pos hlib]
    dsimp only at hok ⊢
    rw [cmdRm_eq hrel] at hok ⊢
    split at hok
    · cases hok
    · rename_i hfound
      rw [if_neg hfound]
      rw [not_or, not_not] at hfound
      obtain ⟨hproper, -⟩ := hcareful rel hrel hfound.2
      exact ⟨hlib, hproper, removed_of_relocate hproper hlib hfound.2 hok⟩
  · cases hok

/-- In a run of careful commands removed concepts stay recoverable. -/
theorem removed_recoverable (lib : List Name) (start : OkfDisk) (calls : List Call)
    (hcareful : AllSteps (stepCall lib) (Careful lib) start calls) : Recoverable lib start calls := by
  constructor
  · rintro before call between after rel c rest page rfl hremoves htaken hother
    obtain ⟨-, hafter⟩ := AllSteps.append.mp hcareful
    obtain ⟨hcall, hafter⟩ := hafter
    obtain ⟨hbetween, -⟩ := AllSteps.append.mp hafter
    obtain ⟨-, hproper, front, name, tail, hremoved⟩ := removed_of_removes hremoves hcall
    obtain ⟨hconcept, hplace, hpage⟩ := htaken
    rw [hproper.placeOf_eq, List.append_assoc] at hplace
    obtain rfl := List.append_cancel_left hplace
    rw [run_append, run_cons, run_nil] at hother
    rw [run_append, run_cons]
    rw [hproper.placeOf_inTrash, List.append_assoc (lib ++ [trashDir])] at hother ⊢
    refine run_kept (mem_collectMdFiles.mp hconcept).2.2.2 ?_ hbetween hother
    rw [← List.append_assoc] at hpage ⊢
    rw [hremoved.moved rest (by rw [hpage]; exact Option.some_ne_none _), hpage]
  · rintro before call after rel c rest page rfl hremoves htaken env opts hfaults hrel
    obtain ⟨-, hcall, -⟩ := AllSteps.append.mp hcareful
    obtain ⟨-, hproper, front, name, tail, hremoved⟩ := removed_of_removes hremoves hcall
    obtain ⟨-, hplace, hpage⟩ := htaken
    obtain ⟨hok, hback⟩ := hremoved.restore hproper hfaults hrel
    rw [run_append, run_cons, run_nil, runCommand, if_pos hremoved.lib_dir]
    rw [hplace, hproper.placeOf_eq] at hpage ⊢
    exact ⟨hok, hback rest page hpage⟩

end

/-- The options of an `add` that gives a path, a type and a title. -/
def titled (rel title : String) : Opts := fun key =>
  if key = "path" then some rel.toList else if key = "type" then some "Metric".toList
  else if key = "title" then some title.toList else none

theorem removed_recoverable_once :
    Recoverable [] .bare [⟨.quiet, .add (titled "sub/a.md" "One")⟩, ⟨.quiet, .rm (titled "sub" "")⟩,
      ⟨.quiet, .index⟩, ⟨.quiet, .restore (titled "sub" "")⟩] :=
  removed_recoverable [] .bare _ (by decide +kernel)

/-- A second `rm` of a path replaces what the first one left in the trash. -/
theorem second_rm_overwrites : ¬ ∀ (lib : List Name) (start : OkfDisk) (calls : List Call),
    Recoverable lib start calls := by
  intro h
  have hkept := (h [] .bare [⟨.quiet, .add (titled "a.md" "One")⟩, ⟨.quiet, .rm (titled "a.md" "")⟩,
    ⟨.quiet, .add (titled "a.md" "Two")⟩, ⟨.quiet, .rm (titled "a.md" "")⟩]).kept
    [⟨.quiet, .add (titled "a.md" "One")⟩] ⟨.quiet, .rm (titled "a.md" "")⟩
    [⟨.quiet, .add (titled "a.md" "Two")⟩, ⟨.quiet, .rm (titled "a.md" "")⟩] [] "a.md".toList [utf8 "a.md"] []
    (.text (addDocument (titled "a.md" "One") "Metric".toList "One".toList (isoNow 0))) rfl
    ⟨by decide +kernel, titled "a.md" "", rfl, by decide⟩
    ⟨by decide +kernel, by decide +kernel, by decide +kernel⟩
    (AllSteps.of_forall fun call hcall d rel hrestores => ?_)
  · revert hkept
    decide +kernel
  · obtain ⟨-, opts, hcommand, -⟩ := hrestores
    simp only [List.mem_cons, List.not_mem_nil, or_false] at hcall
    rcases hcall with rfl | rfl <;> cases hcommand

end Nsmt.Okf
