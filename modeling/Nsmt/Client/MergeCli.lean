import Nsmt.Client.Merge

/-!
# The merge of the command line and the merge of the GUI

`yggd merge` takes a name that starts with a dot from its working directory,
reads the copy before it does anything and stops at the first error. The GUI
takes every name from the share directory and a copy it cannot read for empty.
-/

namespace Nsmt.Client

open Nsmt.Lib Nsmt.Lib.Paths Nsmt.Core

/-- The version that is kept: the copy's, `--keep-local`, or the file's, `--keep-remote`. -/
inductive Keep
  | localVersion
  | remoteVersion
  deriving DecidableEq, Repr

/-- The same choice in a request to the GUI. -/
def Keep.request : Keep → ResolveReq
  | .localVersion => { choice := "local", content := none }
  | .remoteVersion => { choice := "remote", content := none }

/-- `merge` in the directory `cwd`, and whether it succeeds. The choice comes from
a flag or from the answer to its question; `none` is a cancelled merge. -/
def cliMerge (ops : FileOps) (files : Files) (cwd dir conflict : String) (keep : Option Keep) :
    Files × Bool :=
  let path :=
    if conflict.toList.head? = some '/' ∨ conflict.toList.head? = some '.' then join cwd conflict
    else join dir conflict
  match ops.readAt files path with
  | none => (files, false)
  | some bytes =>
    let main := join dir (cliMainName path)
    match keep with
    | some .localVersion =>
      match ops.writeAt files main bytes with
      | (files, false) => (files, false)
      | (files, true) => (ops.removeAt files path, ops.removable (normalize path))
    | some .remoteVersion => (ops.removeAt files path, ops.removable (normalize path))
    | none => (files, true)

/-- A share directory and the directory `merge` is run in, both as absolute paths. -/
structure MergeEnv where
  ops : FileOps
  dir : String
  cwd : String
  absolute : isAbsolute dir = true ∧ isAbsolute cwd = true
  /-- The share directory and those above it are directories. -/
  directories : ∀ place, (normalize dir).Within place →
    ops.write place = .refused ∧ ops.removable place = false

/-- `conflicts` shows the name. -/
def Listed (name : String) : Prop := ".sync-conflict-".toList <+: name.toList ∧ '/' ∉ name.toList

namespace MergeEnv

variable (env : MergeEnv) (files : Files) (name : String) (keep : Keep)

def cli : Files := (cliMerge env.ops files env.cwd env.dir name (some keep)).1

def web : Files := (apiResolve env.ops files env.dir name keep.request).1

/-- The copy in the share directory, the file it belongs to, and what `merge` takes
for the copy. -/
def copy : Place := normalize (join env.dir name)

def main : Place := normalize (join env.dir (mainNameOf name))

def taken : Place := normalize (join env.cwd name)

/-- Nothing but directories at the share directory and above. -/
def Possible : Prop := ∀ place, (normalize env.dir).Within place → files place = none

/-- Both merges leave the share directory alike, and as it was if the copy cannot
be read or the file cannot be written. -/
structure SameEffect : Prop where
  same : ∀ place, place.Within (normalize env.dir) →
    env.cli files name keep place = env.web files name keep place
  unchanged : env.ops.readAt files (join env.dir name) = none ∨
      (keep = .localVersion ∧ env.ops.write (env.main name) ≠ .done) →
    ∀ place, place.Within (normalize env.dir) →
      env.cli files name keep place = files place ∧ env.web files name keep place = files place

/-- `merge` is run in the share directory, on a copy it can read, and the write of
the file does not break off; or there is nothing that either merge could change. -/
def MergesAlike : Prop :=
  (normalize env.cwd = normalize env.dir ∧ env.ops.readable (env.copy name) = true ∧
    ∀ written, env.ops.write (env.main name) ≠ .broken written) ∨
  (env.ops.removable (env.copy name) = false ∧ env.ops.write (env.main name) = .refused ∧
    ((env.taken name).Within (normalize env.dir) →
      env.ops.readable (env.taken name) = false ∨ env.ops.removable (env.taken name) = false))

end MergeEnv

-- ---------------------------------------------------------------------------
-- Listed names
-- ---------------------------------------------------------------------------

theorem upToLast_sublist (c : Char) (s : List Char) : (upToLast c s).Sublist s := by
  have hkept : (List.drop 1 (s.reverse.dropWhile fun x => decide (x ≠ c))).Sublist s.reverse :=
    (List.drop_sublist 1 _).trans (List.dropWhile_sublist _)
  have h := hkept.reverse
  rwa [List.reverse_reverse] at h

theorem mainNameOf_sublist (name : String) : (mainNameOf name).toList.Sublist (stripMark name) := by
  refine .trans ?_ (upToLast_sublist '-' (stripMark name))
  unfold mainNameOf behindFirst
  simp only
  split
  · rename_i path hpath
    split at hpath
    · obtain rfl := Option.some.inj hpath
      rw [String.toList_ofList]
      exact (List.drop_sublist 1 _).trans (List.dropWhile_sublist _)
    · cases hpath
  · rw [String.toList_ofList]

namespace Listed

variable {name : String}

theorem length_le (h : Listed name) : 15 ≤ name.toList.length := h.1.length_le

theorem stripMark_sublist (h : Listed name) :
    (stripMark name).Sublist name.toList ∧ (stripMark name).length < name.toList.length := by
  have hlen := h.length_le
  rw [stripMark, if_pos (by simpa using h.1), List.length_drop]
  exact ⟨List.drop_sublist 15 _, by omega⟩

/-- The file of a copy is not the copy, and its name has no slash. -/
theorem main_ne (h : Listed name) : mainNameOf name ≠ name ∧ '/' ∉ (mainNameOf name).toList := by
  obtain ⟨hsub, hlt⟩ := h.stripMark_sublist
  have hmain := mainNameOf_sublist name
  refine ⟨fun heq => ?_, fun hslash => h.2 (hsub.subset (hmain.subset hslash))⟩
  have hle := hmain.length_le
  rw [heq] at hle
  omega

/-- Nor is it one in another directory. -/
theorem main_place_ne (h : Listed name) (p q : Place) :
    p.descend [(mainNameOf name).toList] ≠ q.descend [name.toList] := by
  intro heq
  have hlast := congrArg (fun place => place.names.getLast?) heq
  simp only [Place.descend, List.getLast?_concat, Option.some.injEq] at hlast
  exact h.main_ne.1 (String.toList_inj.mp hlast)

theorem ordinary (h : Listed name) : Ordinary name.toList := by
  have hlen := h.length_le
  refine ⟨?_, ?_, ?_⟩
  all_goals
    intro heq
    simp [heq] at hlen

theorem head_eq (h : Listed name) : name.toList.head? = some '.' := by
  obtain ⟨rest, hrest⟩ := h.1
  rw [← hrest]
  rfl

theorem normalize_join (h : Listed name) (dir : String) :
    normalize (join dir name) = (normalize dir).descend [name.toList] :=
  normalize_join_name dir h.2 h.ordinary

theorem conflictPathOf_eq (h : Listed name) (files : Files) (dir : String) :
    conflictPathOf files dir name =
      if (files (normalize (join dir name))).isSome then some (join dir name) else none := by
  rw [conflictPathOf, if_neg]
  rintro ⟨-, hmark⟩
  exact hmark (by simpa using h.1)

theorem cliMainName_eq (h : Listed name) (cwd : String) :
    cliMainName (join cwd name) = mainNameOf name := by
  have hname : fileName (join cwd name) = name := by
    unfold join
    rw [if_neg (by simp [isAbsolute_name h.2])]
    split
    · rename_i hcwd
      refine fileName_append h.2 (hcwd.imp (fun hempty => by simp [hempty]) fun hlast => ?_)
      exact List.getLast?_eq_some_iff.mp hlast
    · exact fileName_append h.2 (.inr ⟨cwd.toList, by simp⟩)
  rw [show cliMainName (join cwd name) = mainNameOf (fileName (join cwd name)) from rfl, hname]

end Listed

-- ---------------------------------------------------------------------------
-- What each merge does
-- ---------------------------------------------------------------------------

namespace FileOps

variable (ops : FileOps) (files : Files) (path main : String) (bytes : Bytes)

/-- The steps both merges take once they have the bytes of the copy. -/
def merge (keep : Keep) : Files :=
  match keep with
  | .localVersion =>
    match ops.writeAt files main bytes with
    | (files, false) => files
    | (files, true) => ops.removeAt files path
  | .remoteVersion => ops.removeAt files path

variable {ops files path main bytes}

theorem removeAt_congr {path' : String} (h : normalize path = normalize path') (files : Files) :
    ops.removeAt files path = ops.removeAt files path' := by
  rw [removeAt, removeAt, h]

theorem readAt_congr {path' : String} (h : normalize path = normalize path') :
    ops.readAt files path = ops.readAt files path' := by
  rw [readAt, readAt, h]

theorem readAt_readable (h : ops.readable (normalize path) = true) :
    ops.readAt files path = files (normalize path) := if_pos h

theorem readAt_unreadable (h : ops.readable (normalize path) = false) : ops.readAt files path = none :=
  if_neg (by simp [h])

theorem merge_congr {path' : String} (h : normalize path = normalize path') (keep : Keep) :
    ops.merge files path main bytes keep = ops.merge files path' main bytes keep := by
  unfold merge
  simp only [removeAt_congr h]

theorem removeAt_of_ne {place : Place} (h : place ≠ normalize path) :
    ops.removeAt files path place = files place := by
  unfold removeAt
  split
  · exact Function.update_of_ne h ..
  · rfl

theorem removeAt_fixed (h : ops.removable (normalize path) = false) : ops.removeAt files path = files := by
  rw [removeAt, if_neg (by simp [h])]

theorem merge_refused (h : ops.write (normalize main) = .refused) :
    ops.merge files path main bytes .localVersion = files := by
  simp only [merge, writeAt, h]

theorem merge_written (files : Place → Option Bytes) (bytes : Bytes)
    (h : ops.write (normalize main) ≠ .refused) (hne : normalize main ≠ normalize path) :
    ops.merge files path main bytes .localVersion (normalize main) = some bytes ∨
      ∃ written, ops.write (normalize main) = .broken written ∧
        ops.merge files path main bytes .localVersion (normalize main) = some written := by
  cases hwrite : ops.write (normalize main) with
  | done =>
    left
    simp only [merge, writeAt, hwrite]
    rw [removeAt_of_ne hne, Function.update_self]
  | refused => exact absurd hwrite h
  | broken written =>
    right
    refine ⟨written, rfl, ?_⟩
    simp only [merge, writeAt, hwrite, Function.update_self]

end FileOps

namespace MergeEnv

variable {env : MergeEnv} {files : Files} {name : String} {keep : Keep}

theorem cli_eq (env : MergeEnv) (files : Files) (h : Listed name) (keep : Keep) :
    env.cli files name keep =
      match env.ops.readAt files (join env.cwd name) with
      | none => files
      | some bytes =>
        env.ops.merge files (join env.cwd name) (join env.dir (mainNameOf name)) bytes keep := by
  rw [cli, cliMerge, if_pos (.inr h.head_eq)]
  simp only [h.cliMainName_eq]
  split
  · rfl
  · cases keep with
    | localVersion =>
      simp only [FileOps.merge]
      split <;> rfl
    | remoteVersion => rfl

theorem web_eq (env : MergeEnv) (files : Files) (h : Listed name) (keep : Keep) :
    env.web files name keep =
      if (files (env.copy name)).isSome then
        env.ops.merge files (join env.dir name) (join env.dir (mainNameOf name))
          ((env.ops.readAt files (join env.dir name)).getD []) keep
      else files := by
  rw [web, apiResolve, h.conflictPathOf_eq]
  unfold copy
  by_cases hfile : (files (normalize (join env.dir name))).isSome = true
  · simp only [hfile, if_true]
    cases keep with
    | localVersion =>
      simp only [Keep.request, FileOps.merge, if_true]
      generalize env.ops.writeAt files _ _ = written
      obtain ⟨files, ok⟩ := written
      cases ok <;> rfl
    | remoteVersion => simp [Keep.request, FileOps.merge]
  · simp [hfile]

-- ---------------------------------------------------------------------------
-- Places
-- ---------------------------------------------------------------------------

theorem copy_eq (env : MergeEnv) (h : Listed name) :
    env.copy name = (normalize env.dir).descend [name.toList] := h.normalize_join env.dir

theorem taken_eq (env : MergeEnv) (h : Listed name) :
    env.taken name = (normalize env.cwd).descend [name.toList] := h.normalize_join env.cwd

/-- The file of a copy lies beside it, or is a directory. -/
theorem main_eq (env : MergeEnv) (h : Listed name)
    (hwrite : env.ops.write (env.main name) ≠ .refused) :
    env.main name = (normalize env.dir).descend [(mainNameOf name).toList] := by
  have hslash := h.main_ne.2
  have hnot : ¬ (normalize env.dir).Within (env.main name) := fun hdir =>
    hwrite (env.directories _ hdir).1
  have hmain : env.main name = (normalize env.dir).enter (mainNameOf name).toList := by
    rw [main, Paths.normalize_join _ (isAbsolute_name hslash), pieces_name hslash]
    rfl
  rw [hmain] at hnot ⊢
  unfold Place.enter at hnot ⊢
  split
  · rw [if_pos ‹_›] at hnot
    exact absurd (Place.within_refl _) hnot
  · rw [if_neg ‹_›] at hnot
    split
    · rw [if_pos ‹_›] at hnot
      exact absurd (Place.within_leave _ (by simp [env.absolute.1])) hnot
    · rfl

theorem main_ne_copy (env : MergeEnv) (h : Listed name)
    (hwrite : env.ops.write (env.main name) ≠ .refused) : env.main name ≠ env.copy name := by
  rw [env.main_eq h hwrite, env.copy_eq h]
  exact h.main_place_ne _ _

theorem main_ne_taken (env : MergeEnv) (h : Listed name)
    (hwrite : env.ops.write (env.main name) ≠ .refused) : env.main name ≠ env.taken name := by
  rw [env.main_eq h hwrite, env.taken_eq h]
  exact h.main_place_ne _ _

theorem taken_ne_copy (env : MergeEnv) (h : Listed name) (hcwd : normalize env.cwd ≠ normalize env.dir) :
    env.taken name ≠ env.copy name := by
  rw [env.taken_eq h, env.copy_eq h]
  exact fun heq => hcwd (Place.descend_inj_left heq)

-- ---------------------------------------------------------------------------
-- Where the two agree
-- ---------------------------------------------------------------------------

theorem sameEffect_idle (hcli : ∀ place, place.Within (normalize env.dir) →
      env.cli files name keep place = files place)
    (hweb : env.web files name keep = files) : env.SameEffect files name keep := by
  refine ⟨fun place hplace => ?_, fun _ place hplace => ⟨hcli place hplace, by rw [hweb]⟩⟩
  rw [hcli place hplace, hweb]

/-- In the share directory, with a copy that can be read. -/
theorem sameEffect_here (h : Listed name) (hcwd : normalize env.cwd = normalize env.dir)
    (hread : env.ops.readable (env.copy name) = true)
    (hwrite : ∀ written, env.ops.write (env.main name) ≠ .broken written) :
    env.SameEffect files name keep := by
  have hplace : normalize (join env.cwd name) = normalize (join env.dir name) := by
    rw [h.normalize_join, h.normalize_join, hcwd]
  cases hfile : files (env.copy name) with
  | none =>
    have hnothing : env.ops.readAt files (join env.cwd name) = none := by
      rw [FileOps.readAt_congr hplace]
      exact (FileOps.readAt_readable hread).trans hfile
    refine sameEffect_idle (fun place _ => ?_) ?_
    · rw [env.cli_eq files h, hnothing]
    · rw [env.web_eq files h, hfile]
      rfl
  | some bytes =>
    have hbytes : env.ops.readAt files (join env.dir name) = some bytes :=
      (FileOps.readAt_readable hread).trans hfile
    have hcli : env.cli files name keep = env.ops.merge files (join env.dir name)
        (join env.dir (mainNameOf name)) bytes keep := by
      rw [env.cli_eq files h, FileOps.readAt_congr hplace, hbytes]
      exact FileOps.merge_congr hplace keep
    have hweb : env.web files name keep = env.ops.merge files (join env.dir name)
        (join env.dir (mainNameOf name)) bytes keep := by
      rw [env.web_eq files h, hfile, hbytes]
      rfl
    refine ⟨fun place _ => by rw [hcli, hweb], ?_⟩
    rintro (hnone | ⟨rfl, hfails⟩)
    · cases hbytes.symm.trans hnone
    · have hrefused : env.ops.write (env.main name) = .refused := by
        cases hresult : env.ops.write (env.main name) with
        | done => exact absurd hresult hfails
        | refused => rfl
        | broken written => exact absurd hresult (hwrite written)
      intro place _
      rw [hcli, hweb, FileOps.merge_refused hrefused]
      exact ⟨rfl, rfl⟩

/-- Where nothing can be changed. -/
theorem sameEffect_fixed (h : Listed name) (hcopy : env.ops.removable (env.copy name) = false)
    (hmain : env.ops.write (env.main name) = .refused)
    (htaken : (env.taken name).Within (normalize env.dir) →
      env.ops.readable (env.taken name) = false ∨ env.ops.removable (env.taken name) = false) :
    env.SameEffect files name keep := by
  have hmerge (path : String) (bytes : Bytes) :
      env.ops.merge files path (join env.dir (mainNameOf name)) bytes keep = files ∨
      env.ops.merge files path (join env.dir (mainNameOf name)) bytes keep =
        env.ops.removeAt files path := by
    cases keep with
    | localVersion => exact .inl (FileOps.merge_refused hmain)
    | remoteVersion => exact .inr rfl
  refine sameEffect_idle (fun place hplace => ?_) ?_
  · rw [env.cli_eq files h]
    split
    · rfl
    · rename_i bytes hread
      rcases hmerge (join env.cwd name) bytes with hsame | hremove
      · rw [hsame]
      · rw [hremove]
        by_cases heq : place = normalize (join env.cwd name)
        · subst heq
          rcases htaken hplace with hunread | hfixed
          · cases (FileOps.readAt_unreadable hunread).symm.trans hread
          · rw [FileOps.removeAt_fixed hfixed]
        · exact FileOps.removeAt_of_ne heq
  · rw [env.web_eq files h]
    split
    · rcases hmerge (join env.dir name) ((env.ops.readAt files (join env.dir name)).getD []) with
        hsame | hremove
      · exact hsame
      · rw [hremove, FileOps.removeAt_fixed hcopy]
    · rfl

-- ---------------------------------------------------------------------------
-- Where they do not
-- ---------------------------------------------------------------------------

def oneFile (p : Place) (bytes : Bytes) : Files := Function.update (fun _ => none) p (some bytes)

/-- A copy, and its file with other bytes than any merge writes. -/
def copyAndMain (env : MergeEnv) (name : String) : Files :=
  Function.update (oneFile (env.copy name) [0]) (env.main name)
    (some ([1, 1] ++
      match env.ops.write (env.main name) with
      | .broken written => written
      | _ => []))

theorem oneFile_possible {p : Place} (h : ¬ (normalize env.dir).Within p) (bytes : Bytes) :
    env.Possible (oneFile p bytes) := by
  intro place hplace
  have hne : place ≠ p := fun heq => h (heq ▸ hplace)
  simp [oneFile, hne]

theorem copyAndMain_possible (hcopy : ¬ (normalize env.dir).Within (env.copy name))
    (hwrite : env.ops.write (env.main name) ≠ .refused) : env.Possible (env.copyAndMain name) := by
  intro place hplace
  have hne : place ≠ env.main name := fun heq => hwrite (env.directories _ (heq ▸ hplace)).1
  rw [copyAndMain, Function.update_of_ne hne]
  exact oneFile_possible hcopy [0] place hplace

theorem copy_within (env : MergeEnv) (h : Listed name) :
    (env.copy name).Within (normalize env.dir) ∧ ¬ (normalize env.dir).Within (env.copy name) := by
  rw [env.copy_eq h]
  refine ⟨Place.descend_within .., fun hwithin => ?_⟩
  have hlen := hwithin.2.2.length_le
  simp only [Place.descend, List.length_append, List.length_singleton] at hlen
  omega

theorem main_within (env : MergeEnv) (h : Listed name)
    (hwrite : env.ops.write (env.main name) ≠ .refused) :
    (env.main name).Within (normalize env.dir) := by
  rw [env.main_eq h hwrite]
  exact Place.descend_within ..

theorem web_changes_main (h : Listed name) (hwrite : env.ops.write (env.main name) ≠ .refused) :
    env.web (env.copyAndMain name) name .localVersion (env.main name) ≠
      env.copyAndMain name (env.main name) := by
  have hne := env.main_ne_copy h hwrite
  have hcopy : env.copyAndMain name (env.copy name) = some [0] := by
    rw [copyAndMain, Function.update_of_ne hne.symm, oneFile, Function.update_self]
  have hread : (env.ops.readAt (env.copyAndMain name) (join env.dir name)).getD [] = [0] ∨
      (env.ops.readAt (env.copyAndMain name) (join env.dir name)).getD [] = [] := by
    cases hreadable : env.ops.readable (env.copy name) with
    | true => exact .inl (by rw [FileOps.readAt_readable hreadable]; exact congrArg (·.getD []) hcopy)
    | false => exact .inr (by rw [FileOps.readAt_unreadable hreadable]; rfl)
  rw [env.web_eq _ h, hcopy, Option.isSome_some, if_pos rfl]
  generalize (env.ops.readAt (env.copyAndMain name) (join env.dir name)).getD [] = bytes at hread
  rw [copyAndMain, Function.update_self]
  intro hsame
  rcases FileOps.merge_written (env.copyAndMain name) bytes hwrite hne with
    hbytes | ⟨written, hbroken, hwritten⟩
  · have heq := Option.some.inj (hbytes.symm.trans hsame)
    rcases hread with rfl | rfl <;> simp at heq
  · have heq := Option.some.inj (hwritten.symm.trans hsame)
    have hbroken : env.ops.write (env.main name) = .broken written := hbroken
    rw [hbroken] at heq
    have hlen : written.length = ([1, 1] ++ written).length := congrArg List.length heq
    rw [List.length_append, List.length_cons] at hlen
    omega

/-- Run elsewhere, or on a copy it cannot read, the command does not see the copy. -/
theorem cli_blind (h : Listed name)
    (hblind : normalize env.cwd = normalize env.dir → env.ops.readable (env.copy name) = false)
    (htaken : env.taken name ≠ env.copy name → files (env.taken name) = none) :
    env.cli files name keep = files := by
  have hnothing : env.ops.readAt files (join env.cwd name) = none := by
    by_cases heq : env.taken name = env.copy name
    · have hcwd : normalize env.cwd = normalize env.dir := by
        rw [env.taken_eq h, env.copy_eq h] at heq
        exact Place.descend_inj_left heq
      refine FileOps.readAt_unreadable ?_
      exact (congrArg env.ops.readable heq).trans (hblind hcwd)
    · cases hread : env.ops.readable (env.taken name) with
      | true => exact (FileOps.readAt_readable hread).trans (htaken heq)
      | false => exact FileOps.readAt_unreadable hread
  rw [env.cli_eq files h, hnothing]

/-- Then the GUI must not be able to do anything. -/
theorem fixed_of_blind (h : Listed name)
    (hblind : normalize env.cwd = normalize env.dir → env.ops.readable (env.copy name) = false)
    (hall : ∀ files, env.Possible files → ∀ keep, env.SameEffect files name keep) :
    env.ops.removable (env.copy name) = false ∧ env.ops.write (env.main name) = .refused := by
  obtain ⟨hin, hnot⟩ := env.copy_within h
  constructor
  · by_contra hremovable
    rw [Bool.not_eq_false] at hremovable
    have hsame := (hall _ (oneFile_possible hnot [0]) .remoteVersion).same _ hin
    have htaken : env.taken name ≠ env.copy name → oneFile (env.copy name) [0] (env.taken name) = none :=
      fun hne => by simp [oneFile, hne]
    have hgone : env.web (oneFile (env.copy name) [0]) name .remoteVersion (env.copy name) = none := by
      rw [env.web_eq _ h, if_pos (by simp [oneFile]), FileOps.merge, FileOps.removeAt]
      unfold copy at hremovable ⊢
      rw [if_pos hremovable, Function.update_self]
    rw [cli_blind h hblind htaken, hgone] at hsame
    simp [oneFile] at hsame
  · by_contra hwrite
    have hsame := (hall _ (copyAndMain_possible hnot hwrite) .localVersion).same _
      (env.main_within h hwrite)
    have htaken : env.taken name ≠ env.copy name →
        env.copyAndMain name (env.taken name) = none := by
      intro hne
      rw [copyAndMain, Function.update_of_ne (env.main_ne_taken h hwrite).symm]
      simp [oneFile, hne]
    rw [cli_blind h hblind htaken] at hsame
    exact web_changes_main h hwrite hsame.symm

/-- Elsewhere, the command must not be able to remove what it takes for the copy. -/
theorem taken_fixed (h : Listed name) (hcwd : normalize env.cwd ≠ normalize env.dir)
    (hall : ∀ files, env.Possible files → ∀ keep, env.SameEffect files name keep)
    (hin : (env.taken name).Within (normalize env.dir)) :
    env.ops.readable (env.taken name) = false ∨ env.ops.removable (env.taken name) = false := by
  by_contra hno
  obtain ⟨hread, hremovable⟩ := not_or.mp hno
  rw [Bool.not_eq_false] at hread hremovable
  have hnot : ¬ (normalize env.dir).Within (env.taken name) := by
    intro hdir
    rw [(env.directories _ hdir).2] at hremovable
    cases hremovable
  have hsame := (hall _ (oneFile_possible hnot [0]) .remoteVersion).same _ hin
  have hgone : env.cli (oneFile (env.taken name) [0]) name .remoteVersion (env.taken name) = none := by
    have hbytes : env.ops.readAt (oneFile (env.taken name) [0]) (join env.cwd name) = some [0] :=
      (FileOps.readAt_readable hread).trans (by simp [oneFile, taken])
    rw [env.cli_eq _ h, hbytes]
    simp only [FileOps.merge, FileOps.removeAt]
    unfold taken at hremovable ⊢
    rw [if_pos hremovable, Function.update_self]
  have hweb : env.web (oneFile (env.taken name) [0]) name .remoteVersion = oneFile (env.taken name) [0] := by
    rw [env.web_eq _ h, if_neg (by simp [oneFile, (env.taken_ne_copy h hcwd).symm])]
  rw [hgone, hweb] at hsame
  simp [oneFile] at hsame

/-- The two merges have the same effect on every share directory if and only if
they run in it, or neither can do anything there. -/
theorem merge_same_effect_iff (env : MergeEnv) (h : Listed name) :
    (∀ files, env.Possible files → ∀ keep, env.SameEffect files name keep) ↔ env.MergesAlike name := by
  constructor
  · intro hall
    by_cases hcwd : normalize env.cwd = normalize env.dir
    · cases hread : env.ops.readable (env.copy name) with
      | true =>
        refine .inl ⟨hcwd, hread, fun written hbroken => ?_⟩
        have hwrite : env.ops.write (env.main name) ≠ .refused := by simp [hbroken]
        have hsame := (hall _ (copyAndMain_possible (env.copy_within h).2 hwrite) .localVersion).unchanged
          (.inr ⟨rfl, by simp [hbroken]⟩) _ (env.main_within h hwrite)
        exact absurd hsame.2 (web_changes_main h hwrite)
      | false =>
        obtain ⟨hcopy, hmain⟩ := fixed_of_blind h (fun _ => hread) hall
        refine .inr ⟨hcopy, hmain, fun _ => .inl ?_⟩
        rw [env.taken_eq h, hcwd, ← env.copy_eq h]
        exact hread
    · obtain ⟨hcopy, hmain⟩ := fixed_of_blind h (fun heq => absurd heq hcwd) hall
      exact .inr ⟨hcopy, hmain, taken_fixed h hcwd hall⟩
  · rintro (⟨hcwd, hread, hwrite⟩ | ⟨hcopy, hmain, htaken⟩) files - keep
    · exact sameEffect_here h hcwd hread hwrite
    · exact sameEffect_fixed h hcopy hmain htaken

/-- `/share` on a disk that fails nothing but what is done to directories. -/
def mergeIn (cwd : String) (h : isAbsolute cwd = true) : MergeEnv where
  ops :=
    { readable := fun _ => true
      write := fun place => if (normalize "/share").Within place then .refused else .done
      removable := fun place => !decide ((normalize "/share").Within place) }
  dir := "/share"
  cwd := cwd
  absolute := ⟨by decide, h⟩
  directories := by
    intro place h
    simp [h]

theorem listed_example : Listed ".sync-conflict-m-a-1" := ⟨by decide, by decide⟩

theorem merge_same_effect_in_share : (mergeIn "/share" rfl).SameEffect
    (oneFile ((mergeIn "/share" rfl).copy ".sync-conflict-m-a-1") [7]) ".sync-conflict-m-a-1"
    .localVersion := by
  refine (merge_same_effect_iff (mergeIn "/share" rfl) listed_example).mpr (.inl ⟨rfl, rfl, ?_⟩) _
    (oneFile_possible (copy_within _ listed_example).2 [7]) .localVersion
  intro written
  simp only [mergeIn]
  split <;> simp

/-- From another directory the command does not find the copy, and the GUI deletes it. -/
theorem merge_elsewhere : ¬ ∀ (env : MergeEnv) (name : String), Listed name →
    ∀ files, env.Possible files → ∀ keep, env.SameEffect files name keep := by
  intro h
  have hcopy := copy_within (mergeIn "/home" rfl) listed_example
  have hsame := (h (mergeIn "/home" rfl) ".sync-conflict-m-a-1" listed_example _
    (oneFile_possible hcopy.2 [7]) .remoteVersion).same _ hcopy.1
  revert hsame
  decide +kernel

end MergeEnv

end Nsmt.Client
