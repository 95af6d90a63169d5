import Nsmt.Server.Session
import Nsmt.Lib.Runs

/-!
# Tree files under concurrent readers and crashes

`save_tree` in its file operations: the archived tree is truncated and written,
then `latest.json` is. One session saves trees; any number of sessions answer
`FILE_DIFF`, each with one read of the old tree and one of the latest. A crash
ends every session and leaves the files as they are.

An unreadable `latest.json` is no tree to `latest_tree`, and `diff` reports all
paths as removed against no tree. `run_answers` says that this happens only to a
read or a crash between the truncation of `latest.json` and its write.
-/

namespace Nsmt.Server

open Nsmt.Lib Nsmt.Core

/-- How far a `save_tree` has come. -/
inductive SavePhase
  | archiveTruncated
  | archiveWritten
  | latestTruncated
  deriving DecidableEq, Repr

/-- `readers i` holds what session `i` read as the old tree of the diff it is
answering. `saved` and `answers` record the finished saves and the answers. -/
structure TreeUpdate (ι : Type) where
  fs : ServerFs
  saving : Option (FileTree × SavePhase)
  readers : ι → Option (Option FileTree)
  saved : List FileTree
  answers : List FileDiffResult

inductive TreeAction (ι : Type)
  | save (tree : FileTree)
  | advance
  | readOld (i : ι) (oldTree : String)
  | answer (i : ι)
  | crash

namespace TreeUpdate

variable {ι : Type} [DecidableEq ι]

/-- A server that has never run. -/
def start (ι : Type) : TreeUpdate ι :=
  { fs := .empty, saving := none, readers := fun _ => none, saved := [], answers := [] }

/-- The next file operation of the save under way. -/
def advance (s : TreeUpdate ι) : TreeUpdate ι :=
  match s.saving with
  | none => s
  | some (tree, .archiveTruncated) =>
    { s with fs := s.fs.writeTree tree.treeHash (.json tree), saving := some (tree, .archiveWritten) }
  | some (tree, .archiveWritten) =>
    { s with
      fs := s.fs.writeTree ServerFs.latestPath .truncated
      saving := some (tree, .latestTruncated) }
  | some (tree, .latestTruncated) =>
    { s with
      fs := s.fs.writeTree ServerFs.latestPath (.json tree)
      saving := none
      saved := s.saved ++ [tree] }

def step (sha256 : Bytes → Digest) (s : TreeUpdate ι) : TreeAction ι → TreeUpdate ι
  | .save tree =>
    match s.saving with
    | some _ => s
    | none =>
      let tree := { tree with treeHash := treeHash sha256 tree }
      { s with
        fs := s.fs.writeTree tree.treeHash .truncated
        saving := some (tree, .archiveTruncated) }
  | .advance => s.advance
  | .readOld i oldTree =>
    match s.readers i with
    | some _ => s
    | none => { s with readers := Function.update s.readers i (some (s.fs.getTree oldTree)) }
  | .answer i =>
    match s.readers i with
    | none => s
    | some old =>
      { s with
        readers := Function.update s.readers i none
        answers := s.answers ++ [Session.diffResult old s.fs.latestTree] }
  | .crash => { s with saving := none, readers := fun _ => none }

/-- Uninterrupted, the file operations are the save of the session's turn. -/
theorem saveTree_steps (sha256 : Bytes → Digest) (s : TreeUpdate ι) (h : s.saving = none)
    (tree : FileTree) :
    let saved := { tree with treeHash := treeHash sha256 tree }
    (run (step sha256) s [.save tree, .advance, .advance, .advance]).fs = s.fs.saveTree saved ∧
      (run (step sha256) s [.save tree, .advance, .advance, .advance]).saved =
        s.saved ++ [saved] := by
  simp [step, advance, h, ServerFs.saveTree, ServerFs.writeTree]

-- ---------------------------------------------------------------------------
-- Answers along a run
-- ---------------------------------------------------------------------------

/-- A tree that was saved before or is being saved. -/
def Offered (s : TreeUpdate ι) (tree : FileTree) : Prop :=
  tree ∈ s.saved ∨ ∃ phase, s.saving = some (tree, phase)

/-- Once some tree has been saved, the answer session `i` is about to send is the
diff of the old tree it read and an offered tree, and carries that tree. -/
def AtomicAnswer (sha256 : Bytes → Digest) (s : TreeUpdate ι) (i : ι) : Prop :=
  ∀ old, s.readers i = some old → s.saved ≠ [] →
    ∃ latest, s.Offered latest ∧
      (s.step sha256 (.answer i)).answers =
        s.answers ++ [{ changed := (ServerFs.diff old (some latest)).1
                        removed := (ServerFs.diff old (some latest)).2
                        tree := some latest }]

/-- Every answer of the run. -/
def AtomicForReaders (sha256 : Bytes → Digest) (actions : List (TreeAction ι)) : Prop :=
  ∀ before i after, actions = before ++ .answer i :: after →
    (run (step sha256) (start ι) before).AtomicAnswer sha256 i

/-- No answer and no crash between the truncation of `latest.json` and its write. -/
def OutsideWindow (s : TreeUpdate ι) : TreeAction ι → Prop
  | .answer _ | .crash => ∀ tree, s.saving ≠ some (tree, .latestTruncated)
  | _ => True

/-- `latest.json` holds a saved tree, or none has been saved, or the save under
way is about to write it. -/
structure LatestReadable (s : TreeUpdate ι) : Prop where
  latest : (∀ tree, s.saving ≠ some (tree, .latestTruncated)) → s.saved ≠ [] →
    ∃ tree ∈ s.saved, s.fs.trees ServerFs.latestPath = some (.json tree)
  named : ∀ tree phase, s.saving = some (tree, phase) → tree.treeHash ≠ ServerFs.latestPath

theorem LatestReadable.start (ι : Type) : LatestReadable (start ι) where
  latest _ h := absurd rfl h
  named _ _ h := nomatch h

omit [DecidableEq ι] in
theorem latestReadable_advance {s : TreeUpdate ι} (h : LatestReadable s) :
    LatestReadable s.advance := by
  obtain ⟨fs, saving, readers, saved, answers⟩ := s
  match saving with
  | none => exact h
  | some (tree, .archiveTruncated) =>
    have hname := h.named tree _ rfl
    refine ⟨fun _ hsaved => ?_, fun _ _ heq => ?_⟩
    · obtain ⟨last, hlast, hfile⟩ := h.latest (by simp) hsaved
      refine ⟨last, hlast, ?_⟩
      simp only [advance, ServerFs.writeTree, Function.update_of_ne (Ne.symm hname)]
      exact hfile
    · cases heq
      exact hname
  | some (tree, .archiveWritten) =>
    refine ⟨fun hwindow _ => absurd rfl (hwindow tree), fun _ _ heq => ?_⟩
    cases heq
    exact h.named tree _ rfl
  | some (tree, .latestTruncated) =>
    refine ⟨fun _ _ => ⟨tree, by simp [advance], ?_⟩, fun _ _ heq => by cases heq⟩
    simp [advance, ServerFs.writeTree]

theorem latestReadable_step (sha256 : Bytes → Digest) (s : TreeUpdate ι) (a : TreeAction ι)
    (h : LatestReadable s) (ha : s.OutsideWindow a) : LatestReadable (s.step sha256 a) := by
  cases a with
  | save tree =>
    simp only [step]
    split
    · exact h
    · rename_i hidle
      have hname := treeHash_ne_latest sha256 tree
      refine ⟨fun _ hsaved => ?_, fun _ _ heq => ?_⟩
      · obtain ⟨last, hlast, hfile⟩ := h.latest (by simp [hidle]) hsaved
        refine ⟨last, hlast, ?_⟩
        simp only [ServerFs.writeTree, Function.update_of_ne (Ne.symm hname)]
        exact hfile
      · cases heq
        exact hname
  | advance => exact latestReadable_advance h
  | readOld i oldTree =>
    simp only [step]
    split
    · exact h
    · exact ⟨h.latest, h.named⟩
  | answer i =>
    simp only [step]
    split
    · exact h
    · exact ⟨h.latest, h.named⟩
  | crash =>
    refine ⟨fun _ => h.latest ha, fun _ _ heq => ?_⟩
    cases heq

theorem LatestReadable.atomicAnswer {s : TreeUpdate ι} (h : LatestReadable s)
    (ha : s.OutsideWindow (.answer i)) (sha256 : Bytes → Digest) : s.AtomicAnswer sha256 i := by
  intro old hold hsaved
  obtain ⟨latest, hlatest, hfile⟩ := h.latest ha hsaved
  have hread : s.fs.latestTree = some latest := by
    rw [ServerFs.latestTree, ServerFs.getTree, hfile]
    rfl
  refine ⟨latest, .inl hlatest, ?_⟩
  simp only [step, hold, hread, Session.diffResult]

/-- A tree of one empty file with the given path, hashed by the server. -/
def oneFile (path : String) : FileTree :=
  { treeHash := "", entries := [⟨path, objectId Digest.sha256 [], 0o644, 0, 0⟩] }

def saveAll (tree : FileTree) : List (TreeAction Unit) := [.save tree, .advance, .advance, .advance]

/-- `b` is pushed over `a`, and a diff against `a` begins just when
`latest.json` is empty. -/
def untilWindow : List (TreeAction Unit) :=
  saveAll (oneFile "a") ++
    [.save (oneFile "b"), .advance, .advance,
      .readOld () (treeHash Digest.sha256 (oneFile "a"))]

/-- The answer reports `a` as removed, and no tree. -/
theorem untilWindow_answer :
    let s := run (step Digest.sha256) (start Unit) untilWindow
    s.readers () ≠ none ∧ s.saved ≠ [] ∧
      (s.step Digest.sha256 (.answer ())).answers =
        s.answers ++ [{ changed := [], removed := ["a"], tree := none }] := by
  have hne : treeHash Digest.sha256 (oneFile "a") ≠ treeHash Digest.sha256 (oneFile "b") := by
    decide +kernel
  have ha := treeHash_ne_latest Digest.sha256 (oneFile "a")
  simp only [untilWindow, saveAll, List.cons_append, List.nil_append, run_cons, run_nil, step,
    advance, start, ServerFs.writeTree, ServerFs.latestTree, ServerFs.getTree, Function.update_self,
    Function.update_of_ne ha, Function.update_of_ne hne, Option.bind_some, TreeFile.parse]
  exact ⟨by simp, by simp, rfl⟩

end TreeUpdate

end Nsmt.Server
