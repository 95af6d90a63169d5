import Nsmt.Okf.Library

/-!
# Added concepts

`add` refuses two names and wants `.md` at the end of a path. The collector skips
the two names in every directory, the trash, and what has no extension; the index
generator writes files of one of the names. `added_visible_iff` says for which
paths the three agree.
-/

namespace Nsmt.Okf

open Nsmt.Lib Nsmt.Lib.Utf8 Nsmt.Lib.UnixPaths Nsmt.Lib.Dirs

/-- The file that was added is among the concepts, and running `generate_index`
leaves it as it is, how often and in whatever environment it is run. -/
structure VisibleAndKept (lib : List Name) (rel : Text) (d : OkfDisk) : Prop where
  visible : ∃ f ∈ collectMdFiles lib d, lib ++ f = placeOf lib (encode rel)
  kept : ∀ envs : List Env,
    (envs.foldl (fun d env => (generateIndex env lib d).1) d).node (placeOf lib (encode rel)) =
      d.node (placeOf lib (encode rel))

/-- The path leads into the library and not through a trash, to a name with the
extension `md` that is not reserved. -/
def LeadsToConcept (lib : List Name) (rel : Text) : Prop :=
  ∃ f, placeOf lib (encode rel) = lib ++ f ∧ f ≠ [] ∧ trashDir ∉ f.dropLast ∧
    isConceptName (f.getLast?.getD []) = true

section
variable {env : Env} {lib : List Name} {opts : Opts} {d : OkfDisk} {rel : Text}

/-- What `add` has added is a file, if only the log. -/
theorem added_file (hrel : opts.given "path" = some rel) (hok : (cmdAdd env lib opts d).2 = true) :
    (cmdAdd env lib opts d).1.IsFile (placeOf lib (encode rel)) := by
  cases htype : opts.given "type" with
  | none =>
    simp only [cmdAdd, hrel, htype] at hok
    cases hok
  | some ftype =>
    simp only [cmdAdd, hrel, htype] at hok ⊢
    split at hok
    · cases hok
    · rename_i hfree
      rw [if_neg hfree]
      obtain ⟨-, hdirs⟩ := Disk.andThen_ok hok
      rw [hdirs] at hok ⊢
      split at hok
      · rename_i hstatus
        rw [if_pos hstatus]
        obtain ⟨hwrite, hlog⟩ := Disk.andThen_ok hok
        rw [hlog]
        exact isFile_appendLog (Disk.isFile_of_write hwrite)
      · cases hok

theorem run_indexes_keeps {p : List Name} (h : p.getLast? ≠ some indexMd) (envs : List Env) :
    d.Keeps (envs.foldl (fun d env => (generateIndex env lib d).1) d) p := by
  induction envs generalizing d with
  | nil => exact .refl d p
  | cons env envs ih => exact (keeps_generateIndex h).trans ih

/-- An added concept is visible and survives indexing if and only if its path leads to
the place of a concept. -/
theorem added_visible_iff (env : Env) (lib : List Name) (opts : Opts) (d : OkfDisk) (rel : Text)
    (hrel : opts.given "path" = some rel) (hok : (runCommand env lib (.add opts) d).2 = true) :
    VisibleAndKept lib rel (runCommand env lib (.add opts) d).1 ↔ LeadsToConcept lib rel := by
  unfold runCommand at hok ⊢
  split at hok
  · rename_i hlib
    rw [if_pos hlib]
    obtain ⟨page, hpage⟩ := added_file hrel hok
    dsimp only
    constructor
    · rintro ⟨⟨f, hf, hplace⟩, -⟩
      obtain ⟨hne, -, htrash, hname⟩ := mem_collectMdFiles.mp hf
      exact ⟨f, hplace.symm, hne, htrash, hname⟩
    · rintro ⟨f, hplace, hne, htrash, hname⟩
      refine ⟨⟨f, mem_collectMdFiles.mpr ⟨hne, ⟨page, hplace ▸ hpage⟩, htrash, hname⟩, hplace.symm⟩,
        fun envs => (run_indexes_keeps ?_ envs).there (by simp [hpage])⟩
      rw [hplace, List.getLast?_append_of_ne_nil _ hne]
      intro hindex
      rw [hindex] at hname
      exact absurd hname (by decide)
  · cases hok

end

/-- The options of an `add` that gives a path and a type. -/
def addOpts (rel : String) : Opts := fun key =>
  if key = "path" then some rel.toList else if key = "type" then some "Metric".toList else none

theorem added_visible_iff_plain :
    VisibleAndKept [] "sub/a.md".toList (runCommand .quiet [] (.add (addOpts "sub/a.md")) .bare).1 :=
  (added_visible_iff .quiet [] (addOpts "sub/a.md") .bare "sub/a.md".toList (by decide) (by decide +kernel)).mpr
    ⟨[utf8 "sub", utf8 "a.md"], by decide, by decide, by decide, by decide⟩

/-- A concept with a reserved name in a directory is not seen. -/
theorem sub_index_unseen : ¬ ∀ (env : Env) (lib : List Name) (opts : Opts) (d : OkfDisk) (rel : Text),
    opts.given "path" = some rel → (runCommand env lib (.add opts) d).2 = true →
      VisibleAndKept lib rel (runCommand env lib (.add opts) d).1 := by
  intro h
  obtain ⟨f, hf, hplace⟩ := (h .quiet [] (addOpts "sub/index.md") .bare "sub/index.md".toList (by decide)
    (by decide +kernel)).visible
  obtain ⟨-, -, -, hname⟩ := mem_collectMdFiles.mp hf
  have hlast : f.getLast? = some indexMd := by
    rw [← List.nil_append f, hplace]
    decide
  rw [hlast] at hname
  exact absurd hname (by decide)

end Nsmt.Okf
