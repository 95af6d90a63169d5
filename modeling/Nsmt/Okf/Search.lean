import Nsmt.Lib.Slices
import Nsmt.Lib.YamlBlockReader
import Nsmt.Okf.Library

/-!
# Searching a library

`search` shows the lines of a concept that hold a keyword, cut behind ninety bytes.
`search_safe_iff` says for which libraries that is never inside a character. The
mapping of text to lower case is a parameter.
-/

namespace Nsmt.Okf

open Nsmt.Lib Nsmt.Lib.YamlBlock Nsmt.Lib.Utf8 Nsmt.Lib.UnixPaths Nsmt.Lib.Dirs

-- ---------------------------------------------------------------------------
-- The command
-- ---------------------------------------------------------------------------

/-- A line as it is shown; `dots` stand behind what was cut. -/
structure Snippet where
  line : Nat
  bytes : Bytes
  dots : Bool
  deriving DecidableEq

inductive Found
  | fields (names : List String) (title : Text)
  | body (snippets : List Snippet)
  deriving DecidableEq

structure Hit where
  concept : List Name
  ftype : Text
  found : Found
  deriving DecidableEq

/-- The path of a concept without its extension. -/
def Hit.cid (hit : Hit) : Text :=
  shown (hit.concept.dropLast ++ [(splitExtension 46 (hit.concept.getLast?.getD [])).1])

def snippetMax : Nat := 90

/-- `none` is a panic. -/
def snippetOf (line : Nat × Text) : Option Snippet :=
  let bytes := encode line.2
  if snippetMax < bytes.length then
    (sliceTo bytes snippetMax).map fun shown => { line := line.1, bytes := shown, dots := true }
  else some { line := line.1, bytes := bytes, dots := false }

section
variable (env : Env) (lower : Text → Text) (lib : List Name)

/-- The text holds the keyword, in whatever case. -/
def Holds (kw t : Text) : Prop := lower kw <:+: lower t

instance (kw t : Text) : Decidable (Holds lower kw t) := inferInstanceAs (Decidable (_ <:+: _))

def conceptTitle (rel : List Name) (fm : Yaml) : Text := (fmStr fm "title").getD (fromUtf8Lossy (joined rel))

/-- The fields that hold the keyword. -/
def whereHit (kw : Text) (rel : List Name) (fm : Yaml) : List String :=
  let texts := [("type", [(fmStr fm "type").getD []]), ("title", [conceptTitle rel fm]),
    ("description", (fmStr fm "description").toList), ("tags", fmTags fm)]
  (texts.filter fun field => field.2.any fun t => Holds lower kw t).map Prod.fst

/-- The lines of a body that hold the keyword, with their numbers. -/
def bodyLines (kw body : Text) : List (Nat × Text) :=
  (Text.lines body).zipIdx.filterMap fun (line, i) =>
    if Holds lower kw line ∧ Text.trim line ≠ [] then some (i + 1, Text.trim line) else none

/-- The lines that are shown. -/
def shownLines (kw body : Text) : List (Nat × Text) := (bodyLines lower kw body).take 3

/-- The outer `none` is a panic. -/
def searchConcept (kw : Text) (d : OkfDisk) (rel : List Name) : Option (Option Hit) :=
  match loadConcept env lib d rel with
  | none => some none
  | some (fm, body) =>
    let hit (found : Found) : Hit := { concept := rel, ftype := (fmStr fm "type").getD [], found := found }
    let names := whereHit lower kw rel fm
    if names ≠ [] then some (some (hit (.fields names (conceptTitle rel fm))))
    else if bodyLines lower kw body = [] then some none
    else ((shownLines lower kw body).mapM snippetOf).map fun snippets => some (hit (.body snippets))

/-- The outer `none` is a panic, and the inner one an error. -/
def cmdSearch (opts : Opts) (d : OkfDisk) : Option (Option (List Hit)) :=
  if d.node lib = some .dir then
    match opts.given "path" with
    | some kw =>
      ((collectMdFiles lib d).mapM (searchConcept env lower lib kw d)).map fun found =>
        some (found.filterMap fun hit => hit)
    | none => some none
  else some none

-- ---------------------------------------------------------------------------
-- What it is to do
-- ---------------------------------------------------------------------------

/-- A snippet is the beginning of a line of the body that holds the keyword, without the
space around it. -/
def Snippet.Shows (kw body : Text) (s : Snippet) : Prop :=
  ∃ i line, (Text.lines body)[i]? = some line ∧ s.line = i + 1 ∧ Holds lower kw line ∧
    ∃ p, p <+: Text.trim line ∧ s.bytes = encode p

/-- All that a search shows of bodies is as it should be. -/
def ShowsLines (kw : Text) (d : OkfDisk) (hits : List Hit) : Prop :=
  ∀ hit ∈ hits, ∀ snippets, hit.found = .body snippets →
    ∃ fm body, loadConcept env lib d hit.concept = some (fm, body) ∧ ∀ s ∈ snippets, s.Shows lower kw body

/-- A search completes, and its snippets are beginnings of lines. -/
def SearchSafe (opts : Opts) (d : OkfDisk) : Prop :=
  ∃ result, cmdSearch env lower lib opts d = some result ∧
    ∀ hits, result = some hits → ∃ kw, opts.given "path" = some kw ∧ ShowsLines env lower lib kw d hits

/-- A line that is too long has a character that ends where it is cut. -/
def CutsWell (t : Text) : Prop := snippetMax < (encode t).length → ∃ p, p <+: t ∧ (encode p).length = snippetMax

/-- The lines that a search would show of a concept can be cut. -/
def LinesCutWell (kw : Text) (d : OkfDisk) : Prop :=
  ∀ rel ∈ collectMdFiles lib d, ∀ fm body, loadConcept env lib d rel = some (fm, body) →
    whereHit lower kw rel fm = [] → ∀ line ∈ shownLines lower kw body, CutsWell line.2

end

-- ---------------------------------------------------------------------------
-- Functions that can fail, on lists
-- ---------------------------------------------------------------------------

section
variable {α β : Type} {f : α → Option β} {l : List α}

theorem isSome_mapM : (l.mapM f).isSome = true ↔ ∀ a ∈ l, (f a).isSome = true := by
  induction l with
  | nil => simp
  | cons a l ih =>
    rw [List.mapM_cons, List.forall_mem_cons, ← ih]
    cases f a <;> cases l.mapM f <;> simp

theorem of_mem_mapM {bs : List β} {b : β} (h : l.mapM f = some bs) (hb : b ∈ bs) : ∃ a ∈ l, f a = some b := by
  induction l generalizing bs with
  | nil =>
    cases h
    cases hb
  | cons a l ih =>
    rw [List.mapM_cons] at h
    obtain ⟨first, hfirst, h⟩ := Option.bind_eq_some_iff.mp h
    obtain ⟨rest, hrest, heq⟩ := Option.bind_eq_some_iff.mp h
    cases heq
    rcases List.mem_cons.mp hb with rfl | hb
    · exact ⟨a, List.mem_cons_self .., hfirst⟩
    · obtain ⟨a', ha', hf⟩ := ih hrest hb
      exact ⟨a', List.mem_cons_of_mem _ ha', hf⟩

end

-- ---------------------------------------------------------------------------
-- Snippets
-- ---------------------------------------------------------------------------

section
variable {env : Env} {lower : Text → Text} {lib : List Name} {kw body : Text} {d : OkfDisk}
  {rel : List Name} {line : Nat × Text}

theorem snippetOf_isSome : (snippetOf line).isSome = true ↔ CutsWell line.2 := by
  rw [snippetOf, CutsWell, ← isBoundary_iff]
  split
  · rename_i hlong
    rw [Option.isSome_map, sliceTo]
    split <;> simp_all
  · rename_i hshort
    simp [hshort]

theorem snippetOf_begins {s : Snippet} (h : snippetOf line = some s) :
    s.line = line.1 ∧ ∃ p, p <+: line.2 ∧ s.bytes = encode p := by
  unfold snippetOf at h
  dsimp only at h
  split at h
  · obtain ⟨bytes, hslice, rfl⟩ := Option.map_eq_some_iff.mp h
    exact ⟨rfl, prefix_of_sliceTo hslice⟩
  · cases h
    exact ⟨rfl, line.2, List.prefix_rfl, rfl⟩

theorem mem_bodyLines (h : line ∈ bodyLines lower kw body) :
    ∃ i text, (Text.lines body)[i]? = some text ∧ line = (i + 1, Text.trim text) ∧ Holds lower kw text := by
  obtain ⟨⟨text, i⟩, hmem, hline⟩ := List.mem_filterMap.mp h
  dsimp only at hline
  split at hline
  · rename_i hholds
    cases hline
    exact ⟨i, text, List.mem_zipIdx_iff_getElem?.mp hmem, rfl, hholds.1⟩
  · cases hline

theorem snippet_shows {s : Snippet} (hmem : line ∈ shownLines lower kw body) (hs : snippetOf line = some s) :
    s.Shows lower kw body := by
  obtain ⟨i, text, htext, rfl, hholds⟩ := mem_bodyLines (List.mem_of_mem_take hmem)
  obtain ⟨hnumber, hbegins⟩ := snippetOf_begins hs
  exact ⟨i, text, htext, hnumber, hholds, hbegins⟩

-- ---------------------------------------------------------------------------
-- Concepts
-- ---------------------------------------------------------------------------

/-- A concept makes the search panic if a line of it cannot be cut. -/
theorem searchConcept_isSome : (searchConcept env lower lib kw d rel).isSome = true ↔
    ∀ fm body, loadConcept env lib d rel = some (fm, body) → whereHit lower kw rel fm = [] →
      ∀ line ∈ shownLines lower kw body, CutsWell line.2 := by
  unfold searchConcept
  cases hload : loadConcept env lib d rel with
  | none => simp
  | some c =>
    obtain ⟨fm, body⟩ := c
    dsimp only
    split
    · rename_i hnames
      simp only [Option.isSome_some, true_iff]
      rintro fm' body' ⟨⟩ hnone
      exact absurd hnone hnames
    · rename_i hnames
      split
      · rename_i hnil
        simp only [Option.isSome_some, true_iff]
        rintro fm' body' ⟨⟩ - line hline
        rw [shownLines, hnil] at hline
        cases hline
      · rw [Option.isSome_map, isSome_mapM]
        constructor
        · rintro h fm' body' ⟨⟩ - line hline
          exact snippetOf_isSome.mp (h line hline)
        · intro h line hline
          exact snippetOf_isSome.mpr (h fm body rfl (Decidable.not_not.mp hnames) line hline)

theorem searchConcept_shows {hit : Hit} {snippets : List Snippet}
    (h : searchConcept env lower lib kw d rel = some (some hit)) (hfound : hit.found = .body snippets) :
    ∃ fm body, loadConcept env lib d hit.concept = some (fm, body) ∧ ∀ s ∈ snippets, s.Shows lower kw body := by
  unfold searchConcept at h
  cases hload : loadConcept env lib d rel with
  | none =>
    rw [hload] at h
    cases h
  | some c =>
    obtain ⟨fm, body⟩ := c
    rw [hload] at h
    dsimp only at h
    split at h
    · cases h
      cases hfound
    · split at h
      · cases h
      · obtain ⟨found, hmap, heq⟩ := Option.map_eq_some_iff.mp h
        cases heq
        cases hfound
        refine ⟨fm, body, hload, fun s hs => ?_⟩
        obtain ⟨line, hline, hsnippet⟩ := of_mem_mapM hmap hs
        exact snippet_shows hline hsnippet

/-- A search completes and shows beginnings of lines if and only if all lines that it
would show can be cut. -/
theorem search_safe_iff (env : Env) (lower : Text → Text) (lib : List Name) (opts : Opts) (d : OkfDisk) :
    SearchSafe env lower lib opts d ↔
      ∀ kw, d.node lib = some .dir → opts.given "path" = some kw → LinesCutWell env lower lib kw d := by
  unfold SearchSafe cmdSearch
  split
  · rename_i hlib
    cases hkw : opts.given "path" with
    | none => simp
    | some kw =>
      dsimp only
      constructor
      · rintro ⟨result, hresult, -⟩ kw' - hkw' rel hrel
        cases hkw'
        obtain ⟨found, hmap, -⟩ := Option.map_eq_some_iff.mp hresult
        have hsome := isSome_mapM.mp (by rw [hmap]; rfl) rel hrel
        exact searchConcept_isSome.mp hsome
      · intro h
        have hsome : ((collectMdFiles lib d).mapM (searchConcept env lower lib kw d)).isSome = true :=
          isSome_mapM.mpr fun rel hrel => searchConcept_isSome.mpr (h kw hlib rfl rel hrel)
        obtain ⟨found, hmap⟩ := Option.isSome_iff_exists.mp hsome
        refine ⟨some (found.filterMap fun hit => hit), by rw [hmap]; rfl, ?_⟩
        rintro hits ⟨⟩
        refine ⟨kw, rfl, fun hit hhit snippets hsnippets => ?_⟩
        obtain ⟨hit', hhit', rfl⟩ := List.mem_filterMap.mp hhit
        obtain ⟨rel, -, hconcept⟩ := of_mem_mapM hmap hhit'
        exact searchConcept_shows hconcept hsnippets
  · rename_i hlib
    simp [hlib]

end

/-- A concept with one line, in which the ninetieth byte is inside a character. -/
def wordsDisk : OkfDisk :=
  ((Disk.bare).write [] (encode "a.md".toList) .none
    (.text ("---\ntype: Metric\n---\n\nwords".toList ++ List.replicate 50 'é'))).1

def wordsOpts : Opts := fun key => if key = "path" then some "words".toList else none

/-- A search panics when it cuts a character. -/
theorem search_panics : ¬ ∀ (env : Env) (lower : Text → Text) (lib : List Name) (opts : Opts) (d : OkfDisk),
    SearchSafe env lower lib opts d := by
  intro h
  obtain ⟨result, hresult, -⟩ := h { Env.quiet with yaml := readBlock } (List.map Char.toLower) [] wordsOpts wordsDisk
  have hpanic : cmdSearch { Env.quiet with yaml := readBlock } (List.map Char.toLower) [] wordsOpts wordsDisk = none := by
    decide +kernel
  rw [hpanic] at hresult
  cases hresult

end Nsmt.Okf
