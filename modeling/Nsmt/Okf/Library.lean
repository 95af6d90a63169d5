import Nsmt.Lib.Dirs
import Nsmt.Okf.Document
import Mathlib.Data.Char
import Mathlib.Data.List.Lex
import Mathlib.Data.List.Sort

/-!
# An OKF library on disk

The commands inside a library, on a disk without links. A file that
`generate_index` writes is kept with the links to concepts that it lists.
-/

namespace Nsmt.Okf

open Nsmt.Lib Nsmt.Lib.Utf8 Nsmt.Lib.UnixPaths Nsmt.Lib.Dirs

structure Page where
  bytes : Bytes
  listed : List Text
  deriving DecidableEq, Repr

def Page.text (t : Text) : Page := { bytes := encode t, listed := [] }

/-- `read_to_string`, which wants UTF-8. -/
def Page.toText (page : Page) : Option Text :=
  let t := fromUtf8Lossy page.bytes
  if encode t = page.bytes then some t else none

def indexMd : Name := utf8 "index.md"

def logMd : Name := utf8 "log.md"

def trashDir : Name := utf8 ".trash"

def reserved : List Text := ["index.md".toList, "log.md".toList]

/-- `Path::file_stem` and `Path::extension` of a name. -/
def splitExtension {α : Type} [DecidableEq α] (dot : α) (name : List α) : List α × Option (List α) :=
  if name = [dot, dot] then (name, none)
  else
    match name.reverse.dropWhile (· ≠ dot) with
    | [] => (name, none)
    | _ :: before => if before = [] then (name, none) else (before.reverse, some (name.reverse.takeWhile (· ≠ dot)).reverse)

/-- The name of a concept: with the extension `md`, and not reserved. -/
def isConceptName (name : Name) : Bool :=
  (splitExtension 46 name).2 = some (utf8 "md") && name ≠ indexMd && name ≠ logMd

abbrev OkfDisk := Disk Page

/-- The environment of a command: the reader, the seconds since 1970, and what the
system denies. -/
structure Env where
  yaml : YamlReader
  secs : Nat
  faults : Faults Page

/-- An environment in which nothing fails and no YAML is read. -/
def Env.quiet : Env where
  yaml := fun _ => none
  secs := 0
  faults := .none

variable (env : Env) (lib : List Name)

def collectMdFiles (d : OkfDisk) : List (List Name) :=
  ((d.files (· = trashDir) lib).filter fun rel => isConceptName (rel.getLast?.getD [])).insertionSort (· ≤ ·)

def loadConcept (d : OkfDisk) (rel : List Name) : Option (Yaml × Text) :=
  match d.node (lib ++ rel) with
  | some (.file page) =>
    if env.faults.unread (lib ++ rel) then none else page.toText.bind (parseDoc env.yaml)
  | _ => none

-- ---------------------------------------------------------------------------
-- The log
-- ---------------------------------------------------------------------------

def logHead : Text := "# Directory Update Log\n\n".toList

def logLine (entry : Text) : Text := "* ".toList ++ entry ++ "\n".toList

/-- The entry comes at the end of its day, or behind everything as a new day. -/
def insertLog (content today entry : Text) : Text :=
  let marker := "## ".toList ++ today ++ "\n".toList
  match Text.cut marker content with
  | some (front, seg) =>
    match Text.cut "\n## ".toList seg with
    | some (day, rest) => front ++ marker ++ day ++ logLine entry ++ "\n## ".toList ++ rest
    | none => front ++ marker ++ seg ++ logLine entry
  | none => content ++ "\n".toList ++ marker ++ logLine entry

/-- `create_dir_all` of the library itself. -/
def createLib (d : OkfDisk) : OkfDisk × Bool := d.createDirs env.faults [] lib

def appendLog (d : OkfDisk) (entry : Text) : OkfDisk × Bool :=
  andThen (createLib env lib d) fun d =>
    match if d.exists_ lib logMd then (d.read lib logMd env.faults).bind Page.toText else some logHead with
    | some content =>
      d.write lib logMd env.faults (.text (insertLog content ((isoNow env.secs).take 10) entry))
    | none => (d, false)

-- ---------------------------------------------------------------------------
-- The indexes
-- ---------------------------------------------------------------------------

/-- `display`, with slashes for backslashes. -/
def shown (rel : List Name) : Text := Text.replaceChar '\\' '/' (fromUtf8Lossy (joined rel))

/-- A line of an index. -/
structure IndexEntry where
  title : Text
  link : Text
  desc : Text

def IndexEntry.line (e : IndexEntry) : Text :=
  "* [".toList ++ e.title ++ "](".toList ++ e.link ++ ")".toList ++
    (if e.desc = [] then [] else " - ".toList ++ e.desc) ++ "\n".toList

def indexEntry (d : OkfDisk) (rel : List Name) (link : Text) : IndexEntry where
  title := ((loadConcept env lib d rel).bind fun c => fmStr c.1 "title").getD (fromUtf8Lossy (joined rel))
  link := link
  desc := ((loadConcept env lib d rel).bind fun c => fmStr c.1 "description").getD []

/-- An index with its entries between two texts. -/
def indexPage (head : Text) (entries : List IndexEntry) (tail : Text) : Page where
  bytes := encode (head ++ entries.flatMap IndexEntry.line ++ tail)
  listed := entries.map IndexEntry.link

def isRootConcept (rel : List Name) : Bool := rel.dropLast = []

def dirOf (rel : List Name) : Text := shown rel.dropLast

/-- The groups of the concepts that are not at the root. -/
def groupDirs (files : List (List Name)) : List Text :=
  (((files.filter fun rel => !isRootConcept rel).map dirOf).dedup).insertionSort (· ≤ ·)

def groupOf (files : List (List Name)) (dir : Text) : List (List Name) :=
  files.filter fun rel => !isRootConcept rel && dirOf rel = dir

def linkIn (dir : Text) (rel : List Name) : Text :=
  (Text.strip (dir ++ "/".toList) (shown rel)).getD (shown rel)

def indexPath (dir : Text) : Bytes := joinPath (encode dir) indexMd

def dirPage (files : List (List Name)) (dir : Text) (d : OkfDisk) : Page :=
  indexPage "# Concepts\n\n".toList
    ((groupOf files dir).map fun rel => indexEntry env lib d rel (linkIn dir rel)) "\n".toList

/-- The index of a directory; the directory is made if there is none. -/
def writeDirIndex (files : List (List Name)) (dir : Text) (d : OkfDisk) : OkfDisk × Bool :=
  let page := dirPage env lib files dir d
  andThen (d.createDirs env.faults (startOf lib (indexPath dir)) (wayTo (indexPath dir))) fun d =>
    d.write lib (indexPath dir) env.faults page

def writeDirIndexes (files : List (List Name)) : List Text → OkfDisk → OkfDisk × Bool
  | [], d => (d, true)
  | dir :: dirs, d => andThen (writeDirIndex env lib files dir d) (writeDirIndexes files dirs)

def emptyNote : Text := "_No concepts yet. Run `yggd okf <lib> add <path> --type <Type>`._\n".toList

def rootPage (files : List (List Name)) (d : OkfDisk) : Page :=
  indexPage
    ("# Knowledge Bundle\n\n".toList ++
      (groupDirs files).flatMap fun dir => "* [".toList ++ dir ++ "](".toList ++ dir ++ "/)\n".toList)
    ((files.filter isRootConcept).map fun rel => indexEntry env lib d rel (shown rel))
    ((if files = [] then emptyNote else []) ++ "\n".toList)

def writeRootIndex (files : List (List Name)) (d : OkfDisk) : OkfDisk × Bool :=
  let page := rootPage env lib files d
  andThen (createLib env lib d) fun d => d.write lib indexMd env.faults page

def generateIndex (d : OkfDisk) : OkfDisk × Bool :=
  let files := collectMdFiles lib d
  andThen (writeDirIndexes env lib files (groupDirs files) d) (writeRootIndex env lib files)

-- ---------------------------------------------------------------------------
-- The commands
-- ---------------------------------------------------------------------------

def inTrash (rel : Text) : Bytes := joinPath trashDir (encode rel)

def logLink (verb title rel : Text) : Text :=
  verb ++ " [".toList ++ title ++ "](/".toList ++ Text.replaceChar '\\' '/' rel ++ ")".toList

/-- The title of a concept that is given none: the name of its file. -/
def titleOf (opts : Opts) (rel : Text) : Text :=
  (opts "title").getD (splitExtension '.' ((rel.splitOn '/').getLast?.getD [])).1

def cmdAdd (opts : Opts) (d : OkfDisk) : OkfDisk × Bool :=
  match opts.given "path", opts.given "type" with
  | some rel, some ftype =>
    if rel ∈ reserved ∨ ¬ ".md".toList <:+ rel ∨ d.exists_ lib (encode rel) then (d, false)
    else
      andThen (d.createDirs env.faults (startOf lib (encode rel)) (wayTo (encode rel))) fun d =>
        if statusOf opts ∈ statuses then
          let title := titleOf opts rel
          let doc := addDocument opts ftype title (isoNow env.secs)
          andThen (d.write lib (encode rel) env.faults (.text doc)) fun d =>
            appendLog env lib d (logLink "**Creation**: Established".toList title rel)
        else (d, false)
  | _, _ => (d, false)

def cmdRm (opts : Opts) (d : OkfDisk) : OkfDisk × Bool :=
  match opts.given "path" with
  | some rel =>
    if rel ∈ reserved ∨ ¬ d.exists_ lib (encode rel) then (d, false)
    else
      andThen (d.createDirs env.faults (startOf lib (inTrash rel)) (wayTo (inTrash rel))) fun d =>
        andThen (d.rename lib (encode rel) env.faults (inTrash rel)) fun d =>
          appendLog env lib d (logLink "**Deprecation**: Removed".toList rel rel)
  | none => (d, false)

def cmdRestore (opts : Opts) (d : OkfDisk) : OkfDisk × Bool :=
  match opts.given "path" with
  | some rel =>
    if ¬ d.exists_ lib (inTrash rel) ∨ d.exists_ lib (encode rel) then (d, false)
    else
      andThen (d.createDirs env.faults (startOf lib (encode rel)) (wayTo (encode rel))) fun d =>
        andThen (d.rename lib (inTrash rel) env.faults (encode rel)) fun d =>
          appendLog env lib d (logLink "**Update**: Restored".toList rel rel)
  | none => (d, false)

def cmdEdit (opts : Opts) (d : OkfDisk) : OkfDisk × Bool :=
  match opts.given "path" with
  | some rel =>
    match ((d.read lib (encode rel) env.faults).bind Page.toText).bind
        (editDocument env.yaml opts (isoNow env.secs)) with
    | some doc =>
      andThen (d.write lib (encode rel) env.faults (.text doc)) fun d =>
        appendLog env lib d (logLink "**Update**: Edited".toList rel rel)
    | none => (d, false)
  | none => (d, false)

def cmdLog (opts : Opts) (d : OkfDisk) : OkfDisk × Bool :=
  match opts.given "path" with
  | some msg => appendLog env lib d msg
  | none => (d, false)

inductive LibCommand
  | add (opts : Opts)
  | rm (opts : Opts)
  | restore (opts : Opts)
  | edit (opts : Opts)
  | index
  | log (opts : Opts)

/-- A command inside a library, which must be there, and whether it returns `Ok`. -/
def runCommand (env : Env) (lib : List Name) (command : LibCommand) (d : OkfDisk) : OkfDisk × Bool :=
  if d.node lib = some .dir then
    match command with
    | .add opts => cmdAdd env lib opts d
    | .rm opts => cmdRm env lib opts d
    | .restore opts => cmdRestore env lib opts d
    | .edit opts => cmdEdit env lib opts d
    | .index => generateIndex env lib d
    | .log opts => cmdLog env lib opts d
  else (d, false)

/-- A command with its environment. -/
structure Call where
  env : Env
  command : LibCommand

def stepCall (lib : List Name) (d : OkfDisk) (call : Call) : OkfDisk := (runCommand call.env lib call.command d).1

-- ---------------------------------------------------------------------------
-- What a command leaves alone
-- ---------------------------------------------------------------------------

section
variable {env : Env} {lib : List Name} {d : OkfDisk} {p : List Name}

theorem isName_indexMd : IsName indexMd := by decide

theorem isName_logMd : IsName logMd := by decide

theorem isName_trashDir : IsName trashDir := by decide

theorem mem_collectMdFiles {rel : List Name} : rel ∈ collectMdFiles lib d ↔
    rel ≠ [] ∧ (∃ page, d.node (lib ++ rel) = some (.file page)) ∧ trashDir ∉ rel.dropLast ∧
      isConceptName (rel.getLast?.getD []) = true := by
  rw [collectMdFiles, List.mem_insertionSort, List.mem_filter, Disk.mem_files, and_assoc, and_assoc]
  refine and_congr_right fun _ => and_congr_right fun _ => and_congr_left fun _ => ?_
  constructor
  · intro h hmem
    simpa using h trashDir hmem
  · intro h name hname
    exact decide_eq_false fun heq => h (heq ▸ hname)

theorem keeps_createLib : d.Keeps (createLib env lib d).1 p := Disk.keeps_createDirs d env.faults [] lib p

theorem keeps_appendLog {entry : Text} (h : p ≠ lib ++ [logMd]) : d.Keeps (appendLog env lib d entry).1 p := by
  refine keeps_createLib.andThen ?_
  split
  · refine Disk.keeps_write ?_
    rwa [placeOf_name lib isName_logMd]
  · exact .refl _ p

theorem isFile_appendLog {entry : Text} (h : d.IsFile p) : (appendLog env lib d entry).1.IsFile p := by
  refine Disk.IsFile.andThen (keeps_createLib.isFile h) fun h => ?_
  split
  · exact h.write _
  · exact h

theorem placeOf_indexPath (dir : Text) : (placeOf lib (indexPath dir)).getLast? = some indexMd := by
  rw [indexPath, Disk.placeOf_concat lib (getLast?_joinPath _ isName_indexMd) isName_indexMd]
  simp

theorem keeps_writeDirIndex {files : List (List Name)} {dir : Text} (h : p.getLast? ≠ some indexMd) :
    d.Keeps (writeDirIndex env lib files dir d).1 p := by
  refine (Disk.keeps_createDirs d env.faults _ _ p).andThen (Disk.keeps_write ?_)
  rintro rfl
  exact h (placeOf_indexPath dir)

theorem keeps_writeDirIndexes {files : List (List Name)} {dirs : List Text}
    (h : p.getLast? ≠ some indexMd) : d.Keeps (writeDirIndexes env lib files dirs d).1 p := by
  induction dirs generalizing d with
  | nil => exact .refl d p
  | cons dir dirs ih => exact (keeps_writeDirIndex h).andThen ih

theorem keeps_writeRootIndex {files : List (List Name)} (h : p ≠ lib ++ [indexMd]) :
    d.Keeps (writeRootIndex env lib files d).1 p := by
  refine keeps_createLib.andThen (Disk.keeps_write ?_)
  rwa [placeOf_name lib isName_indexMd]

/-- The indexes are all that is written. -/
theorem keeps_generateIndex (h : p.getLast? ≠ some indexMd) : d.Keeps (generateIndex env lib d).1 p := by
  refine (keeps_writeDirIndexes h).andThen (keeps_writeRootIndex ?_)
  rintro rfl
  exact h (by simp)

end

end Nsmt.Okf
