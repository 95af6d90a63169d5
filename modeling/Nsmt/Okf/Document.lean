import Nsmt.Lib.Text
import Nsmt.Lib.Yaml

/-!
# OKF documents

The texts of concepts: how one is read, how `add` writes one, and how `edit`
replaces lines of its frontmatter. The YAML reader is a parameter.
-/

namespace Nsmt.Okf

open Nsmt.Lib

/-- The options of a command; `path` is the first argument that is none. -/
abbrev Opts := String → Option Text

/-- An option that is there and not empty. -/
def Opts.given (opts : Opts) (key : String) : Option Text := (opts key).filter fun v => v ≠ []

-- ---------------------------------------------------------------------------
-- The clock
-- ---------------------------------------------------------------------------

/-- Year, month and day; `/` of `i64` rounds towards zero. -/
def civilFromDays (z : Int) : Int × Int × Int :=
  let z := z + 719468
  let era := (if z ≥ 0 then z else z - 146096).tdiv 146097
  let doe := z - era * 146097
  let yoe := (doe - doe.tdiv 1460 + doe.tdiv 36524 - doe.tdiv 146096).tdiv 365
  let y := yoe + era * 400
  let doy := doe - (365 * yoe + yoe.tdiv 4 - yoe.tdiv 100)
  let mp := (5 * doy + 2).tdiv 153
  let d := doy - (153 * mp + 2).tdiv 5 + 1
  let m := if mp < 10 then mp + 3 else mp - 9
  (if m ≤ 2 then y + 1 else y, m, d)

/-- A number with zeros in front, and its sign before them. -/
def padded (width : Nat) (n : Int) : Text :=
  if n < 0 then '-' :: (toString n.natAbs).toList.leftpad (width - 1) '0'
  else (toString n.natAbs).toList.leftpad width '0'

def isoNow (secs : Nat) : Text :=
  let rem := secs % 86400
  let (y, mo, d) := civilFromDays (secs / 86400 : Nat)
  padded 4 y ++ "-".toList ++ padded 2 mo ++ "-".toList ++ padded 2 d ++ "T".toList ++
    padded 2 (rem / 3600 : Nat) ++ ":".toList ++ padded 2 (rem % 3600 / 60 : Nat) ++ ":".toList ++
    padded 2 (rem % 60 : Nat) ++ "Z".toList

-- ---------------------------------------------------------------------------
-- Reading
-- ---------------------------------------------------------------------------

def bom : Char := Char.ofNat 0xFEFF

def endMark : Text := "\n---".toList

def parseDoc (yaml : YamlReader) (content : Text) : Option (Yaml × Text) := do
  let content := (Text.strip [bom] content).getD content
  let rest ← Text.strip "---".toList content
  let (fm, body) ← Text.cut endMark rest
  let v ← yaml fm
  pure (v, Text.dropStart '\n' body)

def fmStr (v : Yaml) (key : String) : Option Text := (v.get key.toList).bind Yaml.asStr

def fmTags (v : Yaml) : List Text :=
  match v.get "tags".toList with
  | some (.sequence items) => items.filterMap Yaml.asStr
  | some (.string s) => Text.entries s
  | _ => []

-- ---------------------------------------------------------------------------
-- Writing
-- ---------------------------------------------------------------------------

def field (key : String) (val : Text) : Text := key.toList ++ ": ".toList ++ val ++ "\n".toList

def flowList (items : List Text) : Text := "[".toList ++ Text.joinWith ", ".toList items ++ "]".toList

def generated (by_ now : Text) : Text := "\x7b by: ".toList ++ by_ ++ ", at: ".toList ++ now ++ " \x7d".toList

def statuses : List Text := ["draft".toList, "stable".toList, "deprecated".toList]

def statusOf (opts : Opts) : Text := (opts "status").getD "stable".toList

/-- The frontmatter that `add` writes. -/
def addFrontmatter (opts : Opts) (ftype title now : Text) : Text :=
  let desc := (opts "description").getD []
  let resource := (opts "resource").getD []
  let tags := (opts "tags").getD []
  field "type" ftype ++ field "title" title ++
    (if desc = [] then [] else field "description" desc) ++
    (if resource = [] then [] else field "resource" resource) ++
    (if tags = [] then [] else field "tags" (flowList (Text.entries tags))) ++
    field "status" (statusOf opts) ++ field "generated" (generated "process:nsmt".toList now)

def addDocument (opts : Opts) (ftype title now : Text) : Text :=
  "---\n".toList ++ addFrontmatter opts ftype title now ++ "---\n\n# ".toList ++ title ++ "\n\n".toList

-- ---------------------------------------------------------------------------
-- Editing
-- ---------------------------------------------------------------------------

/-- The fields that `edit` is to write, in the order in which it writes them. -/
def changes (opts : Opts) (by_ now : Text) : List (String × Text) :=
  let change (key opt : String) := (opts.given opt).toList.map fun v => (key, v)
  change "type" "type" ++ change "title" "title" ++ change "description" "description" ++
    change "resource" "resource" ++
    ((opts.given "tags").toList.map fun v => ("tags", flowList (Text.entries v))) ++
    change "status" "status" ++ change "stale_after" "stale-after" ++ [("generated", generated by_ now)]

/-- The line is taken for that of the key. -/
def isLineOf (key : String) (line : Text) : Bool := key.toList ++ ":".toList <+: Text.trimStart line

/-- What stands behind the first `#`, with it. -/
def commentOf (line : Text) : Text := line.dropWhile (· ≠ '#')

def newLine (key : String) (val line : Text) : Text :=
  line.takeWhile isWhitespace ++ key.toList ++ ": ".toList ++ val ++ Text.trimEnd (commentOf line)

/-- The first line of the key is replaced, or there is a new one. -/
def setField (lines : List Text) (change : String × Text) : List Text :=
  match lines.findIdx? (isLineOf change.1) with
  | some i => lines.modify i (newLine change.1 change.2)
  | none => lines ++ [change.1.toList ++ ": ".toList ++ change.2]

/-- The lines of the frontmatter, as `edit` takes them from the whole text. -/
def rawLines (raw : Text) : Option (List Text) :=
  (Text.strip "---".toList raw).map fun inner =>
    Text.lines (Text.dropStart '\n' (((Text.cut endMark inner).map Prod.fst).getD inner))

def generatedBy (v : Yaml) : Text :=
  (((v.get "generated".toList).bind (Yaml.get "by".toList)).bind Yaml.asStr).getD "process:nsmt".toList

/-- What `edit` writes; `none` is an error. -/
def editDocument (yaml : YamlReader) (opts : Opts) (now raw : Text) : Option Text := do
  let (v, body) ← parseDoc yaml raw
  let lines ← rawLines raw
  if (opts.given "status").all (· ∈ statuses) then
    let edited := (changes opts (generatedBy v) now).foldl setField lines
    pure ("---\n".toList ++ Text.joinWith "\n".toList edited ++ "\n---\n\n".toList ++ body)
  else none

end Nsmt.Okf
