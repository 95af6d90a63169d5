import Nsmt.Lib.DirBelow
import Nsmt.Okf.Library

/-!
# The commands of `okf`

The arguments name a command on the libraries below a root, or one inside a library.
Commands that only read and print are one here.
-/

namespace Nsmt.Okf

open Nsmt.Lib Nsmt.Lib.Utf8 Nsmt.Lib.UnixPaths Nsmt.Lib.Dirs

-- ---------------------------------------------------------------------------
-- Arguments
-- ---------------------------------------------------------------------------

/-- `valid_lib_name`, which is to keep paths from leading anywhere else. -/
def validLibName (name : Text) : Bool :=
  name ≠ [] && decide ((encode name).length ≤ 63) &&
    name.all fun c => c.isLower || c.isDigit || c = '.' || c = '_' || c = '-'

/-- An option takes the argument behind it, whatever that is; the last value counts. -/
def optionsOf : List Text → Opts
  | [] => fun _ => none
  | [arg] => fun key => if Text.strip "--".toList arg = some key.toList then some [] else none
  | arg :: val :: rest =>
    if "--".toList <+: arg then fun key =>
      (optionsOf rest key).or (if Text.strip "--".toList arg = some key.toList then some val else none)
    else optionsOf (val :: rest)

/-- The arguments that are neither options nor taken by one. -/
def positional : List Text → List Text
  | [] => []
  | [arg] => if "--".toList <+: arg then [] else [arg]
  | arg :: val :: rest => if "--".toList <+: arg then positional rest else arg :: positional (val :: rest)

def parseArgs (args : List Text) (start : Nat) : Opts := fun key =>
  if key = "path" then (positional (args.drop start)).head?.or (optionsOf (args.drop start) key)
  else optionsOf (args.drop start) key

inductive OkfCommand
  | libNew (opts : Opts)
  | libRm (opts : Opts) (force : Bool)
  | inLibrary (lib : Text) (command : LibCommand)
  | reads

def libCommand (sub : Text) (opts : Opts) : Option LibCommand :=
  if sub = "add".toList then some (.add opts)
  else if sub = "rm".toList then some (.rm opts)
  else if sub = "restore".toList then some (.restore opts)
  else if sub = "edit".toList then some (.edit opts)
  else if sub = "index".toList then some .index
  else if sub = "log".toList then some (.log opts)
  else none

def isForced (args : List Text) : Bool :=
  decide (parseArgs args 5 "force" = some "1".toList ∨ parseArgs args 5 "force" = some "true".toList) ||
    decide ("--force".toList ∈ args)

/-- What the arguments ask for; what is no command is an error, or prints the usage. -/
def commandOf (args : List Text) : OkfCommand :=
  let head := args[3]?.getD "help".toList
  let sub := args[4]?.getD "help".toList
  let opts := parseArgs args 5
  if head = "libs".toList then
    if sub = "new".toList then .libNew opts
    else if sub = "rm".toList then .libRm opts (isForced args)
    else .reads
  else if head ∈ ["help".toList, "--help".toList, "-h".toList] then .reads
  else ((libCommand sub opts).map (OkfCommand.inLibrary head)).getD .reads

-- ---------------------------------------------------------------------------
-- Libraries
-- ---------------------------------------------------------------------------

def quoted (opts : Opts) (key : String) : Text :=
  match opts.given key with
  | some t => "> ".toList ++ t ++ "\n\n".toList
  | none => []

def newIndex (opts : Opts) : Text :=
  "# Knowledge Bundle\n\n".toList ++ quoted opts "title" ++ quoted opts "description" ++
    "_Empty library. Run `yggd okf <lib> add <path> --type <Type>`._\n".toList

section
variable (env : Env) (root : List Name)

def cmdLibNew (opts : Opts) (d : OkfDisk) : OkfDisk × Bool :=
  match opts.given "path" with
  | some name =>
    if ¬ validLibName name ∨ d.exists_ root (encode name) then (d, false)
    else
      andThen (d.createDirs env.faults [] (root ++ (encode name).splitOn slash)) fun d =>
        andThen (d.write (placeOf root (encode name)) indexMd env.faults (.text (newIndex opts))) fun d =>
          d.write (placeOf root (encode name)) logMd env.faults (.text logHead)
  | none => (d, false)

/-- The name is not checked. -/
def cmdLibRm (opts : Opts) (force : Bool) (d : OkfDisk) : OkfDisk × Bool :=
  match opts.given "path" with
  | some name => if force then d.removeDirAll root (encode name) env.faults else (d, false)
  | none => (d, false)

/-- The library is `args[3]`; its name is checked, and it must be there. `..` passes the
check, and is taken as the place that it leads to. -/
def resolveLib (lib : Text) (d : OkfDisk) : Option (List Name) :=
  if validLibName lib ∧ d.find root (encode lib) = some .dir then some (placeOf root (encode lib)) else none

/-- `okf::run`: what is on the disk afterwards. -/
def runOkf (args : List Text) (d : OkfDisk) : OkfDisk :=
  match commandOf args with
  | .libNew opts => (cmdLibNew env root opts d).1
  | .libRm opts force => (cmdLibRm env root opts force d).1
  | .inLibrary lib command =>
    match resolveLib root lib d with
    | some place => (runCommand env place command d).1
    | none => d
  | .reads => d

end

end Nsmt.Okf
