import Mathlib.Data.List.Basic

/-!
# Text

The functions on strings that programs read and clean their input with:
trimming, searching, and splitting at characters and into lines.
-/

namespace Nsmt.Lib

abbrev Text := List Char

instance : LawfulBEq Text := inferInstanceAs (LawfulBEq (List Char))

-- What holds of the characters of a text is decided on the text, not on all characters.
instance (priority := 1100) Text.decidableForall (p : Char → Prop) [DecidablePred p] (t : Text) :
    Decidable (∀ c ∈ t, p c) := List.decidableBAll p t

instance (priority := 1100) Text.decidableForallMem (p : Char → Prop) [DecidablePred p] (o : Option Char) :
    Decidable (∀ c ∈ o, p c) := Option.decidableForallMem o

instance (priority := 1100) Text.decidableExistsMem (p : Char → Prop) [DecidablePred p] (o : Option Char) :
    Decidable (∃ c ∈ o, p c) := Option.decidableExistsMem o

/-- The characters that `str::trim` takes off. -/
def isWhitespace (c : Char) : Bool :=
  (0x09 ≤ c.toNat && c.toNat ≤ 0x0D) || (0x2000 ≤ c.toNat && c.toNat ≤ 0x200A) ||
    [0x20, 0x85, 0xA0, 0x1680, 0x2028, 0x2029, 0x202F, 0x205F, 0x3000].contains c.toNat

def trim (s : String) : String :=
  String.ofList ((s.toList.dropWhile isWhitespace).reverse.dropWhile isWhitespace).reverse

namespace Text

def trimStart (t : Text) : Text := t.dropWhile isWhitespace

def trimEnd (t : Text) : Text := (t.reverse.dropWhile isWhitespace).reverse

/-- `str::trim`. -/
def trim (t : Text) : Text := trimEnd (trimStart t)

/-- The entries of a list that is separated by commas, but for the blank ones. -/
def entries (t : Text) : List Text :=
  ((t.splitOn ',').map fun entry => trimEnd (trimStart entry)).filter fun entry => entry ≠ []

/-- What stands in front of the first `mark` in a text, and behind it. -/
def cut (mark : Text) : Text → Option (Text × Text)
  | [] => if mark = [] then some ([], []) else none
  | c :: cs =>
    if mark <+: c :: cs then some ([], (c :: cs).drop mark.length)
    else (cut mark cs).map fun (front, rest) => (c :: front, rest)

/-- `strip_prefix`. -/
def strip (mark t : Text) : Option Text := if mark <+: t then some (t.drop mark.length) else none

/-- `trim_start_matches` with a character. -/
def dropStart (c : Char) (t : Text) : Text := t.dropWhile (· = c)

def replaceChar (old new : Char) (t : Text) : Text := t.map fun c => if c = old then new else c

def joinWith (sep : Text) (parts : List Text) : Text := sep.intercalate parts

def dropCr (line : Text) : Text := if line.getLast? = some '\r' then line.dropLast else line

/-- `str::lines`: an end of line may have a carriage return, and the last line need not
end. -/
def lines (t : Text) : List Text :=
  let pieces := t.splitOn '\n'
  pieces.dropLast.map dropCr ++ (pieces.getLast?.filter fun last => last ≠ []).toList

end Text

def commaEntries (s : String) : List String := (Text.entries s.toList).map String.ofList

end Nsmt.Lib
