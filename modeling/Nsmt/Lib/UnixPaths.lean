import Nsmt.Lib.Utf8
import Mathlib.Data.List.Basic

/-!
# Paths of bytes

Paths as Unix has them: names of bytes with slashes between them. The path of
what lies below a directory, the way back from it to the names, and the names in
a path that is text.
-/

namespace Nsmt.Lib.UnixPaths

open Utf8

abbrev Name := Bytes

def slash : UInt8 := 47

def backslash : UInt8 := 92

/-- A name that an entry of a directory can have. -/
def IsName (name : Name) : Prop :=
  name ≠ [] ∧ slash ∉ name ∧ 0 ∉ name ∧ name ≠ [46] ∧ name ≠ [46, 46]

/-- The empty pieces and the dots of a path. -/
def skipped (piece : Name) : Bool := piece = [] ∨ piece = [46]

/-- `Path::join`: an absolute path replaces the base. -/
def joinPath (base path : Bytes) : Bytes :=
  if path.head? = some slash then path
  else if base = [] ∨ base.getLast? = some slash then base ++ path
  else base ++ slash :: path

/-- What is left of the pieces of a path behind these components. -/
def stripPieces : List Name → List Name → Option (List Name)
  | cs, [] => if cs = [] then some [] else none
  | cs, piece :: pieces =>
    if skipped piece then stripPieces cs pieces
    else
      match cs with
      | [] => some (piece :: pieces)
      | c :: cs => if c = piece then stripPieces cs pieces else none

def joined (names : List Name) : Bytes := [slash].intercalate names

/-- `Path::strip_prefix`, for a path that ends in a name. -/
def stripPrefix (base path : Bytes) : Option Bytes :=
  if (base.head? = some slash) = (path.head? = some slash) then
    (stripPieces ((base.splitOn slash).filter fun piece => !skipped piece) (path.splitOn slash)).map joined
  else none

/-- The path to what lies below a directory. -/
def pathBelow (base : Bytes) (names : List Name) : Bytes := names.foldl joinPath base

/-- One piece of a path: `..` leaves a directory. -/
def enter (names : List Name) (piece : Name) : List Name :=
  if skipped piece then names else if piece = [46, 46] then names.dropLast else names ++ [piece]

/-- Where a path leads from a working directory, as names from the root. -/
def placeOf (cwd : List Name) (path : Bytes) : List Name :=
  (path.splitOn slash).foldl enter (if path.head? = some slash then [] else cwd)

variable {name : Name} {names : List Name}

theorem IsName.not_skipped (h : IsName name) : skipped name = false := by
  simp [skipped, h.1, h.2.2.2.1]

theorem IsName.head (h : IsName name) : name.head? ≠ some slash := by
  intro hhead
  exact h.2.1 (List.mem_of_head? hhead)

theorem IsName.last (h : IsName name) : name.getLast? ≠ some slash := by
  intro hlast
  exact h.2.1 (List.mem_of_getLast? hlast)

@[simp] theorem joined_single (name : Name) : joined [name] = name := by simp [joined]

theorem joined_cons (name : Name) (h : names ≠ []) : joined (name :: names) = name ++ slash :: joined names := by
  obtain ⟨next, rest, rfl⟩ := List.exists_cons_of_ne_nil h
  simp [joined, List.intercalate, List.intersperse]

theorem joined_append (h : names ≠ []) {more : List Name} (hmore : more ≠ []) :
    joined (names ++ more) = joined names ++ slash :: joined more := by
  induction names with
  | nil => exact absurd rfl h
  | cons name names ih =>
    by_cases hne : names = []
    · rw [hne, List.singleton_append, joined_cons name hmore, joined_single]
    · rw [List.cons_append, joined_cons name (by simp [hne]), ih hne, joined_cons name hne]
      simp

theorem splitOn_joined (h : ∀ name ∈ names, slash ∉ name) (hne : names ≠ []) :
    (joined names).splitOn slash = names := List.splitOn_intercalate slash h hne

-- ---------------------------------------------------------------------------
-- Below a directory
-- ---------------------------------------------------------------------------

/-- What stands in front of the first name below a directory. -/
def asBase (base : Bytes) : Bytes :=
  if base = [] ∨ base.getLast? = some slash then base else base ++ [slash]

theorem joinPath_eq (base : Bytes) {path : Bytes} (h : path.head? ≠ some slash) :
    joinPath base path = asBase base ++ path := by
  unfold joinPath asBase
  rw [if_neg h]
  split <;> simp

theorem joinPath_name (front : Bytes) (hname : IsName name) {path : Bytes}
    (hpath : path.head? ≠ some slash) : joinPath (front ++ name) path = front ++ (name ++ slash :: path) := by
  have hlast : (front ++ name).getLast? ≠ some slash := by
    rw [List.getLast?_append_of_ne_nil _ hname.1]
    exact hname.last
  have hne : front ++ name ≠ [] := by simp [hname.1]
  rw [joinPath, if_neg hpath, if_neg (not_or.mpr ⟨hne, hlast⟩), List.append_assoc]

theorem pathBelow_eq (base : Bytes) (h : ∀ name ∈ names, IsName name) (hne : names ≠ []) :
    pathBelow base names = asBase base ++ joined names := by
  have hbelow (front : Bytes) (name : Name) (names : List Name) (hall : ∀ n ∈ name :: names, IsName n) :
      pathBelow (front ++ name) names = front ++ joined (name :: names) := by
    induction names generalizing front name with
    | nil => simp [pathBelow]
    | cons next names ih =>
      obtain ⟨hname, hnext⟩ := List.forall_mem_cons.mp hall
      have hstep := joinPath_name front hname (hnext next (by simp)).head
      rw [joined_cons name (by simp), pathBelow, List.foldl_cons, hstep, ← pathBelow,
        ← List.append_assoc, ← List.append_assoc]
      have hlater := ih (front ++ name ++ [slash]) next hnext
      simpa using hlater
  obtain ⟨name, names, rfl⟩ := List.exists_cons_of_ne_nil hne
  rw [pathBelow, List.foldl_cons, joinPath_eq base (h name (by simp)).head]
  exact hbelow _ name names h

theorem joined_head (h : ∀ name ∈ names, IsName name) : (joined names).head? ≠ some slash := by
  cases names with
  | nil => simp [joined]
  | cons name names =>
    obtain ⟨hname, -⟩ := List.forall_mem_cons.mp h
    cases names with
    | nil => simpa using hname.head
    | cons next names =>
      rw [joined_cons name (by simp), List.head?_append_of_ne_nil _ hname.1]
      exact hname.head

theorem joinPath_joined (base : Bytes) (h : ∀ name ∈ names, IsName name) (hne : names ≠ []) :
    joinPath base (joined names) = pathBelow base names := by
  rw [joinPath_eq base (joined_head h), pathBelow_eq base h hne]

theorem stripPieces_append (front : List Name) {pieces : List Name}
    (h : ∀ piece ∈ pieces.head?, skipped piece = false) :
    stripPieces (front.filter fun piece => !skipped piece) (front ++ pieces) = some pieces := by
  induction front with
  | nil =>
    cases pieces with
    | nil => rfl
    | cons piece pieces => simp [stripPieces, h piece (by simp)]
  | cons piece front ih =>
    cases hskip : skipped piece with
    | true => simpa [stripPieces, hskip] using ih
    | false => simpa [stripPieces, hskip] using ih

/-- The pieces of a path below a directory: some with the components of the
directory, then those of the path. -/
theorem splitOn_below (base : Bytes) :
    ∃ front, (base.splitOn slash).filter (fun piece => !skipped piece) =
        front.filter (fun piece => !skipped piece) ∧
      ∀ path, (asBase base ++ path).splitOn slash = front ++ path.splitOn slash := by
  unfold asBase
  split
  · rename_i hbase
    rcases hbase with rfl | hlast
    · exact ⟨[], by simp [skipped], fun path => by simp⟩
    · obtain ⟨front, rfl⟩ := List.getLast?_eq_some_iff.mp hlast
      refine ⟨front.splitOn slash, ?_, fun path => ?_⟩
      · rw [List.splitOn_append_cons_self, List.filter_append]
        simp [skipped]
      · rw [List.append_assoc, List.singleton_append, List.splitOn_append_cons_self]
  · refine ⟨base.splitOn slash, rfl, fun path => ?_⟩
    rw [List.append_assoc, List.singleton_append, List.splitOn_append_cons_self]

theorem asBase_head (base : Bytes) {path : Bytes} (h : path.head? ≠ some slash) :
    (asBase base ++ path).head? = some slash ↔ base.head? = some slash := by
  by_cases hbase : base = []
  · simp [hbase, asBase, h]
  · have hfirst : (asBase base).head? = base.head? := by
      unfold asBase
      split
      · rfl
      · rw [List.head?_append_of_ne_nil _ hbase]
    have hne : asBase base ≠ [] := by
      intro hnil
      rw [hnil, List.head?_nil] at hfirst
      exact hbase (List.head?_eq_none_iff.mp hfirst.symm)
    rw [List.head?_append_of_ne_nil _ hne, hfirst]

theorem stripPrefix_pathBelow (base : Bytes) (h : ∀ name ∈ names, IsName name) (hne : names ≠ []) :
    stripPrefix base (pathBelow base names) = some (joined names) := by
  obtain ⟨front, hfront, hsplit⟩ := splitOn_below base
  have hreal : ∀ name ∈ names.head?, skipped name = false := fun name hname =>
    (h name (List.mem_of_head? hname)).not_skipped
  rw [pathBelow_eq base h hne, stripPrefix, if_pos (by rw [asBase_head base (joined_head h)]), hsplit,
    hfront, splitOn_joined (fun name hname => (h name hname).2.1) hne, stripPieces_append front hreal,
    Option.map_some]

-- ---------------------------------------------------------------------------
-- Where a path leads
-- ---------------------------------------------------------------------------

/-- A place is a beginning of where the path starts, and pieces of the path. -/
theorem foldl_enter (start : List Name) (pieces : List Name) :
    ∃ k later, pieces.foldl enter start = start.take k ++ later ∧ ∀ piece ∈ later, piece ∈ pieces := by
  induction pieces generalizing start with
  | nil => exact ⟨start.length, [], by simp, by simp⟩
  | cons piece pieces ih =>
    obtain ⟨k, later, hfold, hlater⟩ := ih (enter start piece)
    have hmem : ∀ q ∈ later, q ∈ piece :: pieces := fun q hq => List.mem_cons_of_mem _ (hlater q hq)
    rw [List.foldl_cons, hfold]
    unfold enter
    split
    · exact ⟨k, later, rfl, hmem⟩
    · split
      · exact ⟨min k (start.length - 1), later, by rw [List.dropLast_eq_take, List.take_take], hmem⟩
      · refine ⟨k, [piece].take (k - start.length) ++ later, ?_, ?_⟩
        · rw [List.take_append, List.append_assoc]
        · rintro q hq
          rcases List.mem_append.mp hq with hhere | hq
          · exact List.mem_singleton.mp (List.mem_of_mem_take hhere) ▸ List.mem_cons_self ..
          · exact hmem q hq

theorem enter_name (start : List Name) (h : IsName name) : enter start name = start ++ [name] := by
  simp [enter, h.not_skipped, h.2.2.2.2]

theorem foldl_enter_names (start : List Name) (h : ∀ name ∈ names, IsName name) :
    names.foldl enter start = start ++ names := by
  induction names generalizing start with
  | nil => simp
  | cons name names ih =>
    obtain ⟨hname, hnames⟩ := List.forall_mem_cons.mp h
    rw [List.foldl_cons, enter_name start hname, ih _ hnames, List.append_assoc, List.singleton_append]

theorem placeOf_name (cwd : List Name) (h : IsName name) : placeOf cwd name = cwd ++ [name] := by
  rw [placeOf, List.splitOn_eq_singleton h.2.1, if_neg h.head, List.foldl_cons, enter_name _ h, List.foldl_nil]

/-- The last piece of a path to which a name is joined. -/
theorem getLast?_joinPath (base : Bytes) (h : IsName name) :
    ((joinPath base name).splitOn slash).getLast? = some name := by
  obtain ⟨front, -, hjoin⟩ := splitOn_below base
  rw [joinPath_eq base h.head, hjoin name, List.splitOn_eq_singleton h.2.1]
  simp

theorem joinPath_joined_name (h : ∀ name ∈ names, IsName name) (hne : names ≠ []) (hname : IsName name) :
    joinPath (joined names) name = joined (names ++ [name]) := by
  have hbase : asBase [] = [] := rfl
  have hbelow := pathBelow_eq [] h hne
  rw [hbase, List.nil_append] at hbelow
  have hconcat : ∀ n ∈ names ++ [name], IsName n := by
    intro n hn
    exact (List.mem_append.mp hn).elim (h n) fun hn => List.mem_singleton.mp hn ▸ hname
  calc joinPath (joined names) name
      = pathBelow [] (names ++ [name]) := by rw [← hbelow, pathBelow, pathBelow, List.foldl_concat]
    _ = joined (names ++ [name]) := by rw [pathBelow_eq [] hconcat (by simp), hbase, List.nil_append]

theorem placeOf_joined (cwd : List Name) (h : ∀ name ∈ names, IsName name) (hne : names ≠ []) :
    placeOf cwd (joined names) = cwd ++ names := by
  rw [placeOf, if_neg (joined_head h), splitOn_joined (fun name hname => (h name hname).2.1) hne,
    foldl_enter_names _ h]

/-- Where relative paths joined to a directory start. -/
theorem placeOf_joinPath (cwd : List Name) (base : Bytes) :
    ∃ start, ∀ path : Bytes, path.head? ≠ some slash →
      placeOf cwd (joinPath base path) = (path.splitOn slash).foldl enter start := by
  obtain ⟨front, -, hsplit⟩ := splitOn_below base
  refine ⟨front.foldl enter (if base.head? = some slash then [] else cwd), fun path hpath => ?_⟩
  simp only [placeOf, joinPath_eq base hpath, asBase_head base hpath, hsplit, List.foldl_append]

/-- A path that leads to a place below a directory has the names of the place. -/
theorem names_of_place {cwd : List Name} {base path : Bytes} (h : ∀ name ∈ names, IsName name)
    (hne : names ≠ [])
    (hplace : placeOf cwd (joinPath base path) = placeOf cwd (pathBelow base names)) :
    ∀ name ∈ names, name ∈ path.splitOn slash := by
  obtain ⟨start, hstart⟩ := placeOf_joinPath cwd base
  have hbelow : placeOf cwd (pathBelow base names) = start ++ names := by
    rw [← joinPath_joined base h hne, hstart _ (joined_head h),
      splitOn_joined (fun name hname => (h name hname).2.1) hne, foldl_enter_names _ h]
  -- The pieces behind what is kept of the start have the names at their end.
  have hsuffix (from_ : List Name) (k : Nat) (later : List Name) (hlen : (from_.take k).length ≤ start.length)
      (heq : from_.take k ++ later = start ++ names) : names <:+ later := by
    have hlater : later <:+ start ++ names := heq ▸ List.suffix_append ..
    refine List.suffix_of_suffix_length_le (List.suffix_append start names) hlater ?_
    have hlens := congrArg List.length heq
    simp only [List.length_append] at hlens
    omega
  by_cases habsolute : path.head? = some slash
  · obtain ⟨k, later, hfold, hlater⟩ := foldl_enter [] (path.splitOn slash)
    have hpath : placeOf cwd (joinPath base path) = [].take k ++ later := by
      rw [joinPath, if_pos habsolute, placeOf, if_pos habsolute, hfold]
    intro name hname
    exact hlater name ((hsuffix [] k later (by simp) (hpath ▸ hplace.trans hbelow)).subset hname)
  · obtain ⟨k, later, hfold, hlater⟩ := foldl_enter start (path.splitOn slash)
    rw [hstart path habsolute, hfold, hbelow] at hplace
    intro name hname
    exact hlater name ((hsuffix start k later (by simp) hplace).subset hname)

-- ---------------------------------------------------------------------------
-- Paths that are text
-- ---------------------------------------------------------------------------

def IsText (bytes : Bytes) : Prop := ∃ cs, encode cs = bytes

theorem splitOn_append_of_not_mem {front rest : Bytes} (h : slash ∉ front) :
    (front ++ rest).splitOn slash = (rest.splitOn slash).modifyHead (front ++ ·) := by
  induction front with
  | nil => cases hrest : rest.splitOn slash <;> simp [hrest]
  | cons b front ih =>
    simp only [List.mem_cons, not_or] at h
    rw [List.cons_append, List.splitOn_cons_eq_if_modifyHead, if_neg (by simpa using Ne.symm h.1),
      ih h.2, List.modifyHead_modifyHead]
    rfl

theorem mem_splitOn_encode {cs : List Char} {piece : Name} (h : piece ∈ (encode cs).splitOn slash) :
    ∃ part, encode part = piece ∧ ∀ c ∈ part, c ∈ cs := by
  induction cs generalizing piece with
  | nil => exact ⟨[], by simpa [eq_comm] using h, by simp⟩
  | cons c cs ih =>
    have hrest {piece : Name} (h : piece ∈ (encode cs).splitOn slash) :
        ∃ part, encode part = piece ∧ ∀ d ∈ part, d ∈ c :: cs := by
      obtain ⟨part, hpart, hmem⟩ := ih h
      exact ⟨part, hpart, fun d hd => List.mem_cons_of_mem _ (hmem d hd)⟩
    rw [encode_cons] at h
    by_cases hslash : slash ∈ String.utf8EncodeChar c
    · have hc := of_mem_encodeChar hslash (by decide)
      have hbytes : String.utf8EncodeChar c = [slash] := by
        rw [encodeChar_ascii (by rw [hc]; decide), hc]
        rfl
      have hsplit := List.splitOn_append_cons_self (a := slash) [] (encode cs)
      rw [List.nil_append] at hsplit
      rw [hbytes, List.singleton_append, hsplit] at h
      rcases List.mem_append.mp h with hempty | h
      · exact ⟨[], by simpa [eq_comm] using hempty, by simp⟩
      · exact hrest h
    · rw [splitOn_append_of_not_mem hslash] at h
      obtain ⟨head, tail, htail⟩ := List.exists_cons_of_ne_nil (List.splitOn_ne_nil slash (encode cs))
      rw [htail, List.modifyHead_cons] at h
      rcases List.mem_cons.mp h with rfl | h
      · have hhead : head ∈ (encode cs).splitOn slash := by simp [htail]
        obtain ⟨part, rfl, hmem⟩ := ih hhead
        exact ⟨c :: part, rfl, List.forall_mem_cons.mpr
          ⟨List.mem_cons_self .., fun d hd => List.mem_cons_of_mem _ (hmem d hd)⟩⟩
      · exact hrest (by simp [htail, h])

theorem joined_text {names : List Name} (h : ∀ name ∈ names, IsText name ∧ backslash ∉ name) :
    ∃ cs, encode cs = joined names ∧ '\\' ∉ cs := by
  induction names with
  | nil => exact ⟨[], rfl, by simp⟩
  | cons name names ih =>
    obtain ⟨⟨⟨part, rfl⟩, hback⟩, hnames⟩ := List.forall_mem_cons.mp h
    have hpart : '\\' ∉ part := fun hmem => hback (List.mem_flatMap.mpr ⟨_, hmem, by decide⟩)
    by_cases hne : names = []
    · exact ⟨part, by rw [hne, joined_single], hpart⟩
    · obtain ⟨cs, hcs, hrest⟩ := ih hnames
      refine ⟨part ++ '/' :: cs, ?_, by simp [hpart, hrest]⟩
      rw [joined_cons _ hne, encode_append, encode_cons, hcs]
      rfl

end Nsmt.Lib.UnixPaths
