import Nsmt.Lib.UnixPaths
import Mathlib.Data.List.Nodup

/-!
# Directories and files

A disk: directories in directories, and files in them with contents of any kind.
Paths are resolved piece by piece, so that `..` leads out of a directory only if
the directory is there. Files are written, moved, and listed by walking through
a directory.
-/

namespace Nsmt.Lib.Dirs

open UnixPaths

variable {κ : Type}

inductive Node (κ : Type)
  | dir
  | file (content : κ)
  deriving DecidableEq, Repr

instance (o : Option (Node κ)) : Decidable (o = some .dir) :=
  match o with
  | some .dir => isTrue rfl
  | some (.file _) => isFalse nofun
  | none => isFalse nofun

instance (name : Name) : Decidable (IsName name) := inferInstanceAs (Decidable (_ ∧ _))

/-- Places are given by the names that lead to them from the root. -/
structure Disk (κ : Type) where
  node : List Name → Option (Node κ)
  places : List (List Name)
  root : node [] = some .dir
  covers : ∀ p, node p ≠ none → p ∈ places
  tree : ∀ p name, node (p ++ [name]) ≠ none → node p = some .dir
  named : ∀ p, node p ≠ none → ∀ name ∈ p, IsName name

namespace Disk

/-- Nothing but the root. -/
def bare : Disk κ where
  node := fun p => if p = [] then some .dir else none
  places := [[]]
  root := rfl
  covers := by
    intro p hp
    split at hp
    · rename_i hnil
      exact hnil ▸ List.mem_singleton_self _
    · exact absurd rfl hp
  tree := by
    intro p name hp
    rw [if_neg (by simp)] at hp
    exact absurd rfl hp
  named := by
    intro p hp
    split at hp
    · rename_i hnil
      simp [hnil]
    · exact absurd rfl hp

/-- An entry of a directory is made, or a file is replaced. -/
def put (d : Disk κ) (dir : List Name) (name : Name) (new : Node κ) : Option (Disk κ) :=
  if h : d.node dir = some .dir ∧ IsName name ∧ d.node (dir ++ [name]) ≠ some .dir then
    some
      { node := fun p => if p = dir ++ [name] then some new else d.node p
        places := (dir ++ [name]) :: d.places
        root := by
          rw [if_neg (by simp), d.root]
        covers := by
          intro p hp
          split at hp
          · rename_i heq
            exact heq ▸ List.mem_cons_self ..
          · exact List.mem_cons_of_mem _ (d.covers p hp)
        tree := by
          intro p child hp
          split at hp
          · rename_i heq
            obtain ⟨rfl, -⟩ := List.append_inj' heq rfl
            rw [if_neg (by simp), h.1]
          · have hdir := d.tree p child hp
            rw [if_neg (by rintro rfl; exact h.2.2 hdir), hdir]
        named := by
          intro p hp
          split at hp
          · rename_i heq
            subst heq
            exact fun n hn => (List.mem_append.mp hn).elim (d.named dir (by simp [h.1]) n)
              fun hn => List.mem_singleton.mp hn ▸ h.2.1
          · exact d.named p hp }
  else none

/-- Nothing lies below the place. -/
def Empty (d : Disk κ) (p : List Name) : Prop :=
  ∀ q ∈ d.places, p <+: q → q = p ∨ (d.node q).isNone

instance (d : Disk κ) (p : List Name) : Decidable (d.Empty p) := inferInstanceAs (Decidable (∀ _ ∈ _, _))

/-- A file goes where nothing or a file is, a directory where nothing or an empty
directory is. -/
def fits (d : Disk κ) (dst : List Name) : Option (Node κ) → Bool
  | some .dir => d.node dst = none ∨ d.node dst = some .dir ∧ d.Empty dst
  | some (.file _) => d.node dst ≠ some .dir
  | none => false

/-- What `rename` asks of two places that differ. -/
structure Movable (d : Disk κ) (src dst : List Name) : Prop where
  parent : d.node dst.dropLast = some .dir
  named : ∀ name ∈ dst, IsName name
  ne_root : dst ≠ []
  apart : ¬ src <+: dst
  fits : d.fits dst (d.node src) = true

instance (d : Disk κ) (src dst : List Name) : Decidable (d.Movable src dst) :=
  decidable_of_iff (d.node dst.dropLast = some .dir ∧ (∀ name ∈ dst, IsName name) ∧ dst ≠ [] ∧
      ¬ src <+: dst ∧ d.fits dst (d.node src) = true)
    ⟨fun ⟨parent, named, ne_root, apart, fits⟩ => ⟨parent, named, ne_root, apart, fits⟩,
      fun h => ⟨h.parent, h.named, h.ne_root, h.apart, h.fits⟩⟩

/-- What lies at a place once `src` has become `dst`. -/
def nodeMoved (d : Disk κ) (src dst p : List Name) : Option (Node κ) :=
  if dst <+: p then d.node (src ++ p.drop dst.length) else if src <+: p then none else d.node p

/-- An entry is moved with all that lies below it. -/
def move (d : Disk κ) (src dst : List Name) : Option (Disk κ) :=
  if src = dst then
    if d.node src = none then none else some d
  else if h : d.Movable src dst then
    some
      { node := d.nodeMoved src dst
        places := d.places ++ d.places.map fun p => dst ++ p.drop src.length
        root := by
          have hsrc : ¬ src <+: [] := fun hnil => h.apart ((List.prefix_nil.mp hnil) ▸ List.nil_prefix)
          rw [nodeMoved, if_neg (fun hnil => h.ne_root (List.prefix_nil.mp hnil)), if_neg hsrc, d.root]
        covers := by
          intro p hp
          unfold nodeMoved at hp
          split at hp
          · rename_i hdst
            obtain ⟨rest, rfl⟩ := hdst
            rw [List.drop_left] at hp
            exact List.mem_append_right _ (List.mem_map.mpr ⟨_, d.covers _ hp, by rw [List.drop_left]⟩)
          · split at hp
            · exact absurd rfl hp
            · exact List.mem_append_left _ (d.covers p hp)
        tree := by
          intro p name hp
          unfold nodeMoved at hp ⊢
          split at hp
          · rename_i hdst
            rcases List.prefix_concat_iff.mp hdst with heq | hdst
            · -- The place itself: its parent is where it was.
              have hp' : p = dst.dropLast := by rw [heq, List.dropLast_concat]
              have hnot : ¬ dst <+: p := by
                intro hle
                have hlen := hle.length_le
                rw [heq, List.length_append, List.length_singleton] at hlen
                omega
              have hsrc : ¬ src <+: p := fun hle => h.apart (hle.trans (heq ▸ List.prefix_append ..))
              rw [if_neg hnot, if_neg hsrc, hp', h.parent]
            · obtain ⟨rest, rfl⟩ := hdst
              rw [List.append_assoc, List.drop_left, ← List.append_assoc] at hp
              rw [if_pos (List.prefix_append ..), List.drop_left]
              exact d.tree _ name hp
          · rename_i hdst
            split at hp
            · exact absurd rfl hp
            · rename_i hsrc
              rw [if_neg fun hle => hdst (hle.trans (List.prefix_append ..)),
                if_neg fun hle => hsrc (hle.trans (List.prefix_append ..))]
              exact d.tree p name hp
        named := by
          intro p hp
          unfold nodeMoved at hp
          split at hp
          · rename_i hdst
            obtain ⟨rest, rfl⟩ := hdst
            rw [List.drop_left] at hp
            intro n hn
            rcases List.mem_append.mp hn with hn | hn
            · exact h.named n hn
            · exact d.named _ hp n (List.mem_append_right _ hn)
          · split at hp
            · exact absurd rfl hp
            · exact d.named p hp }
  else none

-- ---------------------------------------------------------------------------
-- Paths
-- ---------------------------------------------------------------------------

/-- There are directories in front of all pieces. -/
def passable (d : Disk κ) : List Name → List Name → Bool
  | _, [] => true
  | at_, piece :: rest => d.node at_ = some .dir && d.passable (enter at_ piece) rest

end Disk

/-- Where a path starts. -/
def startOf (cwd : List Name) (path : Bytes) : List Name := if path.head? = some slash then [] else cwd

/-- The pieces of a path, without the empty ones behind a slash at its end. -/
def trimmed (path : Bytes) : List Name := ((path.splitOn slash).reverse.dropWhile fun piece => piece = []).reverse

/-- The components of the directory that a path says its entry is in. -/
def wayTo (path : Bytes) : List Name := ((path.splitOn slash).filter fun piece => !skipped piece).dropLast

/-- How the system behind the disk fails: places that it denies access to, places it
does not read, and what is left of a file that is not written to its end. -/
structure Faults (κ : Type) where
  denied : List Name → Bool
  unread : List Name → Bool
  torn : List Name → Option κ

def Faults.none : Faults κ where
  denied := fun _ => false
  unread := fun _ => false
  torn := fun _ => Option.none

/-- The next operation, unless this one has failed. -/
def andThen (r : Disk κ × Bool) (next : Disk κ → Disk κ × Bool) : Disk κ × Bool := if r.2 then next r.1 else r

namespace Disk

variable (cwd : List Name) (path : Bytes)

/-- What a path leads to. -/
def find (d : Disk κ) : Option (Node κ) :=
  if 0 ∉ path ∧ d.passable (startOf cwd path) (path.splitOn slash) then d.node (placeOf cwd path) else none

def exists_ (d : Disk κ) : Bool := (d.find cwd path).isSome

variable (faults : Faults κ)

def read (d : Disk κ) : Option κ :=
  match d.find cwd path with
  | some (.file content) => if faults.unread (placeOf cwd path) then none else some content
  | _ => none

/-- `create_dir_all`, from a directory on; it may fail half way. -/
def createDirs (d : Disk κ) : List Name → List Name → Disk κ × Bool
  | _, [] => (d, true)
  | at_, piece :: rest =>
    match d.node (enter at_ piece) with
    | some .dir => d.createDirs (enter at_ piece) rest
    | some (.file _) => (d, false)
    | none =>
      if faults.denied (enter at_ piece) then (d, false)
      else
        match d.put at_ piece .dir with
        | some d => d.createDirs (enter at_ piece) rest
        | none => (d, false)

/-- A file is written, or overwritten. -/
def write (d : Disk κ) (content : κ) : Disk κ × Bool :=
  if 0 ∉ path ∧ d.passable (startOf cwd path) (path.splitOn slash) ∧ ¬ faults.denied (placeOf cwd path) then
    let dir := (path.splitOn slash).dropLast.foldl enter (startOf cwd path)
    match d.put dir ((path.splitOn slash).getLast?.getD []) (.file ((faults.torn (placeOf cwd path)).getD content)) with
    | some d => (d, (faults.torn (placeOf cwd path)).isNone)
    | none => (d, false)
  else (d, false)

/-- `rename`; a slash at the end is for directories. -/
def rename (d : Disk κ) (dst : Bytes) : Disk κ × Bool :=
  if d.exists_ cwd path ∧ 0 ∉ dst ∧ d.passable (startOf cwd dst) (trimmed dst) ∧
      (∃ name ∈ (trimmed path).getLast?, IsName name) ∧ (∃ name ∈ (trimmed dst).getLast?, IsName name) ∧
      ¬ faults.denied (placeOf cwd path) ∧ ¬ faults.denied (placeOf cwd dst) then
    match d.move (placeOf cwd path) (placeOf cwd dst) with
    | some d => (d, true)
    | none => (d, false)
  else (d, false)

-- ---------------------------------------------------------------------------
-- Listing
-- ---------------------------------------------------------------------------

/-- `read_dir`. -/
def entries (d : Disk κ) (dir : List Name) : List Name :=
  ((d.places.filter fun p => p ≠ [] ∧ p.dropLast = dir ∧ (d.node p).isSome).map
    fun p => p.getLast?.getD []).dedup

/-- The files below a directory, but for those in directories that are skipped. -/
def walk (d : Disk κ) (skip : Name → Bool) : Nat → List Name → List (List Name)
  | 0, _ => []
  | depth + 1, dir => (d.entries dir).flatMap fun name =>
      match d.node (dir ++ [name]) with
      | some .dir => if skip name then [] else (d.walk skip depth (dir ++ [name])).map (name :: ·)
      | some (.file _) => [[name]]
      | none => []

def depth (d : Disk κ) : Nat := (d.places.map List.length).foldr max 0

def files (d : Disk κ) (skip : Name → Bool) (dir : List Name) : List (List Name) := d.walk skip d.depth dir

-- ---------------------------------------------------------------------------
-- Places
-- ---------------------------------------------------------------------------

section
variable {d d' : Disk κ} {p q dir src dst : List Name} {name : Name} {new : Node κ}

theorem node_put (h : d.put dir name new = some d') (p : List Name) :
    d'.node p = if p = dir ++ [name] then some new else d.node p := by
  unfold put at h
  split at h
  · rw [← Option.some.inj h]
  · cases h

theorem put_allowed (h : d.put dir name new = some d') :
    d.node dir = some .dir ∧ IsName name ∧ d.node (dir ++ [name]) ≠ some .dir := by
  unfold put at h
  split at h
  · assumption
  · cases h

/-- What lies below a place that is there lies in a directory. -/
theorem isDir_of_below (h : d.node (p ++ q) ≠ none) (hq : q ≠ []) : d.node p = some .dir := by
  induction q using List.reverseRecOn with
  | nil => exact absurd rfl hq
  | append_singleton q name ih =>
    rw [← List.append_assoc] at h
    have hdir := d.tree _ _ h
    cases q with
    | nil => simpa using hdir
    | cons first q => exact ih (by simp [hdir]) (by simp)

theorem node_eq_none_of_not_dir (h : d.node p ≠ some .dir) (hq : q ≠ []) : d.node (p ++ q) = none := by
  by_contra hsome
  exact h (isDir_of_below hsome hq)

theorem move_iff (hne : src ≠ dst) :
    (∃ d', d.move src dst = some d') ↔ d.Movable src dst := by
  unfold move
  rw [if_neg hne]
  split
  · rename_i h
    exact ⟨fun _ => h, fun _ => ⟨_, rfl⟩⟩
  · rename_i h
    exact ⟨nofun, fun hmovable => absurd hmovable h⟩

theorem node_move (h : d.move src dst = some d') (hne : src ≠ dst) (p : List Name) :
    d'.node p = d.nodeMoved src dst p := by
  unfold move at h
  rw [if_neg hne] at h
  split at h
  · rw [← Option.some.inj h]
  · cases h

theorem move_self (h : d.move p p = some d') : d' = d := by
  unfold move at h
  rw [if_pos rfl] at h
  split at h
  · cases h
  · exact (Option.some.inj h).symm

end

-- ---------------------------------------------------------------------------
-- Walking through a directory
-- ---------------------------------------------------------------------------

section
variable {d : Disk κ} {dir rel : List Name} {name : Name} {skip : Name → Bool} {depth : Nat}

theorem mem_entries : name ∈ d.entries dir ↔ d.node (dir ++ [name]) ≠ none := by
  rw [entries, List.mem_dedup, List.mem_map]
  constructor
  · rintro ⟨p, hp, rfl⟩
    rw [List.mem_filter] at hp
    obtain ⟨-, hp⟩ := hp
    obtain ⟨hne, rfl, hsome⟩ := of_decide_eq_true hp
    have hlast : p.getLast?.getD [] = p.getLast hne := by rw [List.getLast?_eq_some_getLast hne]; rfl
    rw [hlast, List.dropLast_append_getLast hne]
    exact Option.isSome_iff_ne_none.mp hsome
  · intro h
    refine ⟨dir ++ [name], List.mem_filter.mpr ⟨d.covers _ h, decide_eq_true ?_⟩, by simp⟩
    exact ⟨by simp, List.dropLast_concat, Option.isSome_iff_ne_none.mpr h⟩

theorem mem_walk : rel ∈ d.walk skip depth dir ↔
    rel ≠ [] ∧ rel.length ≤ depth ∧ (∃ content, d.node (dir ++ rel) = some (.file content)) ∧
      ∀ name ∈ rel.dropLast, skip name = false := by
  induction depth generalizing dir rel with
  | zero => simp +contextual [walk]
  | succ depth ih =>
    rw [walk, List.mem_flatMap]
    constructor
    · rintro ⟨name, -, hrel⟩
      split at hrel
      · split at hrel
        · cases hrel
        · rename_i hskip
          obtain ⟨rest, hrest, rfl⟩ := List.mem_map.mp hrel
          obtain ⟨hne, hlen, ⟨content, hfile⟩, hnames⟩ := ih.mp hrest
          refine ⟨by simp, by simpa using hlen, ⟨content, by simpa using hfile⟩, ?_⟩
          rw [List.dropLast_cons_of_ne_nil hne]
          exact List.forall_mem_cons.mpr ⟨by simpa using hskip, hnames⟩
      · rename_i content hfile
        rw [List.mem_singleton.mp hrel]
        exact ⟨by simp, by simp, ⟨content, hfile⟩, by simp⟩
      · cases hrel
    · rintro ⟨hne, hlen, ⟨content, hfile⟩, hnames⟩
      obtain ⟨name, rest, rfl⟩ := List.exists_cons_of_ne_nil hne
      cases rest with
      | nil =>
        refine ⟨name, mem_entries.mpr (by simp [hfile]), ?_⟩
        rw [hfile]
        exact List.mem_singleton_self _
      | cons next rest =>
        have hdir : d.node (dir ++ [name]) = some .dir :=
          isDir_of_below (by simp [hfile] : d.node (dir ++ [name] ++ (next :: rest)) ≠ none) (by simp)
        rw [List.dropLast_cons_of_ne_nil (by simp)] at hnames
        obtain ⟨hskip, hnames⟩ := List.forall_mem_cons.mp hnames
        refine ⟨name, mem_entries.mpr (by simp [hdir]), ?_⟩
        simp only [hdir, hskip, Bool.false_eq_true, if_false]
        refine List.mem_map_of_mem (ih.mpr ⟨by simp, by simpa using hlen, ⟨content, ?_⟩, hnames⟩)
        simpa using hfile

theorem length_le_depth {p : List Name} (h : d.node p ≠ none) : p.length ≤ d.depth := by
  have hmem := List.mem_map_of_mem (d.covers p h) (f := List.length)
  unfold Disk.depth
  generalize d.places.map List.length = lengths at hmem
  induction lengths with
  | nil => cases hmem
  | cons n lengths ih =>
    rcases List.mem_cons.mp hmem with heq | hmem
    · exact heq ▸ Nat.le_max_left ..
    · exact (ih hmem).trans (Nat.le_max_right ..)

theorem mem_files : rel ∈ d.files skip dir ↔
    rel ≠ [] ∧ (∃ content, d.node (dir ++ rel) = some (.file content)) ∧
      ∀ name ∈ rel.dropLast, skip name = false := by
  rw [files, mem_walk]
  refine and_congr_right fun _ => ⟨fun h => h.2, fun h => ⟨?_, h⟩⟩
  obtain ⟨⟨content, hfile⟩, -⟩ := h
  have hlen := length_le_depth (by simp [hfile] : d.node (dir ++ rel) ≠ none)
  rw [List.length_append] at hlen
  omega

theorem nodup_walk : (d.walk skip depth dir).Nodup := by
  induction depth generalizing dir with
  | zero => exact List.nodup_nil
  | succ depth ih =>
    rw [walk, List.nodup_flatMap]
    constructor
    · intro name _
      split
      · split
        · exact List.nodup_nil
        · exact ih.map (List.cons_injective)
      · exact List.nodup_singleton _
      · exact List.nodup_nil
    · refine (List.nodup_dedup _).imp fun {name other} hne => ?_
      -- What is found in an entry begins with its name.
      have hhead {name : Name} {rel : List Name} (h : rel ∈ (match d.node (dir ++ [name]) with
          | some .dir => if skip name then [] else (d.walk skip depth (dir ++ [name])).map (name :: ·)
          | some (.file _) => [[name]]
          | none => [])) : rel.head? = some name := by
        split at h
        · split at h
          · cases h
          · obtain ⟨rest, -, rfl⟩ := List.mem_map.mp h
            rfl
        · rw [List.mem_singleton.mp h]
          rfl
        · cases h
      intro rel hrel hother
      exact hne (Option.some.inj ((hhead hrel).symm.trans (hhead hother)))

theorem nodup_files : (d.files skip dir).Nodup := nodup_walk

end

-- ---------------------------------------------------------------------------
-- What the operations do
-- ---------------------------------------------------------------------------

section
variable {d : Disk κ} {cwd : List Name} {path : Bytes} {faults : Faults κ}

/-- A path that ends in a name leads there from the directory in front of it. -/
theorem placeOf_concat (cwd : List Name) {name : Name} (hlast : (path.splitOn slash).getLast? = some name) (hname : IsName name) :
    placeOf cwd path = (path.splitOn slash).dropLast.foldl enter (startOf cwd path) ++ [name] := by
  have hsplit : (path.splitOn slash).dropLast ++ [name] = path.splitOn slash :=
    List.dropLast_append_getLast? name hlast
  rw [placeOf, ← enter_name _ hname]
  conv_lhs => rw [← hsplit]
  rw [List.foldl_append]
  rfl

/-- The place is left as it is, but for a directory where nothing was. -/
def Keeps (d d' : Disk κ) (p : List Name) : Prop :=
  d'.node p = d.node p ∨ d.node p = none ∧ d'.node p = some .dir

variable {d' d'' : Disk κ} {p : List Name}

theorem Keeps.refl (d : Disk κ) (p : List Name) : d.Keeps d p := .inl rfl

theorem Keeps.trans (h : d.Keeps d' p) (h' : d'.Keeps d'' p) : d.Keeps d'' p := by
  rcases h' with hsame | ⟨hnone, hdir⟩
  · unfold Keeps
    rwa [hsame]
  · rcases h with hsame | ⟨-, hdir'⟩
    · exact .inr ⟨hsame ▸ hnone, hdir⟩
    · rw [hdir'] at hnone
      cases hnone

theorem Keeps.there (h : d.Keeps d' p) (hp : d.node p ≠ none) : d'.node p = d.node p :=
  h.resolve_right fun hnone => hp hnone.1

theorem Keeps.file_iff (h : d.Keeps d' p) {content : κ} :
    d'.node p = some (.file content) ↔ d.node p = some (.file content) := by
  rcases h with hsame | ⟨hnone, hdir⟩
  · rw [hsame]
  · simp [hnone, hdir]

theorem Keeps.andThen {r : Disk κ × Bool} {next : Disk κ → Disk κ × Bool} (h : d.Keeps r.1 p)
    (hnext : r.1.Keeps (next r.1).1 p) : d.Keeps (Dirs.andThen r next).1 p := by
  unfold Dirs.andThen
  split
  · exact h.trans hnext
  · exact h

theorem andThen_ok {r : Disk κ × Bool} {next : Disk κ → Disk κ × Bool} (h : (Dirs.andThen r next).2 = true) :
    r.2 = true ∧ Dirs.andThen r next = next r.1 := by
  unfold Dirs.andThen at h ⊢
  split at h
  · rename_i hr
    exact ⟨hr, if_pos hr⟩
  · rename_i hr
    exact absurd h hr

/-- Directories are made where nothing is. -/
theorem keeps_createDirs (d : Disk κ) (faults : Faults κ) (at_ pieces p : List Name) :
    d.Keeps (d.createDirs faults at_ pieces).1 p := by
  induction pieces generalizing d at_ with
  | nil => exact .inl rfl
  | cons piece pieces ih =>
    rw [createDirs]
    split
    · exact ih d _
    · exact .inl rfl
    · rename_i hvacant
      split
      · exact .inl rfl
      · split
        · rename_i d' hput
          refine Keeps.trans ?_ (ih _ (enter at_ piece))
          rw [enter_name at_ (put_allowed hput).2.1] at hvacant
          rw [Keeps, node_put hput p]
          split
          · rename_i hp
            exact .inr ⟨hp ▸ hvacant, rfl⟩
          · exact .inl rfl
        · exact .inl rfl

/-- A file is written in a directory, at the end of its path, or nothing is. -/
structure Written (d : Disk κ) (cwd : List Name) (path : Bytes) (faults : Faults κ) (content : κ)
    (d' : Disk κ) (ok : Bool) : Prop where
  last : ∃ name, (path.splitOn slash).getLast? = some name ∧ IsName name ∧
    (placeOf cwd path).getLast? = some name
  parent : d.node (placeOf cwd path).dropLast = some .dir
  not_dir : d.node (placeOf cwd path) ≠ some .dir
  node : ∀ p, d'.node p =
    if p = placeOf cwd path then some (.file ((faults.torn (placeOf cwd path)).getD content)) else d.node p
  ok_iff : ok = (faults.torn (placeOf cwd path)).isNone

theorem write_cases (d : Disk κ) (cwd : List Name) (path : Bytes) (faults : Faults κ) (content : κ) :
    d.write cwd path faults content = (d, false) ∨
      Written d cwd path faults content (d.write cwd path faults content).1
        (d.write cwd path faults content).2 := by
  unfold write
  split
  · dsimp only
    split
    · rename_i d' hput
      obtain ⟨hdir, hname, hnot⟩ := put_allowed hput
      cases hlast : (path.splitOn slash).getLast? with
      | none =>
        rw [hlast] at hname
        exact absurd rfl hname.1
      | some name =>
        simp only [hlast, Option.getD_some] at hput hname hnot
        have hplace := placeOf_concat cwd hlast hname
        refine .inr ⟨⟨name, hlast, hname, by rw [hplace]; simp⟩, ?_, ?_, fun p => ?_, rfl⟩
        · rw [hplace, List.dropLast_concat]
          exact hdir
        · rw [hplace]
          exact hnot
        · rw [node_put hput, hplace]
    · exact .inl rfl
  · exact .inl rfl

theorem keeps_write {content : κ} (h : p ≠ placeOf cwd path) :
    d.Keeps (d.write cwd path faults content).1 p := by
  rcases write_cases d cwd path faults content with hsame | hwritten
  · rw [hsame]
    exact .refl d p
  · exact .inl (by rw [hwritten.node, if_neg h])

def IsFile (d : Disk κ) (p : List Name) : Prop := ∃ content, d.node p = some (.file content)

instance (d : Disk κ) (p : List Name) : Decidable (d.IsFile p) :=
  match h : d.node p with
  | some (.file content) => isTrue ⟨content, h⟩
  | some .dir => isFalse fun ⟨_, hfile⟩ => by rw [h] at hfile; cases hfile
  | none => isFalse fun ⟨_, hfile⟩ => by rw [h] at hfile; cases hfile

theorem Keeps.isFile (h : d.Keeps d' p) (hfile : d.IsFile p) : d'.IsFile p :=
  hfile.imp fun _ hcontent => h.file_iff.mpr hcontent

theorem IsFile.write (h : d.IsFile p) (content : κ) : (d.write cwd path faults content).1.IsFile p := by
  by_cases hp : p = placeOf cwd path
  · rcases write_cases d cwd path faults content with hsame | hwritten
    · rwa [hsame]
    · exact ⟨_, by rw [hwritten.node, if_pos hp]⟩
  · exact (keeps_write hp).isFile h

theorem IsFile.andThen {r : Disk κ × Bool} {next : Disk κ → Disk κ × Bool} (h : r.1.IsFile p)
    (hnext : r.1.IsFile p → (next r.1).1.IsFile p) : (Dirs.andThen r next).1.IsFile p := by
  unfold Dirs.andThen
  split
  · exact hnext h
  · exact h

theorem isFile_of_write {content : κ} (h : (d.write cwd path faults content).2 = true) :
    (d.write cwd path faults content).1.IsFile (placeOf cwd path) := by
  rcases write_cases d cwd path faults content with hsame | hwritten
  · rw [hsame] at h
    cases h
  · exact ⟨_, by rw [hwritten.node, if_pos rfl]⟩

/-- An entry is moved, or stays because both paths lead to it. -/
structure Renamed (d : Disk κ) (src dst : List Name) (d' : Disk κ) : Prop where
  there : d.node src ≠ none
  same : src = dst → d' = d
  movable : src ≠ dst → d.Movable src dst
  node : src ≠ dst → ∀ p, d'.node p = d.nodeMoved src dst p

theorem rename_cases (d : Disk κ) (cwd : List Name) (path : Bytes) (faults : Faults κ) (dst : Bytes) :
    d.rename cwd path faults dst = (d, false) ∨
      (d.rename cwd path faults dst).2 = true ∧
        Renamed d (placeOf cwd path) (placeOf cwd dst) (d.rename cwd path faults dst).1 := by
  unfold rename
  split
  · rename_i hallowed
    split
    · rename_i d' hmove
      refine .inr ⟨rfl, ?_, fun heq => ?_, fun hne => (move_iff hne).mp ⟨d', hmove⟩, node_move hmove⟩
      · obtain ⟨hthere, -⟩ := hallowed
        unfold exists_ find at hthere
        split at hthere
        · exact Option.isSome_iff_ne_none.mp hthere
        · cases hthere
      · rw [heq] at hmove
        exact move_self hmove
    · exact .inl rfl
  · exact .inl rfl

end

end Disk

end Nsmt.Lib.Dirs
