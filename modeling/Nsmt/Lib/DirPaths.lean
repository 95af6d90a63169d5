import Nsmt.Lib.Dirs
import Mathlib.Data.List.TakeWhile

/-!
# The directories that a path passes

What is made on the way to a place and what must be there on it, read off the
places in front of the pieces of a path. A path that never leaves the directory it
starts from passes the same places below any other start.
-/

namespace Nsmt.Lib.Dirs

open UnixPaths

variable {κ : Type}

/-- The last piece of a path is a name, but for slashes behind it. -/
structure Splits (path : Bytes) (front : List Name) (name : Name) (tail : List Name) : Prop where
  split : path.splitOn slash = front ++ name :: tail
  isName : IsName name
  slashes : ∀ piece ∈ tail, piece = []

/-- No `..` leaves the directory in which the pieces start. -/
def Inside : List Name → List Name → Bool
  | _, [] => true
  | at_, piece :: rest => decide (piece = [46, 46] → at_ ≠ []) && Inside (enter at_ piece) rest

section
variable {at_ : List Name} {pieces : List Name}

theorem enter_cases (at_ : List Name) (piece : Name) :
    enter at_ piece = at_ ∨ enter at_ piece = at_.dropLast ∨ enter at_ piece = at_ ++ [piece] := by
  unfold enter
  split
  · exact .inl rfl
  · split
    · exact .inr (.inl rfl)
    · exact .inr (.inr rfl)

theorem enter_inside (base : List Name) {piece : Name} (h : piece = [46, 46] → at_ ≠ []) :
    enter (base ++ at_) piece = base ++ enter at_ piece := by
  unfold enter
  split
  · rfl
  · split
    · rename_i hup
      exact List.dropLast_append_of_ne_nil (h hup)
    · exact List.append_assoc ..

theorem scanl_inside (h : Inside at_ pieces = true) (base : List Name) :
    pieces.scanl enter (base ++ at_) = (pieces.scanl enter at_).map (base ++ ·) := by
  induction pieces generalizing at_ with
  | nil => rfl
  | cons piece pieces ih =>
    rw [Inside, Bool.and_eq_true, decide_eq_true_eq] at h
    rw [List.scanl_cons, List.scanl_cons, enter_inside base h.1, ih h.2, List.map_cons]

theorem foldl_inside (h : Inside at_ pieces = true) (base : List Name) :
    pieces.foldl enter (base ++ at_) = base ++ pieces.foldl enter at_ := by
  have hlast := congrArg List.getLast? (scanl_inside h base)
  rw [List.getLast?_map, List.getLast?_scanl, List.getLast?_scanl] at hlast
  exact Option.some.inj hlast

theorem inside_front {more : List Name} (h : Inside at_ (pieces ++ more) = true) : Inside at_ pieces = true := by
  induction pieces generalizing at_ with
  | nil => rfl
  | cons piece pieces ih =>
    rw [List.cons_append, Inside, Bool.and_eq_true] at h
    rw [Inside, Bool.and_eq_true]
    exact ⟨h.1, ih h.2⟩

/-- Pieces that are skipped lead to no further places. -/
theorem mem_scanl_filter {q : List Name} :
    q ∈ (pieces.filter fun piece => !skipped piece).scanl enter at_ ↔ q ∈ pieces.scanl enter at_ := by
  induction pieces generalizing at_ with
  | nil => rfl
  | cons piece pieces ih =>
    cases hskip : skipped piece with
    | true =>
      have henter : enter at_ piece = at_ := by simp [enter, hskip]
      rw [List.filter_cons_of_neg (by simp [hskip]), ih, List.scanl_cons, henter, List.mem_cons]
      refine ⟨.inr, Or.rec (fun hq => ?_) fun hq => hq⟩
      rw [hq]
      exact List.mem_of_head? List.head?_scanl
    | false =>
      rw [List.filter_cons_of_pos (by simp [hskip]), List.scanl_cons, List.scanl_cons, List.mem_cons,
        List.mem_cons, ih]

theorem foldl_enter_slashes (h : ∀ piece ∈ pieces, piece = []) : pieces.foldl enter at_ = at_ := by
  induction pieces with
  | nil => rfl
  | cons piece pieces ih =>
    obtain ⟨hnil, hrest⟩ := List.forall_mem_cons.mp h
    have henter : enter at_ piece = at_ := by simp [enter, skipped, hnil]
    rw [List.foldl_cons, henter, ih hrest]

theorem foldl_mem_scanl : pieces.foldl enter at_ ∈ pieces.scanl enter at_ :=
  List.mem_of_getLast? List.getLast?_scanl

end

namespace Splits

variable {path : Bytes} {front tail : List Name} {name : Name} (h : Splits path front name tail)
include h

theorem trimmed_eq : trimmed path = front ++ [name] := by
  have hdrop : tail.reverse.dropWhile (fun piece => decide (piece = [])) = [] := by
    rw [List.dropWhile_eq_nil_iff]
    exact fun piece hpiece => decide_eq_true (h.slashes piece (List.mem_reverse.mp hpiece))
  rw [trimmed, h.split, List.reverse_append, List.reverse_cons, List.append_assoc, List.dropWhile_append, hdrop]
  simp [h.isName.1]

theorem wayTo_eq : wayTo path = front.filter fun piece => !skipped piece := by
  have htail : tail.filter (fun piece => !skipped piece) = [] := by
    refine List.filter_eq_nil_iff.mpr fun piece hpiece => ?_
    simp [h.slashes piece hpiece, skipped]
  rw [wayTo, h.split, List.filter_append, List.filter_cons_of_pos (by simp [h.isName.not_skipped]), htail,
    List.dropLast_concat]

theorem placeOf_eq (cwd : List Name) : placeOf cwd path = front.foldl enter (startOf cwd path) ++ [name] := by
  rw [placeOf, h.split, List.foldl_append, List.foldl_cons, foldl_enter_slashes h.slashes,
    enter_name _ h.isName, startOf]

/-- Behind a name, a relative path passes what it passes by itself. -/
theorem joinPath {base : Name} (hbase : IsName base) (hrel : path.head? ≠ some slash) :
    Splits (joinPath base path) (base :: front) name tail where
  split := by
    have hjoin := joinPath_name [] hbase hrel
    rw [List.nil_append, List.nil_append] at hjoin
    rw [hjoin, splitOn_append_of_not_mem hbase.2.1, List.splitOn_cons_eq_if_modifyHead, if_pos (by simp), h.split]
    simp
  isName := h.isName
  slashes := h.slashes

end Splits

/-- How both paths of a `rename` must end. -/
theorem exists_splits {path : Bytes} (h : ∃ name ∈ (trimmed path).getLast?, IsName name) :
    ∃ front name tail, Splits path front name tail := by
  obtain ⟨name, hname, hisName⟩ := h
  have hsplit : (trimmed path).dropLast ++ [name] = trimmed path := List.dropLast_append_getLast? name hname
  refine ⟨(trimmed path).dropLast, name,
    ((path.splitOn slash).reverse.takeWhile fun piece => piece = []).reverse, ?_, hisName, fun piece hpiece => ?_⟩
  · rw [List.append_cons, hsplit, trimmed, ← List.reverse_append, List.takeWhile_append_dropWhile,
      List.reverse_reverse]
  · have hnil := List.mem_takeWhile_imp (List.mem_reverse.mp hpiece)
    exact of_decide_eq_true hnil

theorem placeOf_ne_nil {path : Bytes} (h : ∃ name ∈ (trimmed path).getLast?, IsName name) (cwd : List Name) :
    placeOf cwd path ≠ [] := by
  obtain ⟨front, name, tail, hsplits⟩ := exists_splits h
  rw [hsplits.placeOf_eq cwd]
  simp

/-- Names lead through the places in front of the last one. -/
theorem mem_scanl_names {at_ names q : List Name} (h : ∀ name ∈ names, IsName name) :
    q ∈ names.scanl enter at_ ↔ ∃ front, front <+: names ∧ q = at_ ++ front := by
  induction names generalizing at_ with
  | nil => simp
  | cons name names ih =>
    obtain ⟨hname, hnames⟩ := List.forall_mem_cons.mp h
    rw [List.scanl_cons, List.mem_cons, enter_name at_ hname, ih hnames]
    constructor
    · rintro (rfl | ⟨front, hfront, rfl⟩)
      · exact ⟨[], List.nil_prefix, by simp⟩
      · exact ⟨name :: front, List.cons_prefix_cons.mpr ⟨rfl, hfront⟩, by simp⟩
    · rintro ⟨front, hfront, rfl⟩
      cases front with
      | nil => exact .inl (by simp)
      | cons first front =>
        obtain ⟨rfl, hrest⟩ := List.cons_prefix_cons.mp hfront
        exact .inr ⟨front, hrest, by simp⟩

theorem startOf_joined (cwd : List Name) {names : List Name} (h : ∀ name ∈ names, IsName name) :
    startOf cwd (joined names) = cwd := if_neg (joined_head h)

theorem wayTo_joined {names : List Name} (h : ∀ name ∈ names, IsName name) (hne : names ≠ []) :
    wayTo (joined names) = names.dropLast := by
  rw [wayTo, splitOn_joined (fun name hname => (h name hname).2.1) hne, List.filter_eq_self.mpr]
  intro name hname
  simp [(h name hname).not_skipped]

theorem zero_not_mem_joined {names : List Name} (h : ∀ name ∈ names, IsName name) : 0 ∉ joined names := by
  induction names with
  | nil => exact List.not_mem_nil
  | cons name names ih =>
    obtain ⟨hname, hnames⟩ := List.forall_mem_cons.mp h
    by_cases hne : names = []
    · rw [hne, joined_single]
      exact hname.2.2.1
    · rw [joined_cons name hne, List.mem_append, List.mem_cons]
      rintro (hmem | hmem | hmem)
      · exact hname.2.2.1 hmem
      · exact absurd hmem (by decide)
      · exact ih hnames hmem

namespace Disk

variable {d d' : Disk κ} {at_ : List Name} {pieces : List Name} {faults : Faults κ}

-- ---------------------------------------------------------------------------
-- What must be there
-- ---------------------------------------------------------------------------

/-- What is in front of a place that is there is a directory. -/
theorem isDir_of_prefix {p q : List Name} (h : d.node (p ++ q) = some .dir) : d.node p = some .dir := by
  cases q with
  | nil => rwa [List.append_nil] at h
  | cons name q => exact isDir_of_below (by simp [h] : d.node (p ++ name :: q) ≠ none) (by simp)

theorem passable_concat {last : Name} :
    d.passable at_ (pieces ++ [last]) = true ↔ ∀ q ∈ pieces.scanl enter at_, d.node q = some .dir := by
  induction pieces generalizing at_ with
  | nil => simp [passable]
  | cons piece pieces ih =>
    rw [List.cons_append, passable, Bool.and_eq_true, decide_eq_true_eq, ih, List.scanl_cons, List.forall_mem_cons]

theorem passable_slashes (h : ∀ piece ∈ pieces, piece = []) :
    d.passable at_ pieces = true ↔ (pieces ≠ [] → d.node at_ = some .dir) := by
  induction pieces with
  | nil => simp [passable]
  | cons piece pieces ih =>
    obtain ⟨hnil, hrest⟩ := List.forall_mem_cons.mp h
    have henter : enter at_ piece = at_ := by simp [enter, skipped, hnil]
    rw [passable, Bool.and_eq_true, decide_eq_true_eq, henter, ih hrest]
    simp +contextual

theorem passable_append {more : List Name} :
    d.passable at_ (pieces ++ more) = (d.passable at_ pieces && d.passable (pieces.foldl enter at_) more) := by
  induction pieces generalizing at_ with
  | nil => rfl
  | cons piece pieces ih => rw [List.cons_append, passable, passable, ih, List.foldl_cons, Bool.and_assoc]

/-- The directories on the way are there, and with a slash behind it the entry is one. -/
theorem passable_iff {path : Bytes} {front tail : List Name} {name : Name} (h : Splits path front name tail) :
    d.passable at_ (path.splitOn slash) = true ↔ (∀ q ∈ front.scanl enter at_, d.node q = some .dir) ∧
      (tail ≠ [] → d.node (front.foldl enter at_ ++ [name]) = some .dir) := by
  rw [h.split, List.append_cons, passable_append, Bool.and_eq_true, passable_concat, List.foldl_concat,
    enter_name _ h.isName, passable_slashes h.slashes]

-- ---------------------------------------------------------------------------
-- What is made
-- ---------------------------------------------------------------------------

/-- Directories are made at the places that are passed only. -/
theorem node_createDirs {p : List Name} (h : p ∉ pieces.scanl enter at_) :
    (d.createDirs faults at_ pieces).1.node p = d.node p := by
  induction pieces generalizing d at_ with
  | nil => rfl
  | cons piece pieces ih =>
    rw [List.scanl_cons, List.mem_cons, not_or] at h
    rw [createDirs]
    split
    · exact ih h.2
    · rfl
    · split
      · rfl
      · split
        · rename_i d' hput
          have hne : p ≠ at_ ++ [piece] := by
            rintro rfl
            rw [enter_name at_ (put_allowed hput).2.1] at h
            exact h.2 (List.mem_of_head? List.head?_scanl)
          rw [ih h.2, node_put hput, if_neg hne]
        · rfl

theorem dirs_of_createDirs (hdir : d.node at_ = some .dir) (h : (d.createDirs faults at_ pieces).2 = true) :
    ∀ q ∈ pieces.scanl enter at_, (d.createDirs faults at_ pieces).1.node q = some .dir := by
  induction pieces generalizing d at_ with
  | nil =>
    intro q hq
    rw [List.scanl_nil, List.mem_singleton] at hq
    rw [hq]
    exact hdir
  | cons piece pieces ih =>
    have hfirst : (d.createDirs faults at_ (piece :: pieces)).1.node at_ = some .dir := by
      rw [(keeps_createDirs d faults at_ (piece :: pieces) at_).there (by simp [hdir]), hdir]
    rw [List.scanl_cons, List.forall_mem_cons]
    refine ⟨hfirst, ?_⟩
    rw [createDirs] at h ⊢
    split at h
    · rename_i hnode
      exact ih hnode h
    · cases h
    · split at h
      · cases h
      · rename_i hdenied
        rw [if_neg hdenied]
        split at h
        · rename_i d' hput
          refine ih ?_ h
          rw [enter_name at_ (put_allowed hput).2.1, node_put hput, if_pos rfl]
        · cases h

theorem exists_put {dir : List Name} {name : Name}
    (h : d.node dir = some .dir ∧ IsName name ∧ d.node (dir ++ [name]) ≠ some .dir) (new : Node κ) :
    ∃ d', d.put dir name new = some d' := by
  unfold put
  rw [dif_pos h]
  exact ⟨_, rfl⟩

/-- Where there is no file on the way, and what is to be made has a name, nothing fails. -/
theorem createDirs_ok (hdir : d.node at_ = some .dir)
    (hvacant : ∀ q ∈ pieces.scanl enter at_,
      d.node q = some .dir ∨ d.node q = none ∧ faults.denied q = false ∧ ∀ name ∈ q, IsName name) :
    (d.createDirs faults at_ pieces).2 = true := by
  induction pieces generalizing d at_ with
  | nil => rfl
  | cons piece pieces ih =>
    rw [List.scanl_cons, List.forall_mem_cons] at hvacant
    have hnext : enter at_ piece ∈ pieces.scanl enter (enter at_ piece) := List.mem_of_head? List.head?_scanl
    rw [createDirs]
    rcases hvacant.2 _ hnext with hnode | ⟨hnode, hdenied, hnamed⟩
    · rw [hnode]
      exact ih hnode hvacant.2
    · -- A place that is not there is neither this one nor in front of it.
      have hplace : enter at_ piece = at_ ++ [piece] := by
        rcases enter_cases at_ piece with heq | heq | heq
        · rw [heq, hdir] at hnode
          cases hnode
        · rw [heq] at hnode
          have hup : d.node at_.dropLast = some .dir := by
            obtain ⟨rest, hrest⟩ := List.dropLast_prefix at_
            rw [← hrest] at hdir
            exact isDir_of_prefix hdir
          rw [hup] at hnode
          cases hnode
        · exact heq
      have hname : IsName piece := hnamed piece (by rw [hplace]; simp)
      obtain ⟨d', hput⟩ := exists_put ⟨hdir, hname, by rw [← hplace, hnode]; simp⟩ .dir
      rw [hnode]
      simp only [hdenied, hput, Bool.false_eq_true, if_false]
      refine ih ?_ fun q hq => ?_
      · rw [node_put hput, if_pos hplace]
      · rw [node_put hput]
        split
        · exact .inl rfl
        · exact hvacant.2 q hq

theorem createDirs_of_dir (hnames : ∀ name ∈ pieces, IsName name) (hdir : d.node (at_ ++ pieces) = some .dir) :
    d.createDirs faults at_ pieces = (d, true) := by
  induction pieces generalizing at_ with
  | nil => rfl
  | cons name names ih =>
    obtain ⟨hname, hnames⟩ := List.forall_mem_cons.mp hnames
    have hbelow : d.node (at_ ++ [name] ++ names) = some .dir := by simpa using hdir
    rw [createDirs, enter_name at_ hname, isDir_of_prefix hbelow]
    exact ih hnames hbelow

/-- A file with this name can be written into a directory. -/
theorem write_name_ok {cwd : List Name} {name : Name} {content : κ} (hname : IsName name)
    (hdir : d.node cwd = some .dir) (hfile : d.node (cwd ++ [name]) ≠ some .dir)
    (hdenied : faults.denied (cwd ++ [name]) = false) (hwhole : faults.torn (cwd ++ [name]) = none) :
    (d.write cwd name faults content).2 = true := by
  have hsplit : name.splitOn slash = [name] := List.splitOn_eq_singleton hname.2.1
  have hstart : startOf cwd name = cwd := if_neg hname.head
  obtain ⟨d', hput⟩ := exists_put ⟨hdir, hname, hfile⟩ (.file content)
  have hallowed : 0 ∉ name ∧ d.passable (startOf cwd name) (name.splitOn slash) ∧
      ¬ faults.denied (placeOf cwd name) := by
    rw [hsplit, hstart, placeOf_name cwd hname, hdenied]
    exact ⟨hname.2.2.1, by simp [passable, hdir], by simp⟩
  rw [write, if_pos hallowed]
  simp [hsplit, hstart, placeOf_name cwd hname, hwhole, hput]

/-- A file can be written where all directories on the way are there. -/
theorem write_joined_ok {cwd names : List Name} {content : κ} (h : ∀ name ∈ names, IsName name) (hne : names ≠ [])
    (hdirs : ∀ front, front <+: names.dropLast → d.node (cwd ++ front) = some .dir)
    (hfile : d.node (cwd ++ names) ≠ some .dir) (hdenied : faults.denied (cwd ++ names) = false)
    (hwhole : faults.torn (cwd ++ names) = none) : (d.write cwd (joined names) faults content).2 = true := by
  obtain ⟨front, name, rfl⟩ := (List.eq_nil_or_concat names).resolve_left hne
  rw [List.concat_eq_append] at *
  rw [List.dropLast_concat] at hdirs
  have hfront : ∀ n ∈ front, IsName n := fun n hn => h n (List.mem_append_left _ hn)
  have hname : IsName name := h name (by simp)
  have hsplit := splitOn_joined (fun n hn => (h n hn).2.1) hne
  have hpass : d.passable cwd (front ++ [name]) = true := by
    refine passable_concat.mpr fun q hq => ?_
    obtain ⟨part, hpart, rfl⟩ := (mem_scanl_names hfront).mp hq
    exact hdirs part hpart
  obtain ⟨d', hput⟩ := exists_put ⟨hdirs front List.prefix_rfl, hname, by rwa [List.append_assoc]⟩ (.file content)
  have hallowed : 0 ∉ joined (front ++ [name]) ∧
      d.passable (startOf cwd (joined (front ++ [name]))) ((joined (front ++ [name])).splitOn slash) ∧
      ¬ faults.denied (placeOf cwd (joined (front ++ [name]))) := by
    rw [hsplit, startOf_joined cwd h, placeOf_joined cwd h hne, hdenied]
    exact ⟨zero_not_mem_joined h, hpass, by simp⟩
  rw [write, if_pos hallowed]
  simp [hsplit, startOf_joined cwd h, placeOf_joined cwd h hne, hwhole, foldl_enter_names cwd hfront, hput]

theorem write_passable {cwd : List Name} {path : Bytes} {content : κ} (h : (d.write cwd path faults content).2 = true) :
    0 ∉ path ∧ d.passable (startOf cwd path) (path.splitOn slash) = true := by
  unfold write at h
  split at h
  · rename_i hallowed
    exact ⟨hallowed.1, hallowed.2.1⟩
  · cases h

theorem find_iff {cwd : List Name} {path : Bytes} {node : Node κ} : d.find cwd path = some node ↔
    0 ∉ path ∧ d.passable (startOf cwd path) (path.splitOn slash) = true ∧ d.node (placeOf cwd path) = some node := by
  unfold find
  split
  · rename_i h
    simp [h.1, h.2]
  · rename_i h
    simp only [reduceCtorEq, false_iff]
    exact fun hall => h ⟨hall.1, hall.2.1⟩

/-- What was written is read again. -/
theorem read_write {cwd : List Name} {path : Bytes} {content : κ} (h : (d.write cwd path faults content).2 = true)
    (hread : faults.unread (placeOf cwd path) = false) :
    (d.write cwd path faults content).1.read cwd path faults = some content := by
  obtain ⟨hzero, hpass⟩ := write_passable h
  have hwritten := (write_cases d cwd path faults content).resolve_left fun hsame => by
    rw [hsame] at h
    cases h
  have hdirs (at_ : List Name) (pieces : List Name) (hpass : d.passable at_ pieces = true) :
      (d.write cwd path faults content).1.passable at_ pieces = true := by
    induction pieces generalizing at_ with
    | nil => rfl
    | cons piece pieces ih =>
      rw [passable, Bool.and_eq_true, decide_eq_true_eq] at hpass ⊢
      refine ⟨?_, ih _ hpass.2⟩
      rw [hwritten.node, if_neg, hpass.1]
      intro heq
      exact hwritten.not_dir (heq ▸ hpass.1)
  have hwhole := hwritten.ok_iff
  rw [h, eq_comm, Option.isNone_iff_eq_none] at hwhole
  have hfind : (d.write cwd path faults content).1.find cwd path = some (.file content) := by
    refine find_iff.mpr ⟨hzero, hdirs _ _ hpass, ?_⟩
    rw [hwritten.node, if_pos rfl, hwhole]
    rfl
  rw [read, hfind]
  simp [hread]

-- ---------------------------------------------------------------------------
-- Moving
-- ---------------------------------------------------------------------------

/-- What `rename` asks of its two paths. -/
structure Renames (d : Disk κ) (cwd : List Name) (path dst : Bytes) (faults : Faults κ) : Prop where
  there : d.exists_ cwd path = true
  no_zero : 0 ∉ dst
  passable : d.passable (startOf cwd dst) (trimmed dst) = true
  src_name : ∃ name ∈ (trimmed path).getLast?, IsName name
  dst_name : ∃ name ∈ (trimmed dst).getLast?, IsName name
  allowed : ¬ faults.denied (placeOf cwd path)
  allowed_dst : ¬ faults.denied (placeOf cwd dst)

variable {cwd : List Name} {path dst : Bytes}

theorem renames_of_rename (h : (d.rename cwd path faults dst).2 = true) : Renames d cwd path dst faults := by
  unfold rename at h
  split at h
  · rename_i hallowed
    obtain ⟨there, no_zero, passable, src_name, dst_name, allowed, allowed_dst⟩ := hallowed
    exact ⟨there, no_zero, passable, src_name, dst_name, allowed, allowed_dst⟩
  · cases h

theorem Renames.rename_ok (h : Renames d cwd path dst faults) (hmovable : d.Movable (placeOf cwd path) (placeOf cwd dst)) :
    (d.rename cwd path faults dst).2 = true := by
  have hne : placeOf cwd path ≠ placeOf cwd dst := by
    intro heq
    exact hmovable.apart (heq ▸ List.prefix_refl _)
  obtain ⟨d', hmove⟩ := (move_iff hne).mpr hmovable
  rw [rename, if_pos ⟨h.there, h.no_zero, h.passable, h.src_name, h.dst_name, h.allowed, h.allowed_dst⟩, hmove]

/-- Paths that lead somewhere still do when nothing that is there has gone. -/
theorem exists_keeps (h : d.exists_ cwd path = true) (hkeeps : ∀ p, d.Keeps d' p) : d'.exists_ cwd path = true := by
  have hpass (at_ : List Name) (pieces : List Name) (hpass : d.passable at_ pieces = true) :
      d'.passable at_ pieces = true := by
    induction pieces generalizing at_ with
    | nil => rfl
    | cons piece pieces ih =>
      rw [passable, Bool.and_eq_true, decide_eq_true_eq] at hpass ⊢
      exact ⟨by rw [(hkeeps at_).there (by simp [hpass.1]), hpass.1], ih _ hpass.2⟩
  obtain ⟨node, hnode⟩ := Option.isSome_iff_exists.mp h
  obtain ⟨hzero, hallowed, hthere⟩ := find_iff.mp hnode
  rw [exists_, Option.isSome_iff_exists]
  refine ⟨node, find_iff.mpr ⟨hzero, hpass _ _ hallowed, ?_⟩⟩
  rw [(hkeeps _).there (by simp [hthere]), hthere]

end Disk

end Nsmt.Lib.Dirs
