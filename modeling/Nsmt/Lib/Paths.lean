import Mathlib.Data.List.Induction
import Mathlib.Data.List.TakeWhile

/-!
# Slash-separated paths

Joining of path strings as `std::path` does it, and lexical normalisation: a
`Place` is where a path leads once its `.` and `..` are cancelled, without a
look at the disk. `within_join` says when a joined path stays below a directory.
-/

namespace Nsmt.Lib.Paths

abbrev Piece := List Char

/-- What stands between the slashes. -/
def pieces : List Char → List Piece
  | [] => [[]]
  | c :: cs =>
    if c = '/' then [] :: pieces cs
    else
      match pieces cs with
      | [] => [[c]]
      | piece :: rest => (c :: piece) :: rest

def isAbsolute (s : String) : Bool := s.toList.head? = some '/'

/-- `Path::join`: an absolute path replaces the base. -/
def join (base s : String) : String :=
  if isAbsolute s then s
  else if base = "" ∨ base.toList.getLast? = some '/' then base ++ s
  else base ++ "/" ++ s

/-- `Path::parent` of a path whose last piece is not empty: the path up to and
with its last slash. -/
def parent (s : String) : String := String.ofList (s.toList.reverse.dropWhile (· ≠ '/')).reverse

/-- `up` levels above the working directory, or the root, and from there down
along `names`. -/
structure Place where
  absolute : Bool
  up : Nat
  names : List Piece
  deriving DecidableEq, Repr

namespace Place

/-- `..`, which stays where it is at the root. -/
def leave (p : Place) : Place :=
  if p.names = [] then
    if p.absolute then p else { p with up := p.up + 1 }
  else { p with names := p.names.dropLast }

def enter (p : Place) (piece : Piece) : Place :=
  if piece = [] ∨ piece = ['.'] then p
  else if piece = ['.', '.'] then p.leave
  else { p with names := p.names ++ [piece] }

def walk (p : Place) (ps : List Piece) : Place := ps.foldl enter p

/-- `k` times up. -/
def climb (p : Place) : Nat → Place
  | 0 => p
  | k + 1 => (p.climb k).leave

def descend (p : Place) (names : List Piece) : Place := { p with names := p.names ++ names }

/-- The place is the directory or lies below it. -/
def Within (q dir : Place) : Prop :=
  q.absolute = dir.absolute ∧ q.up = dir.up ∧ dir.names <+: q.names

/-- The place is an entry of the directory. -/
def EntryOf (q dir : Place) : Prop :=
  q.absolute = dir.absolute ∧ q.up = dir.up ∧ ∃ name, q.names = dir.names ++ [name]

end Place

def normalize (s : String) : Place :=
  Place.walk { absolute := isAbsolute s, up := 0, names := [] } (pieces s.toList)

/-- Neither empty nor one of the two special pieces. -/
def Ordinary (piece : Piece) : Prop := piece ≠ [] ∧ piece ≠ ['.'] ∧ piece ≠ ['.', '.']

-- ---------------------------------------------------------------------------
-- Pieces
-- ---------------------------------------------------------------------------

theorem pieces_ne_nil (cs : List Char) : pieces cs ≠ [] := by
  cases cs with
  | nil => simp [pieces]
  | cons c cs =>
    rw [pieces]
    split
    · simp
    · split <;> simp

theorem pieces_append (a b : List Char) : pieces (a ++ '/' :: b) = pieces a ++ pieces b := by
  induction a with
  | nil => simp [pieces]
  | cons c a ih =>
    rw [List.cons_append, pieces, pieces, ih]
    by_cases hc : c = '/'
    · simp [hc]
    · simp only [hc, if_false]
      cases hp : pieces a with
      | nil => exact absurd hp (pieces_ne_nil a)
      | cons piece rest => rfl

theorem mem_of_mem_pieces {cs : List Char} {piece : Piece} {c : Char} (h : piece ∈ pieces cs)
    (hc : c ∈ piece) : c ∈ cs := by
  induction cs generalizing piece with
  | nil => simp_all [pieces]
  | cons d cs ih =>
    rw [pieces] at h
    split at h
    · rcases List.mem_cons.mp h with rfl | hrest
      · cases hc
      · exact List.mem_cons_of_mem _ (ih hrest hc)
    · split at h
      · rw [List.mem_singleton.mp h, List.mem_singleton] at hc
        exact hc ▸ List.mem_cons_self ..
      · rename_i first rest hpieces
        rcases List.mem_cons.mp h with rfl | hrest
        · rcases List.mem_cons.mp hc with rfl | hfirst
          · exact List.mem_cons_self ..
          · exact List.mem_cons_of_mem _ (ih (by simp [hpieces]) hfirst)
        · exact List.mem_cons_of_mem _ (ih (by simp [hpieces, hrest]) hc)

theorem pieces_name {cs : List Char} (h : '/' ∉ cs) : pieces cs = [cs] := by
  induction cs with
  | nil => rfl
  | cons c cs ih =>
    rw [List.mem_cons, not_or] at h
    rw [pieces, ih h.2, if_neg (Ne.symm h.1)]

theorem split_parent (s : String) :
    ∃ last, s.toList = (parent s).toList ++ last ∧ '/' ∉ last ∧
      ((parent s).toList = [] ∨ ∃ front, (parent s).toList = front ++ ['/']) := by
  refine ⟨(s.toList.reverse.takeWhile (· ≠ '/')).reverse, ?_, ?_, ?_⟩
  · rw [parent, String.toList_ofList, ← List.reverse_append, List.takeWhile_append_dropWhile,
      List.reverse_reverse]
  · intro hmem
    have hslash := List.mem_takeWhile_imp (List.mem_reverse.mp hmem)
    simp at hslash
  · rw [parent, String.toList_ofList]
    cases hdrop : s.toList.reverse.dropWhile (· ≠ '/') with
    | nil => exact .inl rfl
    | cons c cs =>
      have hc : c = '/' := by
        have hhead := List.head_dropWhile_not (fun c => decide (c ≠ '/')) (l := s.toList.reverse)
          (by rw [hdrop]; exact List.cons_ne_nil _ _)
        simpa only [hdrop, List.head_cons, decide_eq_false_iff_not, ne_eq, not_not] using hhead
      exact .inr ⟨cs.reverse, by rw [hc, List.reverse_cons]⟩

-- ---------------------------------------------------------------------------
-- Walking
-- ---------------------------------------------------------------------------

namespace Place

theorem walk_append (p : Place) (a b : List Piece) : p.walk (a ++ b) = (p.walk a).walk b :=
  List.foldl_append

@[simp] theorem walk_nil (p : Place) : p.walk [] = p := rfl

@[simp] theorem walk_empty_piece (p : Place) : p.walk [[]] = p := by simp [walk, enter]

theorem walk_name (p : Place) (h : Ordinary piece) : p.walk [piece] = p.descend [piece] := by
  obtain ⟨hempty, hdot, hdots⟩ := h
  simp [walk, enter, descend, hempty, hdot, hdots]

@[simp] theorem descend_nil (p : Place) : p.descend [] = p := by simp [descend]

theorem descend_descend (p : Place) (a b : List Piece) : (p.descend a).descend b = p.descend (a ++ b) := by
  simp [descend]

theorem descend_inj {p : Place} {a b : List Piece} (h : p.descend a = p.descend b) : a = b :=
  List.append_cancel_left (congrArg Place.names h)

theorem descend_inj_left {p q : Place} {names : List Piece} (h : p.descend names = q.descend names) :
    p = q := by
  cases p
  cases q
  simpa [descend] using h

theorem descend_within (p : Place) (names : List Piece) : (p.descend names).Within p :=
  ⟨rfl, rfl, List.prefix_append ..⟩

theorem within_refl (p : Place) : p.Within p := ⟨rfl, rfl, List.prefix_refl _⟩

theorem within_leave (p : Place) (h : p.absolute = true) : p.Within p.leave := by
  unfold leave
  split
  · exact p.within_refl
  · exact ⟨rfl, rfl, List.dropLast_prefix p.names⟩

/-- One name above a place in `dir`, if that is not `dir` itself. -/
theorem Within.above {p dir : Place} (h : (p.descend [name]).Within dir)
    (hne : dir.names ≠ p.names ++ [name]) : p.Within dir := by
  obtain ⟨habs, hup, hprefix⟩ := h
  exact ⟨habs, hup, (List.prefix_concat_iff.mp hprefix).resolve_left hne⟩

theorem leave_descend (p : Place) {names : List Piece} (h : names ≠ []) :
    (p.descend names).leave = p.descend names.dropLast := by
  simp [leave, descend, h, List.dropLast_append_of_ne_nil]

theorem Within.trans {p q dir : Place} (hp : p.Within q) (hq : q.Within dir) : p.Within dir :=
  ⟨hp.1.trans hq.1, hp.2.1.trans hq.2.1, hq.2.2.trans hp.2.2⟩

theorem Within.eq_of_names {p dir : Place} (h : p.Within dir) (hnames : p.names = dir.names) : p = dir := by
  obtain ⟨habs, hup, -⟩ := h
  cases p
  cases dir
  simp only at habs hup hnames
  rw [habs, hup, hnames]

/-- Of two directories with a place in common, one lies in the other. -/
theorem Within.comparable {p q r : Place} (hq : p.Within q) (hr : p.Within r) :
    q.Within r ∨ r.Within q := by
  rcases List.prefix_or_prefix_of_prefix hq.2.2 hr.2.2 with h | h
  · exact .inr ⟨hr.1.symm.trans hq.1, hr.2.1.symm.trans hq.2.1, h⟩
  · exact .inl ⟨hq.1.symm.trans hr.1, hq.2.1.symm.trans hr.2.1, h⟩

/-- Below a directory that has a name lies what has its parent there. -/
theorem Within.of_leave {p dir : Place} (h : p.leave.Within dir) (hne : dir.names ≠ []) : p.Within dir := by
  unfold leave at h
  split at h
  · split at h
    · exact h
    · rename_i hnil _
      have hprefix := h.2.2
      rw [hnil] at hprefix
      exact absurd (List.prefix_nil.mp hprefix) hne
  · exact ⟨h.1, h.2.1, h.2.2.trans (List.dropLast_prefix p.names)⟩

theorem descend_leave (p : Place) (name : Piece) : (p.descend [name]).leave = p := by
  rw [leave_descend p (List.cons_ne_nil _ _), List.dropLast_singleton, descend_nil]

theorem Within.leave {p dir : Place} (h : p.Within dir) (hne : p ≠ dir) : p.leave.Within dir := by
  have hnames : p.names ≠ dir.names := fun heq => hne (h.eq_of_names heq)
  obtain ⟨habs, hup, rest, hrest⟩ := h
  cases rest using List.reverseRecOn with
  | nil => exact absurd (by rw [← hrest, List.append_nil]) hnames
  | append_singleton rest name =>
    have hnil : p.names ≠ [] := by simp [← hrest]
    rw [Place.leave, if_neg hnil]
    refine ⟨habs, hup, rest, ?_⟩
    rw [← hrest, ← List.append_assoc, List.dropLast_concat]

theorem enter_cases (p : Place) (piece : Piece) :
    p.enter piece = p ∨ p.enter piece = p.leave ∨ Ordinary piece ∧ p.enter piece = p.descend [piece] := by
  unfold enter
  split
  · exact .inl rfl
  · split
    · exact .inr (.inl rfl)
    · rename_i hskip hdots
      exact .inr (.inr ⟨⟨(not_or.mp hskip).1, (not_or.mp hskip).2, hdots⟩, rfl⟩)

/-- A path read on its own says how far it climbs and where it goes from there. -/
theorem walk_eq (p : Place) (ps : List Piece) :
    p.walk ps = (p.climb (walk { absolute := false, up := 0, names := [] } ps).up).descend
      (walk { absolute := false, up := 0, names := [] } ps).names ∧
    (walk { absolute := false, up := 0, names := [] } ps).absolute = false := by
  induction ps using List.reverseRecOn with
  | nil => simp [climb]
  | append_singleton ps piece ih =>
    obtain ⟨ih, habs⟩ := ih
    simp only [walk_append, ih]
    set r := walk { absolute := false, up := 0, names := [] } ps
    simp only [walk, List.foldl_cons, List.foldl_nil, enter]
    by_cases hskip : piece = [] ∨ piece = ['.']
    · simp only [if_pos hskip]
      exact ⟨trivial, habs⟩
    · simp only [if_neg hskip]
      by_cases hdots : piece = ['.', '.']
      · simp only [if_pos hdots]
        by_cases hnames : r.names = []
        · simp [leave, hnames, habs, climb]
        · rw [leave_descend _ hnames]
          simp [leave, hnames, habs]
      · simp only [if_neg hdots, descend, List.append_assoc, habs, and_true]

-- ---------------------------------------------------------------------------
-- Climbing
-- ---------------------------------------------------------------------------

theorem climb_le (p : Place) (h : k ≤ p.names.length) :
    p.climb k = { p with names := p.names.take (p.names.length - k) } := by
  induction k with
  | zero => simp [climb]
  | succ k ih =>
    have hne : p.names.take (p.names.length - k) ≠ [] := by
      rw [ne_eq, List.take_eq_nil_iff]
      rintro (hzero | hnil)
      · omega
      · simp [hnil] at h
    rw [climb, ih (by omega), leave, if_neg hne]
    have hlt : p.names.length - k ≤ p.names.length := Nat.sub_le _ _
    rw [List.dropLast_eq_take, List.take_take, List.length_take]
    congr 2
    omega

theorem climb_past (p : Place) (h : p.names.length ≤ k) :
    p.climb k = { p with
      up := if p.absolute then p.up else p.up + (k - p.names.length)
      names := [] } := by
  induction h with
  | refl => simp [climb_le p (Nat.le_refl _)]
  | @step k h ih =>
    have hle : p.names.length ≤ k := h
    rw [climb, ih, leave, if_pos rfl]
    cases p.absolute with
    | true => rfl
    | false =>
      simp only [Bool.false_eq_true, if_false]
      congr 1
      omega

theorem climb_add (p : Place) (a b : Nat) : p.climb (a + b) = (p.climb a).climb b := by
  induction b with
  | zero => rfl
  | succ b ih => rw [← Nat.add_assoc, climb, ih, climb]

theorem Within.exists_climb {p dir : Place} (h : p.Within dir) : ∃ k, dir = p.climb k := by
  obtain ⟨habs, hup, hprefix⟩ := h
  refine ⟨p.names.length - dir.names.length, ?_⟩
  have hle := hprefix.length_le
  rw [climb_le p (Nat.sub_le _ _), Nat.sub_sub_self hle, ← List.prefix_iff_eq_take.mp hprefix, habs, hup]

theorem within_climb (p : Place) (h : p.absolute = true) (k : Nat) :
    p.Within (p.climb k) ∧ (p.climb k).absolute = true := by
  induction k with
  | zero => exact ⟨p.within_refl, h⟩
  | succ k ih =>
    have hleave := (p.climb k).within_leave ih.2
    exact ⟨ih.1.trans hleave, hleave.1.symm.trans ih.2⟩

theorem climb_descend_le (p : Place) {sub : List Piece} (h : k ≤ sub.length) :
    (p.descend sub).climb k = p.descend (sub.take (sub.length - k)) := by
  have hlen : (p.names ++ sub).length - k = p.names.length + (sub.length - k) := by
    rw [List.length_append]
    omega
  rw [climb_le _ (by simp only [descend, List.length_append]; omega)]
  simp only [descend, hlen, List.take_length_add_append]

theorem climb_descend_past (p : Place) {sub : List Piece} (h : sub.length ≤ k) :
    (p.descend sub).climb k = p.climb (k - sub.length) := by
  have hsplit : k = sub.length + (k - sub.length) := by omega
  have hback : (p.descend sub).climb sub.length = p := by
    rw [climb_descend_le p (Nat.le_refl _), Nat.sub_self, List.take_zero, descend_nil]
  rw [hsplit, climb_add, hback, Nat.add_sub_cancel_left]

/-- Up from a directory and down again: the way leads back into it if it names
what it has left. -/
theorem prefix_climb (dir : Place) (j : Nat) (names : List Piece) :
    ((dir.climb j).descend names).absolute = dir.absolute ∧
    (((dir.climb j).descend names).up = dir.up ↔ j ≤ dir.names.length ∨ dir.absolute = true) ∧
    ((dir.climb j).descend names).names =
      dir.names.take (dir.names.length - j) ++ names := by
  by_cases hj : j ≤ dir.names.length
  · rw [climb_le dir hj]
    simp [descend, hj]
  · rw [climb_past dir (by omega)]
    have hzero : dir.names.length - j = 0 := by omega
    cases habs : dir.absolute with
    | true => simp [descend, hj, hzero]
    | false =>
      simp only [descend, Bool.false_eq_true, if_false, hzero, List.take_zero, hj, or_self,
        iff_false, true_and, and_true]
      omega

theorem prefix_take_append (l : List Piece) (n : Nat) (rest : List Piece) :
    l <+: l.take n ++ rest ↔ l.drop n <+: rest := by
  have h : l.take n ++ l.drop n <+: l.take n ++ rest ↔ l.drop n <+: rest :=
    List.prefix_append_right_inj (l.take n)
  rwa [List.take_append_drop] at h

theorem eq_take_append (l : List Piece) (n : Nat) (rest tail : List Piece) :
    l.take n ++ rest = l ++ tail ↔ rest = l.drop n ++ tail := by
  conv_lhs => rhs; rw [← List.take_append_drop n l, List.append_assoc]
  exact List.append_right_inj _

end Place

-- ---------------------------------------------------------------------------
-- Joined paths
-- ---------------------------------------------------------------------------

/-- Joined to a directory `depth` levels below `dir`, the path `s` stays in
`dir`: it does not climb higher, or it names what it has climbed out of. -/
def Stays (dir : Place) (depth : Nat) (s : String) : Prop :=
  if isAbsolute s then (normalize s).Within dir
  else (normalize s).up ≤ depth ∨
    (((normalize s).up - depth ≤ dir.names.length ∨ dir.absolute = true) ∧
      dir.names.drop (dir.names.length - ((normalize s).up - depth)) <+: (normalize s).names)

/-- Joined to `dir`, the path `s` is one of its entries. -/
def NamesEntry (dir : Place) (s : String) : Prop :=
  if isAbsolute s then (normalize s).EntryOf dir
  else ((normalize s).up ≤ dir.names.length ∨ dir.absolute = true) ∧
    ∃ name, (normalize s).names = dir.names.drop (dir.names.length - (normalize s).up) ++ [name]

theorem normalize_join (base : String) (h : isAbsolute s = false) :
    normalize (join base s) = (normalize base).walk (pieces s.toList) := by
  have hfirst (hbase : base ≠ "") (t : String) : isAbsolute (base ++ t) = isAbsolute base := by
    have hne : base.toList ≠ [] := fun hnil => hbase (String.toList_inj.mp hnil)
    obtain ⟨c, cs, hcons⟩ := List.exists_cons_of_ne_nil hne
    rw [isAbsolute, isAbsolute, String.toList_append, hcons, List.cons_append, List.head?_cons,
      List.head?_cons]
  unfold join
  rw [if_neg (by simp [h])]
  by_cases hempty : base = ""
  · rw [if_pos (.inl hempty), hempty, String.empty_append, normalize, h]
    rfl
  · by_cases hslash : base.toList.getLast? = some '/'
    · rw [if_pos (.inr hslash)]
      obtain ⟨front, hfront⟩ := List.getLast?_eq_some_iff.mp hslash
      rw [normalize, normalize, hfirst hempty, String.toList_append, hfront, List.append_assoc,
        List.singleton_append, pieces_append, pieces_append, Place.walk_append, Place.walk_append]
      rfl
    · rw [if_neg (by simp [hempty, hslash]), String.append_assoc]
      rw [normalize, normalize, hfirst hempty, String.toList_append, String.toList_append]
      rw [show "/".toList = ['/'] from rfl, List.singleton_append, pieces_append, Place.walk_append]

@[simp] theorem normalize_absolute (s : String) : (normalize s).absolute = isAbsolute s := by
  rw [normalize, Place.walk]
  generalize pieces s.toList = ps
  induction ps using List.reverseRecOn with
  | nil => rfl
  | append_singleton ps piece ih =>
    rw [List.foldl_append, List.foldl_cons, List.foldl_nil, Place.enter]
    split
    · exact ih
    · split
      · rw [Place.leave]
        split
        · split <;> exact ih
        · exact ih
      · exact ih

theorem normalize_relative (h : isAbsolute s = false) :
    normalize s = Place.walk { absolute := false, up := 0, names := [] } (pieces s.toList) := by
  rw [normalize, h]

/-- `Path::components` of a relative path: the pieces but the empty ones and the dots. -/
def components (s : String) : List Piece :=
  (pieces s.toList).filter fun piece => piece ≠ [] ∧ piece ≠ ['.']

def rootPlace : Place := { absolute := true, up := 0, names := [] }

/-- Where a path begins that is joined to a directory. -/
def startOf (base s : String) : Place := if isAbsolute s then rootPlace else normalize base

theorem walk_filter (p : Place) (ps : List Piece) :
    p.walk (ps.filter fun piece => piece ≠ [] ∧ piece ≠ ['.']) = p.walk ps := by
  induction ps generalizing p with
  | nil => rfl
  | cons piece ps ih =>
    by_cases hskip : piece = [] ∨ piece = ['.']
    · rw [List.filter_cons_of_neg (by simpa [or_iff_not_imp_left] using hskip), ih]
      simp [Place.walk, Place.enter, hskip]
    · rw [List.filter_cons_of_pos (by simpa [not_or] using hskip)]
      exact ih (p.enter piece)

theorem normalize_join_start (base s : String) :
    normalize (join base s) = (startOf base s).walk (components s) := by
  rw [components, walk_filter, startOf]
  cases habs : isAbsolute s with
  | true => rw [join, if_pos habs, if_pos rfl, normalize, habs, rootPlace]
  | false =>
    rw [if_neg (by simp)]
    exact normalize_join base habs

theorem normalize_join_eq (base : String) (h : isAbsolute s = false) :
    normalize (join base s) = ((normalize base).climb (normalize s).up).descend (normalize s).names := by
  rw [normalize_join base h, normalize_relative h]
  exact ((normalize base).walk_eq _).1

theorem within_join {dir : Place} {base : String} (hbase : normalize base = dir.descend sub) (s : String) :
    (normalize (join base s)).Within dir ↔ Stays dir sub.length s := by
  cases habs : isAbsolute s with
  | true => simp [join, Stays, habs]
  | false =>
    rw [normalize_join_eq base habs, hbase, Stays, if_neg (by simp [habs])]
    set k := (normalize s).up
    by_cases hk : k ≤ sub.length
    · simp only [hk, true_or, iff_true]
      rw [Place.climb_descend_le dir hk]
      refine ⟨rfl, rfl, ?_⟩
      simp only [Place.descend, List.append_assoc]
      exact List.prefix_append ..
    · simp only [hk, false_or]
      rw [Place.climb_descend_past dir (by omega)]
      obtain ⟨habsolute, hup, hnames⟩ := dir.prefix_climb (k - sub.length) (normalize s).names
      rw [Place.Within, habsolute, hup, hnames, Place.prefix_take_append]
      simp

theorem entryOf_join (base s : String) :
    (normalize (join base s)).EntryOf (normalize base) ↔ NamesEntry (normalize base) s := by
  cases habs : isAbsolute s with
  | true => simp [join, NamesEntry, habs]
  | false =>
    rw [normalize_join_eq base habs, NamesEntry, if_neg (by simp [habs])]
    obtain ⟨habsolute, hup, hnames⟩ := (normalize base).prefix_climb (normalize s).up (normalize s).names
    rw [Place.EntryOf, habsolute, hup, hnames]
    simp only [Place.eq_take_append, true_and]

theorem isAbsolute_name (h : '/' ∉ s.toList) : isAbsolute s = false := by
  rw [isAbsolute, decide_eq_false_iff_not]
  intro hhead
  exact h (List.mem_of_mem_head? hhead)

theorem stays_of_no_slash (dir : Place) (h : '/' ∉ s.toList) (hdepth : 0 < depth) :
    Stays dir depth s := by
  rw [Stays, if_neg (by simp [isAbsolute_name h]), normalize_relative (isAbsolute_name h),
    pieces_name h]
  refine .inl (Nat.le_trans ?_ hdepth)
  simp only [Place.walk, List.foldl_cons, List.foldl_nil, Place.enter, Place.leave]
  split
  · exact Nat.zero_le 1
  · split
    · exact Nat.le_refl 1
    · exact Nat.zero_le 1

/-- Nothing lies in two directories of one depth. -/
theorem Place.Within.unique {q p : Place} (hx : q.Within (p.descend [x]))
    (hy : q.Within (p.descend [y])) : x = y := by
  have hprefix := List.prefix_of_prefix_length_le hx.2.2 hy.2.2 (by simp [Place.descend])
  simp only [Place.descend, List.prefix_append_right_inj] at hprefix
  simpa using hprefix

theorem normalize_join_name (base : String) (hslash : '/' ∉ name.toList) (h : Ordinary name.toList) :
    normalize (join base name) = (normalize base).descend [name.toList] := by
  rw [normalize_join base (isAbsolute_name hslash), pieces_name hslash, Place.walk_name _ h]

theorem normalize_parent (hsplit : s.toList = (parent s).toList ++ last) (hslash : '/' ∉ last)
    (hfront : (parent s).toList = [] ∨ ∃ front, (parent s).toList = front ++ ['/'])
    (h : Ordinary last) : normalize s = (normalize (parent s)).descend [last] := by
  rcases hfront with hnil | ⟨front, hfront⟩
  · rw [hnil, List.nil_append] at hsplit
    have hempty : parent s = "" := String.toList_inj.mp hnil
    rw [normalize, isAbsolute_name (hsplit ▸ hslash), hsplit, pieces_name hslash, hempty]
    exact Place.walk_name _ h
  · have habs : isAbsolute s = isAbsolute (parent s) := by
      rw [isAbsolute, isAbsolute, hsplit, hfront]
      cases front with
      | nil => rfl
      | cons c front => rfl
    rw [normalize, normalize, habs, hsplit, hfront, List.append_assoc, List.singleton_append,
      pieces_append, pieces_append, Place.walk_append, Place.walk_append, pieces_name hslash,
      Place.walk_name _ h]
    rfl

/-- Another name in the place of the last piece: the pieces before it and the
beginning of the path stay. -/
theorem pieces_parent (s : String) : ∃ front last, pieces s.toList = front ++ [last] ∧
    ∀ name : String, '/' ∉ name.toList → pieces (parent s ++ name).toList = front ++ [name.toList] ∧
      isAbsolute (parent s ++ name) = isAbsolute s := by
  obtain ⟨last, hsplit, hlast, hfront⟩ := split_parent s
  rcases hfront with hnil | ⟨front, hfront⟩
  · rw [hnil, List.nil_append] at hsplit
    refine ⟨[], last, by rw [hsplit, pieces_name hlast, List.nil_append], fun name hname => ?_⟩
    have htext : parent s ++ name = name := by
      rw [← String.toList_inj, String.toList_append, hnil, List.nil_append]
    rw [htext, pieces_name hname, isAbsolute_name hname, isAbsolute_name (hsplit ▸ hlast),
      List.nil_append]
    exact ⟨rfl, rfl⟩
  · refine ⟨pieces front, last, ?_, fun name hname => ?_⟩
    · rw [hsplit, hfront, List.append_assoc, List.singleton_append, pieces_append, pieces_name hlast]
    · rw [isAbsolute, isAbsolute, String.toList_append, hsplit, hfront, List.append_assoc,
        List.singleton_append, pieces_append, pieces_name hname, List.append_assoc, List.singleton_append]
      refine ⟨rfl, ?_⟩
      cases front with
      | nil => rfl
      | cons c front => rfl

theorem join_suffix (base s : String) : ∃ front, (join base s).toList = front ++ s.toList := by
  unfold join
  split
  · exact ⟨[], rfl⟩
  · split
    · exact ⟨base.toList, String.toList_append⟩
    · exact ⟨(base ++ "/").toList, String.toList_append⟩

theorem suffix_last (hsplit : s.toList = (parent s).toList ++ last)
    (hfront : (parent s).toList = [] ∨ ∃ front, (parent s).toList = front ++ ['/'])
    (hend : s.toList = start ++ ending) (hslash : '/' ∉ ending) : ending <:+ last := by
  rcases hfront with hnil | ⟨front, hfront⟩
  · rw [hnil, List.nil_append, hend] at hsplit
    exact ⟨start, hsplit⟩
  · rw [hsplit, hfront] at hend
    rcases List.append_eq_append_iff.mp hend with ⟨mid, -, hlast⟩ | ⟨mid, hmid, hending⟩
    · exact ⟨mid, hlast.symm⟩
    · cases mid using List.reverseRecOn with
      | nil => exact ⟨[], hending⟩
      | append_singleton mid c =>
        rw [← List.append_assoc] at hmid
        obtain ⟨-, hc⟩ := List.append_inj' hmid rfl
        refine absurd ?_ hslash
        rw [hending, ← List.cons.inj hc |>.1]
        simp

instance (q dir : Place) : Decidable (q.Within dir) :=
  inferInstanceAs (Decidable (_ ∧ _ ∧ _))

end Nsmt.Lib.Paths
