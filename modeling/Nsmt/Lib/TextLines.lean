import Mathlib.Data.List.Infix
import Nsmt.Lib.Text

/-!
# Lines in a text

Where the first line that begins in some way is found, and which lines a text has.
-/

namespace Nsmt.Lib.Text

variable {m line front t rest : Text} {ls : List Text}

theorem joinWith_cons_cons (sep t next : Text) (ts : List Text) :
    joinWith sep (t :: next :: ts) = t ++ (sep ++ joinWith sep (next :: ts)) := by
  simp [joinWith, List.intercalate]

theorem joinWith_cons (sep t : Text) (ts : List Text) :
    joinWith sep (t :: ts) = t ++ ts.flatMap fun part => sep ++ part := by
  induction ts generalizing t with
  | nil => simp [joinWith]
  | cons next ts ih => rw [joinWith_cons_cons, ih, List.flatMap_cons, List.append_assoc]

/-- Every line on a new line. -/
def ofLines (ls : List Text) : Text := ls.flatMap fun line => '\n' :: line

@[simp] theorem ofLines_nil : ofLines [] = [] := rfl

@[simp] theorem ofLines_cons (line : Text) (ls : List Text) :
    ofLines (line :: ls) = '\n' :: (line ++ ofLines ls) := by
  simp [ofLines]

theorem ofLines_append (a b : List Text) : ofLines (a ++ b) = ofLines a ++ ofLines b := List.flatMap_append

theorem ofLines_eq (h : ls ≠ []) : ofLines ls = '\n' :: joinWith "\n".toList ls := by
  obtain ⟨line, ls, rfl⟩ := List.exists_cons_of_ne_nil h
  rw [joinWith_cons]
  simp [ofLines]

-- ---------------------------------------------------------------------------
-- Cutting
-- ---------------------------------------------------------------------------

theorem cut_eq {a b : Text} (h : cut m t = some (a, b)) : t = a ++ m ++ b := by
  induction t generalizing a with
  | nil =>
    rw [cut] at h
    split at h
    · rename_i hnil
      cases h
      simp [hnil]
    · cases h
  | cons c t ih =>
    rw [cut] at h
    split at h
    · rename_i hle
      cases h
      rw [List.nil_append]
      exact (List.prefix_iff_eq_append.mp hle).symm
    · obtain ⟨⟨front, rest⟩, hcut, heq⟩ := Option.map_eq_some_iff.mp h
      cases heq
      rw [ih hcut]
      simp

theorem cut_front (h : m <+: t) : cut m t = some ([], t.drop m.length) := by
  cases t with
  | nil =>
    obtain rfl := List.prefix_nil.mp h
    rfl
  | cons c t => rw [cut, if_pos h]

/-- Behind text in which a mark cannot begin, the search goes on. -/
theorem cut_skip {c : Char} (h : c ∉ front) :
    cut (c :: m) (front ++ rest) = (cut (c :: m) rest).map fun p => (front ++ p.1, p.2) := by
  induction front with
  | nil => simp
  | cons first front ih =>
    rw [List.mem_cons, not_or] at h
    have hnot : ¬ c :: m <+: first :: (front ++ rest) := fun hle => h.1 (List.cons_prefix_cons.mp hle).1
    rw [List.cons_append, cut, if_neg hnot, ih h.2, Option.map_map]
    rfl

/-- The text ends, or a new line begins. -/
def Breaks (rest : Text) : Prop := ∀ c ∈ rest.head?, c = '\n'

theorem breaks_newline : Breaks ('\n' :: rest) := fun _ hc => (Option.some.inj hc).symm

theorem breaks_ofLines (h : Breaks rest) : Breaks (ofLines ls ++ rest) := by
  cases ls with
  | nil => exact h
  | cons line ls =>
    intro c hc
    rw [ofLines_cons, List.cons_append, List.head?_cons, Option.mem_some_iff] at hc
    exact hc.symm

theorem prefix_line (h : m <+: line ++ rest) (hm : '\n' ∉ m) (hrest : Breaks rest) : m <+: line := by
  induction m generalizing line with
  | nil => exact List.nil_prefix
  | cons c m ih =>
    rw [List.mem_cons, not_or] at hm
    cases line with
    | nil =>
      obtain ⟨tail, rfl⟩ := h
      exact absurd (hrest c (by simp)).symm hm.1
    | cons first line =>
      obtain ⟨rfl, hle⟩ := List.cons_prefix_cons.mp h
      exact List.cons_prefix_cons.mpr ⟨rfl, ih hle hm.2⟩

/-- No line begins in this way. -/
def NoneBegins (m : Text) (ls : List Text) : Prop := ∀ line ∈ ls, '\n' ∉ line ∧ ¬ m <+: line

/-- Lines that do not begin like the mark are passed. -/
theorem cut_lines (hm : '\n' ∉ m) (h : NoneBegins m ls) (hrest : Breaks rest) :
    cut ('\n' :: m) (ofLines ls ++ rest) = (cut ('\n' :: m) rest).map fun p => (ofLines ls ++ p.1, p.2) := by
  induction ls with
  | nil => simp
  | cons line ls ih =>
    obtain ⟨⟨hline, hbegin⟩, hothers⟩ := List.forall_mem_cons.mp h
    have hnot : ¬ '\n' :: m <+: '\n' :: (line ++ (ofLines ls ++ rest)) := fun hle =>
      hbegin (prefix_line (List.cons_prefix_cons.mp hle).2 hm (breaks_ofLines hrest))
    rw [ofLines_cons, List.cons_append, List.append_assoc, cut, if_neg hnot, cut_skip hline, ih hothers]
    simp [Option.map_map, Function.comp_def]

theorem cut_at (hm : '\n' ∉ m) (h : NoneBegins m ls) :
    cut ('\n' :: m) (ofLines ls ++ '\n' :: m ++ rest) = some (ofLines ls, rest) := by
  have hhere : cut ('\n' :: m) ('\n' :: m ++ rest) = some ([], rest) := by
    rw [cut_front (List.prefix_append ..), List.drop_left]
  have hbreaks : Breaks ('\n' :: m ++ rest) := breaks_newline
  rw [List.append_assoc, cut_lines hm h hbreaks, hhere]
  simp

/-- A text is cut at the first of a character. -/
theorem cut_char {sep : Char} {u a : Text} : cut [sep] t = some (u, a) ↔ t = u ++ sep :: a ∧ sep ∉ u := by
  induction t generalizing u with
  | nil => simp [cut]
  | cons c t ih =>
    rw [cut]
    by_cases hc : sep = c
    · rw [if_pos ⟨t, by rw [hc]; rfl⟩, hc, List.length_singleton, List.drop_one, List.tail_cons]
      constructor
      · rintro ⟨⟩
        exact ⟨rfl, List.not_mem_nil⟩
      · rintro ⟨heq, hmem⟩
        cases u with
        | nil => cases heq; rfl
        | cons first u => exact absurd ((List.cons.inj heq).1 ▸ List.mem_cons_self ..) hmem
    · have hnot : ¬ [sep] <+: c :: t := fun hle => hc (List.cons_prefix_cons.mp hle).1
      rw [if_neg hnot]
      cases u with
      | nil => simp [Ne.symm hc]
      | cons first u =>
        rw [Option.map_eq_some_iff]
        constructor
        · rintro ⟨⟨front, rest⟩, hcut, heq⟩
          cases heq
          obtain ⟨rfl, hmem⟩ := ih.mp hcut
          exact ⟨rfl, by simp [hc, hmem]⟩
        · rintro ⟨heq, hmem⟩
          obtain ⟨rfl, rfl⟩ := List.cons.inj heq
          exact ⟨(u, a), ih.mpr ⟨rfl, fun hu => hmem (List.mem_cons_of_mem _ hu)⟩, rfl⟩

/-- What is cut out somewhere is found. -/
theorem cut_ne_none {a b : Text} : cut m (a ++ m ++ b) ≠ none := by
  induction a with
  | nil =>
    rw [List.nil_append, cut_front (List.prefix_append ..)]
    simp
  | cons c a ih =>
    rw [List.cons_append, List.cons_append, cut]
    split
    · simp
    · simpa using ih

theorem cut_none (hm : '\n' ∉ m) (h : NoneBegins m ls) : cut ('\n' :: m) (ofLines ls) = none := by
  have hnil : Breaks [] := fun c hc => nomatch hc
  have hcut := cut_lines hm h hnil
  rw [List.append_nil] at hcut
  rw [hcut]
  rfl

-- ---------------------------------------------------------------------------
-- Lines that end
-- ---------------------------------------------------------------------------

/-- Every line with its end. -/
def ended (ls : List Text) : Text := ls.flatMap fun line => line ++ ['\n']

@[simp] theorem ended_nil : ended [] = [] := rfl

@[simp] theorem ended_cons (line : Text) (ls : List Text) : ended (line :: ls) = line ++ '\n' :: ended ls := by
  simp [ended]

theorem ended_append (a b : List Text) : ended (a ++ b) = ended a ++ ended b := List.flatMap_append

theorem splitOn_ended (h : ∀ line ∈ ls, '\n' ∉ line) : (ended ls).splitOn '\n' = ls ++ [[]] := by
  have hjoin : ended ls = joinWith "\n".toList (ls ++ [[]]) := by
    clear h
    induction ls with
    | nil => rfl
    | cons line ls ih =>
      obtain ⟨next, others, hnext⟩ := List.exists_cons_of_ne_nil (show ls ++ [[]] ≠ [] by simp)
      rw [List.cons_append, hnext, joinWith_cons_cons, ← hnext, ended_cons, ih]
      rfl
  rw [hjoin]
  refine List.splitOn_intercalate '\n' (fun line hline => ?_) (by simp)
  rcases List.mem_append.mp hline with hline | hline
  · exact h line hline
  · rw [List.mem_singleton.mp hline]
    exact List.not_mem_nil

/-- Past a line that does not end in this way. -/
theorem cut_end (hm : '\n' ∉ m) (hne : m ≠ []) (hline : '\n' ∉ line) (h : ¬ m <:+ line) :
    cut (m ++ ['\n']) (line ++ '\n' :: rest) =
      (cut (m ++ ['\n']) rest).map fun p => (line ++ '\n' :: p.1, p.2) := by
  induction line with
  | nil =>
    have hnot : ¬ m ++ ['\n'] <+: '\n' :: rest := by
      obtain ⟨c, m', rfl⟩ := List.exists_cons_of_ne_nil hne
      intro hle
      rw [List.cons_append] at hle
      exact hm ((List.cons_prefix_cons.mp hle).1 ▸ List.mem_cons_self ..)
    rw [List.nil_append, cut, if_neg hnot]
    rfl
  | cons c line ih =>
    rw [List.mem_cons, not_or] at hline
    have hnot : ¬ m ++ ['\n'] <+: c :: line ++ '\n' :: rest := by
      intro hle
      have hbegin := prefix_line ((List.prefix_append ..).trans hle) hm breaks_newline
      obtain ⟨tail, htail⟩ := hbegin
      rw [← htail, List.append_assoc] at hle
      cases tail with
      | nil => exact h ⟨[], by simpa using htail⟩
      | cons next tail =>
        have hnext := (List.prefix_append_right_inj m).mp hle
        have hmem : '\n' ∈ c :: line := by
          rw [← htail, (List.cons_prefix_cons.mp hnext).1]
          simp
        exact (List.mem_cons.mp hmem).elim hline.1 hline.2
    have hlater : ¬ m <:+ line := fun hle => h (hle.trans (List.suffix_cons ..))
    rw [List.cons_append] at hnot ⊢
    rw [cut, if_neg hnot, ih hline.2 hlater, Option.map_map]
    rfl

theorem cut_ended (hm : '\n' ∉ m) (hne : m ≠ []) (h : ∀ line ∈ ls, '\n' ∉ line ∧ ¬ m <:+ line) :
    cut (m ++ ['\n']) (ended ls ++ rest) = (cut (m ++ ['\n']) rest).map fun p => (ended ls ++ p.1, p.2) := by
  induction ls with
  | nil => simp
  | cons line ls ih =>
    obtain ⟨hline, hothers⟩ := List.forall_mem_cons.mp h
    rw [ended_cons, List.append_assoc, List.cons_append, cut_end hm hne hline.1 hline.2, ih hothers, Option.map_map]
    simp [Function.comp_def]

/-- Past lines of which none begins in this way, but perhaps the first. -/
theorem cut_begin (hm : '\n' ∉ m) (hne : m ≠ []) (h : NoneBegins m ls) (hrest : Breaks rest) :
    cut ('\n' :: m) (ended ls ++ rest) = (cut ('\n' :: m) rest).map fun p => (ended ls ++ p.1, p.2) := by
  induction ls with
  | nil => simp
  | cons line ls ih =>
    obtain ⟨hline, hothers⟩ := List.forall_mem_cons.mp h
    have hnot : ¬ '\n' :: m <+: '\n' :: (ended ls ++ rest) := by
      intro hle
      have hbegin := (List.cons_prefix_cons.mp hle).2
      cases ls with
      | nil => exact hne (List.prefix_nil.mp (prefix_line hbegin hm hrest))
      | cons next ls =>
        rw [ended_cons, List.append_assoc] at hbegin
        exact (hothers next (List.mem_cons_self ..)).2 (prefix_line hbegin hm breaks_newline)
    rw [ended_cons, List.append_assoc, List.cons_append, cut_skip hline.1, cut, if_neg hnot, ih hothers,
      Option.map_map, Option.map_map]
    simp [Function.comp_def]

-- ---------------------------------------------------------------------------
-- Splitting
-- ---------------------------------------------------------------------------

theorem lines_joinWith (hne : ls ≠ []) (h : ∀ line ∈ ls, '\n' ∉ line ∧ line.getLast? ≠ some '\r')
    (hlast : ls.getLast? ≠ some []) : lines (joinWith "\n".toList ls) = ls := by
  have hsplit : (joinWith "\n".toList ls).splitOn '\n' = ls :=
    List.splitOn_intercalate '\n' (fun line hline => (h line hline).1) hne
  have hdrop : ls.dropLast.map dropCr = ls.dropLast := by
    conv_rhs => rw [← List.map_id ls.dropLast]
    exact List.map_congr_left fun line hline => if_neg (h line (List.mem_of_mem_dropLast hline)).2
  obtain ⟨front, last, rfl⟩ := (List.eq_nil_or_concat ls).resolve_left hne
  rw [List.concat_eq_append] at *
  rw [List.getLast?_concat] at hlast
  have hlast' : last ≠ [] := fun hnil => hlast (by rw [hnil])
  simp only [lines, hsplit, hdrop]
  simp [hlast']

end Nsmt.Lib.Text
