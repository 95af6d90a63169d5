import Nsmt.Lib.TextLines
import Nsmt.Okf.Document

/-!
# Where frontmatter ends

`parse_doc` and `edit` each take the frontmatter of a text by itself, up to the first
line that begins with `---`. `fences_iff` says for which texts that is the text
between two lines `---`, for both.
-/

namespace Nsmt.Okf

open Nsmt.Lib Nsmt.Lib.Text

/-- The text behind a byte order mark, if there is one. -/
def withoutBom (content : Text) : Text := (strip [bom] content).getD content

/-- The frontmatter that `parse_doc` gives to the reader, and the body. -/
def splitDoc (content : Text) : Option (Text × Text) :=
  (strip "---".toList (withoutBom content)).bind fun rest =>
    (cut endMark rest).map fun (fm, body) => (fm, dropStart '\n' body)

/-- The frontmatter of which `edit` takes the lines. -/
def rawFrontmatter (raw : Text) : Option Text :=
  (strip "---".toList raw).map fun inner => ((cut endMark inner).map Prod.fst).getD inner

theorem parseDoc_eq (yaml : YamlReader) (content : Text) :
    parseDoc yaml content = (splitDoc content).bind fun c => (yaml c.1).map fun v => (v, c.2) := by
  simp only [parseDoc, splitDoc, withoutBom, Option.bind_eq_bind, Option.pure_def]
  cases strip "---".toList ((strip [bom] content).getD content) with
  | none => rfl
  | some rest =>
    rw [Option.bind_some, Option.bind_some]
    cases cut endMark rest with
    | none => rfl
    | some c =>
      obtain ⟨fm, body⟩ := c
      rw [Option.map_some, Option.bind_some, Option.bind_some]
      cases yaml fm <;> rfl

theorem rawLines_eq (raw : Text) :
    rawLines raw = (rawFrontmatter raw).map fun fm => lines (dropStart '\n' fm) := by
  rw [rawFrontmatter, Option.map_map]
  rfl

/-- A line that ends frontmatter. -/
def IsFence (line : Text) : Prop := line = "---".toList ∨ line = "---\r".toList

/-- The text begins with the line `---`; the frontmatter is the lines up to the first
fence, and the body is what follows, without the empty lines in front. -/
def Fenced (content fm body : Text) : Prop :=
  ∃ ls fence after, content = "---".toList ++ ofLines ls ++ '\n' :: fence ++ after ∧
    (∀ line ∈ ls, '\n' ∉ line ∧ ¬ IsFence line) ∧ IsFence fence ∧ Breaks after ∧
    fm = ofLines ls ∧ body = dropStart '\n' after

/-- `parse_doc` takes the frontmatter between the fences, and `edit` takes the same. -/
def SplitsAtFences (content body : Text) : Prop :=
  ∃ fm, splitDoc content = some (fm, body) ∧ Fenced (withoutBom content) fm body ∧ rawFrontmatter content = some fm

/-- The text begins with the line `---`, without a byte order mark, and the first line
after it that begins with `---` is this and nothing else. -/
def PlainFences (content : Text) : Prop :=
  ∃ ls after, content = "---".toList ++ ofLines ls ++ '\n' :: "---".toList ++ after ∧
    NoneBegins "---".toList ls ∧ Breaks after

section
variable {content fm body rest : Text} {ls : List Text}

theorem withoutBom_fence : withoutBom ("---".toList ++ rest) = "---".toList ++ rest := by
  have hbom : strip [bom] ("---".toList ++ rest) = none := by
    rw [strip, if_neg]
    rintro ⟨tail, heq⟩
    exact absurd (List.cons.inj heq).1 (by decide)
  rw [withoutBom, hbom, Option.getD_none]

theorem strip_fence : strip "---".toList ("---".toList ++ rest) = some rest := by
  rw [strip, if_pos (List.prefix_append ..), List.drop_left]

theorem not_isFence {line : Text} (h : ¬ "---".toList <+: line) : ¬ IsFence line := by
  rintro (rfl | rfl)
  · exact h List.prefix_rfl
  · exact h ⟨"\r".toList, rfl⟩

/-- The lines up to the first one that begins in some way. -/
theorem exists_first {m : Text} (hls : ∀ line ∈ ls, '\n' ∉ line) (h : ¬ NoneBegins m ls) :
    ∃ before line after, ls = before ++ line :: after ∧ NoneBegins m before ∧ m <+: line := by
  induction ls with
  | nil => exact absurd (fun line hline => nomatch hline) h
  | cons line ls ih =>
    obtain ⟨hline, hothers⟩ := List.forall_mem_cons.mp hls
    by_cases hbegin : m <+: line
    · exact ⟨[], line, ls, rfl, (fun line hline => nomatch hline), hbegin⟩
    · have hlater : ¬ NoneBegins m ls := fun hnone => h (List.forall_mem_cons.mpr ⟨⟨hline, hbegin⟩, hnone⟩)
      obtain ⟨before, line', after, rfl, hbefore, hbegin'⟩ := ih hothers hlater
      exact ⟨line :: before, line', after, rfl, List.forall_mem_cons.mpr ⟨⟨hline, hbegin⟩, hbefore⟩, hbegin'⟩

/-- What stands in front of the mark has no line that begins like it. -/
theorem noneBegins_of_cut {m tail after : Text} (hm : '\n' ∉ m) (hls : ∀ line ∈ ls, '\n' ∉ line)
    (h : cut ('\n' :: m) (ofLines ls ++ after) = some (ofLines ls, tail)) : NoneBegins m ls := by
  by_contra hnot
  obtain ⟨before, line, later, rfl, hbefore, rest, rfl⟩ := exists_first hls hnot
  have htext : ofLines (before ++ (m ++ rest) :: later) ++ after =
      ofLines before ++ '\n' :: m ++ (rest ++ ofLines later ++ after) := by
    simp [ofLines_append]
  rw [htext, cut_at hm hbefore, Option.some.injEq, Prod.mk.injEq] at h
  have hlength := congrArg List.length h.1
  simp only [ofLines_append, ofLines_cons, List.length_append, List.length_cons] at hlength
  omega

theorem splitsAtFences_of_plain (h : PlainFences content) (hsplit : splitDoc content = some (fm, body)) :
    SplitsAtFences content body := by
  obtain ⟨ls, after, rfl, hls, hafter⟩ := h
  have hmark : endMark = '\n' :: "---".toList := rfl
  have hcut : cut endMark (ofLines ls ++ '\n' :: "---".toList ++ after) = some (ofLines ls, after) := by
    rw [hmark]
    exact cut_at (by decide) hls
  rw [List.append_assoc, List.append_assoc, ← List.append_assoc (ofLines ls)] at hsplit ⊢
  rw [splitDoc, withoutBom_fence, strip_fence, Option.bind_some, hcut] at hsplit
  cases hsplit
  refine ⟨ofLines ls, ?_, ?_, ?_⟩
  · rw [splitDoc, withoutBom_fence, strip_fence, Option.bind_some, hcut]
    rfl
  · rw [withoutBom_fence]
    exact ⟨ls, "---".toList, after, by simp, fun line hline => ⟨(hls line hline).1, not_isFence (hls line hline).2⟩,
      .inl rfl, hafter, rfl, rfl⟩
  · rw [rawFrontmatter, strip_fence, Option.map_some, hcut]
    rfl

theorem plain_of_splitsAtFences (h : SplitsAtFences content body) : PlainFences content := by
  obtain ⟨fm, hsplit, ⟨ls, fence, after, hcontent, hls, hfence, hafter, rfl, rfl⟩, hraw⟩ := h
  -- `edit` finds frontmatter only if there is no byte order mark.
  obtain ⟨inner, hinner, -⟩ := Option.map_eq_some_iff.mp hraw
  have hbegin : "---".toList <+: content := by
    by_contra hnot
    rw [strip, if_neg hnot] at hinner
    cases hinner
  obtain ⟨rest, rfl⟩ := hbegin
  rw [withoutBom_fence, List.append_assoc, List.append_assoc, List.append_cancel_left_eq] at hcontent
  subst hcontent
  rw [splitDoc, withoutBom_fence, strip_fence, Option.bind_some] at hsplit
  obtain ⟨⟨front, tail⟩, hcut, heq⟩ := Option.map_eq_some_iff.mp hsplit
  obtain ⟨rfl, htail⟩ := Prod.mk.inj heq
  have hmark : endMark = '\n' :: "---".toList := rfl
  rw [hmark] at hcut
  have hnone : NoneBegins "---".toList ls := noneBegins_of_cut (by decide) (fun line hline => (hls line hline).1) hcut
  refine ⟨ls, after, ?_, hnone, hafter⟩
  rcases hfence with rfl | rfl
  · simp
  · -- The carriage return would be the beginning of the body.
    have htext : ofLines ls ++ ('\n' :: "---\r".toList ++ after) = ofLines ls ++ '\n' :: "---".toList ++ '\r' :: after := by
      simp
    rw [htext, cut_at (by decide) hnone] at hcut
    cases hcut
    have hlength := congrArg List.length htail
    have hle : (dropStart '\n' after).length ≤ after.length := (List.dropWhile_suffix _).length_le
    simp [dropStart] at hlength hle
    omega

end

/-- A text that `parse_doc` accepts is taken apart at its fences, by `parse_doc` and by
`edit`, if and only if its fences are plain. -/
theorem fences_iff (yaml : YamlReader) (content body : Text) (v : Yaml) (h : parseDoc yaml content = some (v, body)) :
    SplitsAtFences content body ↔ PlainFences content := by
  constructor
  · exact plain_of_splitsAtFences
  · intro hplain
    rw [parseDoc_eq] at h
    obtain ⟨⟨fm, body'⟩, hsplit, h⟩ := Option.bind_eq_some_iff.mp h
    obtain ⟨v', -, heq⟩ := Option.map_eq_some_iff.mp h
    obtain ⟨-, rfl⟩ := Prod.mk.inj heq
    exact splitsAtFences_of_plain hplain hsplit

theorem fences_iff_metric : SplitsAtFences "---\ntype: Metric\n---\n\nBody".toList "Body".toList :=
  (fences_iff (fun _ => some .null) "---\ntype: Metric\n---\n\nBody".toList "Body".toList .null rfl).mpr
    ⟨["type: Metric".toList], "\n\nBody".toList, by decide, by unfold NoneBegins; decide, by unfold Breaks; decide⟩

/-- A rule of four dashes ends the frontmatter. -/
theorem rule_ends_frontmatter : ¬ ∀ (yaml : YamlReader) (content body : Text) (v : Yaml),
    parseDoc yaml content = some (v, body) → SplitsAtFences content body := by
  intro h
  obtain ⟨ls, after, hcontent, hls, hafter⟩ := plain_of_splitsAtFences
    (h (fun _ => some .null) "---\ntype: Metric\n----\nowner: me\n---\n".toList "-\nowner: me\n---\n".toList .null rfl)
  have hrest : "\ntype: Metric\n----\nowner: me\n---\n".toList = ofLines ls ++ '\n' :: "---".toList ++ after := by
    rw [List.append_assoc, List.append_assoc] at hcontent
    rw [List.append_assoc]
    exact (List.append_right_inj "---".toList).mp hcontent
  have hcut : cut ('\n' :: "---".toList) "\ntype: Metric\n----\nowner: me\n---\n".toList =
      some ("\ntype: Metric".toList, "-\nowner: me\n---\n".toList) := by decide
  rw [hrest, cut_at (by decide) hls, Option.some.injEq, Prod.mk.injEq] at hcut
  rw [hcut.2] at hafter
  exact absurd (hafter '-' rfl) (by decide)

end Nsmt.Okf
