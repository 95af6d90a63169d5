import Nsmt.Lib.DirPaths
import Nsmt.Lib.TextLines
import Nsmt.Okf.Library

/-!
# The log of a library

What `append_log` does in a library that is there: it reads and writes `log.md` and
nothing else, and what it writes is text.
-/

namespace Nsmt.Okf

open Nsmt.Lib Nsmt.Lib.Utf8 Nsmt.Lib.UnixPaths Nsmt.Lib.Dirs

section
variable {env : Env} {lib : List Name} {d : OkfDisk} {entry : Text} {p : List Name}

theorem createLib_eq (hlib : d.node lib = some .dir) : createLib env lib d = (d, true) :=
  Disk.createDirs_of_dir (d.named lib (by simp [hlib])) hlib

theorem find_logMd (hlib : d.node lib = some .dir) : d.find lib logMd = d.node (lib ++ [logMd]) := by
  have hsplit : logMd.splitOn slash = [logMd] := by decide
  have hstart : startOf lib logMd = lib := rfl
  rw [Disk.find, hsplit, hstart, placeOf_name lib isName_logMd, if_pos]
  exact ⟨by decide, by simp [Disk.passable, hlib]⟩

theorem appendLog_eq (hlib : d.node lib = some .dir) : appendLog env lib d entry =
    match if d.exists_ lib logMd then (d.read lib logMd env.faults).bind Page.toText else some logHead with
    | some content =>
      d.write lib logMd env.faults (.text (insertLog content ((isoNow env.secs).take 10) entry))
    | none => (d, false) := by
  rw [appendLog, createLib_eq hlib]
  rfl

theorem node_appendLog (hlib : d.node lib = some .dir) (h : p ≠ lib ++ [logMd]) :
    (appendLog env lib d entry).1.node p = d.node p := by
  rw [appendLog_eq hlib]
  split
  · rename_i content _
    rcases Disk.write_cases d lib logMd env.faults
      (.text (insertLog content ((isoNow env.secs).take 10) entry)) with hsame | hwritten
    · rw [hsame]
    · rw [hwritten.node, placeOf_name lib isName_logMd, if_neg h]
  · rfl

/-- A text that was written is there, and the library still is. -/
theorem write_text {path : Bytes} {t : Text} (hlib : d.node lib = some .dir)
    (hwrite : (d.write lib path env.faults (.text t)).2 = true) :
    (d.write lib path env.faults (.text t)).1.node (placeOf lib path) = some (.file (.text t)) ∧
      (d.write lib path env.faults (.text t)).1.node lib = some .dir := by
  have hwritten := (Disk.write_cases d lib path env.faults (.text t)).resolve_left fun h => by
    rw [h] at hwrite
    cases hwrite
  have hwhole := hwritten.ok_iff
  rw [hwrite, eq_comm, Option.isNone_iff_eq_none] at hwhole
  have hnode : (d.write lib path env.faults (.text t)).1.node (placeOf lib path) = some (.file (.text t)) := by
    rw [hwritten.node, if_pos rfl, hwhole, Option.getD_none]
  refine ⟨hnode, ?_⟩
  rw [hwritten.node, if_neg, hlib]
  intro heq
  exact hwritten.not_dir (heq ▸ hlib)

theorem toText_text (t : Text) : (Page.text t).toText = some t := by
  rw [Page.toText, Page.text, fromUtf8Lossy_encode, if_pos rfl]

/-- A log that was written is what was there, or a new log, with the entry. -/
theorem appendLog_text (hlib : d.node lib = some .dir) (h : (appendLog env lib d entry).2 = true) :
    ∃ content, (if d.exists_ lib logMd then (d.read lib logMd env.faults).bind Page.toText else some logHead) =
        some content ∧
      (appendLog env lib d entry).1.node (lib ++ [logMd]) =
        some (.file (.text (insertLog content ((isoNow env.secs).take 10) entry))) := by
  rw [appendLog_eq hlib] at h ⊢
  split at h
  · rename_i content hcontent
    refine ⟨content, hcontent, ?_⟩
    rcases Disk.write_cases d lib logMd env.faults
      (.text (insertLog content ((isoNow env.secs).take 10) entry)) with hsame | hwritten
    · rw [hsame] at h
      cases h
    · rw [hwritten.ok_iff, Option.isNone_iff_eq_none] at h
      rw [hwritten.node, placeOf_name lib isName_logMd, if_pos rfl]
      rw [placeOf_name lib isName_logMd] at h
      rw [h, Option.getD_none]
  · cases h

theorem appendLog_of_text (hlib : d.node lib = some .dir) (h : (appendLog env lib d entry).2 = true) {t : Text}
    (hlog : d.node (lib ++ [logMd]) = some (.file (.text t))) :
    (appendLog env lib d entry).1.node (lib ++ [logMd]) =
      some (.file (.text (insertLog t ((isoNow env.secs).take 10) entry))) := by
  obtain ⟨content, hcontent, hnode⟩ := appendLog_text hlib h
  rw [Disk.exists_, Disk.read, find_logMd hlib, hlog] at hcontent
  simp only [Option.isSome_some, if_true] at hcontent
  split at hcontent
  · cases hcontent
  · rw [Option.bind_some, toText_text] at hcontent
    rw [hnode, Option.some.inj hcontent]

end

/-- Where no line is the heading of a day, the entry comes behind the text. -/
theorem insertLog_append {t : Text} (h : Text.cut "\n## ".toList t = none) (today entry : Text) :
    ∃ extra, insertLog t today entry = t ++ extra := by
  unfold insertLog
  dsimp only
  split
  · rename_i front seg hcut
    have hsplit := Text.cut_eq hcut
    split
    · rename_i day rest hday
      have hsplit' := Text.cut_eq hday
      refine absurd h ?_
      rw [hsplit, hsplit', ← List.append_assoc, ← List.append_assoc]
      exact Text.cut_ne_none
    · exact ⟨logLine entry, by rw [hsplit]⟩
  · refine ⟨"\n".toList ++ ("## ".toList ++ today ++ "\n".toList) ++ logLine entry, ?_⟩
    simp only [List.append_assoc]

end Nsmt.Okf
