import Nsmt.Client.Fs
import Nsmt.Core.Identity
import Nsmt.Lib.Paths

/-!
# Names of conflict copies

A conflict copy is named after the requester, the path of its file and a
timestamp, joined by dashes, and the file is found again by cutting the name at
its first and its last dash. Requesters may have dashes of their own and the
slashes of the path are gone: `leads_back_iff` says when the cut finds the file.
-/

namespace Nsmt.Client

open Nsmt.Lib Nsmt.Lib.Paths Nsmt.Core

/-- `Path::file_name` of a path that ends in a name. -/
def fileName (path : String) : String :=
  String.ofList (path.toList.reverse.takeWhile (· ≠ '/')).reverse

/-- `&s[..s.rfind(c).unwrap_or(0)]`. -/
def upToLast (c : Char) (s : List Char) : List Char :=
  ((s.reverse.dropWhile (· ≠ c)).drop 1).reverse

/-- What follows the first `c`, if there is one. -/
def behindFirst (c : Char) (s : List Char) : Option (List Char) :=
  if c ∈ s then some ((s.dropWhile (· ≠ c)).drop 1) else none

/-- `name.strip_prefix(".sync-conflict-").unwrap_or(name)`. -/
def stripMark (name : String) : List Char :=
  if ".sync-conflict-".toList.isPrefixOf name.toList then name.toList.drop 15 else name.toList

/-- The merge GUI's. -/
def mainNameOf (name : String) : String :=
  let stripped := stripMark name
  let machineAndPath := upToLast '-' stripped
  match behindFirst '-' machineAndPath with
  | some path => String.ofList path
  | none => String.ofList machineAndPath

/-- What `merge` makes of the path of a conflict copy. -/
def cliMainName (conflictPath : String) : String :=
  let name := fileName conflictPath
  let stripped := stripMark name
  let machineAndPath := upToLast '-' stripped
  match behindFirst '-' machineAndPath with
  | some mainName => String.ofList mainName
  | none => String.ofList machineAndPath

/-- From the copy the merge finds the file, in both its versions. -/
def LeadsBack (dir copy path : String) : Prop :=
  join dir (mainNameOf (fileName copy)) = join dir path ∧ cliMainName copy = mainNameOf (fileName copy)

theorem upToLast_append (a : List Char) (h : c ∉ b) : upToLast c (a ++ c :: b) = a := by
  have hb : ∀ x ∈ b.reverse, (x ≠ c : Bool) = true := by
    intro x hx
    have hne : x ≠ c := fun hxc => h (hxc ▸ List.mem_reverse.mp hx)
    simp [hne]
  rw [upToLast, List.reverse_append, List.reverse_cons, List.append_assoc,
    List.dropWhile_append_of_pos hb]
  simp

theorem behindFirst_append (b : List Char) (h : c ∉ a) : behindFirst c (a ++ c :: b) = some b := by
  have ha : ∀ x ∈ a, (x ≠ c : Bool) = true := by
    intro x hx
    have hne : x ≠ c := fun hxc => h (hxc ▸ hx)
    simp [hne]
  rw [behindFirst, if_pos (by simp), List.dropWhile_append_of_pos ha]
  simp

theorem fileName_append (h : '/' ∉ name.toList)
    (hfront : front.toList = [] ∨ ∃ rest, front.toList = rest ++ ['/']) :
    fileName (front ++ name) = name := by
  have hname : ∀ x ∈ name.toList.reverse, (x ≠ '/' : Bool) = true := by
    intro x hx
    have hne : x ≠ '/' := fun hxc => h (hxc ▸ List.mem_reverse.mp hx)
    simp [hne]
  rw [fileName, String.toList_append, List.reverse_append, List.takeWhile_append_of_pos hname]
  rcases hfront with hnil | ⟨rest, hrest⟩
  · simp [hnil]
  · simp [hrest]

/-- A joined name that is no shorter than another path leads elsewhere, unless it
is that path. -/
theorem join_name_inj (hs : '/' ∉ s.toList) (hlen : t.toList.length ≤ s.toList.length)
    (h : join dir s = join dir t) : s = t := by
  have hrel := isAbsolute_name hs
  by_cases ht : isAbsolute t = true
  · have hjoin : join dir t = t := by rw [join, if_pos ht]
    obtain ⟨front, hfront⟩ := join_suffix dir s
    rw [h, hjoin] at hfront
    have hnil : front = [] := by
      rw [hfront, List.length_append] at hlen
      exact List.eq_nil_of_length_eq_zero (by omega)
    rw [hnil, List.nil_append] at hfront
    exact (String.toList_inj.mp hfront).symm
  · simp only [join, hrel, ht, if_false, Bool.false_eq_true] at h
    have htail (front : String) (h : front ++ s = front ++ t) : s = t := by
      have h := congrArg String.toList h
      rw [String.toList_append, String.toList_append] at h
      exact String.toList_inj.mp (List.append_cancel_left h)
    split at h
    · exact htail dir h
    · exact htail (dir ++ "/") h

-- ---------------------------------------------------------------------------
-- Cutting the name of a copy
-- ---------------------------------------------------------------------------

/-- The path in the name of a copy, `/` as `_`. -/
def folded (path : String) : List Char := path.toList.map fun c => if c = '/' then '_' else c

theorem slash_not_mem_folded (path : String) : '/' ∉ folded path := by
  intro h
  obtain ⟨c, -, hc⟩ := List.mem_map.mp h
  split at hc
  · cases hc
  · exact absurd hc ‹_›

theorem folded_eq_iff (path : String) : folded path = path.toList ↔ '/' ∉ path.toList := by
  constructor
  · intro h
    rw [← h]
    exact slash_not_mem_folded path
  · intro h
    have hsame : ∀ c ∈ path.toList, (if c = '/' then '_' else c) = id c := by
      intro c hc
      have hne : c ≠ '/' := fun heq => h (heq ▸ hc)
      simp [hne]
    rw [folded, List.map_congr_left hsame, List.map_id]

theorem slash_not_mem_sanitizeName (s : String) : '/' ∉ (sanitizeName s).toList := by
  simp only [sanitizeName, String.toList_ofList, List.mem_map, not_exists, not_and]
  intro c _ hc
  split at hc
  · subst hc
    simp_all
  · cases hc

theorem dash_mem_sanitizeName (s : String) : '-' ∈ (sanitizeName s).toList ↔ '-' ∈ s.toList := by
  simp only [sanitizeName, String.toList_ofList, List.mem_map]
  constructor
  · rintro ⟨c, hc, hdash⟩
    split at hdash
    · exact hdash ▸ hc
    · cases hdash
  · exact fun h => ⟨'-', h, by decide⟩

theorem conflictPath_split (requester path : String) (timestampMs : Nat) :
    ∃ name : String, conflictPath requester path timestampMs = parent path ++ name ∧
      '/' ∉ name.toList ∧ name.toList = ".sync-conflict-".toList ++
        ((sanitizeName requester).toList ++ '-' :: folded path ++ '-' :: (toString timestampMs).toList) := by
  have hdigits : '/' ∉ (toString timestampMs).toList := fun h =>
    absurd (isDigit_of_mem_toString h) (by decide)
  refine ⟨".sync-conflict-" ++ sanitizeName requester ++ "-" ++ String.ofList (folded path) ++ "-" ++
    toString timestampMs, ?_, ?_, by simp⟩
  · simp only [conflictPath, folded, String.append_assoc]
    rfl
  · simpa [slash_not_mem_sanitizeName, slash_not_mem_folded] using hdigits

theorem fileName_conflictPath (requester path : String) (timestampMs : Nat) :
    (fileName (conflictPath requester path timestampMs)).toList =
      ".sync-conflict-".toList ++
        ((sanitizeName requester).toList ++ '-' :: folded path ++ '-' :: (toString timestampMs).toList) := by
  obtain ⟨name, hcopy, hslash, hname⟩ := conflictPath_split requester path timestampMs
  rw [hcopy, fileName_append hslash, hname]
  exact (split_parent path).choose_spec.2.2

/-- What is cut out of the name of a copy: the path, behind what follows the first
dash of the requester. -/
theorem mainNameOf_conflictPath (requester path : String) (timestampMs : Nat) :
    ∃ rest, mainNameOf (fileName (conflictPath requester path timestampMs)) =
        String.ofList (rest ++ folded path) ∧
      '/' ∉ rest ∧ (rest = [] ↔ '-' ∉ requester.toList) := by
  have hdigits : '-' ∉ (toString timestampMs).toList := fun h =>
    absurd (isDigit_of_mem_toString h) (by decide)
  have hstrip : stripMark (fileName (conflictPath requester path timestampMs)) =
      (sanitizeName requester).toList ++ '-' :: folded path ++ '-' :: (toString timestampMs).toList := by
    rw [stripMark, fileName_conflictPath, if_pos (by simp)]
    exact List.drop_left' rfl
  rw [← dash_mem_sanitizeName, mainNameOf, hstrip, upToLast_append _ hdigits]
  by_cases hdash : '-' ∈ (sanitizeName requester).toList
  · obtain ⟨first, rest, hsplit, hfirst⟩ := List.eq_append_cons_of_mem hdash
    have hslash : '/' ∉ rest := by
      intro h
      refine slash_not_mem_sanitizeName requester ?_
      rw [hsplit]
      simp [h]
    refine ⟨rest ++ ['-'], ?_, by simp [hslash], by simp [hdash]⟩
    rw [hsplit, List.append_assoc, List.cons_append, behindFirst_append _ hfirst]
    simp
  · rw [behindFirst_append _ hdash]
    exact ⟨[], rfl, by simp, by simp [hdash]⟩

/-- A copy leads back to its file if and only if the requester has no dash and the
file lies in the share directory itself. -/
theorem leads_back_iff (fqn : Fqn) (dir path : String) (timestampMs : Nat) :
    LeadsBack dir (conflictPath fqn.toString path timestampMs) path ↔
      ('-' ∉ fqn.userDomain.asStr.toList ∧ '-' ∉ fqn.agentTag.asStr.toList) ∧ '/' ∉ path.toList := by
  obtain ⟨rest, hmain, hslash, hrest⟩ := mainNameOf_conflictPath fqn.toString path timestampMs
  rw [← not_or, ← fqn.dash_mem, ← hrest, LeadsBack, hmain]
  have hcli : cliMainName (conflictPath fqn.toString path timestampMs) =
      mainNameOf (fileName (conflictPath fqn.toString path timestampMs)) := rfl
  rw [and_iff_left (hcli.trans hmain)]
  constructor
  · intro hjoin
    have hname := congrArg String.toList (join_name_inj (by simp [hslash, slash_not_mem_folded])
      (by simp [folded]) hjoin)
    rw [String.toList_ofList] at hname
    have hnil : rest = [] := by
      have hlen := congrArg List.length hname
      rw [List.length_append, folded, List.length_map] at hlen
      exact List.eq_nil_of_length_eq_zero (by omega)
    rw [hnil, List.nil_append] at hname
    exact ⟨hnil, (folded_eq_iff path).mp hname⟩
  · rintro ⟨rfl, hpath⟩
    rw [List.nil_append, (folded_eq_iff path).mpr hpath, String.ofList_toList]

def dashed : Fqn where
  userDomain := { asStr := "my-team", valid := by decide }
  machineId := { asStr := "0123456789abcdef", length_eq := by decide, digits := by simp [isHexDigit] }
  agentTag := { asStr := "ai", valid := by decide }

/-- The copy of `a` by an agent of `my-team` leads to `team_0123456789abcdef_ai-a`. -/
theorem dashed_misleads : ¬ ∀ (fqn : Fqn) (dir path : String) (timestampMs : Nat),
    LeadsBack dir (conflictPath fqn.toString path timestampMs) path := by
  intro h
  exact absurd (h dashed "/share" "a" 7).1 (by decide +kernel)

end Nsmt.Client
