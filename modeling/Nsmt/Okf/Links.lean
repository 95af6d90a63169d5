import Nsmt.Lib.Slices

/-!
# Links in a text

`extract_md_links` goes through the bytes of a text. What it gives is that of the
leftmost matches that do not overlap, and it slices at boundaries only.
-/

namespace Nsmt.Okf

open Nsmt.Lib Nsmt.Lib.Utf8

-- ---------------------------------------------------------------------------
-- The scanner
-- ---------------------------------------------------------------------------

/-- What stands in front of the first space. -/
def beforeSpace (bytes : Bytes) : Bytes := bytes.takeWhile fun b => b ≠ byte ' '

/-- The target of a link that begins at a bracket, and where the link ends. The outer
`none` is a panic. -/
def linkAt (bytes : Bytes) (i : Nat) : Option (Option (Bytes × Nat)) :=
  (sliceFrom bytes (i + 1)).bind fun label =>
    match findByte ']' label with
    | some close =>
      let after := i + 1 + close + 1
      if bytes[after]? = some (byte '(') then
        (sliceFrom bytes (after + 1)).bind fun inner =>
          match findByte ')' inner with
          | some parenEnd =>
            (slice bytes (after + 1) (after + 1 + parenEnd)).map fun target =>
              some (beforeSpace target, after + 1 + parenEnd + 1)
          | none => some none
      else some none
    | none => some none

theorem linkAt_next {bytes target : Bytes} {i next : Nat} (h : linkAt bytes i = some (some (target, next))) : i < next := by
  obtain ⟨label, -, h⟩ := Option.bind_eq_some_iff.mp h
  split at h
  · dsimp only at h
    split at h
    · obtain ⟨inner, -, h⟩ := Option.bind_eq_some_iff.mp h
      split at h
      · obtain ⟨target', -, h⟩ := Option.map_eq_some_iff.mp h
        cases h
        omega
      · cases h
    · cases h
  · cases h

/-- The links from a position on. -/
def extractFrom (bytes : Bytes) (i : Nat) : Option (List Bytes) :=
  if i < bytes.length then
    if bytes[i]? = some (byte '[') then
      match h : linkAt bytes i with
      | none => none
      | some (some (target, next)) =>
        (extractFrom bytes next).map fun links => if target = [] then links else target :: links
      | some none => extractFrom bytes (i + 1)
    else extractFrom bytes (i + 1)
  else some []
termination_by bytes.length - i
decreasing_by
  · have hnext := linkAt_next h
    omega
  · omega
  · omega

def extractMdLinks (body : Text) : Option (List Bytes) := extractFrom (encode body) 0

-- ---------------------------------------------------------------------------
-- The reference
-- ---------------------------------------------------------------------------

/-- A text that begins with `[`, no `]`, `](`, the target, which has no `)`, and `)`. -/
def MatchAt (t target rest : Text) : Prop :=
  ∃ label, t = '[' :: label ++ ']' :: '(' :: target ++ ')' :: rest ∧ ']' ∉ label ∧ ')' ∉ target

/-- The part of a target that counts, if it is not empty. -/
def targetPart (target : Text) : List Text :=
  let part := target.takeWhile fun c => c ≠ ' '
  if part = [] then [] else [part]

/-- The links of a text: the first match in it, then those of the text behind it. -/
inductive Links : Text → List Text → Prop
  | none {t : Text} (h : ∀ front back target rest, t = front ++ back → ¬ MatchAt back target rest) : Links t []
  | found {front back target rest : Text} {links : List Text} (h : MatchAt back target rest)
      (leftmost : ∀ front' back' target' rest', front' ++ back' = front ++ back → front'.length < front.length →
        ¬ MatchAt back' target' rest')
      (later : Links rest links) : Links (front ++ back) (targetPart target ++ links)

-- ---------------------------------------------------------------------------
-- Matches
-- ---------------------------------------------------------------------------

/-- The match that a text begins with, and what is behind it. -/
def matchFront : Text → Option (Text × Text)
  | [] => none
  | c :: cs =>
    if c = '[' then
      match Text.cut [']'] cs with
      | some (_, x :: inner) => if x = '(' then Text.cut [')'] inner else none
      | _ => none
    else none

section
variable {t target rest front cs : Text}

theorem matchAt_iff : MatchAt t target rest ↔ matchFront t = some (target, rest) := by
  constructor
  · rintro ⟨label, rfl, hlabel, htarget⟩
    have hcut : Text.cut [']'] (label ++ ']' :: '(' :: (target ++ ')' :: rest)) =
        some (label, '(' :: (target ++ ')' :: rest)) := Text.cut_char.mpr ⟨rfl, hlabel⟩
    simp only [List.cons_append, List.append_assoc, matchFront, if_true, hcut]
    exact Text.cut_char.mpr ⟨rfl, htarget⟩
  · intro h
    cases t with
    | nil => cases h
    | cons c cs =>
      rw [matchFront] at h
      split at h
      · rename_i hc
        split at h
        · rename_i label x inner hcut
          obtain ⟨rfl, hlabel⟩ := Text.cut_char.mp hcut
          split at h
          · rename_i hx
            obtain ⟨rfl, htarget⟩ := Text.cut_char.mp h
            exact ⟨label, by simp [hc, hx], hlabel, htarget⟩
          · cases h
        · cases h
      · cases h

theorem length_matchFront (h : matchFront t = some (target, rest)) : rest.length < t.length := by
  obtain ⟨label, rfl, -⟩ := matchAt_iff.mpr h
  simp only [List.length_append, List.length_cons]
  omega

/-- The links of a text, found from the left. -/
def linkTargets (t : Text) : List Text :=
  match t with
  | [] => []
  | c :: cs =>
    match _h : matchFront (c :: cs) with
    | some (target, rest) => targetPart target ++ linkTargets rest
    | none => linkTargets cs
termination_by t.length
decreasing_by
  · exact length_matchFront _h
  · exact Nat.lt_succ_self _

theorem linkTargets_match (h : matchFront t = some (target, rest)) : linkTargets t = targetPart target ++ linkTargets rest := by
  cases t with
  | nil => cases h
  | cons c cs =>
    rw [linkTargets]
    split
    · rename_i target' rest' h'
      rw [h] at h'
      cases h'
      rfl
    · rename_i h'
      rw [h] at h'
      cases h'

theorem linkTargets_skip {c : Char} (h : matchFront (c :: cs) = none) : linkTargets (c :: cs) = linkTargets cs := by
  rw [linkTargets]
  split
  · rename_i target' rest' h'
    rw [h] at h'
    cases h'
  · rfl

/-- Text in which no match begins is passed. -/
theorem linkTargets_front (h : ∀ front' back' target' rest', front' ++ back' = front ++ t → front'.length < front.length →
    ¬ MatchAt back' target' rest') : linkTargets (front ++ t) = linkTargets t := by
  induction front with
  | nil => rfl
  | cons c front ih =>
    have hnone : matchFront (c :: (front ++ t)) = none := by
      rw [Option.eq_none_iff_forall_ne_some]
      rintro ⟨target, rest⟩ hsome
      exact h [] (c :: (front ++ t)) target rest rfl (by simp) (matchAt_iff.mpr hsome)
    rw [List.cons_append, linkTargets_skip hnone]
    refine ih fun front' back' target' rest' heq hlen => ?_
    exact h (c :: front') back' target' rest' (by rw [List.cons_append, heq, List.cons_append]) (by simpa using hlen)

theorem linkTargets_none (h : ∀ front back target rest, t = front ++ back → ¬ MatchAt back target rest) : linkTargets t = [] := by
  have hfront : linkTargets (t ++ []) = linkTargets [] := linkTargets_front fun front' back' target' rest' heq _ =>
    h front' back' target' rest' (by rw [heq, List.append_nil])
  rw [List.append_nil] at hfront
  rw [hfront, linkTargets]

/-- The first match, if there is one. -/
theorem exists_leftmost (t : Text) : (∀ front back target rest, t = front ++ back → ¬ MatchAt back target rest) ∨
    ∃ front back target rest, t = front ++ back ∧ MatchAt back target rest ∧
      ∀ front' back' target' rest', front' ++ back' = front ++ back → front'.length < front.length →
        ¬ MatchAt back' target' rest' := by
  classical
  by_cases hex : ∃ n, ∃ front back target rest, t = front ++ back ∧ MatchAt back target rest ∧ front.length = n
  · obtain ⟨front, back, target, rest, ht, hmatch, hlen⟩ := Nat.find_spec hex
    refine .inr ⟨front, back, target, rest, ht, hmatch, fun front' back' target' rest' heq hlt hmatch' => ?_⟩
    exact Nat.find_min hex (hlen ▸ hlt) ⟨front', back', target', rest', ht.trans heq.symm, hmatch', rfl⟩
  · refine .inl fun front back target rest ht hmatch => hex ⟨_, front, back, target, rest, ht, hmatch, rfl⟩

theorem links_iff {links : List Text} : Links t links ↔ links = linkTargets t := by
  constructor
  · intro h
    induction h with
    | @none t h =>
      exact (linkTargets_none h).symm
    | @found front back target rest links h leftmost _ ih =>
      rw [linkTargets_front leftmost, linkTargets_match (matchAt_iff.mp h), ih]
  · rintro rfl
    induction hlen : t.length using Nat.strong_induction_on generalizing t with
    | _ n ih =>
      rcases exists_leftmost t with hnone | ⟨front, back, target, rest, rfl, hmatch, hleft⟩
      · rw [linkTargets_none hnone]
        exact .none hnone
      · have hshort := length_matchFront (matchAt_iff.mp hmatch)
        rw [List.length_append] at hlen
        rw [linkTargets_front hleft, linkTargets_match (matchAt_iff.mp hmatch)]
        exact .found hmatch hleft (ih _ (by omega) rfl)

end

-- ---------------------------------------------------------------------------
-- From bytes to characters
-- ---------------------------------------------------------------------------

section
variable {t target rest front cs : Text}

theorem getElem?_encode {c : Char} (h : c.toNat < 128) :
    (encode front ++ encode t)[(encode front).length]? = some (byte c) ↔ t.head? = some c := by
  rw [List.getElem?_append_right (Nat.le_refl _), Nat.sub_self]
  cases t with
  | nil => simp
  | cons x t =>
    rw [List.head?_cons, Option.some.injEq]
    constructor
    · intro hfirst
      obtain ⟨b, bytes, hbytes⟩ := List.exists_cons_of_ne_nil (encodeChar_ne_nil x)
      rw [encode_cons, hbytes, List.cons_append, List.getElem?_cons_zero, Option.some.injEq] at hfirst
      have hone : byte c ∈ encode [x] := by
        rw [encode_cons, encode_nil, List.append_nil, hbytes, hfirst]
        exact List.mem_cons_self ..
      exact (List.mem_singleton.mp ((byte_mem_encode h).mp hone)).symm
    · rintro rfl
      rw [encode_cons_ascii h, List.getElem?_cons_zero]

theorem beforeSpace_encode : beforeSpace (encode t) = encode (t.takeWhile fun c => c ≠ ' ') := by
  unfold beforeSpace
  induction t with
  | nil => rfl
  | cons c t ih =>
    have hspace : ' '.toNat < 128 := by decide
    by_cases hc : c = ' '
    · rw [hc, encode_cons_ascii hspace, List.takeWhile_cons_of_neg (by simp), List.takeWhile_cons_of_neg (by simp)]
      rfl
    · have hall : ∀ b ∈ String.utf8EncodeChar c, decide (b ≠ byte ' ') = true := by
        intro b hb
        rw [decide_eq_true_eq]
        rintro rfl
        have hmem : byte ' ' ∈ encode [c] := by rwa [encode_cons, encode_nil, List.append_nil]
        exact hc (List.mem_singleton.mp ((byte_mem_encode hspace).mp hmem)).symm
      rw [encode_cons, List.takeWhile_append_of_pos hall, ih, List.takeWhile_cons_of_pos (by simpa using hc), encode_cons]

/-- At a bracket the scanner finds the match, and slices at boundaries. -/
theorem linkAt_encode : linkAt (encode (front ++ '[' :: cs)) (encode front).length =
    some ((matchFront ('[' :: cs)).map fun p =>
      (encode (p.1.takeWhile fun c => c ≠ ' '), (encode (front ++ '[' :: cs)).length - (encode p.2).length)) := by
  have hopen : '['.toNat < 128 := by decide
  have hclose : ']'.toNat < 128 := by decide
  have hparen : '('.toNat < 128 := by decide
  have hparenEnd : ')'.toNat < 128 := by decide
  have hone (front cs : Text) {c : Char} (hc : c.toNat < 128) :
      encode (front ++ c :: cs) = encode (front ++ [c]) ++ encode cs ∧
        (encode front).length + 1 = (encode (front ++ [c])).length := by
    simp [encode_append, encode_cons_ascii hc]
  obtain ⟨hwhole, hnext⟩ := hone front cs hopen
  rw [linkAt, hwhole, hnext, sliceFrom_append, Option.bind_some, findByte_encode hclose, matchFront, if_pos rfl]
  cases hcut : Text.cut [']'] cs with
  | none => rfl
  | some p =>
    obtain ⟨label, behind⟩ := p
    obtain ⟨rfl, -⟩ := Text.cut_char.mp hcut
    obtain ⟨upTo, hupTo⟩ : ∃ upTo, upTo = front ++ ['['] ++ label ++ [']'] := ⟨_, rfl⟩
    have hbytes : encode (front ++ ['[']) ++ encode (label ++ ']' :: behind) = encode upTo ++ encode behind := by
      rw [← encode_append, ← encode_append, hupTo]
      simp
    have hafter : (encode (front ++ ['['])).length + (encode label).length + 1 = (encode upTo).length := by
      rw [hupTo, ← (hone _ [] hclose).2, encode_append (front ++ ['[']), List.length_append]
    simp only [Option.map_some, hbytes, hafter, getElem?_encode hparen]
    cases behind with
    | nil => rfl
    | cons x inner =>
      by_cases hx : x = '('
      · obtain ⟨hwhole', hnext'⟩ := hone upTo inner hparen
        rw [encode_append] at hwhole'
        rw [hx, List.head?_cons, if_pos rfl, hnext', hwhole', sliceFrom_append, Option.bind_some, findByte_encode hparenEnd]
        simp only [if_true]
        cases hcut' : Text.cut [')'] inner with
        | none => rfl
        | some p =>
          obtain ⟨target, rest⟩ := p
          obtain ⟨rfl, -⟩ := Text.cut_char.mp hcut'
          have hend : encode (target ++ ')' :: rest) = encode target ++ byte ')' :: encode rest := by
            rw [encode_append, encode_cons_ascii hparenEnd]
          have hslice : slice (encode (upTo ++ ['(']) ++ encode (target ++ ')' :: rest)) (encode (upTo ++ ['('])).length
              ((encode (upTo ++ ['('])).length + (encode target).length) = some (encode target) := by
            rw [encode_append target, ← List.append_assoc, slice_append]
          simp only [Option.map_some, hslice, beforeSpace_encode, Option.some.injEq, Prod.mk.injEq, true_and]
          rw [hend, List.length_append, List.length_append, List.length_cons]
          omega
      · simp only [List.head?_cons, Option.some.injEq, if_neg hx]
        rfl

/-- Bytes that are not the bracket are passed. -/
theorem extractFrom_skip (front : Bytes) {mid behind : Bytes} (h : byte '[' ∉ mid) :
    extractFrom (front ++ mid ++ behind) front.length = extractFrom (front ++ mid ++ behind) (front.length + mid.length) := by
  induction mid generalizing front with
  | nil => simp
  | cons b mid ih =>
    rw [List.mem_cons, not_or] at h
    have hlength : front.length < (front ++ b :: mid ++ behind).length := by simp
    have hhere : (front ++ b :: mid ++ behind)[front.length]? ≠ some (byte '[') := by
      rw [List.append_assoc, List.getElem?_append_right (Nat.le_refl _), Nat.sub_self, List.cons_append,
        List.getElem?_cons_zero]
      exact fun heq => h.1 (Option.some.inj heq).symm
    have hmove : front ++ b :: mid ++ behind = (front ++ [b]) ++ mid ++ behind := by simp
    rw [extractFrom, if_pos hlength, if_neg hhere, hmove]
    have hlater := ih (front ++ [b]) h.2
    rw [List.length_append, List.length_singleton] at hlater
    rw [hlater, List.length_cons, Nat.add_assoc, Nat.add_comm 1]

theorem map_targetPart (target : Text) (links : List Text) : (targetPart target ++ links).map encode =
    if encode (target.takeWhile fun c => c ≠ ' ') = [] then links.map encode
    else encode (target.takeWhile fun c => c ≠ ' ') :: links.map encode := by
  have hnil {t : Text} : encode t = [] ↔ t = [] := by
    cases t with
    | nil => simp
    | cons c t => simp [encode_cons]
  simp only [hnil, targetPart]
  split <;> simp

/-- The scanner does not panic, and gives the links. -/
theorem extractFrom_encode (front t : Text) :
    extractFrom (encode (front ++ t)) (encode front).length = some ((linkTargets t).map encode) := by
  induction hlen : t.length using Nat.strong_induction_on generalizing front t with
  | _ n ih =>
    cases t with
    | nil =>
      rw [List.append_nil, extractFrom, if_neg (Nat.lt_irrefl _), linkTargets]
      rfl
    | cons c cs =>
      have hwhole : encode (front ++ c :: cs) = encode front ++ String.utf8EncodeChar c ++ encode cs := by
        rw [encode_append, encode_cons, List.append_assoc]
      have hnext : (encode front).length + (String.utf8EncodeChar c).length = (encode (front ++ [c])).length := by
        rw [encode_append, List.length_append, encode_cons, encode_nil, List.append_nil]
      have hlater : extractFrom (encode (front ++ c :: cs)) (encode (front ++ [c])).length = some ((linkTargets cs).map encode) := by
        have hcs := ih cs.length (by rw [← hlen]; exact Nat.lt_succ_self _) (front ++ [c]) cs rfl
        rwa [List.append_assoc] at hcs
      have hopen : '['.toNat < 128 := by decide
      by_cases hc : c = '['
      · subst hc
        have hsplit : encode (front ++ '[' :: cs) = encode front ++ encode ('[' :: cs) := encode_append ..
        have hlt : (encode front).length < (encode (front ++ '[' :: cs)).length := by
          rw [hsplit, encode_cons_ascii hopen, List.length_append, List.length_cons]
          omega
        have hbracket : (encode (front ++ '[' :: cs))[(encode front).length]? = some (byte '[') := by
          rw [hsplit, getElem?_encode hopen]
          rfl
        rw [extractFrom, if_pos hlt, if_pos hbracket]
        split
        · rename_i hpanic
          rw [linkAt_encode] at hpanic
          cases hpanic
        · rename_i target next hlink
          rw [linkAt_encode] at hlink
          obtain ⟨⟨text, rest⟩, hmatch, heq⟩ := Option.map_eq_some_iff.mp (Option.some.inj hlink)
          cases heq
          obtain ⟨label, htext, -⟩ := matchAt_iff.mpr hmatch
          have hshort := length_matchFront hmatch
          have hrest := ih rest.length (by rwa [← hlen]) (front ++ ('[' :: label ++ ']' :: '(' :: text ++ [')'])) rest rfl
          have hmove : front ++ '[' :: cs = front ++ ('[' :: label ++ ']' :: '(' :: text ++ [')']) ++ rest := by
            rw [htext]
            simp
          have hpos : (encode (front ++ '[' :: cs)).length - (encode rest).length =
              (encode (front ++ ('[' :: label ++ ']' :: '(' :: text ++ [')']))).length := by
            rw [hmove, encode_append _ rest, List.length_append, Nat.add_sub_cancel]
          rw [hpos, hmove, hrest, linkTargets_match hmatch, map_targetPart]
          rfl
        · rename_i hlink
          rw [linkAt_encode] at hlink
          rw [linkTargets_skip (Option.map_eq_none_iff.mp (Option.some.inj hlink)), ← hlater, ← hnext]
          rfl
      · have hbyte : byte '[' ∉ String.utf8EncodeChar c := by
          intro hmem
          have hmem' : byte '[' ∈ encode [c] := by rwa [encode_cons, encode_nil, List.append_nil]
          exact hc (List.mem_singleton.mp ((byte_mem_encode hopen).mp hmem')).symm
        have hnone : matchFront (c :: cs) = none := by rw [matchFront, if_neg hc]
        rw [linkTargets_skip hnone, ← hlater, ← hnext, hwhole, extractFrom_skip _ hbyte]

/-- `extract_md_links` gives the targets of the leftmost matches that do not overlap. -/
theorem extractMdLinks_exact (body : Text) : ∃ links, extractMdLinks body = some (links.map encode) ∧
    ∀ links', Links body links' ↔ links' = links :=
  ⟨linkTargets body, extractFrom_encode [] body, fun _ => links_iff⟩

end

end Nsmt.Okf
