import Nsmt.Core.Identity
import Nsmt.Lib.TextLines

/-!
# Parsing qualified names

`Fqn::from_str` and the grammar that is documented for it. The grammar asks for
three characters of a tenant's name and for a letter or digit in front;
`UserDomain::new` does not. `parses_iff` says for which strings that shows.
-/

namespace Nsmt.Core

open Nsmt.Lib

/-- `splitn`: at most `n` parts. -/
def splitn (sep : Char) : Nat → Text → List Text
  | 0, _ => []
  | 1, t => [t]
  | n + 2, t =>
    match Text.cut [sep] t with
    | some (part, rest) => part :: splitn sep (n + 1) rest
    | none => [t]

namespace MachineId

/-- `is_ascii_hexdigit`. -/
def allowed (c : Char) : Bool := "0123456789abcdefABCDEF".toList.contains c

def isValid (s : String) : Bool := (utf8 s).length = 16 && s.toList.all allowed

def toLowercase (s : String) : String := String.ofList (s.toList.map Char.toLower)

theorem allowed_ascii {c : Char} (h : allowed c = true) : c.toNat < 128 := by
  have hall : ∀ c ∈ "0123456789abcdefABCDEF".toList, c.toNat < 128 := by decide
  exact hall c (List.contains_iff_mem.mp h)

theorem isHexDigit_toLower {c : Char} (h : allowed c = true) : isHexDigit c.toLower = true := by
  have hall : ∀ c ∈ "0123456789abcdefABCDEF".toList, isHexDigit c.toLower = true := by decide
  exact hall c (List.contains_iff_mem.mp h)

/-- A machine id in lower case. -/
def ofHex (s : String) (h : isValid s = true) : MachineId where
  asStr := toLowercase s
  length_eq := by
    simp only [isValid, Bool.and_eq_true, decide_eq_true_eq, List.all_eq_true] at h
    obtain ⟨hlength, -⟩ := utf8_ascii fun c hc => allowed_ascii (h.2 c hc)
    rw [toLowercase, String.toList_ofList, List.length_map, ← hlength, h.1]
  digits := by
    simp only [isValid, Bool.and_eq_true, decide_eq_true_eq, List.all_eq_true] at h
    intro c hc
    rw [toLowercase, String.toList_ofList] at hc
    obtain ⟨digit, hdigit, rfl⟩ := List.mem_map.mp hc
    exact isHexDigit_toLower (h.2 digit hdigit)

end MachineId

/-- `none` is the error, which names the string and nothing else. -/
def AgentTag.new (s : String) : Option AgentTag :=
  if h : isValid s = true then some { asStr := s, valid := h } else none

def Fqn.fromStr (s : String) : Option Fqn :=
  match splitn '/' 3 s.toList with
  | [userDomain, machineId, agentTag] =>
    if h : MachineId.isValid (String.ofList machineId) = true then do
      let userDomain ← UserDomain.new (String.ofList userDomain)
      let agentTag ← AgentTag.new (String.ofList agentTag)
      pure { userDomain, machineId := .ofHex (String.ofList machineId) h, agentTag }
    else none
  | _ => none

-- ---------------------------------------------------------------------------
-- The grammar
-- ---------------------------------------------------------------------------

/-- `[a-z0-9]` in front and two to 63 of `[a-z0-9._-]` behind it. -/
def DomainGrammar : Text → Prop
  | [] => False
  | c :: rest => (c.isLower || c.isDigit) = true ∧ 2 ≤ rest.length ∧ rest.length ≤ 63 ∧
      ∀ x ∈ rest, UserDomain.allowed x = true

def MachineGrammar (t : Text) : Prop := t.length = 16 ∧ ∀ c ∈ t, MachineId.allowed c = true

def TagGrammar (t : Text) : Prop := 1 ≤ t.length ∧ t.length ≤ 63 ∧ ∀ c ∈ t, AgentTag.allowed c = true

def FqnGrammar (s : Text) : Prop :=
  ∃ u m a, s = u ++ '/' :: m ++ '/' :: a ∧ DomainGrammar u ∧ MachineGrammar m ∧ TagGrammar a

/-- A string is accepted if and only if it has the form that is documented; what is
accepted prints as the string with its machine id in lower case, which parses again. -/
structure Parses (s : String) : Prop where
  accepted : (Fqn.fromStr s).isSome = true ↔ FqnGrammar s.toList
  printed : ∀ fqn, Fqn.fromStr s = some fqn →
    (∃ u m a, s.toList = u ++ '/' :: m ++ '/' :: a ∧ '/' ∉ u ∧ '/' ∉ m ∧
      fqn.toString.toList = u ++ '/' :: m.map Char.toLower ++ '/' :: a) ∧
    Fqn.fromStr fqn.toString = some fqn

/-- A tenant's name of the right characters that is too short or has none of
`[a-z0-9]` in front. -/
structure LooseDomain (u : Text) : Prop where
  ne_nil : u ≠ []
  short : u.length ≤ 64
  chars : ∀ c ∈ u, UserDomain.allowed c = true
  loose : u.length < 3 ∨ ∃ c ∈ u.head?, c ∈ "._-".toList

/-- A qualified name but for its tenant. -/
def LooseName (s : Text) : Prop :=
  ∃ u m a, s = u ++ '/' :: m ++ '/' :: a ∧ LooseDomain u ∧ MachineGrammar m ∧ TagGrammar a

-- ---------------------------------------------------------------------------
-- Parts
-- ---------------------------------------------------------------------------

section
variable {t u m a : Text}

/-- Three parts are cut at the first two slashes. -/
theorem splitn_three : splitn '/' 3 t = [u, m, a] ↔ t = u ++ '/' :: m ++ '/' :: a ∧ '/' ∉ u ∧ '/' ∉ m := by
  rw [List.append_assoc, List.cons_append]
  constructor
  · intro h
    rw [splitn] at h
    split at h
    · rename_i part rest hcut
      obtain ⟨rfl, hpart⟩ := Text.cut_char.mp hcut
      rw [splitn] at h
      split at h
      · rename_i part' rest' hcut'
        obtain ⟨rfl, hpart'⟩ := Text.cut_char.mp hcut'
        cases h
        exact ⟨rfl, hpart, hpart'⟩
      · cases h
    · cases h
  · rintro ⟨rfl, hu, hm⟩
    rw [splitn, Text.cut_char.mpr ⟨rfl, hu⟩]
    dsimp only
    rw [splitn, Text.cut_char.mpr ⟨rfl, hm⟩]
    rfl

theorem no_slash {allowed : Char → Bool} (h : ∀ c ∈ t, allowed c = true) (hslash : allowed '/' = false) : '/' ∉ t := by
  intro hmem
  rw [h '/' hmem] at hslash
  cases hslash

end

-- ---------------------------------------------------------------------------
-- Checks
-- ---------------------------------------------------------------------------

section
variable {t : Text} {s : String}

theorem ofList_ne_empty : (String.ofList t ≠ "") ↔ t ≠ [] := by
  rw [not_iff_not, ← String.toList_inj, String.toList_ofList]
  rfl

/-- The length in bytes is that in characters where only ASCII is allowed. -/
theorem checked_ascii {allowed : Char → Bool} (hascii : ∀ c, allowed c = true → c.toNat < 128) {P : Nat → Prop} :
    (P (utf8 (String.ofList t)).length ∧ ∀ c ∈ t, allowed c = true) ↔ P t.length ∧ ∀ c ∈ t, allowed c = true := by
  refine and_congr_left fun h => ?_
  obtain ⟨hlength, -⟩ := utf8_ascii (s := String.ofList t) fun c hc => hascii c (h c (by rwa [String.toList_ofList] at hc))
  rw [hlength, String.toList_ofList]

theorem dotted_ascii {c : Char} (h : c ∈ "._-".toList) : c.toNat < 128 := by
  have hall : ∀ c ∈ "._-".toList, c.toNat < 128 := by decide
  exact hall c h

theorem between_ascii {c : Char} {low high : UInt32} (h : (decide (c.val ≥ low) && decide (c.val ≤ high)) = true)
    (hhigh : high.toNat < 128) : c.toNat < 128 := by
  simp only [Bool.and_eq_true, decide_eq_true_eq] at h
  exact Nat.lt_of_le_of_lt h.2 hhigh

theorem UserDomain.allowed_ascii (c : Char) (h : UserDomain.allowed c = true) : c.toNat < 128 := by
  simp only [UserDomain.allowed, Bool.or_eq_true, List.contains_iff_mem] at h
  rcases h with (hlower | hdigit) | hmem
  · exact between_ascii hlower (by decide)
  · exact between_ascii hdigit (by decide)
  · exact dotted_ascii hmem

theorem AgentTag.allowed_ascii (c : Char) (h : AgentTag.allowed c = true) : c.toNat < 128 := by
  simp only [AgentTag.allowed, Bool.or_eq_true, List.contains_iff_mem] at h
  rcases h with hletter | hmem
  · have hkinds : ((c.isUpper || c.isLower) || c.isDigit) = true := hletter
    simp only [Bool.or_eq_true] at hkinds
    rcases hkinds with (hupper | hlower) | hdigit
    · have hrange : c.val ≥ 'A'.val ∧ c.val ≤ 'Z'.val := of_decide_eq_true hupper
      exact Nat.lt_of_le_of_lt hrange.2 (by decide)
    · exact between_ascii hlower (by decide)
    · exact between_ascii hdigit (by decide)
  · exact dotted_ascii hmem

theorem UserDomain.isValid_iff : UserDomain.isValid (String.ofList t) = true ↔
    t ≠ [] ∧ t.length ≤ 64 ∧ ∀ c ∈ t, UserDomain.allowed c = true := by
  simp only [UserDomain.isValid, Bool.and_eq_true, decide_eq_true_eq, List.all_eq_true, String.toList_ofList,
    ofList_ne_empty, and_assoc]
  exact and_congr_right fun _ => checked_ascii UserDomain.allowed_ascii (P := (· ≤ 64))

theorem AgentTag.isValid_iff : AgentTag.isValid (String.ofList t) = true ↔ TagGrammar t := by
  simp only [AgentTag.isValid, Bool.and_eq_true, decide_eq_true_eq, List.all_eq_true, String.toList_ofList,
    ofList_ne_empty, and_assoc]
  exact and_congr List.length_pos_iff.symm (checked_ascii AgentTag.allowed_ascii (P := (· ≤ 63)))

theorem MachineId.isValid_iff : MachineId.isValid (String.ofList t) = true ↔ MachineGrammar t := by
  simp only [MachineId.isValid, Bool.and_eq_true, decide_eq_true_eq, List.all_eq_true, String.toList_ofList]
  exact checked_ascii (fun _ => MachineId.allowed_ascii) (P := (· = 16))

theorem UserDomain.new_eq_some {d : UserDomain} : UserDomain.new s = some d ↔ s = d.asStr := by
  unfold UserDomain.new
  split
  · rw [Option.some.injEq, UserDomain.mk.injEq]
  · rename_i hnot
    simp only [reduceCtorEq, false_iff]
    exact fun heq => hnot (heq ▸ d.valid)

theorem AgentTag.new_eq_some {a : AgentTag} : AgentTag.new s = some a ↔ s = a.asStr := by
  unfold AgentTag.new
  split
  · rw [Option.some.injEq, AgentTag.mk.injEq]
  · rename_i hnot
    simp only [reduceCtorEq, false_iff]
    exact fun heq => hnot (heq ▸ a.valid)

theorem MachineId.ext {m m' : MachineId} (h : m.asStr = m'.asStr) : m = m' := by
  cases m
  cases m'
  cases h
  rfl

/-- What is parsed, part by part. -/
theorem Fqn.fromStr_eq_some {fqn : Fqn} : Fqn.fromStr s = some fqn ↔
    ∃ m, s.toList = fqn.userDomain.asStr.toList ++ '/' :: m ++ '/' :: fqn.agentTag.asStr.toList ∧ '/' ∉ m ∧
      MachineGrammar m ∧ fqn.machineId.asStr = MachineId.toLowercase (String.ofList m) := by
  unfold Fqn.fromStr
  constructor
  · intro h
    split at h
    · rename_i u m a hsplit
      obtain ⟨hs, -, hm⟩ := splitn_three.mp hsplit
      split at h
      · rename_i hvalid
        obtain ⟨d, hd, h⟩ := Option.bind_eq_some_iff.mp h
        obtain ⟨tag, htag, h⟩ := Option.bind_eq_some_iff.mp h
        cases h
        rw [← UserDomain.new_eq_some.mp hd, ← AgentTag.new_eq_some.mp htag, String.toList_ofList, String.toList_ofList]
        exact ⟨m, hs, hm, MachineId.isValid_iff.mp hvalid, rfl⟩
      · cases h
    · cases h
  · rintro ⟨m, hs, hm, hvalid, hlower⟩
    have hvalid' := MachineId.isValid_iff.mpr hvalid
    have hmachine : MachineId.ofHex (String.ofList m) hvalid' = fqn.machineId := MachineId.ext hlower.symm
    rw [splitn_three.mpr ⟨hs, fqn.userDomain.no_slash, hm⟩]
    simp only [hvalid', hmachine, dite_true, String.ofList_toList, UserDomain.new_eq_some.mpr rfl,
      AgentTag.new_eq_some.mpr rfl, Option.bind_eq_bind, Option.bind_some]
    rfl

end

-- ---------------------------------------------------------------------------
-- Acceptance and printing
-- ---------------------------------------------------------------------------

section
variable {s : String} {u m a : Text}

/-- What `UserDomain::new` accepts is in the grammar or is too loose. -/
theorem domain_iff : (u ≠ [] ∧ u.length ≤ 64 ∧ ∀ c ∈ u, UserDomain.allowed c = true) ↔ DomainGrammar u ∨ LooseDomain u := by
  cases u with
  | nil =>
    simp only [ne_eq, not_true_eq_false, false_and, DomainGrammar, false_or, false_iff]
    exact fun h => h.ne_nil rfl
  | cons c rest =>
    constructor
    · rintro ⟨-, hlength, hall⟩
      obtain ⟨hc, hrest⟩ := List.forall_mem_cons.mp hall
      by_cases hshort : (c :: rest).length < 3
      · exact .inr ⟨List.cons_ne_nil _ _, hlength, hall, .inl hshort⟩
      · by_cases hfirst : (c.isLower || c.isDigit) = true
        · simp only [List.length_cons] at hlength hshort
          exact .inl ⟨hfirst, by omega, by omega, hrest⟩
        · rw [UserDomain.allowed, Bool.eq_false_iff.mpr hfirst, Bool.false_or, List.contains_iff_mem] at hc
          exact .inr ⟨List.cons_ne_nil _ _, hlength, hall, .inr ⟨c, rfl, hc⟩⟩
    · rintro (⟨hfirst, -, hlength, hrest⟩ | hloose)
      · have hc : UserDomain.allowed c = true := by rw [UserDomain.allowed, hfirst, Bool.true_or]
        exact ⟨List.cons_ne_nil _ _, by rw [List.length_cons]; omega, List.forall_mem_cons.mpr ⟨hc, hrest⟩⟩
      · exact ⟨hloose.ne_nil, hloose.short, hloose.chars⟩

theorem not_both (hdomain : DomainGrammar u) (hloose : LooseDomain u) : False := by
  cases u with
  | nil => exact hdomain
  | cons c rest =>
    obtain ⟨hfirst, hlong, -⟩ := hdomain
    rcases hloose.loose with hshort | ⟨x, hx, hpunct⟩
    · rw [List.length_cons] at hshort
      omega
    · cases hx
      have hall : ∀ c ∈ "._-".toList, (c.isLower || c.isDigit) = false := by decide
      rw [hall c hpunct] at hfirst
      cases hfirst

/-- The parts of a name are determined by it. -/
theorem parts_inj {u' m' a' : Text} (h : u ++ '/' :: m ++ '/' :: a = u' ++ '/' :: m' ++ '/' :: a') (hu : '/' ∉ u)
    (hm : '/' ∉ m) (hu' : '/' ∉ u') (hm' : '/' ∉ m') : u = u' := by
  have hparts := splitn_three.mpr ⟨h, hu', hm'⟩
  rw [splitn_three.mpr ⟨rfl, hu, hm⟩] at hparts
  exact (List.cons.inj hparts).1

theorem MachineGrammar.no_slash (h : MachineGrammar m) : '/' ∉ m := Core.no_slash h.2 rfl

theorem fromStr_isSome : (Fqn.fromStr s).isSome = true ↔ FqnGrammar s.toList ∨ LooseName s.toList := by
  have haccepted : (Fqn.fromStr s).isSome = true ↔ ∃ u m a, s.toList = u ++ '/' :: m ++ '/' :: a ∧
      (u ≠ [] ∧ u.length ≤ 64 ∧ ∀ c ∈ u, UserDomain.allowed c = true) ∧ MachineGrammar m ∧ TagGrammar a := by
    constructor
    · intro h
      obtain ⟨fqn, hfqn⟩ := Option.isSome_iff_exists.mp h
      obtain ⟨m, hs, -, hm, -⟩ := Fqn.fromStr_eq_some.mp hfqn
      refine ⟨_, m, _, hs, UserDomain.isValid_iff.mp ?_, hm, AgentTag.isValid_iff.mp ?_⟩
      · rw [String.ofList_toList, fqn.userDomain.valid]
      · rw [String.ofList_toList, fqn.agentTag.valid]
    · rintro ⟨u, m, a, hs, hu, hm, ha⟩
      let fqn : Fqn := {
        userDomain := { asStr := String.ofList u, valid := UserDomain.isValid_iff.mpr hu }
        machineId := .ofHex (String.ofList m) (MachineId.isValid_iff.mpr hm)
        agentTag := { asStr := String.ofList a, valid := AgentTag.isValid_iff.mpr ha } }
      rw [Option.isSome_iff_exists]
      refine ⟨fqn, Fqn.fromStr_eq_some.mpr ⟨m, ?_, hm.no_slash, hm, rfl⟩⟩
      simp only [fqn, String.toList_ofList]
      exact hs
  rw [haccepted]
  simp only [domain_iff, or_and_right, and_or_left, exists_or, FqnGrammar, LooseName]

/-- Printing and parsing are inverse on what was parsed. -/
theorem fromStr_toString {fqn : Fqn} (h : Fqn.fromStr s = some fqn) :
    (∃ u m a, s.toList = u ++ '/' :: m ++ '/' :: a ∧ '/' ∉ u ∧ '/' ∉ m ∧
      fqn.toString.toList = u ++ '/' :: m.map Char.toLower ++ '/' :: a) ∧
    Fqn.fromStr fqn.toString = some fqn := by
  have hprint : fqn.toString.toList =
      fqn.userDomain.asStr.toList ++ '/' :: fqn.machineId.asStr.toList ++ '/' :: fqn.agentTag.asStr.toList := by
    simp [Fqn.toString]
  obtain ⟨m, hs, hm, -, hlower⟩ := Fqn.fromStr_eq_some.mp h
  constructor
  · refine ⟨_, m, _, hs, fqn.userDomain.no_slash, hm, ?_⟩
    rw [hprint, hlower, MachineId.toLowercase, String.toList_ofList, String.toList_ofList]
  · have hdigits : ∀ c ∈ fqn.machineId.asStr.toList, MachineId.allowed c = true ∧ c.toLower = c := by
      have hall : ∀ c ∈ "0123456789abcdef".toList, MachineId.allowed c = true ∧ c.toLower = c := by decide
      exact fun c hc => hall c (List.contains_iff_mem.mp (fqn.machineId.digits c hc))
    have hgrammar : MachineGrammar fqn.machineId.asStr.toList := ⟨fqn.machineId.length_eq, fun c hc => (hdigits c hc).1⟩
    refine Fqn.fromStr_eq_some.mpr ⟨_, hprint, hgrammar.no_slash, hgrammar, ?_⟩
    rw [MachineId.toLowercase, String.toList_ofList, ← String.toList_inj, String.toList_ofList]
    conv_lhs => rw [← List.map_id fqn.machineId.asStr.toList]
    exact List.map_congr_left fun c hc => (hdigits c hc).2.symm

theorem grammar_not_loose (hgrammar : FqnGrammar s.toList) (hloose : LooseName s.toList) : False := by
  obtain ⟨u, m, a, hs, hu, hm, -⟩ := hgrammar
  obtain ⟨u', m', a', hs', hu', hm', -⟩ := hloose
  have hslash := no_slash (domain_iff.mpr (.inl hu)).2.2 rfl
  have hslash' := no_slash hu'.chars rfl
  obtain rfl := parts_inj (hs.symm.trans hs') hslash hm.no_slash hslash' hm'.no_slash
  exact not_both hu hu'

/-- Parsing is as documented but for names whose tenant is too short or begins with
punctuation. -/
theorem parses_iff (s : String) : Parses s ↔ ¬ LooseName s.toList := by
  constructor
  · intro hparses hloose
    exact grammar_not_loose (hparses.accepted.mp (fromStr_isSome.mpr (.inr hloose))) hloose
  · intro hloose
    refine ⟨?_, fun fqn hfqn => fromStr_toString hfqn⟩
    rw [fromStr_isSome, or_iff_left hloose]

end

/-- A tenant's name of one character is accepted. -/
theorem short_domain_parses : ¬ ∀ s, Parses s := by
  intro h
  have hsome : (Fqn.fromStr "a/9f2c81d4deadbeef/maka").isSome = true := by decide
  obtain ⟨u, m, a, hs, hu, hm, -⟩ := (h "a/9f2c81d4deadbeef/maka").accepted.mp hsome
  have hs' : "a/9f2c81d4deadbeef/maka".toList = ['a'] ++ '/' :: "9f2c81d4deadbeef".toList ++ '/' :: "maka".toList := rfl
  obtain rfl := parts_inj (hs'.symm.trans hs) (by decide) (by decide) (no_slash (domain_iff.mpr (.inl hu)).2.2 rfl)
    hm.no_slash
  exact absurd hu.2.1 (by decide)

end Nsmt.Core
