import Nsmt.Lib.TextLines
import Nsmt.Lib.Utf8

/-!
# Slices of strings

Strings are cut at positions in bytes, which must be boundaries of characters.
Behind the encoding of some text such a position is one.
-/

namespace Nsmt.Lib.Utf8

def isBoundary (bytes : Bytes) (i : Nat) : Bool :=
  match bytes[i]? with
  | some b => i == 0 || !isContinuation b
  | none => i == bytes.length

/-- `&s[i..]`; `none` is a panic. -/
def sliceFrom (bytes : Bytes) (i : Nat) : Option Bytes := if isBoundary bytes i then some (bytes.drop i) else none

/-- `&s[..j]` -/
def sliceTo (bytes : Bytes) (j : Nat) : Option Bytes := if isBoundary bytes j then some (bytes.take j) else none

/-- `&s[i..j]` -/
def slice (bytes : Bytes) (i j : Nat) : Option Bytes :=
  if i ≤ j ∧ isBoundary bytes i ∧ isBoundary bytes j then some ((bytes.take j).drop i) else none

/-- The byte of an ASCII character. -/
def byte (c : Char) : UInt8 := UInt8.ofNat c.toNat

/-- `find` with an ASCII character. -/
def findByte (c : Char) (bytes : Bytes) : Option Nat := bytes.findIdx? (· = byte c)

section
variable {c : Char} {a b t : Text}

theorem toNat_byte (h : c.toNat < 128) : (byte c).toNat = c.toNat := by
  rw [byte, UInt8.toNat_ofNat', Nat.mod_eq_of_lt (by omega)]

theorem encode_cons_ascii (h : c.toNat < 128) : encode (c :: t) = byte c :: encode t := by
  rw [encode_cons, encodeChar_ascii h]
  rfl

/-- The byte of an ASCII character stands for it only. -/
theorem byte_mem_encode (h : c.toNat < 128) : byte c ∈ encode t ↔ c ∈ t := by
  constructor
  · intro hmem
    obtain ⟨x, hx, heq⟩ := of_mem_encode hmem (by rw [toNat_byte h]; exact h)
    rw [toNat_byte h] at heq
    rwa [← Char.toNat_inj.mp heq]
  · intro hmem
    have hone : byte c ∈ String.utf8EncodeChar c := by simp [encodeChar_ascii h, byte]
    exact List.mem_flatMap.mpr ⟨c, hmem, hone⟩

theorem isBoundary_append : isBoundary (encode a ++ encode b) (encode a).length = true := by
  unfold isBoundary
  split
  · rename_i x hx
    rw [List.getElem?_append_right (Nat.le_refl _), Nat.sub_self] at hx
    have hx' : isContinuation x = false := by
      rw [Bool.eq_false_iff]
      intro hcont
      exact absurd (flatMap_utf8EncodeChar_boundary b 0 x hx hcont).1 (Nat.lt_irrefl 0)
    rw [hx', Bool.not_false, Bool.or_true]
  · rename_i hnone
    rw [List.getElem?_eq_none_iff, List.length_append] at hnone
    rw [List.length_append, beq_iff_eq]
    omega

theorem sliceFrom_append : sliceFrom (encode a ++ encode b) (encode a).length = some (encode b) := by
  rw [sliceFrom, if_pos isBoundary_append, List.drop_left]

theorem slice_append {m : Text} :
    slice (encode a ++ encode m ++ encode b) (encode a).length ((encode a).length + (encode m).length) =
      some (encode m) := by
  have hfront : isBoundary (encode a ++ encode m ++ encode b) (encode a).length = true := by
    rw [List.append_assoc, ← encode_append]
    exact isBoundary_append
  have hback : isBoundary (encode a ++ encode m ++ encode b) ((encode a).length + (encode m).length) = true := by
    rw [← List.length_append, ← encode_append]
    exact isBoundary_append
  rw [slice, if_pos ⟨Nat.le_add_right .., hfront, hback⟩, ← List.length_append, List.take_left, List.drop_left]

/-- A character is found where the text is cut at it. -/
theorem findByte_encode (h : c.toNat < 128) :
    findByte c (encode t) = (Text.cut [c] t).map fun p => (encode p.1).length := by
  cases hcut : Text.cut [c] t with
  | none =>
    have hmem : c ∉ t := by
      intro hmem
      obtain ⟨u, v, rfl⟩ := List.append_of_mem hmem
      rw [List.append_cons] at hcut
      exact Text.cut_ne_none hcut
    rw [findByte, List.findIdx?_eq_none_iff.mpr]
    · rfl
    · rintro x hx
      exact decide_eq_false fun heq => hmem ((byte_mem_encode h).mp (heq ▸ hx))
  | some p =>
    obtain ⟨u, v⟩ := p
    obtain ⟨rfl, hu⟩ := Text.cut_char.mp hcut
    have hnone : List.findIdx? (fun x => decide (x = byte c)) (encode u) = none :=
      List.findIdx?_eq_none_iff.mpr fun x hx =>
        decide_eq_false fun heq => hu ((byte_mem_encode h).mp (heq ▸ hx))
    rw [findByte, encode_append, encode_cons_ascii h, List.findIdx?_append, hnone, List.findIdx?_cons]
    simp

-- ---------------------------------------------------------------------------
-- Boundaries
-- ---------------------------------------------------------------------------

/-- Behind its first byte a character has bytes that only continue it. -/
theorem continuation_encodeChar {i : Nat} {x : UInt8} (hx : (String.utf8EncodeChar c)[i]? = some x) (hi : 0 < i) :
    isContinuation x = true := by
  rw [isContinuation_iff]
  revert hx
  fun_cases String.utf8EncodeChar c <;> intro hx
  all_goals
    rcases i with _ | _ | _ | _ | i <;>
      simp only [List.getElem?_cons_zero, List.getElem?_cons_succ, List.getElem?_nil,
        Option.some.injEq, reduceCtorEq, Nat.lt_irrefl] at hx hi
  all_goals
    subst hx
    simp
    omega

/-- At a boundary the text is cut between characters. -/
theorem exists_of_isBoundary {i : Nat} (h : isBoundary (encode t) i = true) :
    ∃ p rest, t = p ++ rest ∧ (encode p).length = i := by
  induction t generalizing i with
  | nil =>
    have hi : i = 0 := by simpa [isBoundary] using h
    exact ⟨[], [], rfl, hi.symm⟩
  | cons c t ih =>
    by_cases hzero : i = 0
    · exact ⟨[], c :: t, rfl, hzero.symm⟩
    · by_cases hin : i < (String.utf8EncodeChar c).length
      · have hsome : (encode (c :: t))[i]? = some (String.utf8EncodeChar c)[i] := by
          rw [encode_cons, List.getElem?_append_left hin, List.getElem?_eq_getElem hin]
        have hcont := continuation_encodeChar (List.getElem?_eq_getElem hin) (Nat.pos_of_ne_zero hzero)
        rw [isBoundary, hsome] at h
        simp [hcont, hzero] at h
      · rw [Nat.not_lt] at hin
        have hlater : isBoundary (encode t) (i - (String.utf8EncodeChar c).length) = true := by
          rw [isBoundary, encode_cons, List.getElem?_append_right hin] at h
          unfold isBoundary
          split at h
          · rename_i x hx
            rw [hx]
            have hx' : isContinuation x = false := by simpa [hzero] using h
            simp [hx']
          · rename_i hx
            rw [hx]
            rw [beq_iff_eq, List.length_append] at h
            rw [beq_iff_eq]
            omega
        obtain ⟨p, rest, rfl, hlength⟩ := ih hlater
        refine ⟨c :: p, rest, rfl, ?_⟩
        rw [encode_cons, List.length_append]
        omega

theorem isBoundary_iff {i : Nat} : isBoundary (encode t) i = true ↔ ∃ p, p <+: t ∧ (encode p).length = i := by
  constructor
  · intro h
    obtain ⟨p, rest, rfl, hlength⟩ := exists_of_isBoundary h
    exact ⟨p, List.prefix_append .., hlength⟩
  · rintro ⟨p, ⟨rest, rfl⟩, rfl⟩
    rw [encode_append]
    exact isBoundary_append

/-- What is sliced off in front is the beginning of the text. -/
theorem prefix_of_sliceTo {j : Nat} {bytes : Bytes} (h : sliceTo (encode t) j = some bytes) :
    ∃ p, p <+: t ∧ bytes = encode p := by
  unfold sliceTo at h
  split at h
  · rename_i hboundary
    obtain ⟨p, rest, rfl, hlength⟩ := exists_of_isBoundary hboundary
    cases h
    refine ⟨p, List.prefix_append .., ?_⟩
    rw [encode_append, ← hlength, List.take_left]
  · cases h

end

end Nsmt.Lib.Utf8
