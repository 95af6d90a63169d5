import Nsmt.Lib.Bytes
import Mathlib.Data.List.Basic

/-!
# Lossy decoding of UTF-8

What is no UTF-8 becomes replacement characters, one for each longest beginning
of a character. The UTF-8 bytes of a text decode to the text, and an ASCII
beginning of what is decoded is one of the bytes.
-/

namespace Nsmt.Lib.Utf8

/-- The ranges of the bytes that may follow a first byte. -/
def continuations (first : UInt8) : List (Nat × Nat) :=
  let b := first.toNat
  if 0xC2 ≤ b ∧ b ≤ 0xDF then [(0x80, 0xBF)]
  else if b = 0xE0 then [(0xA0, 0xBF), (0x80, 0xBF)]
  else if b = 0xED then [(0x80, 0x9F), (0x80, 0xBF)]
  else if 0xE1 ≤ b ∧ b ≤ 0xEF then [(0x80, 0xBF), (0x80, 0xBF)]
  else if b = 0xF0 then [(0x90, 0xBF), (0x80, 0xBF), (0x80, 0xBF)]
  else if 0xF1 ≤ b ∧ b ≤ 0xF3 then [(0x80, 0xBF), (0x80, 0xBF), (0x80, 0xBF)]
  else if b = 0xF4 then [(0x80, 0x8F), (0x80, 0xBF), (0x80, 0xBF)]
  else []

/-- How many bytes are in their ranges before the first that is not. -/
def matching : List (Nat × Nat) → Bytes → Nat
  | (lo, hi) :: ranges, b :: bytes =>
    if lo ≤ b.toNat ∧ b.toNat ≤ hi then matching ranges bytes + 1 else 0
  | _, _ => 0

/-- The character the bytes begin with. -/
def first? (bytes : Bytes) : Option Char := bytes.toByteArray.utf8DecodeChar? 0

def replacement : Char := Char.ofNat 0xFFFD

/-- `String::from_utf8_lossy`. -/
def fromUtf8Lossy : Bytes → List Char
  | [] => []
  | b :: bytes =>
    match first? (b :: bytes) with
    | some c => c :: fromUtf8Lossy (bytes.drop (c.utf8Size - 1))
    | none => replacement :: fromUtf8Lossy (bytes.drop (matching (continuations b) bytes))
termination_by bytes => bytes.length
decreasing_by all_goals (simp only [List.length_drop, List.length_cons]; omega)

def encode (cs : List Char) : Bytes := cs.flatMap String.utf8EncodeChar

theorem utf8_eq_encode (s : String) : utf8 s = encode s.toList := rfl

@[simp] theorem encode_nil : encode [] = [] := rfl

theorem encode_cons (c : Char) (cs : List Char) :
    encode (c :: cs) = String.utf8EncodeChar c ++ encode cs := rfl

theorem encode_append (a b : List Char) : encode (a ++ b) = encode a ++ encode b :=
  List.flatMap_append

-- ---------------------------------------------------------------------------
-- Encoding and decoding
-- ---------------------------------------------------------------------------

theorem first?_encodeChar (c : Char) (rest : Bytes) :
    first? (String.utf8EncodeChar c ++ rest) = some c := by
  rw [first?, List.toByteArray_append]
  exact ByteArray.utf8DecodeChar?_utf8EncodeChar_append

theorem eq_of_first? {bytes : Bytes} {c : Char} (h : first? bytes = some c) :
    ∃ rest, bytes = String.utf8EncodeChar c ++ rest := by
  obtain ⟨rest, hrest⟩ := ByteArray.exists_of_utf8DecodeChar?_eq_some h
  refine ⟨rest.data.toList, ?_⟩
  have hdata := congrArg (·.data.toList) hrest
  simpa using hdata

theorem encodeChar_ne_nil (c : Char) : String.utf8EncodeChar c ≠ [] := by
  have hsize := c.utf8Size_pos
  rw [← String.length_utf8EncodeChar] at hsize
  exact List.ne_nil_of_length_pos hsize

theorem fromUtf8Lossy_encodeChar (c : Char) (rest : Bytes) :
    fromUtf8Lossy (String.utf8EncodeChar c ++ rest) = c :: fromUtf8Lossy rest := by
  obtain ⟨b, bytes, hbytes⟩ := List.exists_cons_of_ne_nil (encodeChar_ne_nil c)
  have hfirst := first?_encodeChar c rest
  have hlen : bytes.length = c.utf8Size - 1 := by
    have hlen := congrArg List.length hbytes
    rw [String.length_utf8EncodeChar, List.length_cons] at hlen
    omega
  rw [hbytes, List.cons_append] at hfirst ⊢
  rw [fromUtf8Lossy, hfirst]
  simp [← hlen]

theorem fromUtf8Lossy_encode (cs : List Char) : fromUtf8Lossy (encode cs) = cs := by
  induction cs with
  | nil => rw [encode_nil, fromUtf8Lossy]
  | cons c cs ih => rw [encode_cons, fromUtf8Lossy_encodeChar, ih]

/-- A byte of ASCII only stands for its own character. -/
theorem of_mem_encodeChar {c : Char} {b : UInt8} (h : b ∈ String.utf8EncodeChar c) (hb : b.toNat < 128) :
    c.toNat = b.toNat := by
  revert h
  fun_cases String.utf8EncodeChar c <;> intro h
  · have hval : c.toNat = c.val.toNat := rfl
    obtain rfl := List.mem_singleton.mp h
    simp at hb ⊢
    omega
  all_goals
    simp only [List.mem_cons, List.not_mem_nil, or_false] at h
    rcases h with rfl | rfl | rfl | rfl
  all_goals
    simp at hb
    omega

theorem of_mem_encode {cs : List Char} {b : UInt8} (h : b ∈ encode cs) (hb : b.toNat < 128) :
    ∃ c ∈ cs, c.toNat = b.toNat := by
  obtain ⟨c, hc, hmem⟩ := List.mem_flatMap.mp h
  exact ⟨c, hc, of_mem_encodeChar hmem hb⟩

/-- Decoding makes up no ASCII. -/
theorem mem_of_mem_lossy {bytes : Bytes} {b : UInt8} (h : b ∈ encode (fromUtf8Lossy bytes)) (hb : b.toNat < 128) :
    b ∈ bytes := by
  induction hlen : bytes.length using Nat.strong_induction_on generalizing bytes with
  | _ n ih =>
    cases bytes with
    | nil =>
      rw [fromUtf8Lossy] at h
      exact h
    | cons first bytes =>
      have hshorter (k : Nat) (hmem : b ∈ encode (fromUtf8Lossy (bytes.drop k))) : b ∈ first :: bytes := by
        have hlt : (bytes.drop k).length < n := by
          rw [← hlen, List.length_drop, List.length_cons]
          omega
        exact List.mem_cons_of_mem _ (List.mem_of_mem_drop (ih _ hlt hmem rfl))
      rw [fromUtf8Lossy] at h
      split at h
      · rename_i c hfirst
        rw [encode_cons, List.mem_append] at h
        obtain ⟨rest, hrest⟩ := eq_of_first? hfirst
        exact h.elim (fun h => by rw [hrest]; exact List.mem_append_left _ h) (hshorter _)
      · rw [encode_cons, List.mem_append] at h
        refine h.elim (fun h => ?_) (hshorter _)
        have hascii := of_mem_encodeChar h hb
        rw [← hascii] at hb
        exact absurd hb (by decide)

theorem encodeChar_ascii {c : Char} (h : c.toNat < 128) : String.utf8EncodeChar c = [UInt8.ofNat c.toNat] := by
  have hle : c.toNat ≤ 127 := by omega
  simp [String.utf8EncodeChar, hle]

theorem prefix_fromUtf8Lossy {cs : List Char} (h : ∀ c ∈ cs, c.toNat < 128) {bytes : Bytes} :
    cs <+: fromUtf8Lossy bytes ↔ encode cs <+: bytes := by
  induction cs generalizing bytes with
  | nil => simp
  | cons c cs ih =>
    obtain ⟨hc, hcs⟩ := List.forall_mem_cons.mp h
    constructor
    · intro hprefix
      cases bytes with
      | nil => simp [fromUtf8Lossy] at hprefix
      | cons b bytes =>
        cases hfirst : first? (b :: bytes) with
        | none =>
          rw [fromUtf8Lossy, hfirst] at hprefix
          obtain ⟨rfl, -⟩ := List.cons_prefix_cons.mp hprefix
          exact absurd hc (by decide)
        | some c' =>
          obtain ⟨rest, hrest⟩ := eq_of_first? hfirst
          rw [hrest, fromUtf8Lossy_encodeChar] at hprefix
          obtain ⟨rfl, hlater⟩ := List.cons_prefix_cons.mp hprefix
          rw [hrest, encode_cons]
          exact (List.prefix_append_right_inj _).mpr ((ih hcs).mp hlater)
    · intro hprefix
      obtain ⟨rest, rfl⟩ := hprefix
      rw [encode_cons, List.append_assoc, fromUtf8Lossy_encodeChar]
      exact List.cons_prefix_cons.mpr ⟨rfl, (ih hcs).mpr (List.prefix_append ..)⟩

end Nsmt.Lib.Utf8
