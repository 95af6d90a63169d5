import Mathlib.Data.List.Basic
import Mathlib.Data.UInt

/-!
# Byte strings

Fixed-width little-endian integers, lower-case hex text and the UTF-8 bytes of
a string, each with the law that makes it readable back. `utf8_boundary` is
the one fact about UTF-8 that unique decoding needs: a continuation byte never
stands at the start of a text nor behind an ASCII byte.
-/

namespace Nsmt.Lib

abbrev Bytes := List UInt8

-- ---------------------------------------------------------------------------
-- Little-endian integers
-- ---------------------------------------------------------------------------

/-- The `width` low bytes of `n`, least significant first. -/
def le : (width n : Nat) → Bytes
  | 0, _ => []
  | width + 1, n => UInt8.ofNat n :: le width (n / 256)

def ofLe : Bytes → Nat
  | [] => 0
  | b :: rest => b.toNat + 256 * ofLe rest

@[simp] theorem length_le (width n : Nat) : (le width n).length = width := by
  induction width generalizing n with
  | zero => rfl
  | succ width ih => simp [le, ih]

theorem ofLe_le (width n : Nat) : ofLe (le width n) = n % 256 ^ width := by
  induction width generalizing n with
  | zero => simp [le, ofLe, Nat.mod_one]
  | succ width ih =>
    have hb : (UInt8.ofNat n).toNat = n % 256 := by simp
    rw [le, ofLe, ih, hb, Nat.pow_succ', Nat.mod_mul]

theorem ofLe_lt (bytes : Bytes) : ofLe bytes < 256 ^ bytes.length := by
  induction bytes with
  | nil => simp [ofLe]
  | cons b bytes ih =>
    have hb := b.toNat_lt
    rw [ofLe, List.length_cons, Nat.pow_succ']
    omega

theorem le_ofLe (bytes : Bytes) : le bytes.length (ofLe bytes) = bytes := by
  induction bytes with
  | nil => rfl
  | cons b bytes ih =>
    have hb := b.toNat_lt
    have hdiv : (b.toNat + 256 * ofLe bytes) / 256 = ofLe bytes := by omega
    have hmod : UInt8.ofNat (b.toNat + 256 * ofLe bytes) = b := by
      apply UInt8.toNat_inj.mp
      rw [UInt8.toNat_ofNat']
      omega
    rw [List.length_cons, le, ofLe, hdiv, hmod, ih]

theorem le_inj {n m : Nat} (hn : n < 256 ^ width) (hm : m < 256 ^ width)
    (h : le width n = le width m) : n = m := by
  have h := congrArg ofLe h
  rwa [ofLe_le, ofLe_le, Nat.mod_eq_of_lt hn, Nat.mod_eq_of_lt hm] at h

-- ---------------------------------------------------------------------------
-- Hex text
-- ---------------------------------------------------------------------------

def hexDigit (n : Nat) : Char := ("0123456789abcdef".toList)[n]?.getD '0'

def isHexDigit (c : Char) : Bool := "0123456789abcdef".toList.contains c

def hexPair (b : UInt8) : List Char := [hexDigit (b.toNat / 16), hexDigit (b.toNat % 16)]

/-- Two lower-case digits a byte, high half first. -/
def hexEncode (bytes : Bytes) : String := String.ofList (bytes.flatMap hexPair)

/-- The value of a digit of either case. -/
def hexVal (c : Char) : Option Nat :=
  if c.isDigit then some (c.toNat - '0'.toNat)
  else if 'a' ≤ c ∧ c ≤ 'f' then some (c.toNat - 'a'.toNat + 10)
  else if 'A' ≤ c ∧ c ≤ 'F' then some (c.toNat - 'A'.toNat + 10)
  else none

def hexDecodeChars : List Char → Option Bytes
  | [] => some []
  | [_] => none
  | a :: b :: rest =>
    (hexVal a).bind fun high =>
      (hexVal b).bind fun low =>
        (hexDecodeChars rest).map fun bytes => UInt8.ofNat (high * 16 + low) :: bytes

/-- `hex::decode`: an odd length or another character is an error. -/
def hexDecode (s : String) : Option Bytes := hexDecodeChars s.toList

theorem hexDecodeChars_mem (h : hexDecodeChars cs ≠ none) : ∀ c ∈ cs, hexVal c ≠ none := by
  induction cs using hexDecodeChars.induct with
  | case1 => simp
  | case2 c => exact absurd rfl h
  | case3 a b rest ih =>
    rw [hexDecodeChars] at h
    intro c hc
    rcases List.mem_cons.mp hc with rfl | hc
    · intro hnone
      simp [hnone] at h
    · rcases List.mem_cons.mp hc with rfl | hc
      · intro hnone
        simp [hnone] at h
      · refine ih ?_ c hc
        intro hnone
        simp [hnone] at h

theorem hexDigit_inj : ∀ n < 16, ∀ m < 16, hexDigit n = hexDigit m → n = m := by decide

theorem isHexDigit_hexDigit : ∀ n < 16, isHexDigit (hexDigit n) = true := by decide

theorem hexPair_inj (h : hexPair a = hexPair b) : a = b := by
  have ha := a.toNat_lt
  have hb := b.toNat_lt
  simp only [hexPair, List.cons.injEq, and_true] at h
  have hhigh := hexDigit_inj _ (by omega) _ (by omega) h.1
  have hlow := hexDigit_inj _ (by omega) _ (by omega) h.2
  apply UInt8.toNat_inj.mp
  omega

theorem flatMap_hexPair_inj {a b : Bytes} (h : a.flatMap hexPair = b.flatMap hexPair) : a = b := by
  induction a generalizing b with
  | nil =>
    cases b with
    | nil => rfl
    | cons y ys => simp [hexPair] at h
  | cons x xs ih =>
    cases b with
    | nil => simp [hexPair] at h
    | cons y ys =>
      simp only [List.flatMap_cons] at h
      obtain ⟨hx, hxs⟩ := List.append_inj h (by simp [hexPair])
      rw [hexPair_inj hx, ih hxs]

theorem hexEncode_inj (h : hexEncode a = hexEncode b) : a = b :=
  flatMap_hexPair_inj (String.ofList_injective h)

theorem length_hexEncode (bytes : Bytes) : (hexEncode bytes).toList.length = 2 * bytes.length := by
  induction bytes with
  | nil => rfl
  | cons b rest ih =>
    simp only [hexEncode, String.toList_ofList, List.flatMap_cons, List.length_append] at ih ⊢
    simp only [ih, hexPair, List.length_cons, List.length_nil]
    omega

theorem hexEncode_digits (bytes : Bytes) : ∀ c ∈ (hexEncode bytes).toList, isHexDigit c = true := by
  intro c hc
  simp only [hexEncode, String.toList_ofList, List.mem_flatMap, hexPair, List.mem_cons,
    List.not_mem_nil, or_false] at hc
  obtain ⟨b, -, rfl | rfl⟩ := hc
  · exact isHexDigit_hexDigit _ (by have := b.toNat_lt; omega)
  · exact isHexDigit_hexDigit _ (by omega)

-- ---------------------------------------------------------------------------
-- UTF-8
-- ---------------------------------------------------------------------------

/-- `str::as_bytes`. -/
def utf8 (s : String) : Bytes := s.toList.flatMap String.utf8EncodeChar

/-- `0b10xxxxxx`: the bytes that only continue a character. -/
def isContinuation (b : UInt8) : Bool := 0x80 ≤ b && b < 0xC0

/-- `str::is_char_boundary`. -/
def isCharBoundary (s : String) (i : Nat) : Bool :=
  match (utf8 s)[i]? with
  | some b => i == 0 || !isContinuation b
  | none => i == (utf8 s).length

theorem utf8_inj (h : utf8 s = utf8 t) : s = t := by
  have hb : s.toByteArray = t.toByteArray := by
    rw [← String.utf8Encode_toList (b := s), ← String.utf8Encode_toList (b := t)]
    simpa [List.utf8Encode, utf8] using congrArg List.toByteArray h
  exact String.toByteArray_inj.mp hb

theorem isContinuation_iff (b : UInt8) :
    isContinuation b = true ↔ 0x80 ≤ b.toNat ∧ b.toNat < 0xC0 := by
  simp [isContinuation, UInt8.le_iff_toNat_le, UInt8.lt_iff_toNat_lt]

theorem utf8EncodeChar_boundary (c : Char) (i : Nat) (b : UInt8)
    (hb : (String.utf8EncodeChar c)[i]? = some b) (hc : isContinuation b = true) :
    0 < i ∧ ∃ a, (String.utf8EncodeChar c)[i - 1]? = some a ∧ 0x80 ≤ a.toNat := by
  rw [isContinuation_iff] at hc
  revert hb
  fun_cases String.utf8EncodeChar c <;> intro hb
  all_goals
    rcases i with _ | _ | _ | _ | i <;>
      simp only [List.getElem?_cons_zero, List.getElem?_cons_succ, List.getElem?_nil,
        Option.some.injEq, reduceCtorEq] at hb
  all_goals
    subst hb
    simp at hc ⊢
    try omega

theorem flatMap_utf8EncodeChar_boundary (cs : List Char) (i : Nat) (b : UInt8)
    (hb : (cs.flatMap String.utf8EncodeChar)[i]? = some b) (hc : isContinuation b = true) :
    0 < i ∧ ∃ a, (cs.flatMap String.utf8EncodeChar)[i - 1]? = some a ∧ 0x80 ≤ a.toNat := by
  induction cs generalizing i with
  | nil => simp at hb
  | cons c cs ih =>
    rw [List.flatMap_cons] at hb ⊢
    by_cases hi : i < (String.utf8EncodeChar c).length
    · rw [List.getElem?_append_left hi] at hb
      obtain ⟨hpos, a, ha, hge⟩ := utf8EncodeChar_boundary c i b hb hc
      refine ⟨hpos, a, ?_, hge⟩
      rw [List.getElem?_append_left (by omega)]
      exact ha
    · rw [List.getElem?_append_right (by omega)] at hb
      obtain ⟨hpos, a, ha, hge⟩ := ih _ hb
      refine ⟨by omega, a, ?_, hge⟩
      rw [List.getElem?_append_right (by omega)]
      rwa [show i - 1 - (String.utf8EncodeChar c).length =
        i - (String.utf8EncodeChar c).length - 1 by omega]

/-- In valid UTF-8 a continuation byte follows a byte that is not ASCII. -/
theorem utf8_boundary {s : String} (hb : (utf8 s)[i]? = some b) (hc : isContinuation b = true) :
    0 < i ∧ ∃ a, (utf8 s)[i - 1]? = some a ∧ 0x80 ≤ a.toNat :=
  flatMap_utf8EncodeChar_boundary _ _ _ hb hc

theorem utf8_ascii {s : String} (h : ∀ c ∈ s.toList, c.toNat < 128) :
    (utf8 s).length = s.toList.length ∧ ∀ b ∈ utf8 s, b.toNat < 128 := by
  unfold utf8
  generalize s.toList = cs at h
  induction cs with
  | nil => simp
  | cons c cs ih =>
    have hc : c.val.toNat < 128 := h c (by simp)
    have he : String.utf8EncodeChar c = [UInt8.ofNat c.val.toNat] := by
      unfold String.utf8EncodeChar
      rw [if_pos (by omega)]
    obtain ⟨hlen, hall⟩ := ih fun d hd => h d (List.mem_cons_of_mem c hd)
    constructor
    · simp only [List.flatMap_cons, he, List.length_append, hlen, List.length_cons, List.length_nil]
      omega
    · intro b hb
      simp only [List.flatMap_cons, he, List.mem_append, List.mem_singleton] at hb
      rcases hb with rfl | hb
      · have hn : c.toNat < 128 := hc
        simp
        omega
      · exact hall b hb

theorem isHexDigit_ascii (h : isHexDigit c = true) : c.toNat < 128 := by
  have hall : "0123456789abcdef".toList.all (fun c => c.toNat < 128) = true := by decide
  simp only [isHexDigit, List.contains_iff_mem] at h
  simpa using List.all_eq_true.mp hall c h

/-- Hex text is ASCII: one byte a digit, and a boundary at every position. -/
theorem utf8_hex {s : String} (h : ∀ c ∈ s.toList, isHexDigit c = true) :
    (utf8 s).length = s.toList.length ∧ ∀ b ∈ utf8 s, b.toNat < 128 :=
  utf8_ascii fun c hc => isHexDigit_ascii (h c hc)

theorem isCharBoundary_ascii {s : String} (h : ∀ b ∈ utf8 s, b.toNat < 128)
    (hi : i ≤ (utf8 s).length) : isCharBoundary s i = true := by
  unfold isCharBoundary
  split
  · rename_i b hb
    have hlt := h b (List.mem_of_getElem? hb)
    have hc : isContinuation b = false := by
      rw [Bool.eq_false_iff, ne_eq, isContinuation_iff]
      omega
    simp [hc]
  · rename_i hnone
    have := List.getElem?_eq_none_iff.mp hnone
    simp
    omega

theorem isDigit_of_mem_toString {n : Nat} (h : c ∈ (toString n).toList) : c.isDigit = true :=
  Nat.isDigit_of_mem_toDigits (b := 10) (by decide) (by decide)
    (show c ∈ Nat.toDigits 10 n by simpa using h)

theorem toString_inj {m n : Nat} (h : (toString m).toList = (toString n).toList) : m = n := by
  have hdigits : Nat.toDigits 10 m = Nat.toDigits 10 n := by simpa using h
  have hm := Nat.ofDigitChars_toDigits (b := 10) (n := m) (by decide) (by decide)
  rw [hdigits, Nat.ofDigitChars_toDigits (by decide) (by decide)] at hm
  exact hm.symm

end Nsmt.Lib
