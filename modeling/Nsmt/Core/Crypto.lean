import Nsmt.Lib.Bytes

/-!
# Signatures

`KeyPair::verify` around an abstract Ed25519: hex text to bytes, bytes to a key
and a signature, and the check itself.
-/

namespace Nsmt.Core

open Nsmt.Lib

/-- Ed25519 over 32-byte keys and 64-byte signatures. `isPoint` says which keys
`VerifyingKey::from_bytes` decompresses. -/
structure Ed25519 where
  isPoint : Bytes → Bool
  verify : (key msg signature : Bytes) → Bool

namespace KeyPair

def zeroKey : Bytes := List.replicate 32 0

/-- `pk.try_into().unwrap_or(&[0u8; 32])`. -/
def keyOrZero (pk : Bytes) : Bytes := if pk.length = 32 then pk else zeroKey

def verify (ed : Ed25519) (publicHex : String) (msg : Bytes) (sigHex : String) : Bool :=
  match hexDecode publicHex with
  | none => false
  | some pk =>
    if ed.isPoint (keyOrZero pk) then
      match hexDecode sigHex with
      | none => false
      | some sig => if sig.length = 64 then ed.verify (keyOrZero pk) msg sig else false
    else false

/-- The signature is a well-formed one that the key, as bytes, accepts. -/
def Accepts (ed : Ed25519) (key msg : Bytes) (sigHex : String) : Prop :=
  ed.isPoint key = true ∧ ∃ sig, hexDecode sigHex = some sig ∧ sig.length = 64 ∧
    ed.verify key msg sig = true

theorem verify_iff {ed : Ed25519} :
    verify ed publicHex msg sigHex = true ↔
      ∃ pk, hexDecode publicHex = some pk ∧ Accepts ed (keyOrZero pk) msg sigHex := by
  unfold verify Accepts
  cases hexDecode publicHex with
  | none => simp
  | some pk =>
    cases hpoint : ed.isPoint (keyOrZero pk) with
    | false => simp [hpoint]
    | true =>
      cases hexDecode sigHex with
      | none => simp
      | some sig =>
        by_cases hlen : sig.length = 64
        · simp [hlen, hpoint]
        · simp [hlen]

end KeyPair

end Nsmt.Core
