import Mathlib.Logic.Basic

/-!
# Signatures that cannot be forged

The record of the signatures made with secret keys, and what an adversary who
holds none of these keys can put in the place of a signature: one of the record,
forwarded from wherever it was made, or one made with another key.
-/

namespace Nsmt.Lib

inductive Sig
  | signed (key text : String)
  | junk
  deriving DecidableEq, Repr

/-- A signature verifies under the key it was made with and over the text it was
made for, and nowhere else. -/
def Sig.verify (key text : String) (sig : Sig) : Bool := sig = .signed key text

/-- Who signed what with which key. -/
structure Signing (ω : Type) where
  origin : ω
  key : String
  text : String
  deriving DecidableEq, Repr

def Signing.sig (s : Signing ω) : Sig := .signed s.key s.text

inductive SigSource
  | recorded (i : Nat)
  | own (key text : String)
  | junk
  deriving DecidableEq, Repr

namespace SigSource

def sig (secret : String → Bool) (record : List (Signing ω)) : SigSource → Sig
  | .recorded i => ((record[i]?).map Signing.sig).getD .junk
  | .own key text => if secret key then .junk else .signed key text
  | .junk => .junk

/-- Where a forwarded signature was made. -/
def origin (record : List (Signing ω)) : SigSource → Option ω
  | .recorded i => (record[i]?).map Signing.origin
  | _ => none

theorem recorded_of_secret {src : SigSource} {record : List (Signing ω)} (hsecret : secret key = true)
    (h : src.sig secret record = .signed key text) :
    ∃ s ∈ record, src.origin record = some s.origin ∧ s.key = key ∧ s.text = text := by
  cases src with
  | recorded i =>
    cases hs : record[i]? with
    | none => simp [sig, hs] at h
    | some s =>
      simp only [sig, hs, Option.map_some, Option.getD_some, Signing.sig, Sig.signed.injEq] at h
      exact ⟨s, List.mem_of_getElem? hs, by simp [origin, hs], h⟩
  | own key' text' =>
    simp only [sig] at h
    split at h
    · cases h
    · rename_i hfree
      cases h
      exact absurd hsecret hfree
  | junk => cases h

end SigSource

end Nsmt.Lib
