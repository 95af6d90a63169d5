import Nsmt.Core.Tree

/-!
# End-to-end encryption of chunks

`E2EKeys` of `nsmt-core`: the newest key encrypts, decryption tries every key in
turn. Each master key is bound to a tenant by hashing it with the domain, and
the nonce of a chunk is its index. ChaCha20-Poly1305 is the parameter `Aead`,
of which only that decryption undoes encryption is assumed.
-/

namespace Nsmt.Core

open Nsmt.Lib

structure Aead where
  encrypt : (key nonce msg : Bytes) → Bytes
  decrypt : (key nonce sealed : Bytes) → Option Bytes
  decrypt_encrypt : ∀ key nonce msg, decrypt key nonce (encrypt key nonce msg) = some msg

/-- Stands in where no keys are configured and no cipher is ever called. -/
def Aead.none : Aead where
  encrypt := fun _ _ msg => msg
  decrypt := fun _ _ sealed => some sealed
  decrypt_encrypt := fun _ _ _ => rfl

/-- The keys of one tenant, newest first: `E2EKeys::newest` is the head. -/
structure E2EKeys where
  newest : Bytes
  older : List Bytes
  deriving DecidableEq, Repr

namespace E2EKeys

def all (keys : E2EKeys) : List Bytes := keys.newest :: keys.older

/-- `NSMT` big-endian, then the index as a big-endian `u64`. -/
def nonceFor (idx : Nat) : Bytes := [0x4E, 0x53, 0x4D, 0x54] ++ (le 8 idx).reverse

def deriveTenantKey (sha256 : Bytes → Digest) (master : Bytes) (domain : String) : Bytes :=
  (sha256 (utf8 "nsmt:e2e:v1:" ++ utf8 domain ++ master)).val

/-- `E2EKeys::from_env`: no master keys, no encryption. A non-empty domain
turns every master key into that tenant's key. -/
def fromEnv (sha256 : Bytes → Digest) (masters : List Bytes) (domain : String) : Option E2EKeys :=
  match masters.map (fun m => if domain = "" then m else deriveTenantKey sha256 m domain) with
  | [] => none
  | newest :: older => some { newest, older }

def encrypt (aead : Aead) (keys : E2EKeys) (payload : Bytes) (idx : Nat) : Bytes :=
  aead.encrypt keys.newest (nonceFor idx) payload

def decrypt (aead : Aead) (keys : E2EKeys) (payload : Bytes) (idx : Nat) : Option Bytes :=
  keys.all.findSome? fun key => aead.decrypt key (nonceFor idx) payload

@[simp] theorem length_nonceFor (idx : Nat) : (nonceFor idx).length = 12 := by
  simp [nonceFor]

/-- Within one object no two chunks share a nonce. -/
theorem nonceFor_inj {i j : Nat} (hi : i < 2 ^ 64) (hj : j < 2 ^ 64)
    (h : nonceFor i = nonceFor j) : i = j :=
  le_inj hi hj (List.reverse_inj.mp (List.append_cancel_left h))

theorem decrypt_encrypt (aead : Aead) (keys : E2EKeys) (payload : Bytes) (idx : Nat) :
    keys.decrypt aead (keys.encrypt aead payload idx) idx = some payload := by
  simp only [decrypt, all, List.findSome?_cons, encrypt, aead.decrypt_encrypt]

end E2EKeys

/-- The bytes of a chunk on the wire: encrypted when keys are configured. -/
def sealChunk (aead : Aead) (e2e : Option E2EKeys) (data : Bytes) (idx : Nat) : Bytes :=
  match e2e with
  | some keys => keys.encrypt aead data idx
  | none => data

/-- Reading a chunk; `none` is the error "decrypt failed (no key matched)". -/
def openChunk (aead : Aead) (e2e : Option E2EKeys) (sealed : Bytes) (idx : Nat) : Option Bytes :=
  match e2e with
  | some keys => keys.decrypt aead sealed idx
  | none => some sealed

theorem openChunk_sealChunk (aead : Aead) (e2e : Option E2EKeys) (data : Bytes) (idx : Nat) :
    openChunk aead e2e (sealChunk aead e2e data idx) idx = some data := by
  cases e2e with
  | none => rfl
  | some keys => exact keys.decrypt_encrypt aead data idx

/-- The payload of a chunk frame: the index as a little-endian `u32`, then the
chunk. `idx as u32` keeps the low four bytes. -/
def chunkPayload (aead : Aead) (e2e : Option E2EKeys) (data : Bytes) (idx : Nat) : Bytes :=
  le 4 idx ++ sealChunk aead e2e data idx

/-- Bit 0 of the flags marks an encrypted chunk. -/
def chunkFlags (e2e : Option E2EKeys) : UInt8 := if e2e.isSome then 0x01 else 0x00

end Nsmt.Core
