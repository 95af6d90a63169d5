import Nsmt.Core.Crypto
import Mathlib.Logic.Function.Basic

/-!
# The table of tenants

`TenantStore`: the domain key of each tenant and the machine keys seen under it.
`verifyAuth_sound_iff` says when an accepted `AUTH` means what it should: a key
of the wrong length is taken for the all-zero key.
-/

namespace Nsmt.Server

open Nsmt.Lib Nsmt.Core

structure TenantRecord where
  domainPubkey : String
  machines : String → Option String

def TenantRecord.default : TenantRecord := { domainPubkey := "", machines := fun _ => none }

abbrev TenantStore := String → Option TenantRecord

namespace TenantStore

/-- The table in memory; whether it can be written to disk shows in the answer
only. -/
def upsertTenant (tenants : TenantStore) (domain domainPubkey : String) : TenantStore :=
  Function.update tenants domain
    (some { (tenants domain).getD .default with domainPubkey })

def verifyAuth (ed : Ed25519) (tenants : TenantStore) (domain nonce signature : String) :
    Except String Unit :=
  match tenants domain with
  | some t =>
    if KeyPair.verify ed t.domainPubkey (utf8 nonce) signature then .ok () else .error "auth_failed"
  | none => .error "tenant_not_found"

/-- A machine that is known must come with the key it came with first. -/
def verifyRegister (ed : Ed25519) (tenants : TenantStore)
    (domain machineId agentTag machinePubkey signature : String) : Except String TenantStore :=
  if KeyPair.verify ed machinePubkey (utf8 (machineId ++ "\n" ++ agentTag)) signature then
    match tenants domain with
    | none => .error "tenant_not_found"
    | some t =>
      match t.machines machineId with
      | some existing => if existing ≠ machinePubkey then .error "machine_hijack_detected" else .ok tenants
      | none =>
        .ok (Function.update tenants domain
          (some { t with machines := Function.update t.machines machineId (some machinePubkey) }))
  else .error "bad_machine_signature"

/-- The domain's key, where it has one. -/
def keyOf (tenants : TenantStore) (domain : String) : Option String :=
  (tenants domain).map TenantRecord.domainPubkey

theorem keyOf_upsertTenant (tenants : TenantStore) (domain domainPubkey other : String) :
    (tenants.upsertTenant domain domainPubkey).keyOf other =
      if other = domain then some domainPubkey else tenants.keyOf other := by
  by_cases h : other = domain
  · subst h
    simp [keyOf, upsertTenant]
  · simp [keyOf, upsertTenant, h]

/-- The signature verifies under the registered key, which is one of 32 bytes. -/
def Authentic (ed : Ed25519) (tenants : TenantStore) (domain nonce signature : String) : Prop :=
  ∃ text key, tenants.keyOf domain = some text ∧ hexDecode text = some key ∧ key.length = 32 ∧
    KeyPair.Accepts ed key (utf8 nonce) signature

/-- The key that is registered is 32 bytes long, as far as it is hex at all. -/
def KeyWellFormed (tenants : TenantStore) (domain : String) : Prop :=
  ∀ text key, tenants.keyOf domain = some text → hexDecode text = some key → key.length = 32

theorem verifyAuth_ok {ed : Ed25519} {tenants : TenantStore} :
    verifyAuth ed tenants domain nonce signature = .ok () ↔
      ∃ text key, tenants.keyOf domain = some text ∧ hexDecode text = some key ∧
        KeyPair.Accepts ed (KeyPair.keyOrZero key) (utf8 nonce) signature := by
  unfold verifyAuth keyOf
  cases tenants domain with
  | none => simp
  | some t =>
    simp only [Option.map_some, Option.some.injEq]
    by_cases hverify : KeyPair.verify ed t.domainPubkey (utf8 nonce) signature = true
    · obtain ⟨key, hkey, haccepts⟩ := KeyPair.verify_iff.mp hverify
      rw [if_pos hverify]
      exact ⟨fun _ => ⟨_, key, rfl, hkey, haccepts⟩, fun _ => rfl⟩
    · rw [if_neg hverify]
      constructor
      · intro h
        cases h
      · rintro ⟨text, key, rfl, hkey, haccepts⟩
        exact absurd (KeyPair.verify_iff.mpr ⟨key, hkey, haccepts⟩) hverify

/-- An accepted `AUTH` is authentic, unless the registered key has another length
and the all-zero key accepts the signature. -/
theorem verifyAuth_sound_iff (ed : Ed25519) (tenants : TenantStore) (domain nonce signature : String) :
    (verifyAuth ed tenants domain nonce signature = .ok () →
      Authentic ed tenants domain nonce signature) ↔
    KeyWellFormed tenants domain ∨
      ¬ KeyPair.Accepts ed KeyPair.zeroKey (utf8 nonce) signature := by
  rw [verifyAuth_ok]
  constructor
  · intro h
    by_contra hcond
    rw [not_or, not_not] at hcond
    obtain ⟨hkey, hzero⟩ := hcond
    simp only [KeyWellFormed, not_forall] at hkey
    obtain ⟨text, key, htext, hdecode, hlen⟩ := hkey
    have haccepts : KeyPair.Accepts ed (KeyPair.keyOrZero key) (utf8 nonce) signature := by
      rwa [KeyPair.keyOrZero, if_neg hlen]
    obtain ⟨text', key', htext', hdecode', hlen', -⟩ := h ⟨text, key, htext, hdecode, haccepts⟩
    rw [htext] at htext'
    obtain rfl := Option.some.inj htext'
    rw [hdecode] at hdecode'
    obtain rfl := Option.some.inj hdecode'
    exact hlen hlen'
  · rintro hcond ⟨text, key, htext, hdecode, haccepts⟩
    by_cases hlen : key.length = 32
    · rw [KeyPair.keyOrZero, if_pos hlen] at haccepts
      exact ⟨text, key, htext, hdecode, hlen, haccepts⟩
    · rw [KeyPair.keyOrZero, if_neg hlen] at haccepts
      rcases hcond with hkey | hzero
      · exact absurd (hkey text key htext hdecode) hlen
      · exact absurd haccepts hzero

/-- The identity as `R` and `0` as `S`. -/
def forgedSignature : String := hexEncode (1 :: List.replicate 63 0)

def forgedNonce : String := "nsmt-nonce-1770000000005-0123456789abcdef"

/-- Ed25519 on the forgery: the all-zero key is a point `A` of order 4, and the
hash of the signed text is a multiple of 4, so that `R = S·B - k·A` holds. -/
def smallOrder : Ed25519 where
  isPoint key := key = KeyPair.zeroKey
  verify key msg signature :=
    key = KeyPair.zeroKey && msg = utf8 forgedNonce && signature = 1 :: List.replicate 63 0

/-- A tenant as `register_user` creates it, without a key. -/
theorem empty_key_accepts_forgery : ¬ ∀ ed tenants domain nonce signature,
    verifyAuth ed tenants domain nonce signature = .ok () →
      Authentic ed tenants domain nonce signature := by
  intro h
  have haccepted : KeyPair.verify smallOrder "" (utf8 forgedNonce) forgedSignature = true := by
    decide +kernel
  obtain ⟨pk, hpk, haccepts⟩ := KeyPair.verify_iff.mp haccepted
  have hkey : keyOf (upsertTenant (fun _ => none) "acme" "") "acme" = some "" := by
    simp [keyOf, upsertTenant]
  obtain ⟨text, key, htext, hdecode, hlen, -⟩ := h smallOrder
    (upsertTenant (fun _ => none) "acme" "") "acme" forgedNonce forgedSignature
    (verifyAuth_ok.mpr ⟨"", pk, hkey, hpk, haccepts⟩)
  rw [hkey] at htext
  obtain rfl := Option.some.inj htext
  have hempty : hexDecode "" = some [] := by decide
  rw [hempty] at hdecode
  obtain rfl := Option.some.inj hdecode
  cases hlen

end TenantStore

end Nsmt.Server
