import Nsmt.Core.E2e
import Nsmt.Lib.Sha256

/-!
# Key rotation and tenant separation

What a key list reads of what another one wrote, for a cipher that is ideal on
the keys in play. The keys of a tenant come from hashing label, domain and
master key with nothing between them; masters of one length keep the three
apart.
-/

namespace Nsmt.Core

open Nsmt.Lib

/-- The cipher is ideal on these keys: decryption accepts only what encryption
gives under the same key and nonce. -/
structure Aead.Ideal (aead : Aead) (keys : List Bytes) : Prop where
  exact : ∀ key ∈ keys, ∀ nonce sealed msg, aead.decrypt key nonce sealed = some msg →
    sealed = aead.encrypt key nonce msg
  separate : ∀ key ∈ keys, ∀ key' ∈ keys, ∀ nonce nonce' msg msg', nonce.length = 12 →
    nonce'.length = 12 → aead.encrypt key nonce msg = aead.encrypt key' nonce' msg' →
    key = key' ∧ nonce = nonce'

/-- The hash has no collision among these inputs. -/
def CollisionFree (sha256 : Bytes → Digest) (inputs : List Bytes) : Prop :=
  ∀ a ∈ inputs, ∀ b ∈ inputs, sha256 a = sha256 b → a = b

theorem Aead.Ideal.mono {aead : Aead} (ideal : aead.Ideal keys) (hsub : ∀ key ∈ keys', key ∈ keys) :
    aead.Ideal keys' :=
  ⟨fun key hkey => ideal.exact key (hsub key hkey),
    fun key hkey key' hkey' => ideal.separate key (hsub key hkey) key' (hsub key' hkey')⟩

theorem Aead.Ideal.decrypt_eq {aead : Aead} (ideal : aead.Ideal keys) (hkey : key ∈ keys)
    (hkey' : key' ∈ keys) (hnonce : nonce.length = 12) (hnonce' : nonce'.length = 12) (msg : Bytes) :
    aead.decrypt key' nonce' (aead.encrypt key nonce msg) =
      if key' = key ∧ nonce' = nonce then some msg else .none := by
  split
  · rename_i h
    obtain ⟨rfl, rfl⟩ := h
    exact aead.decrypt_encrypt key' nonce' msg
  · rename_i h
    cases hd : aead.decrypt key' nonce' (aead.encrypt key nonce msg) with
    | none => rfl
    | some msg' =>
      obtain ⟨rfl, rfl⟩ := ideal.separate key hkey key' hkey' nonce nonce' msg msg' hnonce hnonce'
        (ideal.exact key' hkey' nonce' _ msg' hd)
      exact absurd ⟨rfl, rfl⟩ h

namespace E2EKeys

/-- Trying the keys in turn finds the one that encrypted, wherever it stands
in the list, and nothing else. -/
theorem decrypt_encrypt_other {aead : Aead} {keys keys' : E2EKeys}
    (ideal : aead.Ideal (keys.newest :: keys'.all)) (msg : Bytes) (i j : Nat) :
    keys'.decrypt aead (keys.encrypt aead msg i) j =
      if keys.newest ∈ keys'.all ∧ nonceFor j = nonceFor i then some msg else none := by
  have hone (key : Bytes) (hkey : key ∈ keys'.all) :
      aead.decrypt key (nonceFor j) (keys.encrypt aead msg i) =
        if key = keys.newest ∧ nonceFor j = nonceFor i then some msg else none :=
    ideal.decrypt_eq (List.mem_cons_self ..) (List.mem_cons_of_mem _ hkey) (length_nonceFor i)
      (length_nonceFor j) msg
  rw [decrypt]
  split
  · rename_i h
    rw [List.findSome?_eq_some_iff]
    obtain ⟨before, after, hall, hbefore⟩ := List.eq_append_cons_of_mem h.1
    refine ⟨before, keys.newest, after, hall, ?_, fun key hkey => ?_⟩
    · rw [hone _ h.1, if_pos ⟨rfl, h.2⟩]
    · rw [hone key (by rw [hall]; exact List.mem_append_left _ hkey), if_neg]
      rintro ⟨rfl, -⟩
      exact hbefore hkey
  · rename_i h
    rw [List.findSome?_eq_none_iff]
    intro key hkey
    rw [hone key hkey, if_neg]
    rintro ⟨rfl, hnonce⟩
    exact h ⟨hkey, hnonce⟩

-- ---------------------------------------------------------------------------
-- Derived keys
-- ---------------------------------------------------------------------------

/-- What `derive_tenant_key` hashes. -/
def derivationInput (domain : String) (master : Bytes) : Bytes :=
  utf8 "nsmt:e2e:v1:" ++ utf8 domain ++ master

theorem derivationInput_inj (hlen : master.length = master'.length)
    (h : derivationInput domain master = derivationInput domain' master') :
    domain = domain' ∧ master = master' := by
  obtain ⟨hlabelled, hmaster⟩ := List.append_inj' h hlen
  exact ⟨utf8_inj (List.append_cancel_left hlabelled), hmaster⟩

theorem fromEnv_derived (sha256 : Bytes → Digest) {masters : List Bytes} (hne : masters ≠ [])
    (hdomain : domain ≠ "") :
    ∃ keys, fromEnv sha256 masters domain = some keys ∧
      keys.newest = deriveTenantKey sha256 (masters.head hne) domain ∧
      keys.all = masters.map (deriveTenantKey sha256 · domain) := by
  obtain ⟨newest, older, rfl⟩ := List.exists_cons_of_ne_nil hne
  refine ⟨⟨deriveTenantKey sha256 newest domain,
    older.map (deriveTenantKey sha256 · domain)⟩, ?_, rfl, rfl⟩
  simp [fromEnv, hdomain]

/-- Two derived keys agree only for the same master key and the same tenant. -/
theorem deriveTenantKey_inj (hfree : CollisionFree sha256 inputs)
    (hin : derivationInput domain master ∈ inputs)
    (hin' : derivationInput domain' master' ∈ inputs) (hlen : master.length = master'.length)
    (h : deriveTenantKey sha256 master domain = deriveTenantKey sha256 master' domain') :
    domain = domain' ∧ master = master' :=
  derivationInput_inj hlen (hfree _ hin _ hin' (Subtype.ext h))

/-- Rotation and tenant separation: the receiver reads a chunk exactly when it
is of the sender's tenant and index and has the sender's newest master key
anywhere in its list. In every other case decryption fails. -/
theorem decrypt_rotated (aead : Aead) (sha256 : Bytes → Digest) (sent received : List Bytes)
    (sentDomain receivedDomain : String) (msg : Bytes) (i j : UInt64)
    (hsent : sent ≠ []) (hreceived : received ≠ [])
    (hdomain : sentDomain ≠ "") (hdomain' : receivedDomain ≠ "")
    (hlen : ∀ master ∈ sent ++ received, master.length = 32)
    (hfree : CollisionFree sha256
      (sent.map (derivationInput sentDomain) ++ received.map (derivationInput receivedDomain)))
    (ideal : aead.Ideal (sent.map (deriveTenantKey sha256 · sentDomain) ++
      received.map (deriveTenantKey sha256 · receivedDomain))) :
    ∃ sender receiver, fromEnv sha256 sent sentDomain = some sender ∧
      fromEnv sha256 received receivedDomain = some receiver ∧
      receiver.decrypt aead (sender.encrypt aead msg i.toNat) j.toNat =
        if sentDomain = receivedDomain ∧ i = j ∧ sent.head hsent ∈ received then some msg
        else none := by
  obtain ⟨sender, hsender, hnewest, -⟩ := fromEnv_derived sha256 hsent hdomain
  obtain ⟨receiver, hreceiver, -, hall⟩ := fromEnv_derived sha256 hreceived hdomain'
  refine ⟨sender, receiver, hsender, hreceiver, ?_⟩
  have hhead := List.head_mem hsent
  have hideal : aead.Ideal (sender.newest :: receiver.all) := by
    refine ideal.mono fun key hkey => ?_
    rcases List.mem_cons.mp hkey with rfl | hkey
    · rw [hnewest]
      exact List.mem_append_left _ (List.mem_map_of_mem hhead)
    · rw [hall] at hkey
      exact List.mem_append_right _ hkey
  rw [decrypt_encrypt_other hideal]
  -- The newest derived key is in the receiver's list for one reason only.
  have hmem : sender.newest ∈ receiver.all ↔
      sentDomain = receivedDomain ∧ sent.head hsent ∈ received := by
    rw [hnewest, hall, List.mem_map]
    constructor
    · rintro ⟨master, hmaster, hkey⟩
      obtain ⟨hd, rfl⟩ := deriveTenantKey_inj hfree
        (List.mem_append_right _ (List.mem_map_of_mem hmaster))
        (List.mem_append_left _ (List.mem_map_of_mem hhead))
        ((hlen _ (List.mem_append_right _ hmaster)).trans
          (hlen _ (List.mem_append_left _ hhead)).symm) hkey
      exact ⟨hd.symm, hmaster⟩
    · rintro ⟨rfl, hmaster⟩
      exact ⟨_, hmaster, rfl⟩
  have hnonce : nonceFor j.toNat = nonceFor i.toNat ↔ i = j := by
    constructor
    · intro h
      exact UInt64.toNat_inj.mp (nonceFor_inj j.toNat_lt i.toNat_lt h).symm
    · rintro rfl
      rfl
  refine if_congr ?_ rfl rfl
  rw [hmem, hnonce, and_assoc, and_comm (a := i = j)]

end E2EKeys

-- ---------------------------------------------------------------------------
-- A cipher for small cases
-- ---------------------------------------------------------------------------

/-- Sixteen bytes that name the nonce and the start of the key. -/
def Aead.tag (key nonce : Bytes) : Bytes := nonce.takeD 12 0 ++ key.takeD 4 0

theorem Aead.length_tag (key nonce : Bytes) : (tag key nonce).length = 16 := by
  rw [tag, List.length_append, List.takeD_length, List.takeD_length]

/-- The message in the clear behind which its tag stands: ideal on keys that
differ in their first four bytes. -/
def Aead.tagged : Aead where
  encrypt := fun key nonce msg => msg ++ tag key nonce
  decrypt := fun key nonce sealed =>
    if sealed.drop (sealed.length - 16) = tag key nonce then
      some (sealed.take (sealed.length - 16))
    else .none
  decrypt_encrypt := fun key nonce msg => by simp [length_tag]

theorem Aead.tagged_ideal
    (hkeys : ∀ key ∈ keys, ∀ key' ∈ keys, key.takeD 4 0 = key'.takeD 4 0 → key = key') :
    Aead.tagged.Ideal keys where
  exact := by
    intro key _ nonce sealed msg h
    simp only [tagged] at h ⊢
    split at h
    · rename_i htag
      obtain rfl := Option.some.inj h
      rw [← htag, List.take_append_drop]
    · cases h
  separate := by
    intro key hkey key' hkey' nonce nonce' msg msg' hnonce hnonce' h
    obtain ⟨-, htag⟩ := List.append_inj' h ((length_tag ..).trans (length_tag ..).symm)
    obtain ⟨hn, hk⟩ := List.append_inj htag (by rw [List.takeD_length, List.takeD_length])
    refine ⟨hkeys key hkey key' hkey' hk, ?_⟩
    rwa [List.takeD_eq_take _ hnonce.ge, List.takeD_eq_take _ hnonce'.ge,
      List.take_of_length_le hnonce.le, List.take_of_length_le hnonce'.le] at hn

def oldMaster : Bytes := List.replicate 32 1
def newMaster : Bytes := List.replicate 32 2

theorem derived_masters_differ :
    (E2EKeys.deriveTenantKey Digest.sha256 newMaster "acme").takeD 4 0 ≠
      (E2EKeys.deriveTenantKey Digest.sha256 oldMaster "acme").takeD 4 0 := by
  decide +kernel

theorem eq_of_image_eq {f : α → β} (h : f b ≠ f a) :
    ∀ x ∈ [a] ++ [b, a], ∀ y ∈ [a] ++ [b, a], f x = f y → x = y := by
  intro x hx y hy hxy
  simp only [List.cons_append, List.nil_append, List.mem_cons, List.not_mem_nil, or_false] at hx hy
  rcases hx with rfl | rfl | rfl <;> rcases hy with rfl | rfl | rfl <;>
    first
      | rfl
      | exact absurd hxy h
      | exact absurd hxy.symm h

/-- A chunk sealed before a rotation is read after it. -/
theorem decrypt_rotated_old_key :
    ∃ sender receiver, E2EKeys.fromEnv Digest.sha256 [oldMaster] "acme" = some sender ∧
      E2EKeys.fromEnv Digest.sha256 [newMaster, oldMaster] "acme" = some receiver ∧
      receiver.decrypt Aead.tagged (sender.encrypt Aead.tagged [5] 3) 3 = some [5] := by
  have hfree : CollisionFree Digest.sha256 ([oldMaster].map (E2EKeys.derivationInput "acme") ++
      [newMaster, oldMaster].map (E2EKeys.derivationInput "acme")) :=
    eq_of_image_eq fun h => derived_masters_differ
      (congrArg (fun d : Digest => d.val.takeD 4 0) h)
  exact E2EKeys.decrypt_rotated Aead.tagged Digest.sha256 [oldMaster] [newMaster, oldMaster]
    "acme" "acme" [5] 3 3 (by decide) (by decide) (by decide) (by decide) (by decide) hfree
    (Aead.tagged_ideal (eq_of_image_eq derived_masters_differ))

end Nsmt.Core
