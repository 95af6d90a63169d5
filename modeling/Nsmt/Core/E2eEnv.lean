import Nsmt.Core.E2e
import Nsmt.Lib.Text

/-!
# Keys from the environment

`E2EKeys::from_env` reads the master keys from one of two variables and leaves
out what is no key. `encrypts_with_first_iff` says when the first key that was
written down is the one that encrypts; otherwise it is a later one, or chunks
are sent in the clear.
-/

namespace Nsmt.Core

open Nsmt.Lib

/-- What `std::env::var` gives for `NSMT_E2E_KEYS` and for `NSMT_E2E_KEY`. -/
structure E2eEnv where
  keys : Option String
  key : Option String

namespace E2eEnv

/-- The variable that is read: the second only without the first. -/
def raw (env : E2eEnv) : Option String := env.keys.or env.key

def mastersFromEnv (env : E2eEnv) : Option (List Bytes) :=
  env.raw.bind fun raw =>
    let list := ((commaEntries raw).filterMap hexDecode).filter fun b => b.length = 32
    if list = [] then none else some list

def fromEnv (sha256 : Bytes → Digest) (env : E2eEnv) (domain : String) : Option E2EKeys :=
  env.mastersFromEnv.bind fun masters => E2EKeys.fromEnv sha256 masters domain

/-- The master key of an entry. -/
def masterOf (entry : String) : Option Bytes := (hexDecode entry).filter fun b => b.length = 32

def tenantKey (sha256 : Bytes → Digest) (master : Bytes) (domain : String) : Bytes :=
  if domain = "" then master else E2EKeys.deriveTenantKey sha256 master domain

/-- The first entry that is not blank, of either variable. -/
def first (env : E2eEnv) : Option String :=
  ((env.keys.map commaEntries).getD [] ++ (env.key.map commaEntries).getD []).head?

/-- If anything is configured, the key of the first entry encrypts the chunks. -/
def EncryptsWithFirst (sha256 : Bytes → Digest) (env : E2eEnv) (domain : String) : Prop :=
  ∀ entry, env.first = some entry → ∃ master keys, masterOf entry = some master ∧
    fromEnv sha256 env domain = some keys ∧ keys.newest = tenantKey sha256 master domain ∧
    ∀ aead data idx, sealChunk aead (fromEnv sha256 env domain) data idx =
      aead.encrypt (tenantKey sha256 master domain) (E2EKeys.nonceFor idx) data

/-- The variable that is read has an entry, and its first one is a key. -/
def ReadsKey (env : E2eEnv) : Prop :=
  ∃ entry, ((env.raw.map commaEntries).getD []).head? = some entry ∧ masterOf entry ≠ none

variable {env : E2eEnv} {entry : String}

theorem masters_cons (entry : String) (rest : List String) :
    ((entry :: rest).filterMap hexDecode).filter (fun b => b.length = 32) =
      (masterOf entry).toList ++ (rest.filterMap hexDecode).filter fun b => b.length = 32 := by
  unfold masterOf
  cases hdecode : hexDecode entry with
  | none => simp [hdecode]
  | some b =>
    by_cases hlen : b.length = 32
    · simp [hdecode, hlen, Option.filter]
    · simp [hdecode, hlen, Option.filter]

/-- The first entry of the variable that is read is the first of all. -/
theorem first_of_raw (h : ((env.raw.map commaEntries).getD []).head? = some entry) :
    env.first = some entry := by
  obtain ⟨keys, key⟩ := env
  cases keys with
  | none => exact h
  | some text =>
    have hhead : (commaEntries text).head? = some entry := h
    simp only [first, Option.map_some, Option.getD_some, List.head?_append, hhead, Option.some_or]

theorem fromEnv_of_master (sha256 : Bytes → Digest) (domain : String) {master : Bytes}
    (h : ((env.raw.map commaEntries).getD []).head? = some entry) (hmaster : masterOf entry = some master) :
    ∃ keys, fromEnv sha256 env domain = some keys ∧ keys.newest = tenantKey sha256 master domain := by
  cases hraw : env.raw with
  | none => simp [hraw] at h
  | some raw =>
    rw [hraw] at h
    obtain ⟨rest, hentries⟩ := List.head?_eq_some_iff.mp h
    replace hentries : commaEntries raw = entry :: rest := hentries
    have hmasters : env.mastersFromEnv =
        some (master :: (rest.filterMap hexDecode).filter fun b => b.length = 32) := by
      simp [mastersFromEnv, hraw, hentries, masters_cons, hmaster]
    rw [fromEnv, hmasters, Option.bind_some, E2EKeys.fromEnv]
    exact ⟨_, rfl, rfl⟩

/-- Without an entry in the variable that is read there is no key. -/
theorem fromEnv_none {sha256 : Bytes → Digest} {domain : String}
    (h : (env.raw.map commaEntries).getD [] = []) : fromEnv sha256 env domain = none := by
  cases hraw : env.raw with
  | none => simp [fromEnv, mastersFromEnv, hraw]
  | some raw =>
    rw [hraw] at h
    replace h : commaEntries raw = [] := h
    simp [fromEnv, mastersFromEnv, hraw, h]

/-- The first key that is configured encrypts if and only if it can be read and stands
in the variable that is read. -/
theorem encrypts_with_first_iff (sha256 : Bytes → Digest) (env : E2eEnv) (domain : String) :
    EncryptsWithFirst sha256 env domain ↔ env.first = none ∨ env.ReadsKey := by
  constructor
  · intro h
    cases hfirst : env.first with
    | none => exact .inl rfl
    | some entry =>
      obtain ⟨master, keys, hmaster, hkeys, -⟩ := h entry hfirst
      cases hhead : ((env.raw.map commaEntries).getD []).head? with
      | none =>
        rw [fromEnv_none (List.head?_eq_none_iff.mp hhead)] at hkeys
        cases hkeys
      | some entry' =>
        have hsame := (first_of_raw hhead).symm.trans hfirst
        obtain rfl := Option.some.inj hsame
        exact .inr ⟨entry', hhead, by simp [hmaster]⟩
  · rintro (hnone | ⟨entry, hentry, hkey⟩) first hfirst
    · rw [hnone] at hfirst
      cases hfirst
    · rw [first_of_raw hentry] at hfirst
      obtain rfl := Option.some.inj hfirst
      obtain ⟨master, hmaster⟩ := Option.ne_none_iff_exists'.mp hkey
      obtain ⟨keys, hkeys, hnewest⟩ := fromEnv_of_master sha256 domain hentry hmaster
      refine ⟨master, keys, hmaster, hkeys, hnewest, fun aead data idx => ?_⟩
      rw [hkeys, sealChunk, E2EKeys.encrypt, hnewest]

/-- With a mistyped key chunks are sent in the clear. -/
theorem mistyped_key_dropped : ¬ ∀ (sha256 : Bytes → Digest) (env : E2eEnv) (domain : String),
    EncryptsWithFirst sha256 env domain := by
  intro h
  obtain ⟨master, -, hmaster, -⟩ := h Digest.sha256 { keys := some "0g", key := none } "acme" "0g"
    (by decide)
  have hnone : masterOf "0g" = none := by decide
  rw [hnone] at hmaster
  cases hmaster

end E2eEnv

end Nsmt.Core
