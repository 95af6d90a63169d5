import Nsmt.Lib.Runs
import Nsmt.Server.Tenants

/-!
# Machine keys

The first `REGISTER` of a machine binds its key in the record of the tenant, and
`upsert_tenant` writes to the same record. The table is shared, so that a call
which fails does not take back what it has written by then.
`machine_keys_bound_once` says that it has written nothing, and that a key once
bound is the only one that the machine can register with.
-/

namespace Nsmt.Server

open Nsmt.Lib Nsmt.Core

/-- A call on the shared table, which an error leaves as it is at that point. -/
abbrev TenantM := ExceptT String (StateM TenantStore)

@[simp] theorem TenantM.run_get (tenants : TenantStore) (f : TenantStore → TenantM Unit) :
    (get >>= f).run.run tenants = (f tenants).run.run tenants := rfl

structure RegisterCall where
  domain : String
  machineId : String
  agentTag : String
  machinePubkey : String
  signature : String

/-- A machine that is registered must come with the key it came with first. -/
def RegisterCall.verifyRegister (ed : Ed25519) (r : RegisterCall) : TenantM Unit := do
  let msg := r.machineId ++ "\n" ++ r.agentTag
  if ¬ KeyPair.verify ed r.machinePubkey (utf8 msg) r.signature then
    throw "bad_machine_signature"
  match (← get) r.domain with
  | none => throw "tenant_not_found"
  | some t =>
    match t.machines r.machineId with
    | some existing => if existing ≠ r.machinePubkey then throw "machine_hijack_detected"
    | none =>
      let machines := Function.update t.machines r.machineId (some r.machinePubkey)
      modify fun tenants => Function.update tenants r.domain (some { t with machines })

/-- `persisted` is what writing the table to disk comes to. -/
inductive TenantCall
  | upsertTenant (domain domainPubkey : String) (persisted : Except String Unit)
  | verifyRegister (r : RegisterCall)

namespace TenantCall

variable (ed : Ed25519)

def exec : TenantCall → TenantM Unit
  | .upsertTenant domain domainPubkey persisted => do
    modify fun tenants => tenants.upsertTenant domain domainPubkey
    ExceptT.mk (pure persisted)
  | .verifyRegister r => r.verifyRegister ed

def result (tenants : TenantStore) (call : TenantCall) : Except String Unit :=
  ((call.exec ed).run.run tenants).1

def step (tenants : TenantStore) (call : TenantCall) : TenantStore :=
  ((call.exec ed).run.run tenants).2

end TenantCall

namespace TenantStore

def machineKey (tenants : TenantStore) (domain machineId : String) : Option String :=
  (tenants domain).bind fun t => t.machines machineId

/-- What holds of a run of calls that begins with the table `tenants`. -/
structure BoundOnce (ed : Ed25519) (tenants : TenantStore) (calls : List TenantCall) : Prop where
  kept : ∀ before r between after, calls = before ++ .verifyRegister r :: (between ++ after) →
    TenantCall.result ed (run (TenantCall.step ed) tenants before) (.verifyRegister r) = .ok () →
      (run (TenantCall.step ed) tenants (before ++ .verifyRegister r :: between)).machineKey
        r.domain r.machineId = some r.machinePubkey
  same : ∀ before r between r' after,
    calls = before ++ .verifyRegister r :: (between ++ .verifyRegister r' :: after) →
    r'.domain = r.domain → r'.machineId = r.machineId →
    TenantCall.result ed (run (TenantCall.step ed) tenants before) (.verifyRegister r) = .ok () →
    TenantCall.result ed (run (TenantCall.step ed) tenants (before ++ .verifyRegister r :: between))
      (.verifyRegister r') = .ok () → r'.machinePubkey = r.machinePubkey
  unchanged : ∀ before r after e, calls = before ++ .verifyRegister r :: after →
    TenantCall.result ed (run (TenantCall.step ed) tenants before) (.verifyRegister r) = .error e →
      TenantCall.step ed (run (TenantCall.step ed) tenants before) (.verifyRegister r) =
        run (TenantCall.step ed) tenants before

end TenantStore

-- ---------------------------------------------------------------------------
-- One call
-- ---------------------------------------------------------------------------

namespace RegisterCall

variable {ed : Ed25519} {tenants : TenantStore} {r : RegisterCall}

/-- The call is `TenantStore.verifyRegister`, and an error changes nothing. -/
theorem run_verifyRegister : (r.verifyRegister ed).run.run tenants =
    match tenants.verifyRegister ed r.domain r.machineId r.agentTag r.machinePubkey r.signature with
    | .ok tenants' => (.ok (), tenants')
    | .error e => (.error e, tenants) := by
  unfold verifyRegister TenantStore.verifyRegister
  by_cases hverify : KeyPair.verify ed r.machinePubkey (utf8 (r.machineId ++ "\n" ++ r.agentTag))
      r.signature = true
  · simp only [hverify, not_true, if_false, if_true, TenantM.run_get]
    cases ht : tenants r.domain with
    | none => rfl
    | some t =>
      cases hm : t.machines r.machineId with
      | none =>
        simp only [hm]
        rfl
      | some existing =>
        by_cases hkey : existing = r.machinePubkey
        · simp only [hm, hkey, ne_eq, not_true, if_false]
          rfl
        · simp only [hm, hkey, ne_eq, not_false_eq_true, if_true]
          rfl
  · simp only [hverify]
    rfl

end RegisterCall

namespace TenantStore

variable {ed : Ed25519} {tenants tenants' : TenantStore}

theorem machineKey_upsertTenant (domain domainPubkey other machineId : String) :
    (tenants.upsertTenant domain domainPubkey).machineKey other machineId =
      tenants.machineKey other machineId := by
  by_cases h : other = domain
  · subst h
    cases ht : tenants other with
    | none => simp [machineKey, upsertTenant, ht, TenantRecord.default]
    | some t => simp [machineKey, upsertTenant, ht]
  · simp [machineKey, upsertTenant, h]

theorem machineKey_verifyRegister
    (h : tenants.verifyRegister ed domain machineId agentTag machinePubkey signature = .ok tenants') :
    tenants'.machineKey domain machineId = some machinePubkey ∧
      ∀ other mid key, tenants.machineKey other mid = some key →
        tenants'.machineKey other mid = some key := by
  unfold verifyRegister at h
  split at h
  · split at h
    · cases h
    · rename_i t ht
      split at h
      · rename_i existing hm
        split at h
        · cases h
        · rename_i hkey
          obtain rfl := Except.ok.inj h
          rw [not_not] at hkey
          exact ⟨by simp [machineKey, ht, hm, hkey], fun _ _ _ => id⟩
      · rename_i hm
        obtain rfl := Except.ok.inj h
        refine ⟨by simp [machineKey], fun other mid key hkey => ?_⟩
        by_cases hd : other = domain
        · subst hd
          have hbound : t.machines mid = some key := by simpa [machineKey, ht] using hkey
          -- The machine that is bound now had no key.
          have hmid : mid ≠ machineId := by
            rintro rfl
            cases hm.symm.trans hbound
          simp [machineKey, hmid, hbound]
        · simpa [machineKey, hd] using hkey
  · cases h

end TenantStore

namespace TenantCall

variable {ed : Ed25519} {tenants : TenantStore} {r : RegisterCall} {e : String}

theorem step_of_ok (h : result ed tenants (.verifyRegister r) = .ok ()) :
    tenants.verifyRegister ed r.domain r.machineId r.agentTag r.machinePubkey r.signature =
      .ok (step ed tenants (.verifyRegister r)) := by
  simp only [result, step, exec, RegisterCall.run_verifyRegister] at h ⊢
  split at h
  · rename_i hcall
    rw [hcall]
  · cases h

theorem step_of_error (h : result ed tenants (.verifyRegister r) = .error e) :
    step ed tenants (.verifyRegister r) = tenants := by
  simp only [result, step, exec, RegisterCall.run_verifyRegister] at h ⊢
  split at h
  · cases h
  · rfl

theorem step_bound (h : result ed tenants (.verifyRegister r) = .ok ()) :
    (step ed tenants (.verifyRegister r)).machineKey r.domain r.machineId = some r.machinePubkey :=
  (TenantStore.machineKey_verifyRegister (step_of_ok h)).1

theorem step_keeps (call : TenantCall) (h : tenants.machineKey domain machineId = some key) :
    (step ed tenants call).machineKey domain machineId = some key := by
  cases call with
  | upsertTenant other domainPubkey persisted =>
    have hstep : step ed tenants (.upsertTenant other domainPubkey persisted) =
        tenants.upsertTenant other domainPubkey := rfl
    rw [hstep, TenantStore.machineKey_upsertTenant, h]
  | verifyRegister r =>
    cases hresult : result ed tenants (.verifyRegister r) with
    | ok _ => exact (TenantStore.machineKey_verifyRegister (step_of_ok hresult)).2 _ _ _ h
    | error e => rw [step_of_error hresult, h]

end TenantCall

-- ---------------------------------------------------------------------------
-- Every run
-- ---------------------------------------------------------------------------

namespace TenantStore

theorem run_keeps_key {ed : Ed25519} {tenants : TenantStore}
    (h : tenants.machineKey domain machineId = some key) (calls : List TenantCall) :
    (run (TenantCall.step ed) tenants calls).machineKey domain machineId = some key := by
  induction calls generalizing tenants with
  | nil => exact h
  | cons call calls ih => exact ih (call.step_keeps h)

/-- Whatever is called in whatever order, on whatever table the server begins with. -/
theorem machine_keys_bound_once (ed : Ed25519) (tenants : TenantStore) (calls : List TenantCall) :
    BoundOnce ed tenants calls := by
  have hkept (before : List TenantCall) (r : RegisterCall) (between : List TenantCall)
      (hok : TenantCall.result ed (run (TenantCall.step ed) tenants before) (.verifyRegister r) =
        .ok ()) :
      (run (TenantCall.step ed) tenants (before ++ .verifyRegister r :: between)).machineKey
        r.domain r.machineId = some r.machinePubkey := by
    rw [run_append, run_cons]
    exact run_keeps_key (TenantCall.step_bound hok) between
  refine ⟨fun before r between _ _ => hkept before r between, ?_, ?_⟩
  · intro before r between r' after _ hdomain hmachine hok hok'
    have hfirst : (TenantCall.step ed _ (.verifyRegister r')).machineKey r.domain r.machineId =
        some r.machinePubkey := TenantCall.step_keeps (.verifyRegister r') (hkept before r between hok)
    have hagain := TenantCall.step_bound hok'
    rw [hdomain, hmachine, hfirst] at hagain
    exact (Option.some.inj hagain).symm
  · intro before r after e _ herror
    exact TenantCall.step_of_error herror

end TenantStore

end Nsmt.Server
