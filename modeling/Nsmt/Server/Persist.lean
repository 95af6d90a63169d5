import Nsmt.Lib.Runs
import Nsmt.Server.Tenants

/-!
# Tenants on disk

An upsert changes the table in memory, clones it and writes the clone over
`tenants.json`, with nothing held from one to the next; `ygg admin add-tenant`
does so in a process of its own, on the table it loads. A write takes with it
what the file has and the clone has not. `upserts_kept_iff` says when no tenant
gets lost.
-/

namespace Nsmt.Server

open Nsmt.Lib

inductive Origin
  | server | cli
  deriving DecidableEq, Repr

structure Upsert where
  origin : Origin
  domain : String
  pubkey : String
  deriving DecidableEq, Repr

/-- Each call of the command line is a process with a memory of its own. -/
inductive Process (υ : Type)
  | server
  | cli (u : υ)
  deriving DecidableEq

inductive PersistPhase
  | idle
  | loaded
  | updated
  | cloned (table : TenantStore)
  | finished

/-- `file` is what `tenants.json` parses to; a file that is missing is empty. -/
structure Tables (υ : Type) where
  file : TenantStore
  memory : Process υ → TenantStore
  phase : υ → PersistPhase

namespace Tables

variable {υ : Type} [DecidableEq υ] (job : υ → Upsert)

def processOf (u : υ) : Process υ :=
  match (job u).origin with
  | .server => .server
  | .cli => .cli u

/-- `upsert_tenant` under its lock. -/
def upsert (s : Tables υ) (u : υ) : Tables υ :=
  { s with
    memory := Function.update s.memory (processOf job u)
      ((s.memory (processOf job u)).upsertTenant (job u).domain (job u).pubkey)
    phase := Function.update s.phase u .updated }

/-- The next step of an upsert. -/
def step (s : Tables υ) (u : υ) : Tables υ :=
  match s.phase u with
  | .idle =>
    match (job u).origin with
    | .server => s.upsert job u
    | .cli =>
      { s with
        memory := Function.update s.memory (.cli u) s.file
        phase := Function.update s.phase u .loaded }
  | .loaded => s.upsert job u
  | .updated =>
    { s with phase := Function.update s.phase u (.cloned (s.memory (processOf job u))) }
  | .cloned table => { s with file := table, phase := Function.update s.phase u .finished }
  | .finished => s

/-- A server that has loaded the file, and nothing under way. -/
structure Started (s : Tables υ) : Prop where
  server : s.memory .server = s.file
  idle : ∀ u, s.phase u = .idle

/-- The file has the tenant of every upsert that has finished. -/
def Persisted (s : Tables υ) : Prop :=
  ∀ u, s.phase u = .finished → (s.file (job u).domain).isSome = true

def PersistedAfter (s : Tables υ) (u : υ) : Prop := Persisted job (s.step job u)

/-- A table that is written has the tenant of every upsert that has finished. -/
def Current (s : Tables υ) (u : υ) : Prop :=
  ∀ table, s.phase u = .cloned table →
    ∀ v, s.phase v = .finished → (table (job v).domain).isSome = true

-- ---------------------------------------------------------------------------
-- Where the tenant of an upsert is
-- ---------------------------------------------------------------------------

/-- The tenant of an upsert is in the memory of its process, then in its clone,
then in the file. -/
structure Located (s : Tables υ) : Prop where
  memory : ∀ u, s.phase u = .updated → (s.memory (processOf job u) (job u).domain).isSome = true
  clone : ∀ u table, s.phase u = .cloned table → (table (job u).domain).isSome = true
  file : Persisted job s

section
variable {job} {s : Tables υ} {u v : υ}

theorem isSome_upsertTenant (tenants : TenantStore) (domain pubkey other : String) :
    (tenants.upsertTenant domain pubkey other).isSome = true ↔
      other = domain ∨ (tenants other).isSome = true := by
  by_cases h : other = domain
  · subst h
    simp [TenantStore.upsertTenant]
  · simp [TenantStore.upsertTenant, h]

theorem phase_update {phase phase' : PersistPhase} (h : Function.update s.phase u phase v = phase')
    (hne : phase ≠ phase') : s.phase v = phase' := by
  by_cases hv : v = u
  · subst hv
    rw [Function.update_self] at h
    exact absurd h hne
  · rwa [Function.update_of_ne hv] at h

omit [DecidableEq υ] in
theorem processOf_cli (h : processOf job v = .cli u) : v = u := by
  unfold processOf at h
  split at h
  · cases h
  · exact Process.cli.inj h

theorem Located.upsert (h : Located job s) (u : υ) : Located job (s.upsert job u) where
  memory v hv := by
    by_cases hvu : v = u
    · subst hvu
      simp only [Tables.upsert, Function.update_self, isSome_upsertTenant, true_or]
    · simp only [Tables.upsert, Function.update_of_ne hvu] at hv ⊢
      have hold := h.memory v hv
      by_cases hprocess : processOf job v = processOf job u
      · rw [hprocess] at hold ⊢
        rw [Function.update_self, isSome_upsertTenant]
        exact .inr hold
      · rw [Function.update_of_ne hprocess]
        exact hold
  clone v table hv := h.clone v table (phase_update hv PersistPhase.noConfusion)
  file v hv := h.file v (phase_update hv PersistPhase.noConfusion)

theorem Located.load (h : Located job s) (hidle : s.phase u = .idle) :
    Located job { s with
      memory := Function.update s.memory (.cli u) s.file
      phase := Function.update s.phase u .loaded } where
  memory v hv := by
    have hold := phase_update hv PersistPhase.noConfusion
    have hprocess : processOf job v ≠ .cli u := by
      intro hcli
      obtain rfl := processOf_cli hcli
      cases hidle.symm.trans hold
    simp only [Function.update_of_ne hprocess]
    exact h.memory v hold
  clone v table hv := h.clone v table (phase_update hv PersistPhase.noConfusion)
  file v hv := h.file v (phase_update hv PersistPhase.noConfusion)

theorem Located.clone_step (h : Located job s) (hupdated : s.phase u = .updated) :
    Located job { s with phase := Function.update s.phase u (.cloned (s.memory (processOf job u))) } where
  memory v hv := h.memory v (phase_update hv PersistPhase.noConfusion)
  clone v table hv := by
    by_cases hvu : v = u
    · subst hvu
      simp only [Function.update_self] at hv
      obtain rfl := PersistPhase.cloned.inj hv
      exact h.memory v hupdated
    · simp only [Function.update_of_ne hvu] at hv
      exact h.clone v table hv
  file v hv := h.file v (phase_update hv PersistPhase.noConfusion)

/-- The write itself keeps the tenants of exactly the upserts that its table has. -/
theorem Located.write_iff (h : Located job s) (hcloned : s.phase u = .cloned table) :
    Persisted job { s with file := table, phase := Function.update s.phase u .finished } ↔
      ∀ v, s.phase v = .finished → (table (job v).domain).isSome = true := by
  constructor
  · intro hkept v hv
    refine hkept v ?_
    by_cases hvu : v = u
    · subst hvu
      exact Function.update_self ..
    · exact (Function.update_of_ne hvu ..).trans hv
  · intro hcurrent v hv
    by_cases hvu : v = u
    · subst hvu
      exact h.clone v table hcloned
    · simp only [Function.update_of_ne hvu] at hv
      exact hcurrent v hv

theorem Located.write (h : Located job s)
    (hkept : Persisted job { s with file := table, phase := Function.update s.phase u .finished }) :
    Located job { s with file := table, phase := Function.update s.phase u .finished } where
  memory v hv := h.memory v (phase_update hv PersistPhase.noConfusion)
  clone v table' hv := h.clone v table' (phase_update hv PersistPhase.noConfusion)
  file := hkept

theorem Located.step_iff (h : Located job s) (u : υ) :
    (PersistedAfter job s u ↔ Current job s u) ∧ (Current job s u → Located job (s.step job u)) := by
  have hquiet (hne : ∀ table, s.phase u ≠ .cloned table) (hstep : Located job (s.step job u)) :
      (PersistedAfter job s u ↔ Current job s u) ∧ (Current job s u → Located job (s.step job u)) :=
    ⟨iff_of_true hstep.file fun table hcloned => absurd hcloned (hne table), fun _ => hstep⟩
  cases hphase : s.phase u with
  | idle =>
    refine hquiet (by simp [hphase]) ?_
    simp only [step, hphase]
    split
    · exact h.upsert u
    · exact h.load hphase
  | loaded =>
    refine hquiet (by simp [hphase]) ?_
    simp only [step, hphase]
    exact h.upsert u
  | updated =>
    refine hquiet (by simp [hphase]) ?_
    simp only [step, hphase]
    exact h.clone_step hphase
  | finished =>
    refine hquiet (by simp [hphase]) ?_
    simp only [step, hphase]
    exact h
  | cloned table =>
    have hiff : PersistedAfter job s u ↔ Current job s u := by
      simp only [PersistedAfter, step, hphase, h.write_iff hphase, Current]
      exact ⟨fun hall table' htable => PersistPhase.cloned.inj htable ▸ hall, fun hall => hall table rfl⟩
    refine ⟨hiff, fun hcurrent => ?_⟩
    have hkept := hiff.mpr hcurrent
    simp only [PersistedAfter, step, hphase] at hkept ⊢
    exact h.write hkept

omit [DecidableEq υ] in
theorem Started.located (h : Started s) (job : υ → Upsert) : Located job s where
  memory u hu := by cases (h.idle u).symm.trans hu
  clone u table hu := by cases (h.idle u).symm.trans hu
  file u hu := by cases (h.idle u).symm.trans hu

/-- In every state of a run the file has the tenants of all upserts that have
finished, exactly if every table that is written has them. -/
theorem upserts_kept_iff (h : Started s) (schedule : List υ) :
    AllSteps (step job) (PersistedAfter job) s schedule ↔ AllSteps (step job) (Current job) s schedule :=
  AllSteps.iff_of_invariant (Located job) (fun _ u h => (h.step_iff u).1)
    (fun _ u h hc => (h.step_iff u).2 hc) (h.located job)

end

def empty : Tables υ where
  file := fun _ => none
  memory := fun _ _ => none
  phase := fun _ => .idle

omit [DecidableEq υ] in
theorem empty_started : Started (empty : Tables υ) := ⟨rfl, fun _ => rfl⟩

/-- The server adds one tenant and then another. -/
theorem upserts_kept_iff_in_turn :
    AllSteps (step fun u => ⟨.server, if u then "acme" else "beta", "00"⟩)
      (PersistedAfter fun u => ⟨.server, if u then "acme" else "beta", "00"⟩) (empty : Tables Bool)
      [true, true, true, false, false, false] := by
  refine (upserts_kept_iff empty_started _).mpr ⟨?_, ?_, ?_, ?_, ?_, ?_, trivial⟩
  · rintro table ⟨⟩
  · rintro table ⟨⟩
  · rintro table - (_ | _) ⟨⟩
  · rintro table ⟨⟩
  · rintro table ⟨⟩
  · rintro table hcloned (_ | _) hv
    · cases hv
    · obtain rfl := PersistPhase.cloned.inj hcloned
      decide

/-- The command line adds a tenant, and then the server one of which it has a
table from before. -/
theorem cli_tenant_overwritten : ¬ ∀ (job : Bool → Upsert) (s : Tables Bool), Started s →
    ∀ schedule, (∀ u, (run (step job) s schedule).phase u = .finished) →
      ∀ u, ((run (step job) s schedule).file (job u).domain).isSome = true := by
  intro h
  have hkept := h (fun u => ⟨if u then .cli else .server, if u then "beta" else "acme", "00"⟩) empty
    empty_started [true, true, true, true, false, false, false]
    (by rintro (_ | _) <;> rfl) true
  revert hkept
  decide

end Tables

end Nsmt.Server
