import Nsmt.Server.Leases
import Nsmt.Server.Session

/-!
# Lock frames of several tenants

The lock registry is one for all tenants and its keys are bare paths, so a
tenant can run into the locks of another. `locks_isolated` says when it does
not: as long as no lock frame finds at its path an entry of another tenant, a
tenant sees what it would see alone.
-/

namespace Nsmt.Server

open Nsmt.Lib Nsmt.Core

inductive LockFrame
  | acquire (msg : LockAcquire)
  | renew (msg : LockRenew)
  | release (msg : LockRelease)
  deriving DecidableEq, Repr

def LockFrame.frame : LockFrame → ClientFrame
  | .acquire msg => .lockAcquire msg
  | .renew msg => .lockRenew msg
  | .release msg => .lockRelease msg

def LockFrame.path : LockFrame → String
  | .acquire msg => msg.path
  | .renew msg => msg.path
  | .release msg => msg.path

/-- A session's lock frame, or one pass of `cleanup_loop`. -/
inductive TenantEvent (ι : Type)
  | frame (session : ι) (now : Nat) (msg : LockFrame)
  | cleanup (readAt : Nat)

/-- `inbox` is what each session has been sent; `writer` is the tenant whose
frame changed the entry of a path last. -/
structure TenantLocks (ι : Type) where
  server : ServerState
  inbox : ι → List ServerFrame
  writer : String → String

namespace TenantLocks

variable {ι : Type} [DecidableEq ι]

/-- What session `k` is sent when session `i` causes the effects. -/
def delivered (sessions : ι → Session) (i : ι) (effects : List Effect) (k : ι) : List ServerFrame :=
  effects.filterMap fun
    | .putObject _ _ => none
    | .send frame => if k = i then some frame else none
    | .broadcast frame =>
      if (sessions k).userDomain = (sessions i).userDomain then some frame else none
    | .broadcastExcept frame =>
      if k ≠ i ∧ (sessions k).userDomain = (sessions i).userDomain then some frame else none

def step (cfg : Config) (sessions : ι → Session) (s : TenantLocks ι) : TenantEvent ι → TenantLocks ι
  | .frame i now msg =>
    let r := (sessions i).handle cfg now s.server msg.frame
    { server := r.server
      inbox := fun k => s.inbox k ++ delivered sessions i r.effects k
      writer :=
        if r.server.locks msg.path = s.server.locks msg.path then s.writer
        else Function.update s.writer msg.path (sessions i).userDomain }
  | .cleanup readAt => { s with server := { s.server with locks := s.server.locks.cleanup readAt } }

/-- The events a tenant alone would have. -/
def ofDomain (sessions : ι → Session) (domain : String) : TenantEvent ι → Bool
  | .frame i _ _ => (sessions i).userDomain = domain
  | .cleanup _ => true

/-- The frame finds no entry of another tenant. -/
def OwnEntry (sessions : ι → Session) (s : TenantLocks ι) : TenantEvent ι → Prop
  | .frame i _ msg => s.server.locks msg.path ≠ none → s.writer msg.path = (sessions i).userDomain
  | .cleanup _ => True

-- ---------------------------------------------------------------------------
-- What a lock frame reads and writes
-- ---------------------------------------------------------------------------

theorem handle_other (cfg : Config) (session : Session) (now : Nat) (server : ServerState)
    {msg : LockFrame} (h : q ≠ msg.path) :
    (session.handle cfg now server msg.frame).server.locks q = server.locks q := by
  cases msg with
  | acquire msg =>
    have hlocks : (session.handle cfg now server (.lockAcquire msg)).server.locks =
        (server.locks.acquire now msg.path msg.requester msg.ttlMs).2 := by
      simp only [Session.handle, Session.onLockAcquire]
      split
      · rename_i heq
        simp only [Session.stay, heq]
      · rename_i heq
        simp only [Session.stay, heq]
    rw [LockFrame.frame, hlocks]
    exact LockRegistry.acquire_other h ..
  | renew msg => exact LockRegistry.renew_other h ..
  | release msg => exact LockRegistry.release_other h ..

theorem handle_congr (cfg : Config) (session : Session) (now : Nat) {server server' : ServerState}
    {msg : LockFrame} (h : server.locks msg.path = server'.locks msg.path) :
    (session.handle cfg now server msg.frame).effects =
      (session.handle cfg now server' msg.frame).effects ∧
    (session.handle cfg now server msg.frame).server.locks msg.path =
      (session.handle cfg now server' msg.frame).server.locks msg.path := by
  cases msg with
  | acquire msg =>
    simp only [LockFrame.path] at h
    simp only [LockFrame.frame, LockFrame.path, Session.handle, Session.onLockAcquire,
      LockRegistry.acquire, h]
    cases hl : server'.locks msg.path with
    | none => simp [Session.stay]
    | some held =>
      by_cases hheld : held.expiresAt > now ∧ held.holder ≠ msg.requester
      · simp [Session.stay, hheld, h]
      · simp [Session.stay, hheld]
  | renew msg =>
    simp only [LockFrame.path] at h
    simp only [LockFrame.frame, LockFrame.path, Session.handle, Session.onLockRenew, Session.stay,
      LockRegistry.renew, h, true_and]
    cases hl : server'.locks msg.path with
    | none => simp [h, hl]
    | some held =>
      by_cases hheld : held.holder = msg.requester
      · simp [hheld]
      · simp [hheld, h]
  | release msg =>
    simp only [LockFrame.path] at h
    simp only [LockFrame.frame, LockFrame.path, Session.handle, Session.onLockRelease, Session.stay,
      LockRegistry.release, h, true_and]
    cases hl : server'.locks msg.path with
    | none => simp [h, hl]
    | some held =>
      by_cases hheld : held.holder = msg.requester
      · simp [hheld]
      · simp [hheld, h]

theorem delivered_foreign {sessions : ι → Session} (effects : List Effect)
    (h : (sessions k).userDomain ≠ (sessions i).userDomain) :
    delivered sessions i effects k = [] := by
  have hk : k ≠ i := by
    rintro rfl
    exact h rfl
  rw [delivered, List.filterMap_eq_nil_iff]
  intro effect _
  cases effect with
  | putObject blobId bytes => rfl
  | send frame => exact if_neg hk
  | broadcast frame => exact if_neg h
  | broadcastExcept frame => exact if_neg fun hboth => h hboth.2

-- ---------------------------------------------------------------------------
-- A tenant alone
-- ---------------------------------------------------------------------------

/-- `alone` is what the tenant's own frames make of the registry: its entries,
and no others. -/
structure Alone (sessions : ι → Session) (domain : String) (s alone : TenantLocks ι) : Prop where
  locks : ∀ p, alone.server.locks p = if s.writer p = domain then s.server.locks p else none
  inbox : ∀ k, (sessions k).userDomain = domain → s.inbox k = alone.inbox k

section
variable {cfg : Config} {sessions : ι → Session} {domain : String} {s alone : TenantLocks ι}

/-- Behind a frame, the entry of its path is of its own tenant. -/
theorem writer_step (hown : OwnEntry sessions s (.frame i now msg)) :
    (s.step cfg sessions (.frame i now msg)).server.locks msg.path ≠ none →
      (s.step cfg sessions (.frame i now msg)).writer msg.path = (sessions i).userDomain := by
  intro hsome
  simp only [step] at hsome ⊢
  split
  · rename_i hsame
    exact hown (hsame ▸ hsome)
  · exact Function.update_self ..

theorem writer_step_ne (h : q ≠ msg.path) :
    (s.step cfg sessions (.frame i now msg)).writer q = s.writer q := by
  simp only [step]
  split
  · rfl
  · exact Function.update_of_ne h ..

theorem Alone.own (h : Alone sessions domain s alone) (hown : OwnEntry sessions s (.frame i now msg))
    (hdomain : (sessions i).userDomain = domain) :
    Alone sessions domain (s.step cfg sessions (.frame i now msg))
      (alone.step cfg sessions (.frame i now msg)) := by
  -- Both runs find the same entry: it is absent, or it is the tenant's own.
  have hfound : s.server.locks msg.path = alone.server.locks msg.path := by
    rw [h.locks]
    split
    · rfl
    · rename_i hforeign
      by_contra hsome
      exact hforeign ((hown hsome).trans hdomain)
  obtain ⟨heffects, hentry⟩ := handle_congr cfg (sessions i) now hfound
  refine ⟨fun p => ?_, fun k hk => ?_⟩
  · by_cases hp : p = msg.path
    · subst hp
      refine hentry.symm.trans ?_
      split
      · rfl
      · rename_i hforeign
        by_contra hsome
        exact hforeign ((writer_step hown hsome).trans hdomain)
    · rw [writer_step_ne hp]
      simp only [step, handle_other cfg _ now _ hp]
      exact h.locks p
  · simp only [step, h.inbox k hk, heffects]

theorem Alone.foreign (h : Alone sessions domain s alone)
    (hown : OwnEntry sessions s (.frame i now msg)) (hdomain : (sessions i).userDomain ≠ domain) :
    Alone sessions domain (s.step cfg sessions (.frame i now msg)) alone := by
  refine ⟨fun p => ?_, fun k hk => ?_⟩
  · by_cases hp : p = msg.path
    · subst hp
      -- The tenant has no entry here, neither before nor behind the frame.
      have hbefore : alone.server.locks msg.path = none := by
        rw [h.locks]
        split
        · rename_i hmine
          by_contra hsome
          exact hdomain ((hown hsome).symm.trans hmine)
        · rfl
      rw [hbefore]
      split
      · rename_i hmine
        by_contra hsome
        exact hdomain ((writer_step hown (Ne.symm hsome)).symm.trans hmine)
      · rfl
    · rw [writer_step_ne hp]
      simp only [step, handle_other cfg _ now _ hp]
      exact h.locks p
  · have hnone := delivered_foreign ((sessions i).handle cfg now s.server msg.frame).effects
      (show (sessions k).userDomain ≠ (sessions i).userDomain by rw [hk]; exact Ne.symm hdomain)
    simp only [step, hnone, List.append_nil]
    exact h.inbox k hk

theorem Alone.cleanup (h : Alone sessions domain s alone) (readAt : Nat) :
    Alone sessions domain (s.step cfg sessions (.cleanup readAt))
      (alone.step cfg sessions (.cleanup readAt)) := by
  refine ⟨fun p => ?_, h.inbox⟩
  simp only [step, LockRegistry.cleanup, h.locks p]
  by_cases hmine : s.writer p = domain
  · simp [hmine]
  · simp [hmine]

/-- If no lock frame finds an entry of another tenant, the sessions of a tenant
receive what they would receive if the other tenants sent nothing. -/
theorem locks_isolated (hstart : ∀ p, s.server.locks p = none)
    (hown : AllSteps (step cfg sessions) (OwnEntry sessions) s events)
    (hk : (sessions k).userDomain = domain) :
    (run (step cfg sessions) s events).inbox k =
      (run (step cfg sessions) s (events.filter (ofDomain sessions domain))).inbox k := by
  have hrel : Alone sessions domain s s := by
    refine ⟨fun p => ?_, fun _ _ => rfl⟩
    rw [hstart p, ite_self]
  refine (run_filter (Alone sessions domain) ?_ ?_ hrel hown).inbox k hk
  · intro s alone e h hown hkeep
    cases e with
    | frame i now msg => exact h.own hown (by simpa [ofDomain] using hkeep)
    | cleanup readAt => exact h.cleanup readAt
  · intro s alone e h hown hkeep
    cases e with
    | frame i now msg => exact h.foreign hown (by simpa [ofDomain] using hkeep)
    | cleanup readAt => cases hkeep

end

/-- One session of `acme` and one of `beta`. -/
def twoTenants (i : Bool) : Session where
  userDomain := if i then "acme" else "beta"
  machineId := "m1"
  remoteAddress := ""
  pendingUpload := none

def unlocked : TenantLocks Bool where
  server := .empty
  inbox := fun _ => []
  writer := fun _ => ""

def lockA (requester : String) : LockFrame := .acquire ⟨"a", requester, 30000⟩

/-- Both tenants lock `a`, one behind the other. -/
theorem locks_isolated_in_turn :
    let events := [.frame true 0 (lockA "acme/m1/maka"),
      .frame true 5 (.release ⟨"a", "acme/m1/maka"⟩), .frame false 7 (lockA "beta/m1/maka")]
    (run (step .default twoTenants) unlocked events).inbox false =
      (run (step .default twoTenants) unlocked
        (events.filter (ofDomain twoTenants "beta"))).inbox false := by
  intro events
  refine locks_isolated (fun _ => rfl) ⟨fun h => absurd rfl h, fun _ => ?_, fun h => ?_, trivial⟩ rfl
  · decide +kernel
  · exact absurd (by decide +kernel) h

/-- Both tenants lock `a` at the same time: the second one is told who of the
first tenant holds it. -/
theorem foreign_lock_denies : ¬ ∀ (cfg : Config) (sessions : Bool → Session)
    (events : List (TenantEvent Bool)) (domain : String) (k : Bool),
    (sessions k).userDomain = domain →
    (run (step cfg sessions) unlocked events).inbox k =
      (run (step cfg sessions) unlocked (events.filter (ofDomain sessions domain))).inbox k := by
  intro h
  have hsame := h .default twoTenants
    [.frame true 0 (lockA "acme/m1/maka"), .frame false 7 (lockA "beta/m1/maka")] "beta" false rfl
  have hdenied : (run (step .default twoTenants) unlocked
      [.frame true 0 (lockA "acme/m1/maka"), .frame false 7 (lockA "beta/m1/maka")]).inbox false =
        [.lockDenied ⟨"a", "acme/m1/maka"⟩] := by
    decide +kernel
  have hgranted : (run (step .default twoTenants) unlocked
      ([.frame true 0 (lockA "acme/m1/maka"), .frame false 7 (lockA "beta/m1/maka")].filter
        (ofDomain twoTenants "beta"))).inbox false = [.lockGranted ⟨"a", 30007⟩] := by
    decide +kernel
  rw [hdenied, hgranted] at hsame
  cases hsame

end TenantLocks

end Nsmt.Server
