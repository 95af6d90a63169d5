import Nsmt.Lib.Runs
import Nsmt.Server.Locks

/-!
# Runs of the lock registry

Any requesters acquire, renew and release paths while `cleanup_loop` drops what
has expired. `lease_exclusive`: until it expires, a lease its holder has not
released shuts out everybody else, whatever happens in between.
-/

namespace Nsmt.Server

open Nsmt.Lib

/-- `cleanup_loop` reads the clock before it waits for the registry. -/
inductive LockOp
  | acquire (path requester : String) (ttlMs : Nat)
  | renew (path requester : String) (ttlMs : Nat)
  | release (path requester : String)
  | cleanup (readAt : Nat)
  deriving DecidableEq, Repr

/-- An operation and the time at which it holds the registry. -/
structure LockEvent where
  now : Nat
  op : LockOp
  deriving DecidableEq, Repr

namespace LockRegistry

def step (locks : LockRegistry) (e : LockEvent) : LockRegistry :=
  match e.op with
  | .acquire path requester ttlMs => (locks.acquire e.now path requester ttlMs).2
  | .renew path requester ttlMs => (locks.renew e.now path requester ttlMs).2
  | .release path requester => (locks.release path requester).2
  | .cleanup readAt => locks.cleanup readAt

/-- The clock does not go back. -/
def Clocked (events : List LockEvent) : Prop :=
  (events.map LockEvent.now).Pairwise (· ≤ ·) ∧
    ∀ e ∈ events, ∀ readAt, e.op = .cleanup readAt → readAt ≤ e.now

/-- A successful acquire or renew of the path by the requester. -/
inductive Installs (locks : LockRegistry) (path requester : String) (expiresAt : Nat) : LockEvent → Prop
  | acquire : (locks.acquire now path requester ttlMs).1 = .ok expiresAt →
    Installs locks path requester expiresAt { now, op := .acquire path requester ttlMs }
  | renew : (locks.renew now path requester ttlMs).1 = true → expiresAt = (now + ttlMs) % 2 ^ 64 →
    Installs locks path requester expiresAt { now, op := .renew path requester ttlMs }

/-- The event neither gives the requester a newer lease of the path nor gives
it back. -/
def Leaves (path requester : String) (locks : LockRegistry) (e : LockEvent) : Prop :=
  (∀ expiresAt, ¬ Installs locks path requester expiresAt e) ∧ e.op ≠ .release path requester

-- ---------------------------------------------------------------------------
-- One step
-- ---------------------------------------------------------------------------

section
variable {locks : LockRegistry} {path requester : String} {expiresAt now : Nat}

theorem acquire_granted (h : ∀ held, locks path = some held → held.expiresAt > now →
      held.holder = requester) (ttlMs : Nat) :
    locks.acquire now path requester ttlMs = (.ok ((now + ttlMs) % 2 ^ 64), Function.update locks path
      (some { holder := requester, expiresAt := (now + ttlMs) % 2 ^ 64 })) := by
  cases hl : locks path with
  | none => exact acquire_free hl now requester ttlMs
  | some held =>
    simp only [acquire, hl]
    exact if_neg fun hheld => hheld.2 (h held hl hheld.1)

theorem acquire_ok (h : (locks.acquire now path requester ttlMs).1 = .ok expiresAt) :
    (locks.acquire now path requester ttlMs).2 path = some { holder := requester, expiresAt } := by
  rcases acquire_cases locks now path requester ttlMs with ⟨_, _, hok⟩ | ⟨held, -, -, -, hdenied⟩
  · have hfree : ∀ held, locks path = some held → held.expiresAt > now → held.holder = requester := by
      intro held hl hexp
      by_contra hne
      simp only [acquire, hl, if_pos (And.intro hexp hne)] at hok
      cases hok
    rw [acquire_granted hfree] at h ⊢
    simp only [Function.update_self, Except.ok.inj h]
  · rw [hdenied] at h
    cases h

theorem renew_ok (h : (locks.renew now path requester ttlMs).1 = true) :
    (locks.renew now path requester ttlMs).2 path =
      some { holder := requester, expiresAt := (now + ttlMs) % 2 ^ 64 } := by
  cases hl : locks path with
  | none =>
    simp only [renew, hl] at h
    cases h
  | some held =>
    by_cases hheld : held.holder = requester
    · simp only [renew, hl, hheld, if_true, Function.update_self]
    · simp only [renew, hl, if_neg hheld] at h
      cases h

theorem Installs.entry (h : Installs locks path requester expiresAt e) :
    locks.step e path = some { holder := requester, expiresAt } := by
  cases h with
  | acquire hok => exact acquire_ok hok
  | renew hok heq =>
    rw [heq]
    exact renew_ok hok

theorem acquire_denied (hl : locks path = some { holder, expiresAt }) (hlease : now < expiresAt)
    (hne : other ≠ holder) (ttlMs : Nat) :
    locks.acquire now path other ttlMs = (.error holder, locks) := by
  simp only [acquire, hl]
  exact if_pos ⟨hlease, Ne.symm hne⟩

theorem renew_denied (hl : locks path = some { holder, expiresAt }) (hne : other ≠ holder)
    (now ttlMs : Nat) : locks.renew now path other ttlMs = (false, locks) := by
  simp only [renew, hl, if_neg (Ne.symm hne)]

theorem release_denied (hl : locks path = some { holder, expiresAt }) (hne : other ≠ holder) :
    locks.release path other = (false, locks) := by
  simp only [release, hl, if_neg (Ne.symm hne)]

theorem cleanup_leased (hl : locks path = some { holder, expiresAt }) (hlease : now < expiresAt) :
    locks.cleanup now path = locks path := by
  rw [cleanup, hl, Option.filter_some, if_pos (by simpa using hlease)]

theorem acquire_other (h : q ≠ path) (now : Nat) (requester : String) (ttlMs : Nat) :
    (locks.acquire now path requester ttlMs).2 q = locks q := by
  unfold acquire
  split
  · split
    · rfl
    · exact Function.update_of_ne h ..
  · exact Function.update_of_ne h ..

theorem renew_other (h : q ≠ path) (now : Nat) (requester : String) (ttlMs : Nat) :
    (locks.renew now path requester ttlMs).2 q = locks q := by
  unfold renew
  split
  · split
    · exact Function.update_of_ne h ..
    · rfl
  · rfl

theorem release_other (h : q ≠ path) (requester : String) :
    (locks.release path requester).2 q = locks q := by
  unfold release
  split
  · split
    · exact Function.update_of_ne h ..
    · rfl
  · rfl

theorem step_leased (hl : locks path = some { holder := requester, expiresAt })
    (hlease : e.now < expiresAt) (hread : ∀ readAt, e.op = .cleanup readAt → readAt ≤ e.now)
    (hleaves : Leaves path requester locks e) : locks.step e path = locks path := by
  obtain ⟨now, op⟩ := e
  obtain ⟨hinstalls, hrelease⟩ := hleaves
  cases op with
  | acquire q other ttlMs =>
    by_cases hq : path = q
    · subst hq
      by_cases hother : other = requester
      · subst hother
        -- The holder asks again, which is granted.
        have hmine : ∀ held, locks path = some held → held.expiresAt > now → held.holder = other := by
          intro held hheld _
          rw [hl] at hheld
          cases hheld
          rfl
        exact absurd (.acquire (by rw [acquire_granted hmine])) (hinstalls _)
      · simp only [step, acquire_denied hl hlease hother]
    · exact acquire_other hq ..
  | renew q other ttlMs =>
    by_cases hq : path = q
    · subst hq
      by_cases hother : other = requester
      · subst hother
        have hok : (locks.renew now path other ttlMs).1 = true := by
          simp only [renew, hl, if_true]
        exact absurd (.renew hok rfl) (hinstalls _)
      · simp only [step, renew_denied hl hother]
    · exact renew_other hq ..
  | release q other =>
    by_cases hq : path = q
    · subst hq
      by_cases hother : other = requester
      · subst hother
        exact absurd rfl hrelease
      · simp only [step, release_denied hl hother]
    · exact release_other hq ..
  | cleanup readAt => exact cleanup_leased hl (Nat.lt_of_le_of_lt (hread readAt rfl) hlease)

end

-- ---------------------------------------------------------------------------
-- Whole runs
-- ---------------------------------------------------------------------------

theorem run_leased {locks : LockRegistry} (hl : locks path = some { holder := requester, expiresAt })
    (htime : ∀ e ∈ events, e.now < expiresAt)
    (hread : ∀ e ∈ events, ∀ readAt, e.op = .cleanup readAt → readAt ≤ e.now)
    (hleaves : AllSteps step (Leaves path requester) locks events) :
    run step locks events path = some { holder := requester, expiresAt } := by
  induction events generalizing locks with
  | nil => exact hl
  | cons e events ih =>
    have hstep := step_leased hl (htime e (List.mem_cons_self ..)) (hread e (List.mem_cons_self ..))
      hleaves.1
    exact ih (hstep.trans hl) (fun d hd => htime d (List.mem_cons_of_mem e hd))
      (fun d hd => hread d (List.mem_cons_of_mem e hd)) hleaves.2

/-- Requester `r` got its last lease of `p` with `first` and has not released it.
As long as it has not expired nobody else gets, renews or releases `p`, and its
entry stays. -/
theorem lease_exclusive {locks : LockRegistry} {before between : List LockEvent} {first : LockEvent}
    (hclock : Clocked (before ++ first :: between))
    (hlater : ∀ e ∈ before ++ first :: between, e.now ≤ now)
    (hfirst : Installs (run step locks before) p r expiresAt first)
    (hbetween : AllSteps step (Leaves p r) (run step locks (before ++ [first])) between)
    (hlease : now < expiresAt) :
    let held := run step locks (before ++ first :: between)
    (∀ other ≠ r, ∀ ttlMs, (held.acquire now p other ttlMs).1 = .error r ∧
      (held.acquire now p other ttlMs).2 p = held p) ∧
    (∀ other ≠ r, ∀ ttlMs, (held.renew now p other ttlMs).1 = false ∧
      (held.renew now p other ttlMs).2 p = held p) ∧
    (∀ other ≠ r, (held.release p other).1 = false ∧ (held.release p other).2 p = held p) ∧
    (∀ readAt ≤ now, held.cleanup readAt p = held p) ∧
    held p = some { holder := r, expiresAt } := by
  intro held
  have hsplit : held = run step (run step locks (before ++ [first])) between := by
    rw [← run_append, List.append_assoc]
    rfl
  have hentry : held p = some { holder := r, expiresAt } := by
    rw [hsplit]
    refine run_leased ?_ (fun e he => ?_) (fun e he => ?_) hbetween
    · rw [run_append]
      exact hfirst.entry
    · have hle := hlater e (List.mem_append_right _ (List.mem_cons_of_mem _ he))
      exact Nat.lt_of_le_of_lt hle hlease
    · exact hclock.2 e (List.mem_append_right _ (List.mem_cons_of_mem _ he))
  refine ⟨fun other hne ttlMs => ?_, fun other hne ttlMs => ?_, fun other hne => ?_,
    fun readAt hread => ?_, hentry⟩
  · rw [acquire_denied hentry hlease hne]
    exact ⟨rfl, rfl⟩
  · rw [renew_denied hentry hne]
    exact ⟨rfl, rfl⟩
  · rw [release_denied hentry hne]
    exact ⟨rfl, rfl⟩
  · exact cleanup_leased hentry (Nat.lt_of_le_of_lt hread hlease)

/-- `maka` renews its lease of `a`; a denied request and a cleanup follow. -/
theorem lease_exclusive_renewed :
    let held := run step (fun _ => none)
      ([⟨100, .acquire "a" "maka" 50⟩] ++ ⟨140, .renew "a" "maka" 50⟩ ::
        [⟨150, .acquire "a" "hermes" 10⟩, ⟨170, .cleanup 165⟩])
    (∀ other ≠ "maka", ∀ ttlMs, (held.acquire 180 "a" other ttlMs).1 = .error "maka" ∧
      (held.acquire 180 "a" other ttlMs).2 "a" = held "a") ∧
    (∀ other ≠ "maka", ∀ ttlMs, (held.renew 180 "a" other ttlMs).1 = false ∧
      (held.renew 180 "a" other ttlMs).2 "a" = held "a") ∧
    (∀ other ≠ "maka", (held.release "a" other).1 = false ∧
      (held.release "a" other).2 "a" = held "a") ∧
    (∀ readAt ≤ 180, held.cleanup readAt "a" = held "a") ∧
    held "a" = some { holder := "maka", expiresAt := 190 } := by
  have hother : ∀ (locks : LockRegistry) expiresAt,
      ¬ Installs locks "a" "maka" expiresAt ⟨150, .acquire "a" "hermes" 10⟩ := by
    intro locks expiresAt h
    generalize hop : (LockOp.acquire "a" "hermes" 10) = op at h
    cases h with
    | acquire hok => exact absurd (LockOp.acquire.inj hop).2.1 (by decide)
    | renew hok heq => cases hop
  have hcleanup : ∀ (locks : LockRegistry) expiresAt,
      ¬ Installs locks "a" "maka" expiresAt ⟨170, .cleanup 165⟩ := by
    rintro locks expiresAt ⟨⟩
  exact lease_exclusive ⟨by decide, by simp⟩ (by decide) (.renew (by decide) rfl)
    ⟨⟨hother _, by decide⟩, ⟨hcleanup _, by decide⟩, trivial⟩ (by decide)

end LockRegistry

end Nsmt.Server
