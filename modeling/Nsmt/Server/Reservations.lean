import Nsmt.Lib.Runs
import Nsmt.Server.State

/-!
# Reservations of quota

The calls of `try_reserve_quota` in the order in which they take the lock on the
counters, beside the sizes accepted so far. The sum they are checked against is a
`u64`: `reservations_exact_iff` says which runs of calls it is right for.
-/

namespace Nsmt.Server

open Nsmt.Lib

/-- A call whose `quota_for` has returned `limit`. -/
structure Reservation where
  domain : String
  size : Nat
  limit : Nat
  size_lt : size < 2 ^ 64
  limit_lt : limit < 2 ^ 64

/-- The server and the calls that were accepted. -/
structure Account where
  server : ServerState
  accepted : List Reservation

namespace Account

def empty : Account := { server := .empty, accepted := [] }

/-- What was accepted for the tenant, as a number. -/
def total (a : Account) (domain : String) : Nat :=
  ((a.accepted.filter fun r => r.domain = domain).map Reservation.size).sum

def reserve (cfg : Config) (a : Account) (r : Reservation) : Bool × ServerState :=
  a.server.tryReserveQuota { cfg with quotaFor := fun _ => r.limit } r.domain r.size

def step (cfg : Config) (a : Account) (r : Reservation) : Account :=
  let (ok, server) := a.reserve cfg r
  { server, accepted := if ok then r :: a.accepted else a.accepted }

/-- The call is accepted if and only if the sum stays within the limit, and the
counters are the sums behind it. -/
def Exact (cfg : Config) (a : Account) (r : Reservation) : Prop :=
  ((a.reserve cfg r).1 = true ↔ a.total r.domain + r.size ≤ r.limit) ∧
    ∀ domain, (a.step cfg r).server.usageBytes domain = (a.step cfg r).total domain

/-- The sum is a `u64`, or what is left of it is above the limit, too. -/
def Representable (a : Account) (r : Reservation) : Prop :=
  a.total r.domain + r.size < 2 ^ 64 ∨ r.limit < (a.total r.domain + r.size) % 2 ^ 64

def Counted (a : Account) : Prop := ∀ domain, a.server.usageBytes domain = a.total domain

theorem total_accepted (a : Account) (r : Reservation) (server : ServerState) (domain : String) :
    total { server, accepted := r :: a.accepted } domain =
      if r.domain = domain then r.size + a.total domain else a.total domain := by
  by_cases h : r.domain = domain
  · simp [total, h]
  · simp [total, h]

variable {cfg : Config} {a : Account} {r : Reservation}

theorem reserve_rejected (cfg : Config) (h : a.Counted) (hr : r.limit < (a.total r.domain + r.size) % 2 ^ 64) :
    (a.reserve cfg r).1 = false ∧ a.step cfg r = a := by
  have hreserve : a.reserve cfg r = (false, a.server) := by
    simp only [reserve, ServerState.tryReserveQuota, h r.domain, if_pos hr]
  simp [step, hreserve]

theorem reserve_accepted (cfg : Config) (h : a.Counted) (hr : (a.total r.domain + r.size) % 2 ^ 64 ≤ r.limit) :
    (a.reserve cfg r).1 = true ∧
      (∀ domain, (a.step cfg r).total domain =
        if r.domain = domain then r.size + a.total domain else a.total domain) ∧
      (a.step cfg r).server.usageBytes = Function.update a.server.usageBytes r.domain
        ((a.total r.domain + r.size) % 2 ^ 64) := by
  have hreserve : a.reserve cfg r = (true, { a.server with
      usageBytes := Function.update a.server.usageBytes r.domain
        ((a.total r.domain + r.size) % 2 ^ 64) }) := by
    simp only [reserve, ServerState.tryReserveQuota, h r.domain, if_neg (Nat.not_lt.mpr hr)]
  simp only [step, hreserve, if_true, total_accepted, implies_true, and_self]

theorem Counted.accepted (cfg : Config) (h : a.Counted) (hr : a.total r.domain + r.size ≤ r.limit) :
    (a.reserve cfg r).1 = true ∧ (a.step cfg r).Counted := by
  have hmod : (a.total r.domain + r.size) % 2 ^ 64 = a.total r.domain + r.size :=
    Nat.mod_eq_of_lt (hr.trans_lt r.limit_lt)
  obtain ⟨hok, htotal, husage⟩ := reserve_accepted cfg h (hmod.trans_le hr)
  refine ⟨hok, fun domain => ?_⟩
  rw [htotal, husage, hmod]
  by_cases hd : r.domain = domain
  · subst hd
    rw [Function.update_self, if_pos rfl, Nat.add_comm]
  · rw [Function.update_of_ne (Ne.symm hd), if_neg hd, h domain]

/-- What one call does to exact counters. -/
theorem Counted.exact_iff (h : a.Counted) : a.Exact cfg r ↔ a.Representable r := by
  by_cases hlimit : a.total r.domain + r.size ≤ r.limit
  · obtain ⟨hok, hcounted⟩ := h.accepted cfg hlimit
    have hlt := hlimit.trans_lt r.limit_lt
    exact iff_of_true ⟨iff_of_true hok hlimit, hcounted⟩ (.inl hlt)
  · by_cases hr : r.limit < (a.total r.domain + r.size) % 2 ^ 64
    · obtain ⟨hno, hsame⟩ := reserve_rejected cfg h hr
      refine iff_of_true ⟨iff_of_false (by simp [hno]) hlimit, ?_⟩ (.inr hr)
      rw [hsame]
      exact h
    · obtain ⟨hok, -, -⟩ := reserve_accepted cfg h (Nat.le_of_not_lt hr)
      refine iff_of_false (fun hexact => hlimit (hexact.1.mp hok)) ?_
      rintro (hlt | hmod)
      · rw [Nat.mod_eq_of_lt hlt] at hr
        omega
      · exact hr hmod

theorem Counted.step (h : a.Counted) (hr : a.Representable r) : (a.step cfg r).Counted :=
  (h.exact_iff.mpr hr).2

/-- The calls of a run are all answered and counted exactly if and only if none
of them is accepted on a sum that has wrapped. -/
theorem reservations_exact_iff (cfg : Config) (calls : List Reservation) :
    AllSteps (Account.step cfg) (Account.Exact cfg) .empty calls ↔
      AllSteps (Account.step cfg) Account.Representable .empty calls :=
  AllSteps.iff_of_invariant Counted (fun _ _ h => h.exact_iff) (fun _ _ h hr => h.step hr)
    fun _ => rfl

/-- After 100 bytes, a declared size of `2^64 - 50` is accepted. -/
theorem reservation_wraps : ¬ ∀ calls,
    AllSteps (Account.step .default) (Account.Exact .default) .empty calls := by
  intro h
  have hrun := (h [⟨"acme", 100, 2 ^ 30, by decide, by decide⟩,
    ⟨"acme", 2 ^ 64 - 50, 2 ^ 30, by decide, by decide⟩]).2.1.1
  exact absurd (hrun.mp (by decide +kernel)) (by decide +kernel)

end Account

end Nsmt.Server
