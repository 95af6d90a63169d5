import Mathlib.Algebra.Group.Nat.Defs
import Mathlib.Logic.Function.Basic

/-!
# Lease locks

`LockRegistry`: a path is held by one requester until its expiry. Times are
`u64` milliseconds, so an expiry wraps at `2 ^ 64`.
-/

namespace Nsmt.Server

structure LockEntry where
  holder : String
  expiresAt : Nat
  deriving DecidableEq, Repr

abbrev LockRegistry := String → Option LockEntry

namespace LockRegistry

def acquire (locks : LockRegistry) (now : Nat) (path requester : String) (ttlMs : Nat) :
    Except String Nat × LockRegistry :=
  let expiresAt := (now + ttlMs) % 2 ^ 64
  let granted := (.ok expiresAt, Function.update locks path (some { holder := requester, expiresAt }))
  match locks path with
  | some e => if e.expiresAt > now ∧ e.holder ≠ requester then (.error e.holder, locks) else granted
  | none => granted

def renew (locks : LockRegistry) (now : Nat) (path requester : String) (ttlMs : Nat) :
    Bool × LockRegistry :=
  match locks path with
  | some e =>
    if e.holder = requester then
      (true, Function.update locks path (some { e with expiresAt := (now + ttlMs) % 2 ^ 64 }))
    else (false, locks)
  | none => (false, locks)

def release (locks : LockRegistry) (path requester : String) : Bool × LockRegistry :=
  match locks path with
  | some e => if e.holder = requester then (true, Function.update locks path none) else (false, locks)
  | none => (false, locks)

/-- One pass of `cleanup_loop`. -/
def cleanup (locks : LockRegistry) (now : Nat) : LockRegistry := fun path =>
  (locks path).filter fun e => e.expiresAt > now

theorem acquire_free {locks : LockRegistry} (h : locks path = none) (now : Nat) (requester : String)
    (ttlMs : Nat) : acquire locks now path requester ttlMs =
      (.ok ((now + ttlMs) % 2 ^ 64),
        Function.update locks path (some { holder := requester, expiresAt := (now + ttlMs) % 2 ^ 64 })) := by
  simp only [acquire, h]

/-- A lock is refused only while somebody else holds it. -/
theorem acquire_cases (locks : LockRegistry) (now : Nat) (path requester : String) (ttlMs : Nat) :
    (∃ expiresAt locks', acquire locks now path requester ttlMs = (.ok expiresAt, locks')) ∨
    ∃ held, locks path = some held ∧ held.expiresAt > now ∧ held.holder ≠ requester ∧
      acquire locks now path requester ttlMs = (.error held.holder, locks) := by
  unfold acquire
  cases hl : locks path with
  | none => exact .inl ⟨_, _, rfl⟩
  | some held =>
    by_cases hheld : held.expiresAt > now ∧ held.holder ≠ requester
    · exact .inr ⟨held, rfl, hheld.1, hheld.2, if_pos hheld⟩
    · exact .inl ⟨_, _, if_neg hheld⟩

/-- Whoever else does not hold the path, its holder frees it. -/
theorem release_own {locks : LockRegistry} (h : ∀ e, locks path = some e → e.holder = requester) :
    (release locks path requester).2 path = none := by
  unfold release
  split
  · rename_i e he
    rw [if_pos (h e he)]
    exact Function.update_self path none locks
  · assumption

end LockRegistry

end Nsmt.Server
