import Mathlib.Data.List.Chain

/-!
# The supervisor

The loop of `ygg-admin` that starts `ygg` and starts it again when it exits. The
wait in front of a restart is meant to grow. `backoff_grows_iff` says in which runs
it does.
-/

namespace Nsmt.Admin

structure YggProcess where
  pid : Option Nat
  restarts : Nat
  backoffMs : Nat
  deriving DecidableEq, Repr

def YggProcess.initial : YggProcess where
  pid := none
  restarts := 0
  backoffMs := 0

/-- One round of the loop: `ygg` cannot be started, or it is, and exits at some time
with a code, or without one. -/
inductive Round
  | spawnFailed
  | exited (pid : Nat) (code : Option Int)
  deriving DecidableEq, Repr

def spawnYgg (p : YggProcess) (pid : Nat) : YggProcess := { p with pid := some pid, backoffMs := 0 }

/-- What the loop does when the child has exited. -/
def onExit (p : YggProcess) (code : Option Int) : YggProcess :=
  { p with
    pid := none
    restarts := p.restarts + 1
    backoffMs := if code = some 3 then 0 else min (p.backoffMs * 2) 10000 }

/-- Milliseconds to wait. -/
def backoff (p : YggProcess) : Nat := max p.backoffMs 500

/-- A round, and how long it sleeps at its end. -/
def round (p : YggProcess) : Round → YggProcess × Nat
  | .spawnFailed => if p.pid = none then (p, 2000) else (p, 0)
  | .exited pid code =>
    let p := if p.pid = none then spawnYgg p pid else p
    let p := onExit p code
    (p, backoff p)

/-- The exits of a run, each with its code and the wait behind it. -/
def waits : YggProcess → List Round → List (Option Int × Nat)
  | _, [] => []
  | p, .spawnFailed :: rounds => waits (round p .spawnFailed).1 rounds
  | p, .exited pid code :: rounds =>
    (code, (round p (.exited pid code)).2) :: waits (round p (.exited pid code)).1 rounds

abbrev crashed (code : Option Int) : Prop := code ≠ some 3

/-- After crashes in a row the waits grow up to ten seconds; the wait after a requested
restart is the least. -/
structure Grows (exits : List (Option Int × Nat)) : Prop where
  grows : exits.IsChain fun a b => crashed a.1 → crashed b.1 → a.2 ≤ b.2 ∧ (a.2 < 10000 → a.2 < b.2)
  capped : ∀ e ∈ exits, crashed e.1 → e.2 ≤ 10000
  reset : ∀ e ∈ exits, e.1 = some 3 → e.2 = 500

/-- The codes with which `ygg` exits. -/
def codes (rounds : List Round) : List (Option Int) :=
  rounds.filterMap fun
    | .spawnFailed => none
    | .exited _ code => some code

/-- A start sets the wait to nothing, and twice nothing is nothing. -/
theorem waits_eq {p : YggProcess} (h : p.pid = none) (rounds : List Round) :
    waits p rounds = (codes rounds).map fun code => (code, 500) := by
  induction rounds generalizing p with
  | nil => rfl
  | cons r rounds ih =>
    cases r with
    | spawnFailed =>
      have hround : (round p .spawnFailed).1 = p := by simp [round, h]
      rw [waits, hround, ih h]
      rfl
    | exited pid code =>
      have hwait : (round p (.exited pid code)).2 = 500 := by
        simp only [round, h, if_true, onExit, spawnYgg, backoff]
        split <;> rfl
      have hpid : (round p (.exited pid code)).1.pid = none := rfl
      rw [waits, hwait, ih hpid]
      rfl

/-- The waits grow in the runs in which `ygg` does not crash twice in a row. -/
theorem backoff_grows_iff (rounds : List Round) :
    Grows (waits .initial rounds) ↔ (codes rounds).IsChain fun a b => ¬ (crashed a ∧ crashed b) := by
  have hwaits : waits .initial rounds = (codes rounds).map fun code => (code, 500) := waits_eq rfl rounds
  rw [hwaits]
  constructor
  · intro h
    refine ((List.isChain_map _).mp h.grows).imp fun a b hgrows hboth => ?_
    have hless : 500 < 500 := (hgrows hboth.1 hboth.2).2 (by simp)
    exact absurd hless (Nat.lt_irrefl _)
  · intro h
    refine ⟨(List.isChain_map _).mpr (h.imp fun a b hnot ha hb => absurd ⟨ha, hb⟩ hnot), ?_, ?_⟩
    · intro e he _
      obtain ⟨code, -, rfl⟩ := List.mem_map.mp he
      exact (by decide : 500 ≤ 10000)
    · intro e he _
      obtain ⟨code, -, rfl⟩ := List.mem_map.mp he
      rfl

/-- After a second crash the wait is the same as after the first. -/
theorem second_wait_same : ¬ ∀ rounds, Grows (waits .initial rounds) := by
  intro h
  have hgrows := (h [.exited 1 (some 1), .exited 2 (some 1)]).grows
  rw [waits, waits, List.isChain_cons_cons] at hgrows
  exact absurd ((hgrows.1 (by decide) (by decide)).2 (by decide)) (by decide)

end Nsmt.Admin
