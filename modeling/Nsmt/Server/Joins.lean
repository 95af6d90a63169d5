import Nsmt.Lib.Runs
import Nsmt.Server.Registry
import Mathlib.Data.List.Induction

/-!
# Sessions that join at the same time

A session registers, subscribes and announces itself, each under a lock of its
own. The list of machines it reports is the one from the registration; what is
announced between the registration and the subscription reaches it neither way.
`none_missed_iff` says which interleavings are free of that.
-/

namespace Nsmt.Server

open Nsmt.Lib Nsmt.Core

/-- The steps a session has behind it. -/
inductive JoinPhase
  | connected | registered | subscribed | joined
  deriving DecidableEq, Repr

/-- The sessions of one tenant; the channel of a session has its name. -/
structure Joins (ι : Type) where
  tenant : Tenant ι
  phase : ι → JoinPhase
  snapshot : ι → List MachineInfo
  channel : ι → List ServerFrame

def joinFrame (info : MachineInfo) : ServerFrame := .onlineDelta { kind := .join, machine := info }

namespace Joins

variable {ι : Type} [DecidableEq ι] (info : ι → MachineInfo)

def start : Joins ι where
  tenant := .empty
  phase := fun _ => .connected
  snapshot := fun _ => []
  channel := fun _ => []

/-- The next step of a session. The snapshot that `subscribe` returns is dropped. -/
def step (s : Joins ι) (i : ι) : Joins ι :=
  match s.phase i with
  | .connected =>
    let (snapshot, tenant) := s.tenant.register (info i)
    { s with
      tenant
      phase := Function.update s.phase i .registered
      snapshot := Function.update s.snapshot i snapshot }
  | .registered =>
    { s with
      tenant := (s.tenant.subscribe i).2
      phase := Function.update s.phase i .subscribed }
  | .subscribed =>
    { s with
      phase := Function.update s.phase i .joined
      channel := s.tenant.broadcastExcept (joinFrame (info i)) i s.channel }
  | .joined => s

/-- The session has the machine in its snapshot or in its channel. -/
def Knows (s : Joins ι) (i : ι) (mid : String) : Prop :=
  (∃ m ∈ s.snapshot i, m.machineId = mid) ∨ ∃ m, joinFrame m ∈ s.channel i ∧ m.machineId = mid

def NoneMissed (s : Joins ι) : Prop :=
  ∀ i j, s.phase i = .joined → s.phase j = .joined → (info i).machineId ≠ (info j).machineId →
    s.Knows i (info j).machineId

-- ---------------------------------------------------------------------------
-- The order of the steps
-- ---------------------------------------------------------------------------

section
variable {schedule : List ι} {i j k : ι}

omit [DecidableEq ι] in
def RegistersBefore (schedule : List ι) (k i : ι) : Prop :=
  ∃ before after, schedule = before ++ after ∧ k ∈ before ∧ i ∉ before

/-- Session `k` announces itself when `i` has subscribed. -/
def AnnouncesAfter (schedule : List ι) (k i : ι) : Prop :=
  ∃ before after, schedule = before ++ k :: after ∧ before.count k = 2 ∧ 2 ≤ before.count i

/-- For any two sessions that join, one of the machine of the second registers
before the first does, or announces itself after the first has subscribed. -/
def InTime (schedule : List ι) : Prop :=
  ∀ i j, 3 ≤ schedule.count i → 3 ≤ schedule.count j → (info i).machineId ≠ (info j).machineId →
    ∃ k, (info k).machineId = (info j).machineId ∧
      (RegistersBefore schedule k i ∨ AnnouncesAfter schedule k i)

omit [DecidableEq ι] in
theorem registersBefore_append (h : i ∈ schedule) (rest : List ι) :
    RegistersBefore (schedule ++ rest) k i ↔ RegistersBefore schedule k i := by
  constructor
  · rintro ⟨before, after, hsplit, hk, hi⟩
    rcases List.append_eq_append_iff.mp hsplit with ⟨mid, rfl, -⟩ | ⟨mid, rfl, -⟩
    · exact absurd (List.mem_append_left mid h) hi
    · exact ⟨before, mid, rfl, hk, hi⟩
  · rintro ⟨before, after, rfl, hk, hi⟩
    exact ⟨before, after ++ rest, List.append_assoc .., hk, hi⟩

omit [DecidableEq ι] in
theorem registersBefore_first (h : i ∉ schedule) :
    RegistersBefore (schedule ++ [i]) k i ↔ k ∈ schedule := by
  constructor
  · rintro ⟨before, after, hsplit, hk, hi⟩
    have hmem : k ∈ schedule ++ [i] := hsplit ▸ List.mem_append_left after hk
    rcases List.mem_append.mp hmem with hk' | hk'
    · exact hk'
    · obtain rfl := List.mem_singleton.mp hk'
      exact absurd hk hi
  · exact fun hk => ⟨schedule, [i], rfl, hk, h⟩

theorem announcesAfter_append_singleton (e : ι) :
    AnnouncesAfter (schedule ++ [e]) k i ↔
      AnnouncesAfter schedule k i ∨ (k = e ∧ schedule.count k = 2 ∧ 2 ≤ schedule.count i) := by
  constructor
  · rintro ⟨before, after, hsplit, hk, hi⟩
    rcases after.eq_nil_or_concat with rfl | ⟨after, x, rfl⟩
    · obtain ⟨rfl, he⟩ := List.append_inj' hsplit rfl
      exact .inr ⟨(List.cons.inj he).1.symm, hk, hi⟩
    · rw [List.concat_eq_append, ← List.cons_append, ← List.append_assoc] at hsplit
      obtain ⟨rfl, -⟩ := List.append_inj' hsplit rfl
      exact .inl ⟨before, after, rfl, hk, hi⟩
  · rintro (⟨before, after, rfl, hk, hi⟩ | ⟨rfl, hk, hi⟩)
    · exact ⟨before, after ++ [e], by simp, hk, hi⟩
    · exact ⟨schedule, [], rfl, hk, hi⟩

end

-- ---------------------------------------------------------------------------
-- What a schedule leads to
-- ---------------------------------------------------------------------------

def phaseOf : Nat → JoinPhase
  | 0 => .connected
  | 1 => .registered
  | 2 => .subscribed
  | _ => .joined

theorem phaseOf_eq_joined : phaseOf n = .joined ↔ 3 ≤ n := by
  rcases n with _ | _ | _ | n
  all_goals simp [phaseOf]

/-- The state after a schedule, read off the schedule. -/
structure Describes (schedule : List ι) (s : Joins ι) : Prop where
  phase : ∀ i, s.phase i = phaseOf (schedule.count i)
  keyed : s.tenant.Keyed
  machines : ∀ mid, mid ∈ s.tenant.machines ↔ ∃ k ∈ schedule, (info k).machineId = mid
  subscribers : ∀ i, i ∈ s.tenant.subscribers ↔ 2 ≤ schedule.count i
  snapshot : ∀ i ∈ schedule, ∀ mid, (∃ m ∈ s.snapshot i, m.machineId = mid) ↔
    (info i).machineId = mid ∨ ∃ k, (info k).machineId = mid ∧ RegistersBefore schedule k i
  channel : ∀ i mid, (∃ m, joinFrame m ∈ s.channel i ∧ m.machineId = mid) ↔
    ∃ k, k ≠ i ∧ (info k).machineId = mid ∧ AnnouncesAfter schedule k i

theorem describes_nil : Describes info [] start where
  phase _ := rfl
  keyed := Tenant.keyed_empty
  machines mid := by simp [start, Tenant.empty]
  subscribers i := by simp [start, Tenant.empty]
  snapshot i h := by cases h
  channel i mid := by simp [start, AnnouncesAfter]

section
variable {info} {schedule : List ι} {s : Joins ι} {e i k : ι}

theorem count_append_self : (schedule ++ [e]).count e = schedule.count e + 1 := by
  simp [List.count_append]

theorem count_append_ne (h : i ≠ e) : (schedule ++ [e]).count i = schedule.count i := by
  simp [List.count_append, Ne.symm h]

theorem two_le_count_append (h : schedule.count e ≠ 1) :
    2 ≤ (schedule ++ [e]).count i ↔ 2 ≤ schedule.count i := by
  by_cases hi : i = e
  · subst hi
    rw [count_append_self]
    omega
  · rw [count_append_ne hi]

theorem announcesAfter_append (h : schedule.count e ≠ 2) :
    AnnouncesAfter (schedule ++ [e]) k i ↔ AnnouncesAfter schedule k i := by
  rw [announcesAfter_append_singleton]
  refine ⟨fun hk => hk.resolve_right ?_, .inl⟩
  rintro ⟨rfl, hcount, -⟩
  exact h hcount

theorem Describes.machines_append (h : Describes info schedule s) (he : e ∈ schedule) (mid : String) :
    mid ∈ s.tenant.machines ↔ ∃ k ∈ schedule ++ [e], (info k).machineId = mid := by
  rw [h.machines]
  constructor
  · rintro ⟨k, hk, hmid⟩
    exact ⟨k, List.mem_append_left _ hk, hmid⟩
  · rintro ⟨k, hk, hmid⟩
    rcases List.mem_append.mp hk with hk | hk
    · exact ⟨k, hk, hmid⟩
    · exact ⟨k, List.mem_singleton.mp hk ▸ he, hmid⟩

theorem Describes.snapshot_append (h : Describes info schedule s) (hi : i ∈ schedule) (e : ι)
    (mid : String) : (∃ m ∈ s.snapshot i, m.machineId = mid) ↔ (info i).machineId = mid ∨
      ∃ k, (info k).machineId = mid ∧ RegistersBefore (schedule ++ [e]) k i := by
  rw [h.snapshot i hi]
  simp only [registersBefore_append hi]

theorem Describes.phase_step (h : Describes info schedule s) (e i : ι) :
    (s.step info e).phase i = phaseOf ((schedule ++ [e]).count i) := by
  by_cases hi : i = e
  · subst hi
    have hphase := h.phase i
    rw [count_append_self]
    rcases hcount : schedule.count i with _ | _ | _ | n
    all_goals
      rw [hcount] at hphase
      simp [step, hphase, phaseOf]
  · rw [count_append_ne hi, ← h.phase i, step]
    split <;> simp [hi]

theorem Describes.register (h : Describes info schedule s) (he : schedule.count e = 0) :
    Describes info (schedule ++ [e]) (s.step info e) := by
  have hphase : s.phase e = .connected := by rw [h.phase, he, phaseOf]
  have hnew : e ∉ schedule := List.count_eq_zero.mp he
  have hkeyed : (s.tenant.register (info e)).2.Keyed := h.keyed.insert rfl
  have hmachines (mid : String) : mid ∈ (s.tenant.register (info e)).2.machines ↔
      ∃ k ∈ schedule ++ [e], (info k).machineId = mid := by
    simp only [Tenant.register, AList.mem_insert, h.machines, List.mem_append, List.mem_singleton]
    constructor
    · rintro (rfl | ⟨k, hk, hmid⟩)
      · exact ⟨e, .inr rfl, rfl⟩
      · exact ⟨k, .inl hk, hmid⟩
    · rintro ⟨k, hk | rfl, hmid⟩
      · exact .inr ⟨k, hk, hmid⟩
      · exact .inl hmid.symm
  have hphases := h.phase_step e
  simp only [step, hphase] at hphases ⊢
  refine ⟨hphases, hkeyed, hmachines, fun i => ?_, fun i hi mid => ?_, fun i mid => ?_⟩
  · rw [two_le_count_append (by omega)]
    exact h.subscribers i
  · by_cases hie : i = e
    · subst hie
      simp only [Function.update_self]
      refine (Tenant.exists_mem_values hkeyed).trans ((hmachines mid).trans ?_)
      simp only [registersBefore_first hnew, List.mem_append, List.mem_singleton]
      constructor
      · rintro ⟨k, hk | rfl, hmid⟩
        · exact .inr ⟨k, hmid, hk⟩
        · exact .inl hmid
      · rintro (hmid | ⟨k, hmid, hk⟩)
        · exact ⟨i, .inr rfl, hmid⟩
        · exact ⟨k, .inl hk, hmid⟩
    · simp only [Function.update_of_ne hie]
      refine h.snapshot_append ((List.mem_append.mp hi).resolve_right fun hmem => ?_) e mid
      exact hie (List.mem_singleton.mp hmem)
  · simp only [announcesAfter_append (show schedule.count e ≠ 2 by omega)]
    exact h.channel i mid

/-- A session that has registered, when it takes its next step. -/
theorem Describes.mem_of_append (he : schedule.count e ≠ 0) (hi : i ∈ schedule ++ [e]) : i ∈ schedule := by
  rcases List.mem_append.mp hi with hi | hi
  · exact hi
  · rw [List.mem_singleton.mp hi]
    exact List.count_pos_iff.mp (Nat.pos_of_ne_zero he)

theorem Describes.subscribe (h : Describes info schedule s) (he : schedule.count e = 1) :
    Describes info (schedule ++ [e]) (s.step info e) := by
  have hphase : s.phase e = .registered := by rw [h.phase, he, phaseOf]
  have hmem : e ∈ schedule := List.count_pos_iff.mp (by omega)
  have hphases := h.phase_step e
  simp only [step, hphase] at hphases ⊢
  refine ⟨hphases, h.keyed, h.machines_append hmem, fun i => ?_, fun i hi mid => ?_, fun i mid => ?_⟩
  · simp only [Tenant.subscribe, List.mem_append, List.mem_singleton, h.subscribers]
    by_cases hi : i = e
    · subst hi
      rw [count_append_self, he]
      simp
    · rw [count_append_ne hi]
      simp [hi]
  · exact h.snapshot_append (mem_of_append (by omega) hi) e mid
  · simp only [announcesAfter_append (show schedule.count e ≠ 2 by omega)]
    exact h.channel i mid

theorem Describes.announce (h : Describes info schedule s) (he : schedule.count e = 2) :
    Describes info (schedule ++ [e]) (s.step info e) := by
  have hphase : s.phase e = .subscribed := by rw [h.phase, he, phaseOf]
  have hmem : e ∈ schedule := List.count_pos_iff.mp (by omega)
  have hphases := h.phase_step e
  simp only [step, hphase] at hphases ⊢
  refine ⟨hphases, h.keyed, h.machines_append hmem, fun i => ?_, fun i hi mid => ?_, fun i mid => ?_⟩
  · rw [two_le_count_append (by omega)]
    exact h.subscribers i
  · exact h.snapshot_append (mem_of_append (by omega) hi) e mid
  · simp only [Tenant.broadcastExcept, mem_deliver, announcesAfter_append_singleton, List.mem_filter,
      decide_eq_true_eq, h.subscribers]
    have hold := h.channel i mid
    constructor
    · rintro ⟨m, hm | ⟨⟨hi, hne⟩, hm⟩, hmid⟩
      · obtain ⟨k, hki, hk, hafter⟩ := hold.mp ⟨m, hm, hmid⟩
        exact ⟨k, hki, hk, .inl hafter⟩
      · obtain rfl : m = info e := by simpa [joinFrame] using hm
        exact ⟨e, Ne.symm hne, hmid, .inr ⟨rfl, he, hi⟩⟩
    · rintro ⟨k, hki, hk, hafter | ⟨rfl, -, hi⟩⟩
      · obtain ⟨m, hm, hmid⟩ := hold.mpr ⟨k, hki, hk, hafter⟩
        exact ⟨m, .inl hm, hmid⟩
      · exact ⟨info k, .inr ⟨⟨hi, Ne.symm hki⟩, rfl⟩, hk⟩

theorem Describes.step (h : Describes info schedule s) (e : ι) :
    Describes info (schedule ++ [e]) (s.step info e) := by
  rcases hcount : schedule.count e with _ | _ | _ | n
  · exact h.register hcount
  · exact h.subscribe hcount
  · exact h.announce hcount
  · have hphase : s.phase e = .joined := by
      rw [h.phase, phaseOf_eq_joined]
      omega
    have hmem : e ∈ schedule := List.count_pos_iff.mp (by omega)
    have hphases := h.phase_step e
    simp only [Joins.step, hphase] at hphases ⊢
    refine ⟨hphases, h.keyed, h.machines_append hmem, fun i => ?_, fun i hi mid => ?_, fun i mid => ?_⟩
    · rw [two_le_count_append (by omega)]
      exact h.subscribers i
    · exact h.snapshot_append (mem_of_append (by omega) hi) e mid
    · simp only [announcesAfter_append (show schedule.count e ≠ 2 by omega)]
      exact h.channel i mid

end

theorem describes_run (schedule : List ι) : Describes info schedule (run (step info) start schedule) := by
  induction schedule using List.reverseRecOn with
  | nil => exact describes_nil info
  | append_singleton schedule e ih =>
    rw [run_append]
    exact ih.step e

/-- No machine is missed exactly when the schedule is in time. -/
theorem none_missed_iff (schedule : List ι) :
    NoneMissed info (run (step info) start schedule) ↔ InTime info schedule := by
  have h := describes_run info schedule
  refine forall₂_congr fun i j => ?_
  rw [h.phase, h.phase, phaseOf_eq_joined, phaseOf_eq_joined]
  refine forall₃_congr fun hi _ hne => ?_
  have hmem : i ∈ schedule := List.count_pos_iff.mp (by omega)
  rw [Knows, h.snapshot i hmem, h.channel]
  constructor
  · rintro ((hmid | ⟨k, hk, hbefore⟩) | ⟨k, -, hk, hafter⟩)
    · exact absurd hmid hne
    · exact ⟨k, hk, .inl hbefore⟩
    · exact ⟨k, hk, .inr hafter⟩
  · rintro ⟨k, hk, hbefore | hafter⟩
    · exact .inl (.inr ⟨k, hk, hbefore⟩)
    · refine .inr ⟨k, ?_, hk, hafter⟩
      rintro rfl
      exact hne hk

/-- One session joins between the registration and the subscription of another. -/
theorem joined_in_between_missed : ¬ ∀ (info : Bool → MachineInfo) (schedule : List Bool),
    NoneMissed info (run (step info) start schedule) := by
  intro h
  have hknown := h (fun i => machineInfo ⟨if i then "m1" else "m2", "maka", "", "", ""⟩ "127.0.0.1:9" 0)
    [true, false, false, false, true, true] true false (by decide) (by decide) (by decide)
  rcases hknown with ⟨m, hm, hmid⟩ | ⟨m, hm, -⟩
  · obtain rfl := List.mem_singleton.mp hm
    exact absurd hmid (by decide)
  · cases hm

end Joins

end Nsmt.Server
