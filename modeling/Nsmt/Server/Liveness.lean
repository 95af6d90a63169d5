import Nsmt.Server.Presence

/-!
# Signs of life

A machine is online as long as it has been heard of in the last thirty seconds.
The ready loop of a session refreshes the time on a HEARTBEAT of its client, and
every ten seconds on a timer of its own, whether or not the client has sent
anything. `from_clients_iff` says that the times are those of frames, and that a
pass of `prune_loop` removes what is silent, if and only if no timer ever writes.
-/

namespace Nsmt.Server

open Nsmt.Lib Nsmt.Core

/-- `heartbeat` is a frame of the client of session `i`, `tick` the timer of the
session. -/
inductive LivenessEvent (ι : Type)
  | register (i : ι) (now : Nat)
  | heartbeat (i : ι) (now : Nat)
  | tick (i : ι) (now : Nat)
  | endClean (i : ι)
  | endError (i : ι)
  | collect (now : Nat)
  | prune (now : Nat)

def LivenessEvent.presence {ι : Type} : LivenessEvent ι → PresenceEvent ι
  | .register i now => .start i now
  | .heartbeat i now | .tick i now => .heartbeat i now
  | .endClean i => .endClean i
  | .endError i => .endError i
  | .collect now => .collect now
  | .prune now => .prune now

/-- `frames` are the machines and the times of the REGISTER and HEARTBEAT frames
that have been received. -/
structure Liveness (ι : Type) where
  presence : Presence ι
  frames : List (String × Nat)

namespace Liveness

variable {ι : Type} [DecidableEq ι] (reg : ι → Register) (addr : ι → String)

def nobody : Liveness ι := { presence := .nobody, frames := [] }

def received (s : Liveness ι) : LivenessEvent ι → List (String × Nat)
  | .register i now => if s.presence.life i = .ahead then [((reg i).machineId, now)] else []
  | .heartbeat i now => if s.presence.life i = .live then [((reg i).machineId, now)] else []
  | _ => []

def step (s : Liveness ι) (e : LivenessEvent ι) : Liveness ι where
  presence := s.presence.step reg addr e.presence
  frames := s.frames ++ s.received reg e

/-- A machine of the registry was last seen when a frame of it came. -/
def HeardOf (s : Liveness ι) : Prop :=
  ∀ mid m, s.presence.tenant.machines.lookup mid = some m → (mid, m.lastSeen) ∈ s.frames

/-- No frame of the machine has come for more than `OFFLINE_AFTER`. -/
def Silent (s : Liveness ι) (mid : String) (now : Nat) : Prop :=
  ∀ t, (mid, t) ∈ s.frames → t < now - offlineAfter

/-- In every state the machines were last seen when a frame of them came. A pass of
`prune_loop` that begins with `collect` and ends with nothing left to prune has removed
a machine that was silent when it began and has not been heard of since. -/
structure FromClients (events : List (LivenessEvent ι)) : Prop where
  lastSeen : ∀ before after, events = before ++ after → HeardOf (run (step reg addr) nobody before)
  removed : ∀ before now during after mid, events = before ++ .collect now :: (during ++ after) →
    (run (step reg addr) nobody before).presence.stale = [] →
    (run (step reg addr) nobody (before ++ .collect now :: during)).presence.stale = [] →
    (∀ t, .prune t ∈ during → now ≤ t) →
    Silent (run (step reg addr) nobody before) mid now →
    (∀ t, (mid, t) ∉ (run (step reg addr) nobody (before ++ .collect now :: during)).frames.drop
      (run (step reg addr) nobody before).frames.length) →
    mid ∉ (run (step reg addr) nobody (before ++ .collect now :: during)).presence.tenant.machines

/-- The timer of a live session finds its machine in the registry only when a frame
of the machine comes at that time, too. -/
def TimerIdle (s : Liveness ι) : LivenessEvent ι → Prop
  | .tick i now => s.presence.life i = .live → (reg i).machineId ∈ s.presence.tenant.machines →
      ((reg i).machineId, now) ∈ s.frames
  | _ => True

end Liveness

namespace Tenant

variable {χ : Type} {t : Tenant χ} {mid machineId : String} {m : MachineInfo}

theorem lookup_register {info : MachineInfo} :
    (t.register info).2.machines.lookup mid =
      if mid = info.machineId then some info else t.machines.lookup mid := by
  unfold register
  split
  · rename_i h
    subst h
    exact AList.lookup_insert t.machines
  · rename_i h
    exact AList.lookup_insert_ne h

theorem lookup_heartbeat {now : Nat} : (t.heartbeat now machineId).machines.lookup mid =
    if mid = machineId then (t.machines.lookup mid).map fun m => { m with lastSeen := now }
    else t.machines.lookup mid := by
  unfold heartbeat
  split
  · rename_i m hm
    split
    · rename_i h
      subst h
      rw [hm, AList.lookup_insert, Option.map_some]
    · rename_i h
      exact AList.lookup_insert_ne h
  · rename_i hm
    split
    · rename_i h
      rw [h, hm, Option.map_none]
    · rfl

theorem lookup_prune {now : Nat} (h : (t.prune now machineId).machines.lookup mid = some m) :
    t.machines.lookup mid = some m ∧ (mid = machineId → isStale now m = false) := by
  unfold prune at h
  split at h
  · rename_i m' hm'
    split at h
    · by_cases hmid : mid = machineId
      · subst hmid
        rw [AList.lookup_erase] at h
        cases h
      · rw [AList.lookup_erase_ne hmid] at h
        exact ⟨h, fun heq => absurd heq hmid⟩
    · rename_i hfresh
      refine ⟨h, fun heq => ?_⟩
      subst heq
      cases hm'.symm.trans h
      simpa using hfresh
  · rename_i hnone
    refine ⟨h, fun heq => ?_⟩
    subst heq
    cases hnone.symm.trans h

theorem Keyed.heartbeat (h : t.Keyed) (now : Nat) (machineId : String) :
    (t.heartbeat now machineId).Keyed := by
  unfold Tenant.heartbeat
  split
  · rename_i m hm
    exact h.insert (h machineId m hm)
  · exact h

theorem Keyed.prune (h : t.Keyed) (now : Nat) (machineId : String) : (t.prune now machineId).Keyed :=
  fun mid m hm => h mid m (lookup_prune hm).1

end Tenant

-- ---------------------------------------------------------------------------
-- One step
-- ---------------------------------------------------------------------------

namespace Liveness

variable {ι : Type} [DecidableEq ι] {reg : ι → Register} {addr : ι → String} {s : Liveness ι}

theorem keyed_step (h : s.presence.tenant.Keyed) (e : LivenessEvent ι) :
    (s.step reg addr e).presence.tenant.Keyed := by
  cases e with
  | register i now =>
    simp only [step, LivenessEvent.presence, Presence.step_tenant, Presence.tenantAfter]
    split
    · exact h.insert rfl
    · exact h
  | heartbeat i now | tick i now =>
    simp only [step, LivenessEvent.presence, Presence.step_tenant, Presence.tenantAfter]
    split
    · exact h.heartbeat now _
    · exact h
  | prune now =>
    simp only [step, LivenessEvent.presence, Presence.step_tenant, Presence.tenantAfter]
    split
    · exact h
    · exact h.prune now _
  | endClean _ | endError _ | collect _ => exact h

omit [DecidableEq ι] in
/-- A time that is written is one of a frame. -/
theorem HeardOf.written (h : s.HeardOf) {now : Nat} {machineId : String} {frames : List (String × Nat)}
    (hsub : s.frames ⊆ frames)
    (hnow : machineId ∈ s.presence.tenant.machines → (machineId, now) ∈ frames) (mid : String)
    (m : MachineInfo)
    (hm : (s.presence.tenant.heartbeat now machineId).machines.lookup mid = some m) :
    (mid, m.lastSeen) ∈ frames := by
  rw [Tenant.lookup_heartbeat] at hm
  split at hm
  · rename_i heq
    subst heq
    obtain ⟨m', hm', rfl⟩ := Option.map_eq_some_iff.mp hm
    exact hnow (Tenant.mem_machines.mpr ⟨m', hm'⟩)
  · exact hsub (h mid m hm)

theorem heardOf_step (h : s.HeardOf) (e : LivenessEvent ι) :
    (s.step reg addr e).HeardOf ↔ s.TimerIdle reg e := by
  cases e with
  | register i now =>
    refine iff_of_true (fun mid m hm => ?_) trivial
    simp only [step, LivenessEvent.presence, Presence.step_tenant, Presence.tenantAfter, received] at hm ⊢
    split at hm
    · rename_i hlife
      rw [if_pos hlife]
      simp only [Tenant.subscribe, Tenant.lookup_register] at hm
      split at hm
      · rename_i hmid
        obtain rfl := Option.some.inj hm
        rw [hmid]
        exact List.mem_append_right _ (List.mem_singleton_self _)
      · exact List.mem_append_left _ (h mid m hm)
    · exact List.mem_append_left _ (h mid m hm)
  | heartbeat i now =>
    refine iff_of_true (fun mid m hm => ?_) trivial
    simp only [step, LivenessEvent.presence, Presence.step_tenant, Presence.tenantAfter, received] at hm ⊢
    split at hm
    · rename_i hlife
      rw [if_pos hlife]
      exact h.written (List.subset_append_left ..)
        (fun _ => List.mem_append_right _ (List.mem_singleton_self _)) mid m hm
    · exact List.mem_append_left _ (h mid m hm)
  | tick i now =>
    simp only [HeardOf, step, LivenessEvent.presence, Presence.step_tenant, Presence.tenantAfter, received,
      List.append_nil, TimerIdle]
    constructor
    · intro hnext hlife hmem
      rw [if_pos hlife] at hnext
      obtain ⟨m, hm⟩ := Tenant.mem_machines.mp hmem
      refine hnext (reg i).machineId { m with lastSeen := now } ?_
      rw [Tenant.lookup_heartbeat, if_pos rfl, hm, Option.map_some]
    · intro hidle mid m hm
      split at hm
      · rename_i hlife
        exact h.written (List.Subset.refl _) (hidle hlife) mid m hm
      · exact h mid m hm
  | prune now =>
    refine iff_of_true (fun mid m hm => ?_) trivial
    simp only [step, LivenessEvent.presence, Presence.step_tenant, Presence.tenantAfter, received,
      List.append_nil] at hm ⊢
    split at hm
    · exact h mid m hm
    · exact h mid m (Tenant.lookup_prune hm).1
  | endClean _ | endError _ | collect _ =>
    refine iff_of_true (fun mid m hm => ?_) trivial
    exact List.mem_append_left _ (h mid m hm)

-- ---------------------------------------------------------------------------
-- A pass of `prune_loop`
-- ---------------------------------------------------------------------------

/-- The machine is gone, or among those the pass has yet to prune. -/
def Pending (mid : String) (s : Liveness ι) : Prop :=
  mid ∈ s.presence.tenant.machines → ∃ info ∈ s.presence.stale, info.machineId = mid

/-- What holds of a step in a pass for a machine that is silent from `now` on. -/
structure Quiet (reg : ι → Register) (mid : String) (now : Nat) (s : Liveness ι) (e : LivenessEvent ι) :
    Prop where
  heardOf : s.HeardOf
  silent : s.Silent mid now
  received : ∀ t, (mid, t) ∉ s.received reg e
  clock : ∀ t, e = .prune t → now ≤ t

theorem Pending.collect (hkeyed : s.presence.tenant.Keyed) (hheard : s.HeardOf) {mid : String} {now : Nat}
    (hsilent : s.Silent mid now) (hstale : s.presence.stale = []) :
    Pending mid (s.step reg addr (.collect now)) := by
  intro hmem
  obtain ⟨m, hm⟩ := Tenant.mem_machines.mp hmem
  have hold : m.lastSeen < now - offlineAfter := hsilent _ (hheard mid m hm)
  refine ⟨m, ?_, hkeyed mid m hm⟩
  simp only [step, LivenessEvent.presence, Presence.step, Presence.staleAfter, if_pos hstale]
  exact List.mem_filter.mpr ⟨Tenant.mem_values.mpr ⟨mid, hm⟩, decide_eq_true hold⟩

theorem Pending.step {mid : String} {now : Nat} {e : LivenessEvent ι} (h : Pending mid s)
    (hquiet : Quiet reg mid now s e) : Pending mid (s.step reg addr e) := by
  intro hmem
  cases e with
  | register i t =>
    simp only [Liveness.step, LivenessEvent.presence, Presence.step, Presence.tenantAfter,
      Presence.staleAfter] at hmem ⊢
    split at hmem
    · rename_i hlife
      have hother : (reg i).machineId ≠ mid := by
        rintro rfl
        exact hquiet.received t (by simp [received, hlife])
      obtain ⟨m, hm⟩ := Tenant.mem_machines.mp hmem
      simp only [Tenant.subscribe, Tenant.lookup_register, machineInfo, if_neg hother.symm] at hm
      exact h (Tenant.mem_machines.mpr ⟨m, hm⟩)
    · exact h hmem
  | heartbeat i t | tick i t =>
    simp only [Liveness.step, LivenessEvent.presence, Presence.step, Presence.tenantAfter,
      Presence.staleAfter] at hmem ⊢
    split at hmem
    · exact h (Tenant.mem_heartbeat.mp hmem)
    · exact h hmem
  | prune t =>
    simp only [Liveness.step, LivenessEvent.presence, Presence.step, Presence.tenantAfter,
      Presence.staleAfter] at hmem ⊢
    cases hstale : s.presence.stale with
    | nil =>
      simp only [hstale] at hmem
      obtain ⟨info, hinfo, -⟩ := h hmem
      simp [hstale] at hinfo
    | cons info rest =>
      simp only [hstale] at hmem
      obtain ⟨hbefore, hkept⟩ := Tenant.mem_prune.mp hmem
      obtain ⟨info', hinfo', hid⟩ := h hbefore
      rw [hstale] at hinfo'
      rcases List.mem_cons.mp hinfo' with rfl | hrest
      · -- It is the machine's turn: it has been silent since the pass began.
        obtain ⟨m, hm⟩ := Tenant.mem_machines.mp hbefore
        have hold : m.lastSeen < now - offlineAfter := hquiet.silent _ (hquiet.heardOf mid m hm)
        have hclock := hquiet.clock t rfl
        refine absurd ⟨hid.symm, m, hid ▸ hm, decide_eq_true (?_ : m.lastSeen < t - offlineAfter)⟩ hkept
        omega
      · exact ⟨info', hrest, hid⟩
  | collect t =>
    simp only [Liveness.step, LivenessEvent.presence, Presence.step, Presence.tenantAfter,
      Presence.staleAfter] at hmem ⊢
    obtain ⟨info, hinfo, hid⟩ := h hmem
    rw [if_neg (List.ne_nil_of_mem hinfo)]
    exact ⟨info, hinfo, hid⟩
  | endClean i | endError i => exact h hmem

-- ---------------------------------------------------------------------------
-- Every run
-- ---------------------------------------------------------------------------

theorem run_frames (reg : ι → Register) (addr : ι → String) (s : Liveness ι) (events : List (LivenessEvent ι)) :
    ∃ more, (run (step reg addr) s events).frames = s.frames ++ more := by
  induction events generalizing s with
  | nil => exact ⟨[], (List.append_nil _).symm⟩
  | cons e events ih =>
    obtain ⟨more, hmore⟩ := ih (s.step reg addr e)
    exact ⟨s.received reg e ++ more, by rw [run_cons, hmore, step, List.append_assoc]⟩

/-- In a pass for a machine that is silent, every step is quiet. -/
theorem quiet_of_reaches {mid : String} {now : Nat} {during : List (LivenessEvent ι)}
    {frames : List (String × Nat)} (hsilent : ∀ t, (mid, t) ∈ frames → t < now - offlineAfter)
    (hframes : s.frames = frames)
    (hnone : ∀ t, (mid, t) ∉ (run (step reg addr) s during).frames.drop frames.length)
    (hheard : ∀ before after, during = before ++ after → (run (step reg addr) s before).HeardOf)
    (hclock : ∀ t, .prune t ∈ during → now ≤ t) {u : Liveness ι} {e : LivenessEvent ι}
    (hreach : Reaches (step reg addr) s during u e) : Quiet reg mid now u e := by
  obtain ⟨before, after, rfl, rfl⟩ := hreach
  obtain ⟨earlier, hearlier⟩ := run_frames reg addr s before
  obtain ⟨later, hlater⟩ := run_frames reg addr
    ((run (step reg addr) s before).step reg addr e) after
  have hall : (run (step reg addr) s (before ++ e :: after)).frames =
      frames ++ (earlier ++ ((run (step reg addr) s before).received reg e ++ later)) := by
    rw [run_append, run_cons, hlater, step, hearlier, hframes]
    simp only [List.append_assoc]
  rw [hall, List.drop_left] at hnone
  refine ⟨hheard before _ rfl, fun t ht => ?_, fun t ht => ?_, fun t ht => hclock t (ht ▸ by simp)⟩
  · rw [hearlier, hframes] at ht
    rcases List.mem_append.mp ht with hbefore | hin
    · exact hsilent t hbefore
    · exact absurd (List.mem_append_left _ hin) (hnone t)
  · exact hnone t (List.mem_append_right _ (List.mem_append_left _ ht))

theorem run_keyed (events : List (LivenessEvent ι)) :
    (run (step reg addr) nobody events).presence.tenant.Keyed :=
  run_invariant (fun s : Liveness ι => s.presence.tenant.Keyed) (fun _ e h _ => keyed_step h e) Tenant.keyed_empty
    (AllSteps.of_forall fun _ _ _ => trivial)

/-- In every run the times are those of frames and silent machines are pruned, if and
only if no timer writes a time at which no frame of the machine has come. -/
theorem from_clients_iff (reg : ι → Register) (addr : ι → String) (events : List (LivenessEvent ι)) :
    FromClients reg addr events ↔ AllSteps (step reg addr) (TimerIdle reg) nobody events := by
  have hnobody : (nobody : Liveness ι).HeardOf := fun mid m hm => by
    simp [nobody, Presence.nobody, Tenant.empty] at hm
  have hstates : (∀ before after, events = before ++ after →
      HeardOf (run (step reg addr) nobody before)) ↔
        AllSteps (step reg addr) (TimerIdle reg) nobody events := by
    rw [← AllSteps.iff_states hnobody]
    exact AllSteps.iff_of_invariant HeardOf (fun s e h => heardOf_step h e)
      (fun s e h hidle => (heardOf_step h e).mpr hidle) hnobody
  refine ⟨fun h => hstates.mp h.lastSeen, fun h => ⟨hstates.mpr h, ?_⟩⟩
  intro before now during after mid heq hstale hover hclock hsilent hnone
  have hheard := hstates.mpr h
  rw [run_append, run_cons] at hover hnone ⊢
  have hpending : Pending mid ((run (step reg addr) nobody before).step reg addr (.collect now)) :=
    Pending.collect (run_keyed before) (hheard before _ heq) hsilent hstale
  have hquiet : AllSteps (step reg addr) (Quiet reg mid now)
      ((run (step reg addr) nobody before).step reg addr (.collect now)) during := by
    refine AllSteps.of_reaches fun u e hreach => ?_
    refine quiet_of_reaches hsilent (by simp [step, received]) hnone ?_ hclock hreach
    intro first rest hsplit
    have hprefix := hheard (before ++ .collect now :: first) (rest ++ after) (by simp [heq, hsplit])
    rwa [run_append, run_cons] at hprefix
  intro hmem
  obtain ⟨info, hinfo, -⟩ := run_invariant (Pending mid) (fun _ _ h hq => h.step hq) hpending hquiet hmem
  rw [hover] at hinfo
  cases hinfo

/-- A session whose client has been silent for a minute keeps its machine online. -/
theorem timer_keeps_silent_machine : ¬ ∀ (reg : Unit → Register) (addr : Unit → String)
    (events : List (LivenessEvent Unit)), FromClients reg addr events := by
  intro h
  have hstate := (h (fun _ => ⟨"m1", "maka", "127.0.0.1:9", "00", "00"⟩) (fun _ => "127.0.0.1:9")
    [.register () 0, .tick () 60000]).lastSeen _ [] (List.append_nil _).symm "m1"
    { machineId := "m1", agents := ["maka"], addr := "127.0.0.1:9", peerAddr := "127.0.0.1:9"
      machinePubkey := "00", lastSeen := 60000 } (by decide)
  revert hstate
  decide

end Liveness

end Nsmt.Server
