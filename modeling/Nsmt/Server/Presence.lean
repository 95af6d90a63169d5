import Nsmt.Lib.Runs
import Nsmt.Server.Registry
import Mathlib.Data.Finset.Insert

/-!
# Presence over the life of sessions

Sessions start and end, send heartbeats and are pruned. A session that ends
says so to the others, or not if it ends by an error; it takes itself out of
neither the table nor the list of subscribers. `leaves_exact_iff` says when the
deltas that are broadcast tell the table, `reflects_iff` when the registry has
the live sessions.
-/

namespace Nsmt.Server

open Nsmt.Lib Nsmt.Core

inductive Life
  | ahead | live | over
  deriving DecidableEq, Repr

/-- `collect` is the first phase of a round of `prune_loop`, `prune` the second
for one machine. -/
inductive PresenceEvent (ι : Type)
  | start (i : ι) (now : Nat)
  | heartbeat (i : ι) (now : Nat)
  | endClean (i : ι)
  | endError (i : ι)
  | collect (now : Nat)
  | prune (now : Nat)

/-- The sessions of one tenant. `stale` is what is left of a round of
`prune_loop`, `deltas` all that has been broadcast. -/
structure Presence (ι : Type) where
  tenant : Tenant ι
  life : ι → Life
  stale : List MachineInfo
  deltas : List OnlineDelta

/-- What a session that ends says of its machine. -/
def leaving (machineId : String) : MachineInfo where
  machineId := machineId
  agents := []
  addr := ""
  peerAddr := ""
  machinePubkey := ""
  lastSeen := 0

/-- The machines that are online by the deltas. -/
def replayDelta (online : Finset String) (delta : OnlineDelta) : Finset String :=
  match delta.kind with
  | .join => insert delta.machine.machineId online
  | .leave => online.erase delta.machine.machineId
  | .agentChange => online

def replay (deltas : List OnlineDelta) : Finset String := deltas.foldl replayDelta ∅

namespace Presence

variable {ι : Type} [DecidableEq ι] (reg : ι → Register) (addr : ι → String)

def nobody : Presence ι where
  tenant := .empty
  life := fun _ => .ahead
  stale := []
  deltas := []

/-- What the event broadcasts. -/
def announced (s : Presence ι) : PresenceEvent ι → List OnlineDelta
  | .start i now =>
    if s.life i = .ahead then [{ kind := .join, machine := machineInfo (reg i) (addr i) now }] else []
  | .endClean i =>
    if s.life i = .live then [{ kind := .leave, machine := leaving (reg i).machineId }] else []
  | .prune _ =>
    match s.stale with
    | [] => []
    -- Broadcast whether or not the machine was removed.
    | info :: _ => [{ kind := .leave, machine := info }]
  | .heartbeat _ _ | .endError _ | .collect _ => []

/-- What the event does to the tenant. -/
def tenantAfter (s : Presence ι) : PresenceEvent ι → Tenant ι
  | .start i now =>
    if s.life i = .ahead then
      ((s.tenant.register (machineInfo (reg i) (addr i) now)).2.subscribe i).2
    else s.tenant
  | .heartbeat i now =>
    if s.life i = .live then s.tenant.heartbeat now (reg i).machineId else s.tenant
  | .prune now =>
    match s.stale with
    | [] => s.tenant
    | info :: _ => s.tenant.prune now info.machineId
  | .endClean _ | .endError _ | .collect _ => s.tenant

def lifeAfter (s : Presence ι) : PresenceEvent ι → ι → Life
  | .start i _ => if s.life i = .ahead then Function.update s.life i .live else s.life
  | .endClean i | .endError i => if s.life i = .live then Function.update s.life i .over else s.life
  | .heartbeat _ _ | .collect _ | .prune _ => s.life

def staleAfter (s : Presence ι) : PresenceEvent ι → List MachineInfo
  | .collect now => if s.stale = [] then s.tenant.collectStale now else s.stale
  | .prune _ => s.stale.tail
  | _ => s.stale

def step (s : Presence ι) (e : PresenceEvent ι) : Presence ι where
  tenant := s.tenantAfter reg addr e
  life := s.lifeAfter e
  stale := s.staleAfter e
  deltas := s.deltas ++ s.announced reg addr e

@[simp] theorem step_tenant (s : Presence ι) (e : PresenceEvent ι) :
    (s.step reg addr e).tenant = s.tenantAfter reg addr e := rfl

@[simp] theorem step_life (s : Presence ι) (e : PresenceEvent ι) :
    (s.step reg addr e).life = s.lifeAfter e := rfl

-- ---------------------------------------------------------------------------
-- Deltas and the table
-- ---------------------------------------------------------------------------

/-- The event broadcasts that a machine leaves exactly if it takes it out of the
table, and the deltas tell the table. -/
def LeavesExact (s : Presence ι) (e : PresenceEvent ι) : Prop :=
  (∀ mid, (∃ m, { kind := .leave, machine := m } ∈ s.announced reg addr e ∧ m.machineId = mid) ↔
    mid ∈ s.tenant.machines ∧ mid ∉ (s.step reg addr e).tenant.machines) ∧
  ∀ mid, mid ∈ replay (s.step reg addr e).deltas ↔ mid ∈ (s.step reg addr e).tenant.machines

/-- No session ends cleanly, and a machine that `prune_loop` comes to is in the
table and has still not been heard of. -/
def PrunesOnly (s : Presence ι) : PresenceEvent ι → Prop
  | .endClean i => s.life i ≠ .live
  | .prune now => ∀ info rest, s.stale = info :: rest →
      ∃ m, s.tenant.machines.lookup info.machineId = some m ∧ isStale now m = true
  | _ => True

/-- The deltas so far tell the table. -/
def Told (s : Presence ι) : Prop := ∀ mid, mid ∈ replay s.deltas ↔ mid ∈ s.tenant.machines

end Presence

theorem replay_append (deltas : List OnlineDelta) (delta : OnlineDelta) :
    replay (deltas ++ [delta]) = replayDelta (replay deltas) delta := by
  simp [replay]

namespace Tenant

variable {χ : Type} {t : Tenant χ} {mid : String}

theorem mem_heartbeat : mid ∈ (t.heartbeat now machineId).machines ↔ mid ∈ t.machines := by
  unfold heartbeat
  split
  · rename_i m hm
    rw [AList.mem_insert]
    refine ⟨fun h => h.elim (fun heq => ?_) id, .inr⟩
    exact heq ▸ mem_machines.mpr ⟨m, hm⟩
  · exact .rfl

theorem mem_prune : mid ∈ (t.prune now machineId).machines ↔ mid ∈ t.machines ∧
    ¬ (mid = machineId ∧ ∃ m, t.machines.lookup machineId = some m ∧ isStale now m = true) := by
  unfold prune
  cases hm : t.machines.lookup machineId with
  | none => simp
  | some m =>
    by_cases hstale : isStale now m = true
    · simp only [hstale, if_true, AList.mem_erase]
      simp [hstale, and_comm]
    · simp [hstale]

@[simp] theorem heartbeat_subscribers (t : Tenant χ) (now : Nat) (machineId : String) :
    (t.heartbeat now machineId).subscribers = t.subscribers := by
  unfold heartbeat
  split <;> rfl

@[simp] theorem prune_subscribers (t : Tenant χ) (now : Nat) (machineId : String) :
    (t.prune now machineId).subscribers = t.subscribers := by
  unfold prune
  split
  · split <;> rfl
  · rfl

/-- The agent is among those of the entry of the machine. -/
def Lists (t : Tenant χ) (mid agentTag : String) : Prop :=
  ∃ m, t.machines.lookup mid = some m ∧ agentTag ∈ m.agents

theorem lists_register : (t.register info).2.Lists mid tag ↔
    if mid = info.machineId then tag ∈ info.agents else t.Lists mid tag := by
  unfold register Lists
  split
  · rename_i hmid
    subst hmid
    simp [AList.lookup_insert]
  · rename_i hmid
    simp [AList.lookup_insert_ne hmid]

theorem lists_heartbeat : (t.heartbeat now machineId).Lists mid tag ↔ t.Lists mid tag := by
  unfold heartbeat Lists
  cases hm : t.machines.lookup machineId with
  | none => exact .rfl
  | some m =>
    by_cases hmid : mid = machineId
    · subst hmid
      simp [AList.lookup_insert, hm]
    · simp [AList.lookup_insert_ne hmid]

theorem lists_prune : (t.prune now machineId).Lists mid tag ↔ t.Lists mid tag ∧
    ¬ (mid = machineId ∧ ∃ m, t.machines.lookup machineId = some m ∧ isStale now m = true) := by
  unfold prune Lists
  cases hm : t.machines.lookup machineId with
  | none => simp
  | some m =>
    by_cases hstale : isStale now m = true
    · by_cases hmid : mid = machineId
      · subst hmid
        simp [hstale, AList.lookup_erase]
      · simp [hstale, AList.lookup_erase_ne hmid, hmid]
    · simp [hstale]

end Tenant

namespace Presence

variable {ι : Type} [DecidableEq ι] {reg : ι → Register} {addr : ι → String} {s : Presence ι}

/-- An event that broadcasts nothing must keep the machines of the table. -/
theorem quiet_exact (htold : s.Told) (hnone : s.announced reg addr e = [])
    (hsame : ∀ mid, mid ∈ (s.tenantAfter reg addr e).machines ↔ mid ∈ s.tenant.machines) :
    s.LeavesExact reg addr e := by
  simp only [LeavesExact, step, hnone, hsame, List.append_nil]
  exact ⟨fun mid => by simp, htold⟩

theorem leave_mem_join {info : MachineInfo} :
    ¬ ∃ m, ({ kind := .leave, machine := m } : OnlineDelta) ∈ [{ kind := .join, machine := info }] ∧
      m.machineId = mid := by
  rintro ⟨m, hm, -⟩
  cases List.mem_singleton.mp hm

theorem leave_mem_leave {info : MachineInfo} :
    (∃ m, ({ kind := .leave, machine := m } : OnlineDelta) ∈ [{ kind := .leave, machine := info }] ∧
      m.machineId = mid) ↔ mid = info.machineId := by
  constructor
  · rintro ⟨m, hm, rfl⟩
    obtain ⟨-, rfl⟩ := OnlineDelta.mk.inj (List.mem_singleton.mp hm)
    rfl
  · rintro rfl
    exact ⟨info, List.mem_singleton_self _, rfl⟩

theorem start_exact (htold : s.Told) (i : ι) (now : Nat) :
    s.LeavesExact reg addr (.start i now) := by
  by_cases hlife : s.life i = .ahead
  · simp only [LeavesExact, step, announced, tenantAfter, hlife, if_true, leave_mem_join, false_iff,
      not_and, not_not, replay_append, replayDelta, Finset.mem_insert, Tenant.register,
      Tenant.subscribe, AList.mem_insert, machineInfo]
    exact ⟨fun mid => .inr, fun mid => or_congr_right (htold mid)⟩
  · exact quiet_exact htold (if_neg hlife) fun mid => by rw [tenantAfter, if_neg hlife]

theorem prune_exact_iff (htold : s.Told) (now : Nat) :
    s.LeavesExact reg addr (.prune now) ↔ s.PrunesOnly (.prune now) := by
  cases hstale : s.stale with
  | nil =>
    refine iff_of_true ?_ fun info rest h => ?_
    · exact quiet_exact htold (by simp [announced, hstale]) fun mid => by simp [tenantAfter, hstale]
    · rw [hstale] at h
      cases h
  | cons info rest =>
    simp only [LeavesExact, PrunesOnly, step, announced, tenantAfter, hstale, leave_mem_leave,
      Tenant.mem_prune, replay_append, replayDelta, Finset.mem_erase, List.cons.injEq]
    constructor
    · rintro ⟨hleave, -⟩ _ _ ⟨rfl, rfl⟩
      obtain ⟨hmem, hgone⟩ := (hleave info.machineId).mp rfl
      by_contra hnot
      exact hgone ⟨hmem, fun h => hnot h.2⟩
    · intro h
      obtain ⟨m, hm, hold⟩ := h info rest ⟨rfl, rfl⟩
      have hthere := Tenant.mem_machines.mpr ⟨m, hm⟩
      refine ⟨fun mid => ⟨?_, ?_⟩, fun mid => ?_⟩
      · rintro rfl
        exact ⟨hthere, fun hkept => hkept.2 ⟨rfl, m, hm, hold⟩⟩
      · rintro ⟨hmem, hgone⟩
        by_contra hne
        exact hgone ⟨hmem, fun h => hne h.1⟩
      · rw [htold mid, and_comm]
        refine and_congr_right fun _ => not_congr ⟨fun heq => ⟨heq, m, hm, hold⟩, And.left⟩

theorem leavesExact_iff (htold : s.Told) (e : PresenceEvent ι) :
    s.LeavesExact reg addr e ↔ s.PrunesOnly e := by
  cases e with
  | start i now => exact iff_of_true (start_exact htold i now) trivial
  | heartbeat i now =>
    refine iff_of_true (quiet_exact htold rfl fun mid => ?_) trivial
    simp only [tenantAfter]
    split
    · exact Tenant.mem_heartbeat
    · exact .rfl
  | endError i => exact iff_of_true (quiet_exact htold rfl fun _ => .rfl) trivial
  | collect now => exact iff_of_true (quiet_exact htold rfl fun _ => .rfl) trivial
  | prune now => exact prune_exact_iff htold now
  | endClean i =>
    by_cases hlife : s.life i = .live
    · -- The machine is said to leave, and the table is as it was.
      refine iff_of_false (fun h => ?_) fun h => h hlife
      have hgone := (h.1 (reg i).machineId).mp
        ⟨leaving (reg i).machineId, by simp [announced, hlife], rfl⟩
      exact hgone.2 hgone.1
    · exact iff_of_true (quiet_exact htold (if_neg hlife) fun _ => .rfl) hlife

/-- Every live session has one channel among the subscribers, no other session
has, and the entry of its machine lists its agent. -/
structure Reflects (reg : ι → Register) (s : Presence ι) : Prop where
  channels : ∀ i, s.tenant.subscribers.count i = if s.life i = .live then 1 else 0
  agents : ∀ i, s.life i = .live → s.tenant.Lists (reg i).machineId (reg i).agentTag

def ReflectsAfter (reg : ι → Register) (addr : ι → String) (s : Presence ι) (e : PresenceEvent ι) : Prop :=
  Reflects reg (s.step reg addr e)

/-- No session ends, the sessions of a machine have one agent, and no machine is
pruned that has a session. -/
def OneAgent (reg : ι → Register) (s : Presence ι) : PresenceEvent ι → Prop
  | .start i _ => s.life i = .ahead → ∀ j, s.life j = .live → (reg j).machineId = (reg i).machineId →
      (reg j).agentTag = (reg i).agentTag
  | .endClean i | .endError i => s.life i ≠ .live
  | .prune now => ∀ info rest m, s.stale = info :: rest →
      s.tenant.machines.lookup info.machineId = some m → isStale now m = true →
        ∀ i, s.life i = .live → (reg i).machineId ≠ info.machineId
  | .heartbeat _ _ | .collect _ => True

/-- An event that changes neither lives nor subscribers. -/
theorem Reflects.congr_iff (h : Reflects reg s) {e : PresenceEvent ι} (hlife : s.lifeAfter e = s.life)
    (hsubscribers : (s.tenantAfter reg addr e).subscribers = s.tenant.subscribers) :
    s.ReflectsAfter reg addr e ↔ ∀ i, s.life i = .live →
      (s.tenantAfter reg addr e).Lists (reg i).machineId (reg i).agentTag := by
  constructor
  · intro hafter i hi
    exact hafter.agents i (by rw [step_life, hlife]; exact hi)
  · intro hagents
    refine ⟨fun i => ?_, fun i hi => ?_⟩
    · rw [step_life, step_tenant, hlife, hsubscribers]
      exact h.channels i
    · rw [step_life, hlife] at hi
      exact hagents i hi

theorem Reflects.start_iff (h : Reflects reg s) (i : ι) (now : Nat) :
    s.ReflectsAfter reg addr (.start i now) ↔ s.OneAgent reg (.start i now) := by
  by_cases hlife : s.life i = .ahead
  · have htenant : s.tenantAfter reg addr (.start i now) =
        ((s.tenant.register (machineInfo (reg i) (addr i) now)).2.subscribe i).2 := by
      rw [tenantAfter, if_pos hlife]
    have hlives : s.lifeAfter (.start i now) = Function.update s.life i .live := by
      rw [lifeAfter, if_pos hlife]
    have hlists (j : ι) : (s.tenantAfter reg addr (.start i now)).Lists (reg j).machineId (reg j).agentTag ↔
        if (reg j).machineId = (reg i).machineId then (reg j).agentTag = (reg i).agentTag
        else s.tenant.Lists (reg j).machineId (reg j).agentTag := by
      rw [htenant]
      refine Tenant.lists_register.trans ?_
      simp only [machineInfo, List.mem_singleton]
    constructor
    · intro hafter _ j hj hmid
      have hji : j ≠ i := by
        rintro rfl
        cases hj.symm.trans hlife
      have hlisted := hafter.agents j (by rw [step_life, hlives, Function.update_of_ne hji]; exact hj)
      rw [step_tenant, hlists, if_pos hmid] at hlisted
      exact hlisted
    · intro hone
      refine ⟨fun j => ?_, fun j hj => ?_⟩
      · rw [step_life, step_tenant, hlives, htenant]
        simp only [Tenant.subscribe, Tenant.register, List.count_append, h.channels]
        by_cases hji : j = i
        · subst hji
          simp [hlife]
        · simp [hji, Ne.symm hji]
      · rw [step_tenant, hlists]
        by_cases hji : j = i
        · subst hji
          rw [if_pos rfl]
        · rw [step_life, hlives, Function.update_of_ne hji] at hj
          split
          · rename_i hmid
            exact hone hlife j hj hmid
          · exact h.agents j hj
  · refine iff_of_true ?_ fun hahead => absurd hahead hlife
    have htenant : s.tenantAfter reg addr (.start i now) = s.tenant := if_neg hlife
    have hlives : s.lifeAfter (.start i now) = s.life := if_neg hlife
    rw [h.congr_iff hlives (by rw [htenant]), htenant]
    exact h.agents

/-- The channel of a session that ends stays. -/
theorem Reflects.ended_iff (h : Reflects reg s) {e : PresenceEvent ι}
    (htenant : s.tenantAfter reg addr e = s.tenant)
    (hlives : s.lifeAfter e = if s.life i = .live then Function.update s.life i .over else s.life) :
    s.ReflectsAfter reg addr e ↔ s.life i ≠ .live := by
  by_cases hlife : s.life i = .live
  · refine iff_of_false (fun hafter => ?_) fun hne => hne hlife
    have hcount := hafter.channels i
    rw [step_life, step_tenant, hlives, if_pos hlife, htenant, Function.update_self, h.channels, if_pos hlife] at hcount
    cases hcount
  · rw [if_neg hlife] at hlives
    refine iff_of_true ?_ hlife
    rw [h.congr_iff hlives (by rw [htenant]), htenant]
    exact h.agents

theorem Reflects.prune_iff (h : Reflects reg s) (now : Nat) :
    s.ReflectsAfter reg addr (.prune now) ↔ s.OneAgent reg (.prune now) := by
  rw [h.congr_iff rfl (by simp only [tenantAfter]; split <;> simp)]
  cases hstale : s.stale with
  | nil =>
    simp only [tenantAfter, hstale, OneAgent]
    exact iff_of_true h.agents fun info rest m hcons => by cases hcons
  | cons info rest =>
    simp only [tenantAfter, hstale, OneAgent, Tenant.lists_prune]
    constructor
    · rintro hkept _ _ m ⟨⟩ hm hold i hi hmid
      exact (hkept i hi).2 ⟨hmid, m, hm, hold⟩
    · intro hone i hi
      refine ⟨h.agents i hi, ?_⟩
      rintro ⟨hmid, m, hm, hold⟩
      exact hone info rest m rfl hm hold i hi hmid

theorem Reflects.after_iff (h : Reflects reg s) (e : PresenceEvent ι) :
    s.ReflectsAfter reg addr e ↔ s.OneAgent reg e := by
  cases e with
  | start i now => exact h.start_iff i now
  | endClean i => exact h.ended_iff rfl rfl
  | endError i => exact h.ended_iff rfl rfl
  | prune now => exact h.prune_iff now
  | collect now =>
    rw [h.congr_iff rfl rfl]
    exact iff_of_true h.agents trivial
  | heartbeat i now =>
    rw [h.congr_iff rfl (by simp only [tenantAfter]; split <;> simp)]
    refine iff_of_true (fun j hj => ?_) trivial
    simp only [tenantAfter]
    split
    · exact Tenant.lists_heartbeat.mpr (h.agents j hj)
    · exact h.agents j hj

/-- In a run the registry has exactly the live sessions in every state exactly if
no session ends, each machine has one agent and none is pruned that is used. -/
theorem reflects_iff (events : List (PresenceEvent ι)) :
    AllSteps (step reg addr) (ReflectsAfter reg addr) nobody events ↔
      AllSteps (step reg addr) (OneAgent reg) nobody events := by
  refine AllSteps.iff_of_invariant (Reflects reg) (fun s e h => h.after_iff e)
    (fun s e h hc => (h.after_iff e).mpr hc) ⟨fun i => rfl, fun i hi => ?_⟩
  cases hi

/-- A session has ended, and its channel is still among the subscribers. -/
theorem ended_session_subscribed : ¬ ∀ (reg : Unit → Register) (addr : Unit → String)
    (events : List (PresenceEvent Unit)),
    AllSteps (step reg addr) (ReflectsAfter reg addr) nobody events := by
  intro h
  have hafter := h (fun _ => ⟨"m1", "maka", "", "", ""⟩) (fun _ => "127.0.0.1:9")
    [.start () 0, .endClean ()]
  exact absurd (hafter.2.1.channels ()) (by decide)

end Presence

end Nsmt.Server
