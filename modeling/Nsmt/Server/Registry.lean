import Nsmt.Core.Handshake
import Mathlib.Data.List.AList
import Mathlib.Logic.Function.Basic

/-!
# The registry of online machines

`Registry` as one tenant has it: the table of its machines and the channels of
its subscribers. Each operation is one lock of the registry; `prune_loop` takes
two, one to collect what is stale and one for each machine it removes.
-/

namespace Nsmt.Server

open Nsmt.Core

/-- `OFFLINE_AFTER`, in milliseconds. -/
def offlineAfter : Nat := 30000

abbrev MachineTable := AList fun _ : String => MachineInfo

/-- `χ` names the channels. -/
structure Tenant (χ : Type) where
  machines : MachineTable
  subscribers : List χ

/-- What a session registers. -/
def machineInfo (reg : Register) (addr : String) (now : Nat) : MachineInfo where
  machineId := reg.machineId
  agents := [reg.agentTag]
  addr := addr
  peerAddr := reg.peerAddr
  machinePubkey := reg.machinePubkey
  lastSeen := now

/-- The machine has not been heard of for too long. -/
def isStale (now : Nat) (m : MachineInfo) : Bool := m.lastSeen < now - offlineAfter

namespace Tenant

variable {χ : Type} (t : Tenant χ)

def empty : Tenant χ := { machines := ∅, subscribers := [] }

/-- The snapshot; its order is unspecified. -/
def values : List MachineInfo := t.machines.entries.map Sigma.snd

/-- An entry that is there is replaced, agents and all. -/
def register (info : MachineInfo) : List MachineInfo × Tenant χ :=
  let t := { t with machines := t.machines.insert info.machineId info }
  (t.values, t)

def subscribe (tx : χ) : List MachineInfo × Tenant χ :=
  let t := { t with subscribers := t.subscribers ++ [tx] }
  (t.values, t)

def unsubscribe [DecidableEq χ] (tx : χ) : Tenant χ :=
  { t with subscribers := t.subscribers.filter (· ≠ tx) }

def heartbeat (now : Nat) (machineId : String) : Tenant χ :=
  match t.machines.lookup machineId with
  | some m => { t with machines := t.machines.insert machineId { m with lastSeen := now } }
  | none => t

/-- The first phase of `prune_loop`. -/
def collectStale (now : Nat) : List MachineInfo := t.values.filter (isStale now)

/-- The second phase, for one machine: by now it may have been heard of. -/
def prune (now : Nat) (machineId : String) : Tenant χ :=
  match t.machines.lookup machineId with
  | some m => if isStale now m then { t with machines := t.machines.erase machineId } else t
  | none => t

end Tenant

-- ---------------------------------------------------------------------------
-- Channels
-- ---------------------------------------------------------------------------

section
variable {χ : Type} [DecidableEq χ]

/-- A frame is sent into each of the channels. -/
def deliver (recipients : List χ) (frame : ServerFrame) (channel : χ → List ServerFrame) :
    χ → List ServerFrame :=
  recipients.foldl (fun channel tx => Function.update channel tx (channel tx ++ [frame])) channel

def Tenant.broadcast (t : Tenant χ) (frame : ServerFrame) (channel : χ → List ServerFrame) :
    χ → List ServerFrame :=
  deliver t.subscribers frame channel

def Tenant.broadcastExcept (t : Tenant χ) (frame : ServerFrame) (except : χ)
    (channel : χ → List ServerFrame) : χ → List ServerFrame :=
  deliver (t.subscribers.filter (· ≠ except)) frame channel

theorem mem_deliver {recipients : List χ} {frame : ServerFrame} {channel : χ → List ServerFrame} :
    f ∈ deliver recipients frame channel tx ↔ f ∈ channel tx ∨ (tx ∈ recipients ∧ f = frame) := by
  induction recipients generalizing channel with
  | nil => simp [deliver]
  | cons r recipients ih =>
    rw [deliver, List.foldl_cons, ← deliver, ih]
    by_cases hr : tx = r
    · subst hr
      simp only [Function.update_self, List.mem_append, List.mem_cons]
      tauto
    · simp [hr]

end

-- ---------------------------------------------------------------------------
-- The table of machines
-- ---------------------------------------------------------------------------

namespace Tenant

variable {χ : Type} {t : Tenant χ} {mid : String}

/-- Every entry is kept under the id of its machine. -/
def Keyed (t : Tenant χ) : Prop := ∀ mid m, t.machines.lookup mid = some m → m.machineId = mid

theorem mem_values : m ∈ t.values ↔ ∃ mid, t.machines.lookup mid = some m := by
  simp only [values, List.mem_map, AList.mem_lookup_iff, ← Option.mem_def]
  constructor
  · rintro ⟨⟨mid, m⟩, hmem, rfl⟩
    exact ⟨mid, hmem⟩
  · rintro ⟨mid, hmem⟩
    exact ⟨⟨mid, m⟩, hmem, rfl⟩

theorem mem_machines : mid ∈ t.machines ↔ ∃ m, t.machines.lookup mid = some m := by
  rw [← AList.lookup_isSome, Option.isSome_iff_exists]

theorem exists_mem_values (h : t.Keyed) :
    (∃ m ∈ t.values, m.machineId = mid) ↔ mid ∈ t.machines := by
  rw [mem_machines]
  constructor
  · rintro ⟨m, hm, rfl⟩
    obtain ⟨mid, hlookup⟩ := mem_values.mp hm
    rw [h mid m hlookup]
    exact ⟨m, hlookup⟩
  · rintro ⟨m, hlookup⟩
    exact ⟨m, mem_values.mpr ⟨mid, hlookup⟩, h mid m hlookup⟩

theorem keyed_empty : (empty : Tenant χ).Keyed := fun _ _ h => by
  cases h

theorem Keyed.insert (h : t.Keyed) {m : MachineInfo} (hid : m.machineId = mid) :
    { t with machines := t.machines.insert mid m }.Keyed := by
  intro other m' hlookup
  by_cases hne : other = mid
  · subst hne
    rw [AList.lookup_insert] at hlookup
    obtain rfl := Option.some.inj hlookup
    exact hid
  · rw [AList.lookup_insert_ne hne] at hlookup
    exact h other m' hlookup

end Tenant

end Nsmt.Server
