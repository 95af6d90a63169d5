import Nsmt.Core.E2e
import Nsmt.Server.Fs
import Nsmt.Server.Locks

/-!
# Shared server state

`ServerState` as the sessions share it: the tenants' stores, the lock registry,
the quota counters, the owners of uploaded objects and the table of online
machines. `Config` is what the process reads from its environment.
-/

namespace Nsmt.Server

open Nsmt.Lib Nsmt.Core

structure Config where
  sha256 : Bytes → Digest
  aead : Aead
  /-- `NSMT_E2E_KEYS`, newest first; none configured is `[]`. -/
  masters : List Bytes
  /-- `quota_for`: the limit of a tenant, by its plan or the environment. -/
  quotaFor : String → Nat

/-- The defaults: no encryption keys, a quota of 1 GiB. -/
def Config.default : Config where
  sha256 := Digest.sha256
  aead := .none
  masters := []
  quotaFor := fun _ => 1024 * 1024 * 1024

def Config.e2e (cfg : Config) (domain : String) : Option E2EKeys :=
  E2EKeys.fromEnv cfg.sha256 cfg.masters domain

structure ServerState where
  /-- Stores by the name of their directory, see `sanitize`. -/
  fs : String → ServerFs
  locks : LockRegistry
  usageBytes : String → Nat
  objectOwners : String → String → Option String
  machines : String → String → Option MachineInfo

/-- The directory name of a tenant. -/
def sanitize (s : String) : String :=
  String.ofList (s.toList.map fun c => if c.isAlphanum ∨ c = '-' ∨ c = '_' then c else '_')

namespace ServerState

def empty : ServerState where
  fs := fun _ => .empty
  locks := fun _ => none
  usageBytes := fun _ => 0
  objectOwners := fun _ _ => none
  machines := fun _ _ => none

/-- `ServerFs::new` and `object_store_for`: both live below the same directory. -/
def store (server : ServerState) (domain : String) : ServerFs := server.fs (sanitize domain)

def setStore (server : ServerState) (domain : String) (fs : ServerFs) : ServerState :=
  { server with fs := Function.update server.fs (sanitize domain) fs }

/-- `try_reserve_quota`; the sum is a `u64` of a release build. -/
def tryReserveQuota (cfg : Config) (server : ServerState) (domain : String) (size : Nat) :
    Bool × ServerState :=
  let used := (server.usageBytes domain + size) % 2 ^ 64
  if used > cfg.quotaFor domain then (false, server)
  else (true, { server with usageBytes := Function.update server.usageBytes domain used })

def recordObjectOwner (server : ServerState) (domain blobId machine : String) : ServerState :=
  { server with
    objectOwners := Function.update server.objectOwners domain
      (Function.update (server.objectOwners domain) blobId (some machine)) }

def objectOwner (server : ServerState) (domain blobId : String) : Option String :=
  server.objectOwners domain blobId

def heartbeat (server : ServerState) (now : Nat) (domain machine : String) : ServerState :=
  match server.machines domain machine with
  | some m =>
    { server with
      machines := Function.update server.machines domain
        (Function.update (server.machines domain) machine (some { m with lastSeen := now })) }
  | none => server

def onlineMachine (server : ServerState) (domain machine : String) : Option MachineInfo :=
  server.machines domain machine

-- ---------------------------------------------------------------------------
-- What each operation leaves alone
-- ---------------------------------------------------------------------------

@[simp] theorem store_setStore (server : ServerState) (domain : String) (fs : ServerFs) :
    (server.setStore domain fs).store domain = fs := by
  simp [store, setStore]

@[simp] theorem setStore_locks (server : ServerState) (domain : String) (fs : ServerFs) :
    (server.setStore domain fs).locks = server.locks := rfl

@[simp] theorem setStore_usageBytes (server : ServerState) (domain : String) (fs : ServerFs) :
    (server.setStore domain fs).usageBytes = server.usageBytes := rfl

@[simp] theorem recordObjectOwner_store (server : ServerState) (domain blobId machine : String) :
    (server.recordObjectOwner domain blobId machine).store = server.store := rfl

@[simp] theorem recordObjectOwner_locks (server : ServerState) (domain blobId machine : String) :
    (server.recordObjectOwner domain blobId machine).locks = server.locks := rfl

@[simp] theorem recordObjectOwner_usageBytes (server : ServerState)
    (domain blobId machine : String) :
    (server.recordObjectOwner domain blobId machine).usageBytes = server.usageBytes := rfl

@[simp] theorem heartbeat_store (server : ServerState) (now : Nat) (domain machine : String) :
    (server.heartbeat now domain machine).store = server.store := by
  unfold heartbeat
  split <;> rfl

@[simp] theorem tryReserveQuota_store (cfg : Config) (server : ServerState) (domain : String)
    (size : Nat) : (server.tryReserveQuota cfg domain size).2.store = server.store := by
  simp only [tryReserveQuota]
  split <;> rfl

@[simp] theorem tryReserveQuota_locks (cfg : Config) (server : ServerState) (domain : String)
    (size : Nat) : (server.tryReserveQuota cfg domain size).2.locks = server.locks := by
  simp only [tryReserveQuota]
  split <;> rfl

end ServerState

end Nsmt.Server
