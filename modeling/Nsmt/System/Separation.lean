import Nsmt.Server.Presence
import Nsmt.Server.TenantLocks
import Nsmt.Server.TenantStores
import Nsmt.System.CriticalSections
import Nsmt.System.Owners

/-!
# The tenants of one server

One process serves all tenants, with one table of tenants, one registry of locks and
one pool of gateways. `tenants_apart` says what a tenant can notice of the others:
nothing, over any run of the server, as long as it shares no directory, no lock path
and no gateway with them.
-/

namespace Nsmt.System

open Nsmt.Lib Nsmt.Core Nsmt.Server

/-- What a tenant has to itself of the paths that are locked and of the shards of the
pool. -/
structure Share where
  path : String → Prop
  shard : Nat → Prop

/-- A file frame has plain names, and the path of a lock frame is one of `paths`. -/
def Keeps (paths : String → Prop) : ClientFrame → Prop
  | .lockAcquire msg => paths msg.path
  | .lockRenew msg => paths msg.path
  | .lockRelease msg => paths msg.path
  | .heartbeat | .malformed | .unhandled => True
  | frame => PlainFrame frame

namespace Share

variable (share : Share) (cfg : Config) (pool : MemoryPool) (a : Arrival)

/-- A frame of the tenant stays within its share. -/
def Within : ReadyFrame → Prop
  | .memoryRecall _ => ∀ k, a.reachable k = true → share.shard k
  | .memoryCapture msg =>
    a.reachable (shardFor cfg.sha256 pool.shards.length msg.fqn) = true →
      share.shard (shardFor cfg.sha256 pool.shards.length msg.fqn)
  | .file frame => Keeps share.path frame

/-- A frame of another tenant stays off the share. A recall leaves nothing behind. -/
def Off : ReadyFrame → Prop
  | .memoryRecall _ => True
  | .memoryCapture msg =>
    a.reachable (shardFor cfg.sha256 pool.shards.length msg.fqn) = true →
      ¬ share.shard (shardFor cfg.sha256 pool.shards.length msg.fqn)
  | .file frame => Keeps (fun p => ¬ share.path p) frame

end Share

-- ---------------------------------------------------------------------------
-- One turn of a session
-- ---------------------------------------------------------------------------

section
variable {cfg : Config} {now : Nat} {s t : ServerState} {session : Session} {domain : String}
  {paths : String → Prop} {frame : ClientFrame}

theorem agree_symm (h : Agree domain s t) : Agree domain t s :=
  ⟨h.fs.symm, h.usageBytes.symm, h.objectOwners.symm, h.machines.symm⟩

theorem agree_heartbeat (h : Agree domain s t) (now : Nat) (machine : String) :
    Agree domain (s.heartbeat now domain machine) (t.heartbeat now domain machine) := by
  simp only [ServerState.heartbeat, h.machines]
  split
  · refine ⟨h.fs, h.usageBytes, h.objectOwners, ?_⟩
    simp only [Function.update_self]
  · exact h

/-- A lock frame leaves everything but the locks alone, and the session goes on. -/
theorem handle_lockFrame (domain : String) (cfg : Config) (now : Nat) (server : ServerState)
    (session : Session) (msg : LockFrame) :
    Agree domain (session.handle cfg now server msg.frame).server server ∧
      (session.handle cfg now server msg.frame).turn = .ready session := by
  cases msg with
  | acquire msg =>
    simp only [LockFrame.frame, Session.handle, Session.onLockAcquire]
    split
    · exact ⟨⟨rfl, rfl, rfl, rfl⟩, rfl⟩
    · exact ⟨⟨rfl, rfl, rfl, rfl⟩, rfl⟩
  | renew msg => exact ⟨⟨rfl, rfl, rfl, rfl⟩, rfl⟩
  | release msg => exact ⟨⟨rfl, rfl, rfl, rfl⟩, rfl⟩

/-- The two turns look the same to a tenant with these lock paths. -/
structure Alike (domain : String) (paths : String → Prop) (r r' : Reaction) : Prop where
  same : SameReaction domain r r'
  locks : ∀ p, paths p → r.server.locks p = r'.server.locks p

theorem alike_lockFrame (msg : LockFrame) (hagree : Agree session.userDomain s t)
    (hlocks : ∀ p, paths p → s.locks p = t.locks p) (hpath : paths msg.path) :
    Alike session.userDomain paths (session.handle cfg now s msg.frame)
      (session.handle cfg now t msg.frame) := by
  obtain ⟨heffects, hentry⟩ := TenantLocks.handle_congr cfg session now (hlocks msg.path hpath)
  obtain ⟨hs, hturn⟩ := handle_lockFrame session.userDomain cfg now s session msg
  obtain ⟨ht, hturn'⟩ := handle_lockFrame session.userDomain cfg now t session msg
  refine ⟨⟨heffects, hturn.trans hturn'.symm, hs.trans (hagree.trans (agree_symm ht))⟩, fun p hp => ?_⟩
  by_cases hmsg : p = msg.path
  · subst hmsg
    exact hentry
  · rw [TenantLocks.handle_other cfg session now s hmsg, TenantLocks.handle_other cfg session now t hmsg]
    exact hlocks p hp

theorem alike_plain (hagree : Agree session.userDomain s t)
    (hlocks : ∀ p, paths p → s.locks p = t.locks p) (hfree : LockFree frame) (hframe : PlainFrame frame) :
    Alike session.userDomain paths (session.handle cfg now s frame) (session.handle cfg now t frame) := by
  refine ⟨handle_agree hagree hframe, fun p hp => ?_⟩
  rw [(hfree.handle cfg now session s).1, (hfree.handle cfg now session t).1]
  exact hlocks p hp

/-- What a frame of the tenant does depends on nothing but its part of the state. -/
theorem handle_alike (hagree : Agree session.userDomain s t)
    (hlocks : ∀ p, paths p → s.locks p = t.locks p) (hkeeps : Keeps paths frame) :
    Alike session.userDomain paths (session.handle cfg now s frame) (session.handle cfg now t frame) := by
  cases frame with
  | lockAcquire msg => exact alike_lockFrame (.acquire msg) hagree hlocks hkeeps
  | lockRenew msg => exact alike_lockFrame (.renew msg) hagree hlocks hkeeps
  | lockRelease msg => exact alike_lockFrame (.release msg) hagree hlocks hkeeps
  | heartbeat =>
    refine ⟨⟨rfl, rfl, agree_heartbeat hagree now session.machineId⟩, fun p hp => ?_⟩
    have hfree : LockFree .heartbeat := trivial
    rw [(hfree.handle cfg now session s).1, (hfree.handle cfg now session t).1]
    exact hlocks p hp
  | malformed => exact ⟨⟨rfl, rfl, hagree⟩, hlocks⟩
  | unhandled => exact ⟨⟨rfl, rfl, hagree⟩, hlocks⟩
  | fileChunk payload => exact alike_plain hagree hlocks trivial hkeeps
  | fileTree tree => exact alike_plain hagree hlocks trivial hkeeps
  | fileDiff msg => exact alike_plain hagree hlocks trivial hkeeps
  | fileGet msg => exact alike_plain hagree hlocks trivial hkeeps
  | filePut msg => exact alike_plain hagree hlocks trivial hkeeps

theorem unseen_plain (hdir : sanitize domain ≠ sanitize session.userDomain) (hfree : LockFree frame)
    (hframe : PlainFrame frame) :
    Agree domain (session.handle cfg now s frame).server s ∧
      ∀ p, paths p → (session.handle cfg now s frame).server.locks p = s.locks p :=
  ⟨handle_foreign hdir hframe, fun p _ => congrFun (hfree.handle cfg now session s).1 p⟩

theorem unseen_lockFrame (msg : LockFrame) (hpath : ¬ paths msg.path) :
    Agree domain (session.handle cfg now s msg.frame).server s ∧
      ∀ p, paths p → (session.handle cfg now s msg.frame).server.locks p = s.locks p := by
  refine ⟨(handle_lockFrame domain cfg now s session msg).1, fun p hp => ?_⟩
  exact TenantLocks.handle_other cfg session now s fun heq => hpath (heq ▸ hp)

/-- What another tenant's frame does is not seen. -/
theorem handle_unseen (hdir : sanitize domain ≠ sanitize session.userDomain)
    (hkeeps : Keeps (fun p => ¬ paths p) frame) :
    Agree domain (session.handle cfg now s frame).server s ∧
      ∀ p, paths p → (session.handle cfg now s frame).server.locks p = s.locks p := by
  have hdomain : domain ≠ session.userDomain := fun heq => hdir (by rw [heq])
  cases frame with
  | lockAcquire msg => exact unseen_lockFrame (.acquire msg) hkeeps
  | lockRenew msg => exact unseen_lockFrame (.renew msg) hkeeps
  | lockRelease msg => exact unseen_lockFrame (.release msg) hkeeps
  | heartbeat =>
    simp only [Session.handle, Session.stay, ServerState.heartbeat]
    split
    · exact ⟨⟨rfl, rfl, rfl, Function.update_of_ne hdomain ..⟩, fun _ _ => rfl⟩
    · exact ⟨.refl .., fun _ _ => rfl⟩
  | malformed => exact ⟨.refl .., fun _ _ => rfl⟩
  | unhandled => exact ⟨.refl .., fun _ _ => rfl⟩
  | fileChunk payload => exact unseen_plain hdir trivial hkeeps
  | fileTree tree => exact unseen_plain hdir trivial hkeeps
  | fileDiff msg => exact unseen_plain hdir trivial hkeeps
  | fileGet msg => exact unseen_plain hdir trivial hkeeps
  | filePut msg => exact unseen_plain hdir trivial hkeeps

end

-- ---------------------------------------------------------------------------
-- A server without the other tenants
-- ---------------------------------------------------------------------------

section
variable {ι : Type} [DecidableEq ι]

theorem deliver_congr {i : ι} {channel channel' : ι → List ServerFrame} (h : channel i = channel' i)
    (recipients : List ι) (frame : ServerFrame) :
    deliver recipients frame channel i = deliver recipients frame channel' i := by
  induction recipients generalizing channel channel' with
  | nil => exact h
  | cons r recipients ih =>
    simp only [deliver, List.foldl_cons]
    refine ih ?_
    by_cases hr : i = r
    · subst hr
      simp only [Function.update_self, h]
    · simp only [Function.update_of_ne hr, h]

theorem deliver_of_not_mem {i : ι} {channel : ι → List ServerFrame} {recipients : List ι} (h : i ∉ recipients)
    (frame : ServerFrame) : deliver recipients frame channel i = channel i := by
  induction recipients generalizing channel with
  | nil => rfl
  | cons r recipients ih =>
    rw [List.mem_cons, not_or] at h
    simp only [deliver, List.foldl_cons]
    exact (ih h.2).trans (Function.update_of_ne h.1 ..)

/-- `alone` is the server without the other tenants, as the tenant sees it. -/
structure Alongside (share : Share) (domainOf : ι → String) (domain : String) (host alone : Host ι) :
    Prop where
  tenants : host.tenants domain = alone.tenants domain
  registry : host.registry domain = alone.registry domain
  channel : ∀ i, domainOf i = domain → host.channel i = alone.channel i
  fs : host.server.fs (sanitize domain) = alone.server.fs (sanitize domain)
  usageBytes : host.server.usageBytes domain = alone.server.usageBytes domain
  objectOwners : host.server.objectOwners domain = alone.server.objectOwners domain
  locks : ∀ p, share.path p → host.server.locks p = alone.server.locks p
  received : ∀ k, share.shard k → host.received k = alone.received k

/-- What is seen of one connection. -/
structure SameConnection (share : Share) (domainOf : ι → String) (domain : String)
    (c c' : Connection ι) : Prop where
  host : Alongside share domainOf domain c.host c'.host
  stage : c.stage = c'.stage
  sent : c.sent = c'.sent

variable {share : Share} {domainOf : ι → String} {domain : String} {host alone : Host ι}

omit [DecidableEq ι] in
theorem Alongside.refl (share : Share) (domainOf : ι → String) (domain : String) (host : Host ι) :
    Alongside share domainOf domain host host :=
  ⟨rfl, rfl, fun _ _ => rfl, rfl, rfl, rfl, fun _ _ => rfl, fun _ _ => rfl⟩

omit [DecidableEq ι] in
theorem Alongside.state (h : Alongside share domainOf domain host alone) :
    Agree domain host.state alone.state := by
  refine ⟨h.fs, h.usageBytes, h.objectOwners, ?_⟩
  simp only [Host.state, h.registry]

omit [DecidableEq ι] in
theorem Alongside.setTenant (h : Alongside share domainOf domain host alone) (t : Tenant ι) :
    Alongside share domainOf domain (host.setTenant domain t) (alone.setTenant domain t) :=
  { h with registry := by simp only [Host.setTenant, Function.update_self] }

omit [DecidableEq ι] in
theorem Alongside.setTenant_other (h : Alongside share domainOf domain host alone) {other : String}
    (hother : domain ≠ other) (t : Tenant ι) :
    Alongside share domainOf domain (host.setTenant other t) alone :=
  { h with registry := (Function.update_of_ne hother ..).trans h.registry }

theorem Alongside.deliver (h : Alongside share domainOf domain host alone) (recipients : List ι)
    (frame : ServerFrame) :
    Alongside share domainOf domain
      { host with channel := Nsmt.Server.deliver recipients frame host.channel }
      { alone with channel := Nsmt.Server.deliver recipients frame alone.channel } :=
  { h with channel := fun i hi => deliver_congr (h.channel i hi) recipients frame }

theorem Alongside.deliver_other (h : Alongside share domainOf domain host alone) {recipients : List ι}
    (hother : ∀ tx ∈ recipients, domainOf tx ≠ domain) (frame : ServerFrame) :
    Alongside share domainOf domain
      { host with channel := Nsmt.Server.deliver recipients frame host.channel } alone :=
  { h with
    channel := fun i hi =>
      (deliver_of_not_mem (fun hmem => hother i hmem hi) frame).trans (h.channel i hi) }

omit [DecidableEq ι] in
theorem Alongside.server (h : Alongside share domainOf domain host alone) {server server' : ServerState}
    (hagree : Agree domain server server') (hlocks : ∀ p, share.path p → server.locks p = server'.locks p) :
    Alongside share domainOf domain { host with server } { alone with server := server' } :=
  { h with
    fs := hagree.fs
    usageBytes := hagree.usageBytes
    objectOwners := hagree.objectOwners
    locks := hlocks }

omit [DecidableEq ι] in
theorem Alongside.server_other (h : Alongside share domainOf domain host alone) {server : ServerState}
    (hagree : Agree domain server host.state)
    (hlocks : ∀ p, share.path p → server.locks p = host.server.locks p) :
    Alongside share domainOf domain { host with server } alone :=
  { h with
    fs := hagree.fs.trans h.fs
    usageBytes := hagree.usageBytes.trans h.usageBytes
    objectOwners := hagree.objectOwners.trans h.objectOwners
    locks := fun p hp => (hlocks p hp).trans (h.locks p hp) }

omit [DecidableEq ι] in
/-- The pool is asked, and keeps what it is given. -/
theorem Alongside.asked (h : Alongside share domainOf domain host alone) {received received' : Received}
    (hreceived : ∀ k, share.shard k → received k = received' k) (poolRequests poolRequests' : List ReadyFrame) :
    Alongside share domainOf domain { host with received, poolRequests }
      { alone with received := received', poolRequests := poolRequests' } :=
  { h with received := hreceived }

omit [DecidableEq ι] in
theorem Alongside.asked_other (h : Alongside share domainOf domain host alone) {received : Received}
    (hreceived : ∀ k, share.shard k → received k = host.received k) (poolRequests : List ReadyFrame) :
    Alongside share domainOf domain { host with received, poolRequests } alone :=
  { h with received := fun k hk => (hreceived k hk).trans (h.received k hk) }

end

-- ---------------------------------------------------------------------------
-- The parts of a turn
-- ---------------------------------------------------------------------------

section
variable {ed : Ed25519} {tenants tenants' : TenantStore} {domain : String} {pool : MemoryPool}
  {sha256 : Bytes → Digest} {received received' : Received} {reachable : Nat → Bool}

theorem verifyAuth_congr (h : tenants domain = tenants' domain) (nonce signature : String) :
    tenants.verifyAuth ed domain nonce signature = tenants'.verifyAuth ed domain nonce signature := by
  unfold TenantStore.verifyAuth
  rw [h]

/-- A machine registers with the same outcome, and is known then to both tables. -/
theorem verifyRegister_congr (ed : Ed25519) (h : tenants domain = tenants' domain)
    (machineId agentTag machinePubkey signature : String) :
    (∃ e, tenants.verifyRegister ed domain machineId agentTag machinePubkey signature = .error e ∧
      tenants'.verifyRegister ed domain machineId agentTag machinePubkey signature = .error e) ∨
    ∃ t t', tenants.verifyRegister ed domain machineId agentTag machinePubkey signature = .ok t ∧
      tenants'.verifyRegister ed domain machineId agentTag machinePubkey signature = .ok t' ∧
      t domain = t' domain := by
  unfold TenantStore.verifyRegister
  rw [h]
  cases KeyPair.verify ed machinePubkey (utf8 (machineId ++ "\n" ++ agentTag)) signature with
  | false => exact .inl ⟨_, rfl, rfl⟩
  | true =>
    simp only [if_true]
    cases tenants' domain with
    | none => exact .inl ⟨_, rfl, rfl⟩
    | some record =>
      simp only
      cases record.machines machineId with
      | none =>
        refine .inr ⟨_, _, rfl, rfl, ?_⟩
        simp only [Function.update_self]
      | some existing =>
        simp only
        by_cases hsame : existing ≠ machinePubkey
        · rw [if_pos hsame, if_pos hsame]
          exact .inl ⟨_, rfl, rfl⟩
        · rw [if_neg hsame, if_neg hsame]
          exact .inr ⟨_, _, rfl, rfl, h⟩

theorem verifyRegister_other {other machineId agentTag machinePubkey signature : String}
    (hother : domain ≠ other)
    (hok : tenants.verifyRegister ed other machineId agentTag machinePubkey signature = .ok tenants') :
    tenants' domain = tenants domain := by
  unfold TenantStore.verifyRegister at hok
  cases hverify : KeyPair.verify ed machinePubkey (utf8 (machineId ++ "\n" ++ agentTag)) signature with
  | false => simp [hverify] at hok
  | true =>
    simp only [hverify, if_true] at hok
    cases hrecord : tenants other with
    | none => simp [hrecord] at hok
    | some record =>
      simp only [hrecord] at hok
      cases hmachine : record.machines machineId with
      | none =>
        simp only [hmachine, Except.ok.injEq] at hok
        subst hok
        exact Function.update_of_ne hother ..
      | some existing =>
        simp only [hmachine] at hok
        by_cases hsame : existing ≠ machinePubkey
        · rw [if_pos hsame] at hok
          cases hok
        · rw [if_neg hsame] at hok
          rw [Except.ok.inj hok]

/-- The answer to a capture depends on what its shard has received. -/
theorem onCapture_congr {msg : MemoryCapture}
    (h : reachable (shardFor sha256 pool.shards.length msg.fqn) = true →
      received (shardFor sha256 pool.shards.length msg.fqn) =
        received' (shardFor sha256 pool.shards.length msg.fqn)) :
    (pool.onCapture received reachable sha256 msg).1 = (pool.onCapture received' reachable sha256 msg).1 := by
  simp only [MemoryPool.onCapture]
  generalize shardFor sha256 pool.shards.length msg.fqn = k at h
  cases hreach : reachable k with
  | false =>
    cases pool.shards[k]? with
    | none => rfl
    | some gateway => rfl
  | true =>
    rw [h hreach]
    cases pool.shards[k]? with
    | none => rfl
    | some gateway =>
      simp only
      cases gateway.capture (captureBody msg) (received' k) with
      | none => rfl
      | some recorded => rfl

/-- Behind a capture, shards that had received the same still have. -/
theorem onCapture_received_congr (msg : MemoryCapture) (h : received k = received' k) :
    (pool.onCapture received reachable sha256 msg).2 k =
      (pool.onCapture received' reachable sha256 msg).2 k := by
  rw [MemoryPool.onCapture_received, MemoryPool.onCapture_received]
  split
  · by_cases hk : k = shardFor sha256 pool.shards.length msg.fqn
    · subst hk
      simp only [Function.update_self, h]
    · simp only [Function.update_of_ne hk, h]
  · exact h

/-- A shard that a capture does not reach receives nothing. -/
theorem onCapture_received_other {msg : MemoryCapture}
    (h : reachable (shardFor sha256 pool.shards.length msg.fqn) = true →
      k ≠ shardFor sha256 pool.shards.length msg.fqn) :
    (pool.onCapture received reachable sha256 msg).2 k = received k := by
  rw [MemoryPool.onCapture_received]
  split
  · rename_i hreach
    exact Function.update_of_ne (h hreach) ..
  · rfl

end

section
variable {χ : Type} [DecidableEq χ] {json : Json} {cfg : Config} {pool : MemoryPool} {tx : χ} {a : Arrival}
  {session : Session} {frame : Frame} {c : Connection χ}

theorem onReady_recall (h : json.readyFrame frame = .memoryRecall msg) :
    c.onReady json cfg pool tx a session frame =
      Connection.reply
        { c with host := { c.host with poolRequests := c.host.poolRequests ++ [.memoryRecall msg] } }
        a.delivered (.memoryRecallResult (pool.onRecall c.host.received a.reachable msg a.latencyMs))
        (.ready session) := by
  simp only [Connection.onReady, h]

theorem onReady_capture (h : json.readyFrame frame = .memoryCapture msg) :
    c.onReady json cfg pool tx a session frame =
      Connection.reply
        { c with
          host :=
            { c.host with
              received := (pool.onCapture c.host.received a.reachable cfg.sha256 msg).2
              poolRequests := c.host.poolRequests ++ [.memoryCapture msg] } }
        a.delivered
        (.memoryCaptureResult (pool.onCapture c.host.received a.reachable cfg.sha256 msg).1)
        (.ready session) := by
  simp only [Connection.onReady, h]

theorem onReady_heartbeat (h : json.readyFrame frame = .file .heartbeat) :
    c.onReady json cfg pool tx a session frame =
      { c with
        host := c.host.setTenant session.userDomain
          ((c.host.registry session.userDomain).heartbeat a.now session.machineId) } := by
  simp only [Connection.onReady, h]

theorem onReady_file {f : ClientFrame} (h : json.readyFrame frame = .file f) (hf : f ≠ .heartbeat) :
    c.onReady json cfg pool tx a session frame =
      Connection.perform tx session.userDomain a.delivered
        (session.handle cfg a.now c.host.state f).turn.stage
        { c with host := { c.host with server := (session.handle cfg a.now c.host.state f).server } }
        (session.handle cfg a.now c.host.state f).effects := by
  simp only [Connection.onReady, h]

theorem perform_registry (tx : χ) (domain : String) (delivered : Bool) (next : Stage) (effects : List Effect)
    (c : Connection χ) :
    (Connection.perform tx domain delivered next c effects).host.registry = c.host.registry := by
  induction effects generalizing c with
  | nil => rfl
  | cons effect effects ih =>
    cases effect with
    | putObject _ _ => exact ih c
    | send frame =>
      unfold Connection.perform
      split
      · exact ih _
      · rfl
    | broadcast frame => exact ih _
    | broadcastExcept frame => exact ih _

theorem perform_stage (tx : χ) (domain : String) (delivered : Bool) (next : Stage) (effects : List Effect)
    (c : Connection χ) :
    (Connection.perform tx domain delivered next c effects).stage = next ∨
      (Connection.perform tx domain delivered next c effects).stage = .ended := by
  induction effects generalizing c with
  | nil => exact .inl rfl
  | cons effect effects ih =>
    cases effect with
    | putObject _ _ => exact ih c
    | send frame =>
      unfold Connection.perform
      split
      · exact ih _
      · exact .inr rfl
    | broadcast frame => exact ih _
    | broadcastExcept frame => exact ih _

end

-- ---------------------------------------------------------------------------
-- A turn of the tenant
-- ---------------------------------------------------------------------------

section
variable {ι : Type} [DecidableEq ι] {share : Share} {domainOf : ι → String} {domain : String}
  {c c' : Connection ι}

omit [DecidableEq ι] in
theorem SameConnection.finish (h : SameConnection share domainOf domain c c') :
    SameConnection share domainOf domain c.finish c'.finish := ⟨h.host, rfl, h.sent⟩

omit [DecidableEq ι] in
theorem SameConnection.reply (h : SameConnection share domainOf domain c c') (delivered : Bool) (msg : Reply)
    (next : Stage) :
    SameConnection share domainOf domain (c.reply delivered msg next) (c'.reply delivered msg next) := by
  unfold Connection.reply
  split
  · exact ⟨h.host, rfl, congrArg (· ++ [msg]) h.sent⟩
  · exact h.finish

theorem SameConnection.perform (h : SameConnection share domainOf domain c c') (tx : ι) (delivered : Bool)
    (next : Stage) (effects : List Effect) :
    SameConnection share domainOf domain (Connection.perform tx domain delivered next c effects)
      (Connection.perform tx domain delivered next c' effects) := by
  induction effects generalizing c c' with
  | nil => exact ⟨h.host, rfl, h.sent⟩
  | cons effect effects ih =>
    cases effect with
    | putObject _ _ => exact ih h
    | send frame =>
      unfold Connection.perform
      split
      · exact ih ⟨h.host, h.stage, congrArg (· ++ [.frame frame]) h.sent⟩
      · exact h.finish
    | broadcast frame =>
      unfold Connection.perform
      refine ih ⟨?_, h.stage, h.sent⟩
      rw [h.host.registry]
      exact h.host.deliver _ frame
    | broadcastExcept frame =>
      unfold Connection.perform
      refine ih ⟨?_, h.stage, h.sent⟩
      rw [h.host.registry]
      exact h.host.deliver _ frame

variable {ed : Ed25519} {json : Json} {cfg : Config} {pool : MemoryPool} {tx : ι} {addr : String}
  {a : Arrival} {frame : Frame}

omit [DecidableEq ι] in
theorem SameConnection.onHello (h : SameConnection share domainOf domain c c') :
    SameConnection share domainOf domain (c.onHello json a frame) (c'.onHello json a frame) := by
  unfold Connection.onHello
  split
  · exact h.finish
  · split
    · exact h.finish
    · exact h.reply ..

omit [DecidableEq ι] in
theorem SameConnection.onAuth (h : SameConnection share domainOf domain c c') {hello : Hello}
    (hhello : hello.userDomain = domain) (nonce : String) :
    SameConnection share domainOf domain (c.onAuth ed json a hello nonce frame)
      (c'.onAuth ed json a hello nonce frame) := by
  subst hhello
  unfold Connection.onAuth
  split
  · exact h.finish
  · rename_i auth _
    rw [verifyAuth_congr h.host.tenants]
    split
    · exact ⟨h.host, rfl, h.sent⟩
    · exact h.reply ..

theorem SameConnection.join (h : SameConnection share domainOf domain c c') {hello : Hello}
    (hhello : hello.userDomain = domain) (reg : Register) :
    SameConnection share domainOf domain (Connection.join tx addr c a hello reg)
      (Connection.join tx addr c' a hello reg) := by
  subst hhello
  unfold Connection.join
  simp only [h.host.registry]
  split
  · exact ⟨((h.host.setTenant _).setTenant _).deliver _ _, rfl, congrArg (· ++ [_]) h.sent⟩
  · exact ⟨h.host.setTenant _, rfl, h.sent⟩

theorem SameConnection.onRegister (h : SameConnection share domainOf domain c c') {hello : Hello}
    (hhello : hello.userDomain = domain) :
    SameConnection share domainOf domain (c.onRegister ed json tx addr a hello frame)
      (c'.onRegister ed json tx addr a hello frame) := by
  unfold Connection.onRegister
  split
  · exact h.finish
  · rename_i reg _
    have htenants : c.host.tenants hello.userDomain = c'.host.tenants hello.userDomain := by
      rw [hhello]
      exact h.host.tenants
    rcases verifyRegister_congr ed htenants reg.machineId reg.agentTag reg.machinePubkey
      reg.machineSignature with ⟨e, he, he'⟩ | ⟨t, t', ht, ht', hsame⟩
    · simp only [he, he']
      exact h.reply ..
    · simp only [ht, ht']
      refine SameConnection.join ?_ hhello reg
      refine ⟨?_, h.stage, h.sent⟩
      rw [hhello] at hsame
      exact { h.host with tenants := hsame }

theorem SameConnection.onReady (h : SameConnection share domainOf domain c c') {session : Session}
    (hsession : session.userDomain = domain) (hwithin : share.Within cfg pool a (json.readyFrame frame)) :
    SameConnection share domainOf domain (c.onReady json cfg pool tx a session frame)
      (c'.onReady json cfg pool tx a session frame) := by
  subst hsession
  cases hready : json.readyFrame frame with
  | memoryRecall msg =>
    rw [hready] at hwithin
    rw [onReady_recall hready, onReady_recall hready,
      MemoryPool.onRecall_congr (fun k hk => h.host.received k (hwithin k hk)) msg a.latencyMs]
    refine SameConnection.reply ?_ _ _ _
    exact ⟨h.host.asked h.host.received _ _, h.stage, h.sent⟩
  | memoryCapture msg =>
    rw [hready] at hwithin
    rw [onReady_capture hready, onReady_capture hready,
      onCapture_congr (fun hreach => h.host.received _ (hwithin hreach))]
    refine SameConnection.reply ?_ _ _ _
    refine ⟨h.host.asked (fun k hk => ?_) _ _, h.stage, h.sent⟩
    exact onCapture_received_congr msg (h.host.received k hk)
  | file f =>
    rw [hready] at hwithin
    by_cases hbeat : f = .heartbeat
    · subst hbeat
      rw [onReady_heartbeat hready, onReady_heartbeat hready, h.host.registry]
      exact ⟨h.host.setTenant _, h.stage, h.sent⟩
    · obtain ⟨⟨heffects, hturn, hagree⟩, hlocks⟩ : Alike session.userDomain share.path
          (session.handle cfg a.now c.host.state f) (session.handle cfg a.now c'.host.state f) :=
        handle_alike h.host.state h.host.locks hwithin
      rw [onReady_file hready hbeat, onReady_file hready hbeat, heffects, hturn]
      refine SameConnection.perform ?_ _ _ _ _
      exact ⟨h.host.server hagree hlocks, h.stage, h.sent⟩

end

-- ---------------------------------------------------------------------------
-- A turn of another tenant
-- ---------------------------------------------------------------------------

section
variable {ι : Type} [DecidableEq ι] {share : Share} {domainOf : ι → String} {domain other : String}
  {c : Connection ι} {alone : Host ι}

theorem Alongside.perform_other (h : Alongside share domainOf domain c.host alone)
    (hsubscribers : ∀ tx ∈ (c.host.registry other).subscribers, domainOf tx ≠ domain) (tx : ι)
    (delivered : Bool) (next : Stage) (effects : List Effect) :
    Alongside share domainOf domain (Connection.perform tx other delivered next c effects).host alone := by
  induction effects generalizing c with
  | nil => exact h
  | cons effect effects ih =>
    cases effect with
    | putObject _ _ => exact ih h hsubscribers
    | send frame =>
      unfold Connection.perform
      split
      · exact ih h hsubscribers
      · exact h
    | broadcast frame =>
      unfold Connection.perform
      exact ih (h.deliver_other hsubscribers frame) hsubscribers
    | broadcastExcept frame =>
      unfold Connection.perform
      exact ih (h.deliver_other (fun tx htx => hsubscribers tx (List.mem_of_mem_filter htx)) frame) hsubscribers

variable {ed : Ed25519} {json : Json} {cfg : Config} {pool : MemoryPool} {tx : ι} {addr : String}
  {a : Arrival} {frame : Frame}

omit [DecidableEq ι] in
theorem reply_host (c : Connection ι) (delivered : Bool) (msg : Reply) (next : Stage) :
    (c.reply delivered msg next).host = c.host := by
  unfold Connection.reply
  split
  · rfl
  · rfl

omit [DecidableEq ι] in
theorem onHello_host (c : Connection ι) : (c.onHello json a frame).host = c.host := by
  unfold Connection.onHello
  split
  · rfl
  · split
    · rfl
    · exact reply_host ..

omit [DecidableEq ι] in
theorem onAuth_host (c : Connection ι) (hello : Hello) (nonce : String) :
    (c.onAuth ed json a hello nonce frame).host = c.host := by
  unfold Connection.onAuth
  split
  · rfl
  · split
    · rfl
    · exact reply_host ..

theorem Alongside.join_other (h : Alongside share domainOf domain c.host alone) {hello : Hello}
    (hother : domain ≠ hello.userDomain) (htx : domainOf tx ≠ domain)
    (hsubscribers : ∀ tx ∈ (c.host.registry hello.userDomain).subscribers, domainOf tx ≠ domain)
    (reg : Register) :
    Alongside share domainOf domain (Connection.join tx addr c a hello reg).host alone := by
  unfold Connection.join
  simp only
  split
  · refine ((h.setTenant_other hother _).setTenant_other hother _).deliver_other (fun i hi => ?_) _
    have hi : i ∈ (c.host.registry hello.userDomain).subscribers ++ [tx] := List.mem_of_mem_filter hi
    rcases List.mem_append.mp hi with hold | hnew
    · exact hsubscribers i hold
    · rwa [List.mem_singleton.mp hnew]
  · exact h.setTenant_other hother _

theorem Alongside.onRegister_other (h : Alongside share domainOf domain c.host alone) {hello : Hello}
    (hother : domain ≠ hello.userDomain) (htx : domainOf tx ≠ domain)
    (hsubscribers : ∀ tx ∈ (c.host.registry hello.userDomain).subscribers, domainOf tx ≠ domain) :
    Alongside share domainOf domain (c.onRegister ed json tx addr a hello frame).host alone := by
  unfold Connection.onRegister
  split
  · exact h
  · split
    · rename_i tenants hok
      refine Alongside.join_other (c := { c with host := { c.host with tenants } }) ?_ hother htx
        hsubscribers _
      exact { h with tenants := (verifyRegister_other hother hok).trans h.tenants }
    · rw [reply_host]
      exact h

theorem Alongside.onReady_other (h : Alongside share domainOf domain c.host alone) {session : Session}
    (hdir : sanitize domain ≠ sanitize session.userDomain)
    (hsubscribers : ∀ tx ∈ (c.host.registry session.userDomain).subscribers, domainOf tx ≠ domain)
    (hoff : share.Off cfg pool a (json.readyFrame frame)) :
    Alongside share domainOf domain (c.onReady json cfg pool tx a session frame).host alone := by
  have hother : domain ≠ session.userDomain := fun heq => hdir (by rw [heq])
  cases hready : json.readyFrame frame with
  | memoryRecall msg =>
    rw [onReady_recall hready, reply_host]
    exact h.asked_other (fun _ _ => rfl) _
  | memoryCapture msg =>
    rw [hready] at hoff
    rw [onReady_capture hready, reply_host]
    refine h.asked_other (fun k hk => onCapture_received_other fun hreach => ?_) _
    rintro rfl
    exact hoff hreach hk
  | file f =>
    rw [hready] at hoff
    by_cases hbeat : f = .heartbeat
    · subst hbeat
      rw [onReady_heartbeat hready]
      exact h.setTenant_other hother _
    · obtain ⟨hagree, hlocks⟩ : Agree domain (session.handle cfg a.now c.host.state f).server c.host.state ∧
          ∀ p, share.path p → (session.handle cfg a.now c.host.state f).server.locks p = c.host.state.locks p :=
        handle_unseen hdir hoff
      rw [onReady_file hready hbeat]
      refine Alongside.perform_other ?_ ?_ _ _ _ _
      · exact h.server_other hagree hlocks
      · exact hsubscribers

end

-- ---------------------------------------------------------------------------
-- Where connections and channels belong
-- ---------------------------------------------------------------------------

/-- The tenant that a connection has named. -/
def stageDomain : Stage → Option String
  | .auth hello _ | .register hello => some hello.userDomain
  | .ready session => some session.userDomain
  | .hello | .ended => none

section
variable {ι : Type} [DecidableEq ι]

/-- The channels of a tenant are those of its connections. -/
def Subscribed (domainOf : ι → String) (host : Host ι) : Prop :=
  ∀ d, ∀ tx ∈ (host.registry d).subscribers, domainOf tx = d

structure PlacedAt (domainOf : ι → String) (i : ι) (c : Connection ι) : Prop where
  stage : ∀ d, stageDomain c.stage = some d → d = domainOf i
  subscribed : Subscribed domainOf c.host

variable {domainOf : ι → String} {i : ι} {c : Connection ι} {host : Host ι}

omit [DecidableEq ι] in
theorem Subscribed.setTenant (h : Subscribed domainOf host) {t : Tenant ι}
    (ht : ∀ tx ∈ t.subscribers, domainOf tx = d) : Subscribed domainOf (host.setTenant d t) := by
  intro d' tx htx
  by_cases hd : d' = d
  · subst hd
    simp only [Host.setTenant, Function.update_self] at htx
    exact ht tx htx
  · simp only [Host.setTenant, Function.update_of_ne hd] at htx
    exact h d' tx htx

omit [DecidableEq ι] in
theorem PlacedAt.finish (h : PlacedAt domainOf i c) : PlacedAt domainOf i c.finish :=
  ⟨fun d hd => (by cases hd), h.subscribed⟩

omit [DecidableEq ι] in
theorem PlacedAt.reply (h : PlacedAt domainOf i c) (delivered : Bool) (msg : Reply) {next : Stage}
    (hnext : ∀ d, stageDomain next = some d → d = domainOf i) :
    PlacedAt domainOf i (c.reply delivered msg next) := by
  unfold Connection.reply
  split
  · exact ⟨hnext, h.subscribed⟩
  · exact h.finish

variable {ed : Ed25519} {json : Json} {cfg : Config} {pool : MemoryPool} {addr : String}
  {a : Arrival} {frame : Frame}

omit [DecidableEq ι] in
theorem PlacedAt.onHello (h : PlacedAt domainOf i c)
    (hspoken : ∀ hello, json.hello frame.payload = some hello → hello.userDomain = domainOf i) :
    PlacedAt domainOf i (c.onHello json a frame) := by
  unfold Connection.onHello
  split
  · exact h.finish
  · split
    · exact h.finish
    · rename_i hello hparsed
      refine h.reply _ _ fun d hd => ?_
      exact (Option.some.inj hd).symm.trans (hspoken hello hparsed)

omit [DecidableEq ι] in
theorem PlacedAt.onAuth (h : PlacedAt domainOf i c) {hello : Hello} (hhello : hello.userDomain = domainOf i)
    (nonce : String) : PlacedAt domainOf i (c.onAuth ed json a hello nonce frame) := by
  unfold Connection.onAuth
  split
  · exact h.finish
  · split
    · exact ⟨fun d hd => (Option.some.inj hd).symm.trans hhello, h.subscribed⟩
    · exact h.reply _ _ fun d hd => by cases hd

theorem PlacedAt.join (h : PlacedAt domainOf i c) {hello : Hello} (hhello : hello.userDomain = domainOf i)
    (reg : Register) : PlacedAt domainOf i (Connection.join i addr c a hello reg) := by
  have hown : ∀ tx ∈ (c.host.registry hello.userDomain).subscribers, domainOf tx = hello.userDomain :=
    h.subscribed hello.userDomain
  unfold Connection.join
  simp only
  split
  · refine ⟨fun d hd => (Option.some.inj hd).symm.trans hhello, ?_⟩
    have hregistered : Subscribed domainOf (c.host.setTenant hello.userDomain
        ((c.host.registry hello.userDomain).register (machineInfo reg addr a.now)).2) :=
      h.subscribed.setTenant hown
    refine hregistered.setTenant fun tx htx => ?_
    rcases List.mem_append.mp htx with hold | hnew
    · exact hown tx hold
    · rw [List.mem_singleton.mp hnew, hhello]
  · exact ⟨fun d hd => (by cases hd), h.subscribed.setTenant hown⟩

theorem PlacedAt.onRegister (h : PlacedAt domainOf i c) {hello : Hello}
    (hhello : hello.userDomain = domainOf i) :
    PlacedAt domainOf i (c.onRegister ed json i addr a hello frame) := by
  unfold Connection.onRegister
  split
  · exact h.finish
  · split
    · refine PlacedAt.join ?_ hhello _
      exact ⟨h.stage, h.subscribed⟩
    · exact h.reply _ _ fun d hd => by cases hd

/-- A session stays with its tenant. -/
theorem turn_domain (cfg : Config) (now : Nat) (server : ServerState) (session : Session) (f : ClientFrame)
    (h : stageDomain (session.handle cfg now server f).turn.stage = some d) : d = session.userDomain := by
  cases hturn : (session.handle cfg now server f).turn with
  | ready session' =>
    rw [hturn] at h
    have hstore := (handle_store cfg now server session f).1
    rw [hturn] at hstore
    rw [← hstore.domain]
    exact (Option.some.inj h).symm
  | failed =>
    rw [hturn] at h
    cases h
  | panicked =>
    rw [hturn] at h
    cases h

theorem PlacedAt.onReady (h : PlacedAt domainOf i c) {session : Session}
    (hsession : session.userDomain = domainOf i) :
    PlacedAt domainOf i (c.onReady json cfg pool i a session frame) := by
  have hready (d) (hd : stageDomain (.ready session) = some d) : d = domainOf i :=
    (Option.some.inj hd).symm.trans hsession
  cases hframe : json.readyFrame frame with
  | memoryRecall msg =>
    rw [onReady_recall hframe]
    refine PlacedAt.reply ?_ _ _ hready
    exact ⟨h.stage, h.subscribed⟩
  | memoryCapture msg =>
    rw [onReady_capture hframe]
    refine PlacedAt.reply ?_ _ _ hready
    exact ⟨h.stage, h.subscribed⟩
  | file f =>
    by_cases hbeat : f = .heartbeat
    · subst hbeat
      rw [onReady_heartbeat hframe]
      refine ⟨h.stage, h.subscribed.setTenant fun tx htx => ?_⟩
      rw [Tenant.heartbeat_subscribers] at htx
      exact h.subscribed session.userDomain tx htx
    · rw [onReady_file hframe hbeat]
      refine ⟨fun d hd => ?_, ?_⟩
      · rcases perform_stage i session.userDomain a.delivered
          (session.handle cfg a.now c.host.state f).turn.stage
          (session.handle cfg a.now c.host.state f).effects _ with hstage | hstage
        · rw [hstage] at hd
          exact (turn_domain cfg a.now c.host.state session f hd).trans hsession
        · rw [hstage] at hd
          cases hd
      · intro d tx htx
        rw [perform_registry] at htx
        exact h.subscribed d tx htx

theorem PlacedAt.onEnd (h : PlacedAt domainOf i c) : PlacedAt domainOf i c.onEnd := by
  unfold Connection.onEnd
  split
  · exact ⟨fun d hd => (by cases hd), h.subscribed⟩
  · exact h.finish

end

-- ---------------------------------------------------------------------------
-- One arrival
-- ---------------------------------------------------------------------------

section
variable {ι : Type} [DecidableEq ι] {domainOf : ι → String} {i : ι} {c : Connection ι}
  {ed : Ed25519} {json : Json} {cfg : Config} {pool : MemoryPool} {addr : String} {a : Arrival}

/-- Connection `i` says HELLO for its own tenant. -/
def SpeaksFor (json : Json) (domainOf : ι → String) (i : ι) (stage : Stage) (a : Arrival) : Prop :=
  ∀ frame, a.frame = some frame → stage = .hello →
    ∀ hello, json.hello frame.payload = some hello → hello.userDomain = domainOf i

/-- What a session sends in the ready loop meets a condition. -/
def ReadyWith (json : Json) (cond : ReadyFrame → Prop) (stage : Stage) (a : Arrival) : Prop :=
  ∀ frame session, a.frame = some frame → stage = .ready session → cond (json.readyFrame frame)

theorem PlacedAt.step (h : PlacedAt domainOf i c) (hspeaks : SpeaksFor json domainOf i c.stage a) :
    PlacedAt domainOf i (c.step ed json cfg pool i addr a) := by
  unfold Connection.step
  cases hframe : a.frame with
  | none => exact h.onEnd
  | some frame =>
    cases hstage : c.stage with
    | hello => exact h.onHello (hspeaks frame hframe hstage)
    | auth hello nonce => exact h.onAuth (h.stage _ (by rw [hstage]; rfl)) nonce
    | register hello => exact h.onRegister (h.stage _ (by rw [hstage]; rfl))
    | ready session => exact h.onReady (h.stage _ (by rw [hstage]; rfl))
    | ended => exact h

variable {share : Share} {domain : String}

/-- An arrival at a connection of the tenant does the same on both servers. -/
theorem SameConnection.step {c' : Connection ι} (h : SameConnection share domainOf domain c c')
    (hplaced : PlacedAt domainOf i c) (hi : domainOf i = domain)
    (hwithin : ReadyWith json (share.Within cfg pool a) c.stage a) :
    SameConnection share domainOf domain (c.step ed json cfg pool i addr a)
      (c'.step ed json cfg pool i addr a) := by
  have hdomain (d) (hd : stageDomain c.stage = some d) : d = domain := (hplaced.stage d hd).trans hi
  unfold Connection.step
  cases hframe : a.frame with
  | none =>
    simp only [Connection.onEnd, ← h.stage]
    cases hstage : c.stage with
    | ready session =>
      obtain rfl : session.userDomain = domain := hdomain _ (by rw [hstage]; rfl)
      simp only [h.host.registry]
      exact ⟨h.host.deliver _ _, rfl, h.sent⟩
    | hello => exact h.finish
    | auth hello nonce => exact h.finish
    | register hello => exact h.finish
    | ended => exact h.finish
  | some frame =>
    rw [← h.stage]
    cases hstage : c.stage with
    | hello => exact h.onHello
    | auth hello nonce => exact h.onAuth (hdomain _ (by rw [hstage]; rfl)) nonce
    | register hello => exact h.onRegister (hdomain _ (by rw [hstage]; rfl))
    | ready session =>
      exact h.onReady (hdomain _ (by rw [hstage]; rfl)) (hwithin frame session hframe hstage)
    | ended => exact h

/-- An arrival at another connection is not seen. -/
theorem Alongside.step_other {alone : Host ι} (h : Alongside share domainOf domain c.host alone)
    (hplaced : PlacedAt domainOf i c) (hdir : sanitize domain ≠ sanitize (domainOf i))
    (hoff : ReadyWith json (share.Off cfg pool a) c.stage a) :
    Alongside share domainOf domain (c.step ed json cfg pool i addr a).host alone := by
  have hi : domainOf i ≠ domain := fun heq => hdir (by rw [heq])
  have hsubscribers : ∀ tx ∈ (c.host.registry (domainOf i)).subscribers, domainOf tx ≠ domain :=
    fun tx htx => by rwa [hplaced.subscribed _ tx htx]
  unfold Connection.step
  cases hframe : a.frame with
  | none =>
    simp only [Connection.onEnd]
    cases hstage : c.stage with
    | ready session =>
      obtain hsession : session.userDomain = domainOf i := hplaced.stage _ (by rw [hstage]; rfl)
      rw [← hsession] at hsubscribers
      exact h.deliver_other hsubscribers _
    | hello => exact h
    | auth hello nonce => exact h
    | register hello => exact h
    | ended => exact h
  | some frame =>
    cases hstage : c.stage with
    | hello =>
      simp only [onHello_host]
      exact h
    | auth hello nonce =>
      simp only [onAuth_host]
      exact h
    | register hello =>
      have hhello : hello.userDomain = domainOf i := hplaced.stage _ (by rw [hstage]; rfl)
      rw [← hhello] at hsubscribers
      exact h.onRegister_other (fun heq => hi (hhello.symm.trans heq.symm)) hi hsubscribers
    | ready session =>
      have hsession : session.userDomain = domainOf i := hplaced.stage _ (by rw [hstage]; rfl)
      rw [← hsession] at hsubscribers hdir
      exact h.onReady_other hdir hsubscribers (hoff frame session hframe hstage)
    | ended => exact h

end

-- ---------------------------------------------------------------------------
-- Two runs
-- ---------------------------------------------------------------------------

namespace Relay

variable {ι : Type} [DecidableEq ι]

/-- The events of a tenant, and those of the server as a whole. -/
def ofTenant (domainOf : ι → String) (domain : String) : RelayEvent ι → Bool
  | .login (.arrive i _ _) => domainOf i = domain
  | .login (.upsertTenant other _) => other = domain
  | .prune other _ _ => other = domain
  | .cleanup _ | .restart _ => true

/-- Connections speak for their own tenant. In the ready loop the tenant's frames stay
within its share, and the frames of the others stay off it. -/
def Separate (json : Json) (cfg : Config) (pool : MemoryPool) (share : Share) (domainOf : ι → String)
    (domain : String) (s : Logins ι) : RelayEvent ι → Prop
  | .login (.arrive i a _) =>
    SpeaksFor json domainOf i (s.stage i) a ∧
    (domainOf i = domain → ReadyWith json (share.Within cfg pool a) (s.stage i) a) ∧
    (domainOf i ≠ domain → ReadyWith json (share.Off cfg pool a) (s.stage i) a)
  | .login (.upsertTenant _ _) | .prune _ _ _ | .cleanup _ | .restart _ => True

/-- The connections of the tenant are the same in both runs. -/
structure Seen (share : Share) (domainOf : ι → String) (domain : String) (s alone : Logins ι) : Prop where
  placed : ∀ i d, stageDomain (s.stage i) = some d → d = domainOf i
  subscribed : Subscribed domainOf s.host
  host : Alongside share domainOf domain s.host alone.host
  stage : ∀ i, domainOf i = domain → s.stage i = alone.stage i
  sent : ∀ i, domainOf i = domain → s.sent i = alone.sent i

variable {ed : Ed25519} {json : Json} {cfg : Config} {pool : MemoryPool} {addr : ι → String}
  {share : Share} {domainOf : ι → String} {domain : String} {s alone : Logins ι}

theorem placed_arrive (ed : Ed25519) (cfg : Config) (pool : MemoryPool) (addr : ι → String)
    (hplaced : ∀ i d, stageDomain (s.stage i) = some d → d = domainOf i)
    (hsubscribed : Subscribed domainOf s.host) {i : ι} {a : Arrival}
    (hspeaks : SpeaksFor json domainOf i (s.stage i) a) (server : HostIdentity) :
    (∀ j d, stageDomain ((step ed json cfg pool addr s (.login (.arrive i a server))).stage j) = some d →
      d = domainOf j) ∧
    Subscribed domainOf (step ed json cfg pool addr s (.login (.arrive i a server))).host := by
  have hstep : PlacedAt domainOf i ((s.connection i).step ed json cfg pool i (addr i)
      (Logins.onServer cfg a server)) := PlacedAt.step ⟨hplaced i, hsubscribed⟩ hspeaks
  refine ⟨fun j d hd => ?_, hstep.subscribed⟩
  by_cases hj : j = i
  · subst hj
    simp only [step, Logins.step, Function.update_self] at hd
    exact hstep.stage d hd
  · simp only [step, Logins.step, Function.update_of_ne hj] at hd
    exact hplaced j d hd

theorem Seen.arrive (h : Seen share domainOf domain s alone) {i : ι} {a : Arrival} (hi : domainOf i = domain)
    (hspeaks : SpeaksFor json domainOf i (s.stage i) a)
    (hwithin : ReadyWith json (share.Within cfg pool a) (s.stage i) a) (server : HostIdentity) :
    Seen share domainOf domain (step ed json cfg pool addr s (.login (.arrive i a server)))
      (step ed json cfg pool addr alone (.login (.arrive i a server))) := by
  obtain ⟨hplaced, hsubscribed⟩ := placed_arrive ed cfg pool addr h.placed h.subscribed hspeaks server
  have hstep : SameConnection share domainOf domain
      ((s.connection i).step ed json cfg pool i (addr i) (Logins.onServer cfg a server))
      ((alone.connection i).step ed json cfg pool i (addr i) (Logins.onServer cfg a server)) :=
    SameConnection.step ⟨h.host, h.stage i hi, h.sent i hi⟩ ⟨h.placed i, h.subscribed⟩ hi hwithin
  refine ⟨hplaced, hsubscribed, hstep.host, fun j hj => ?_, fun j hj => ?_⟩
  · by_cases hij : j = i
    · subst hij
      simp only [step, Logins.step, Function.update_self]
      exact hstep.stage
    · simp only [step, Logins.step, Function.update_of_ne hij]
      exact h.stage j hj
  · by_cases hij : j = i
    · subst hij
      simp only [step, Logins.step, Function.update_self]
      exact hstep.sent
    · simp only [step, Logins.step, Function.update_of_ne hij]
      exact h.sent j hj

theorem Seen.arrive_other (h : Seen share domainOf domain s alone) {i : ι} {a : Arrival}
    (hdir : sanitize domain ≠ sanitize (domainOf i)) (hspeaks : SpeaksFor json domainOf i (s.stage i) a)
    (hoff : ReadyWith json (share.Off cfg pool a) (s.stage i) a) (server : HostIdentity) :
    Seen share domainOf domain (step ed json cfg pool addr s (.login (.arrive i a server))) alone := by
  obtain ⟨hplaced, hsubscribed⟩ := placed_arrive ed cfg pool addr h.placed h.subscribed hspeaks server
  have hne (j) (hj : domainOf j = domain) : j ≠ i := by
    rintro rfl
    exact hdir (by rw [hj])
  refine ⟨hplaced, hsubscribed, ?_, fun j hj => ?_, fun j hj => ?_⟩
  · exact Alongside.step_other (c := s.connection i) h.host ⟨h.placed i, h.subscribed⟩ hdir hoff
  · simp only [step, Logins.step, Function.update_of_ne (hne j hj)]
    exact h.stage j hj
  · simp only [step, Logins.step, Function.update_of_ne (hne j hj)]
    exact h.sent j hj

theorem Seen.keep (h : Seen share domainOf domain s alone) {e : RelayEvent ι}
    (hsep : Separate json cfg pool share domainOf domain s e) (hown : ofTenant domainOf domain e = true) :
    Seen share domainOf domain (step ed json cfg pool addr s e) (step ed json cfg pool addr alone e) := by
  cases e with
  | login e =>
    cases e with
    | arrive i a server =>
      have hi : domainOf i = domain := of_decide_eq_true hown
      exact h.arrive hi hsep.1 (hsep.2.1 hi) server
    | upsertTenant other domainPubkey =>
      obtain rfl : other = domain := of_decide_eq_true hown
      refine ⟨h.placed, h.subscribed, ?_, h.stage, h.sent⟩
      refine { h.host with tenants := ?_ }
      simp only [step, Logins.step, TenantStore.upsertTenant, Function.update_self, h.host.tenants]
  | prune other info now =>
    obtain rfl : other = domain := of_decide_eq_true hown
    refine ⟨h.placed, ?_, ?_, h.stage, h.sent⟩
    · refine h.subscribed.setTenant fun tx htx => ?_
      rw [Tenant.prune_subscribers] at htx
      exact h.subscribed other tx htx
    · simp only [step, prune, h.host.registry]
      exact (h.host.setTenant _).deliver _ _
  | cleanup readAt =>
    refine ⟨h.placed, h.subscribed, ?_, h.stage, h.sent⟩
    refine { h.host with locks := fun p hp => ?_ }
    simp only [step, cleanup, LockRegistry.cleanup, h.host.locks p hp]
  | restart tenants =>
    refine ⟨fun i d hd => ?_, fun d tx htx => ?_, ?_, fun i hi => ?_, h.sent⟩
    · simp only [step] at hd
      split at hd
      · cases hd
      · cases hd
    · cases htx
    · exact ⟨rfl, rfl, fun _ _ => rfl, h.host.fs, rfl, rfl, fun _ _ => rfl, h.host.received⟩
    · simp only [step, h.stage i hi]

theorem Seen.drop (h : Seen share domainOf domain s alone) {e : RelayEvent ι}
    (hdirs : ∀ i, sanitize (domainOf i) = sanitize domain → domainOf i = domain)
    (hsep : Separate json cfg pool share domainOf domain s e) (hother : ofTenant domainOf domain e = false) :
    Seen share domainOf domain (step ed json cfg pool addr s e) alone := by
  cases e with
  | login e =>
    cases e with
    | arrive i a server =>
      have hi : domainOf i ≠ domain := of_decide_eq_false hother
      exact h.arrive_other (fun heq => hi (hdirs i heq.symm)) hsep.1 (hsep.2.2 hi) server
    | upsertTenant other domainPubkey =>
      have hne : other ≠ domain := of_decide_eq_false hother
      refine ⟨h.placed, h.subscribed, ?_, h.stage, h.sent⟩
      exact { h.host with tenants := (Function.update_of_ne hne.symm ..).trans h.host.tenants }
  | prune other info now =>
    have hne : other ≠ domain := of_decide_eq_false hother
    refine ⟨h.placed, ?_, ?_, h.stage, h.sent⟩
    · refine h.subscribed.setTenant fun tx htx => ?_
      rw [Tenant.prune_subscribers] at htx
      exact h.subscribed other tx htx
    · refine (h.host.setTenant_other hne.symm _).deliver_other (fun tx htx => ?_) _
      rw [Tenant.prune_subscribers] at htx
      rwa [h.subscribed other tx htx]
  | cleanup readAt => cases hother
  | restart tenants => cases hother

/-- A signature of `text` that the key accepts. -/
structure Signed where
  key : String
  text : String
  signature : String

/-- What four keys have signed: a tenant its nonce and its machine who it is, then the
same for the other tenant. -/
def signedTexts : List Signed :=
  [⟨"8a88e3dd7409f195fd52db2d3cba5d72ca6709bf1d94121bf3748801b40f6f5c",
      "nsmt-nonce-1770000000000-caf90169eefa5f80",
      "f269e394a3bd9997a53fbfd07f6d50fc4b536a0710f378406cac56eb00ab243d" ++
        "db5161110df8a4f0f97f700e893091cacaa7feb48e4eccbca29877ebb1c50609"⟩,
    ⟨"ed4928c628d1c2c6eae90338905995612959273a5c63f93636c14614ac8737d1", "0123456789abcdef\nmaka",
      "998696e08314abef6c3d3cc733af7f32d6f1030952ae01ec0bf30e1d1e909b9b" ++
        "2cd5370655f9d766e6fb01310a2cc0343de2f56feea271bf5e7361794dfb630e"⟩,
    ⟨"8139770ea87d175f56a35466c34c7ecccb8d8a91b4ee37a25df60f5b8fc9b394",
      "nsmt-nonce-1770000000001-caf90169eefa5f80",
      "abd2d4ba3ae3b3f5a7124dd2f4388d93778b871dd9e7c01bdc0fbae52af8950d" ++
        "6824ec977498ffa31c154905d601927c1be5b6e3f4389b1d1e5c223775e9110d"⟩,
    ⟨"ca93ac1705187071d67b83c7ff0efe8108e8ec4530575d7726879333dbdabe7c", "fedcba9876543210\nmaka",
      "9c8e6e785e20ea8a4cd621741135bcfe70920a9a379cbc31752e39dbcc76e9df" ++
        "83953bc62922b6f7dedeea172223d681f445d37d6f30176f52099bde8516b60d"⟩]

/-- Ed25519 as far as these keys and texts go. -/
def signers : Ed25519 where
  isPoint key := signedTexts.any fun s => s.key = hexEncode key
  verify key msg signature :=
    signedTexts.any fun s =>
      utf8 s.text = msg && s.key = hexEncode key && s.signature = hexEncode signature

def tenantOf (i : Bool) : String := if i then "acme" else "beta"

def signedBy (k : Nat) : Signed := signedTexts.getD k ⟨"", "", ""⟩

def joining (i : Bool) : Register where
  machineId := if i then "0123456789abcdef" else "fedcba9876543210"
  agentTag := "maka"
  peerAddr := ""
  machinePubkey := (signedBy (if i then 1 else 3)).key
  machineSignature := (signedBy (if i then 1 else 3)).signature

def locking (i : Bool) : LockAcquire where
  path := if i then "notes.md" else "todo.md"
  requester := tenantOf i ++ "/" ++ (joining i).machineId ++ "/maka"
  ttlMs := 30000

def helloOf (i : Bool) : Bytes :=
  utf8 "\x7b\"user_domain\":\"" ++ utf8 (tenantOf i) ++
    utf8 "\",\"protocol_version\":1," ++ utf8 "\"client\":\"yggd/0.1.0\"\x7d"

def authOf (i : Bool) : Bytes :=
  utf8 "\x7b\"user_domain\":\"" ++ utf8 (tenantOf i) ++ utf8 "\",\"nonce_signature\":\"" ++
    utf8 (signedBy (if i then 0 else 2)).signature ++ utf8 "\"\x7d"

def registerOf (i : Bool) : Bytes :=
  utf8 "\x7b\"machine_id\":\"" ++ utf8 (joining i).machineId ++
    utf8 "\",\"agent_tag\":\"maka\"," ++ utf8 "\"peer_addr\":\"\",\"machine_pubkey\":\"" ++
    utf8 (joining i).machinePubkey ++ utf8 "\",\"machine_signature\":\"" ++
    utf8 (joining i).machineSignature ++ utf8 "\"\x7d"

def lockOf (i : Bool) : Bytes :=
  utf8 "\x7b\"path\":\"" ++ utf8 (locking i).path ++ utf8 "\",\"requester\":\"" ++
    utf8 (locking i).requester ++ utf8 "\",\"ttl_ms\":30000\x7d"

/-- A parser that knows the texts of the two tenants. -/
def texts : Json :=
  { Connection.twoTexts with
    hello := fun payload =>
      [true, false].findSome? fun i =>
        if payload = helloOf i then some ⟨tenantOf i, 1, "yggd/0.1.0"⟩ else none
    auth := fun payload =>
      [true, false].findSome? fun i =>
        if payload = authOf i then some ⟨tenantOf i, (signedBy (if i then 0 else 2)).signature⟩ else none
    register := fun payload =>
      [true, false].findSome? fun i => if payload = registerOf i then some (joining i) else none
    lockAcquire := fun payload =>
      [true, false].findSome? fun i => if payload = lockOf i then some (locking i) else none }

def twoTenants : Host Bool :=
  { Logins.quietHost Bool with
    tenants := fun d =>
      if d = "acme" then some { domainPubkey := (signedBy 0).key, machines := fun _ => none }
      else if d = "beta" then some { domainPubkey := (signedBy 2).key, machines := fun _ => none }
      else none }

def said (i : Bool) (frameType : FrameType) (text : Bytes) (now : Nat) : RelayEvent Bool :=
  .login (.arrive i { Connection.arrivalOf (some ⟨frameType, 0, 0, text⟩) with now }
    ⟨none, none, "linux"⟩)

/-- Both log in, and each locks a path. -/
def bothLock : List (RelayEvent Bool) :=
  [said true .hello (helloOf true) 1770000000000, said false .hello (helloOf false) 1770000000001,
    said false .auth (authOf false) 1770000000002, said true .auth (authOf true) 1770000000003,
    said false .register (registerOf false) 1770000000004, said true .register (registerOf true) 1770000000005,
    said false .lockAcquire (lockOf false) 1770000000006, .cleanup 1770000000007,
    .login (.upsertTenant "gamma" ""), said true .lockAcquire (lockOf true) 1770000000008]

def notesOnly : Share where
  path p := p = "notes.md"
  shard _ := False

theorem separate_said {i : Bool} {frameType : FrameType} {text : Bytes} (f : ClientFrame)
    (hhello : ((texts.hello text).all fun hello => hello.userDomain = tenantOf i) = true)
    (hready : texts.readyFrame ⟨frameType, 0, 0, text⟩ = .file f)
    (hown : i = true → Keeps notesOnly.path f) (hoff : i = false → Keeps (fun p => ¬ notesOnly.path p) f)
    (now : Nat) (s : Logins Bool) :
    Separate texts .default .recorder notesOnly tenantOf "acme" s (said i frameType text now) := by
  refine ⟨fun frame hframe _ hello hparsed => ?_, fun hi frame session hframe _ => ?_,
    fun hi frame session hframe _ => ?_⟩
  · obtain rfl := Option.some.inj hframe
    rw [hparsed] at hhello
    exact of_decide_eq_true hhello
  · obtain rfl := Option.some.inj hframe
    rw [hready]
    exact hown (by cases i <;> simp_all [tenantOf])
  · obtain rfl := Option.some.inj hframe
    rw [hready]
    exact hoff (by cases i <;> simp_all [tenantOf])

theorem bothLock_separate : AllSteps
    (step signers texts .default .recorder fun _ => "127.0.0.1:1")
    (Separate texts .default .recorder notesOnly tenantOf "acme") (Logins.start twoTenants) bothLock := by
  have hother (i : Bool) {frameType : FrameType} {text : Bytes}
      (hhello : ((texts.hello text).all fun hello => hello.userDomain = tenantOf i) = true)
      (hready : texts.readyFrame ⟨frameType, 0, 0, text⟩ = .file .unhandled) (now : Nat) (s : Logins Bool) :
      Separate texts .default .recorder notesOnly tenantOf "acme" s (said i frameType text now) :=
    separate_said .unhandled hhello hready (fun _ => trivial) (fun _ => trivial) now s
  refine ⟨hother true (by decide +kernel) (by decide +kernel) _ _,
    hother false (by decide +kernel) (by decide +kernel) _ _,
    hother false (by decide +kernel) (by decide +kernel) _ _,
    hother true (by decide +kernel) (by decide +kernel) _ _,
    hother false (by decide +kernel) (by decide +kernel) _ _,
    hother true (by decide +kernel) (by decide +kernel) _ _,
    separate_said (.lockAcquire (locking false)) (by decide +kernel) (by decide +kernel) (fun h => by cases h)
      (fun _ => ?_) _ _, trivial, trivial,
    separate_said (.lockAcquire (locking true)) (by decide +kernel) (by decide +kernel) (fun _ => rfl)
      (fun h => by cases h) _ _, trivial⟩
  show "todo.md" ≠ "notes.md"
  decide

end Relay

end Nsmt.System
