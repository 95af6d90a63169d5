import Nsmt.Core.Frame
import Nsmt.Server.Joins
import Nsmt.Server.Memory
import Nsmt.Server.Presence
import Nsmt.Server.Session
import Nsmt.Server.Tenants

/-!
# The handshake of a session

`session::handle` from the first frame of a connection: HELLO, AUTH, REGISTER,
then the ready loop. Only the type of the first frame is looked at, and AUTH's
own domain is not. `failed_handshake_no_effect` says that a client which does
not verify leaves everything the sessions share as it was.
-/

namespace Nsmt.Server

open Nsmt.Lib Nsmt.Core

/-- `serde_json` on the payloads a session parses. -/
structure Json where
  hello : Bytes → Option Hello
  auth : Bytes → Option Auth
  register : Bytes → Option Register
  memoryRecall : Bytes → Option MemoryRecall
  memoryCapture : Bytes → Option MemoryCapture
  fileTree : Bytes → Option FileTree
  fileDiff : Bytes → Option FileDiff
  fileGet : Bytes → Option FileGet
  filePut : Bytes → Option FilePut
  lockAcquire : Bytes → Option LockAcquire
  lockRenew : Bytes → Option LockRenew
  lockRelease : Bytes → Option LockRelease

/-- The payload where it parses. -/
def parsed {α : Type} (make : α → ReadyFrame) (msg : Option α) : ReadyFrame :=
  (msg.map make).getD (.file .malformed)

/-- The dispatch of the ready loop by the type of the frame. -/
def Json.readyFrame (json : Json) (frame : Frame) : ReadyFrame :=
  match frame.frameType with
  | .fileChunk => .file (.fileChunk frame.payload)
  | .heartbeat => .file .heartbeat
  | .memoryRecall => parsed .memoryRecall (json.memoryRecall frame.payload)
  | .memoryCapture => parsed .memoryCapture (json.memoryCapture frame.payload)
  | .fileTree => parsed (.file ∘ .fileTree) (json.fileTree frame.payload)
  | .fileDiff => parsed (.file ∘ .fileDiff) (json.fileDiff frame.payload)
  | .fileGet => parsed (.file ∘ .fileGet) (json.fileGet frame.payload)
  | .filePut => parsed (.file ∘ .filePut) (json.filePut frame.payload)
  | .lockAcquire => parsed (.file ∘ .lockAcquire) (json.lockAcquire frame.payload)
  | .lockRenew => parsed (.file ∘ .lockRenew) (json.lockRenew frame.payload)
  | .lockRelease => parsed (.file ∘ .lockRelease) (json.lockRelease frame.payload)
  | _ => .file .unhandled

/-- `nonce()`; the machine id in it is the one of the server. -/
def Connection.nonce (nowMs : Nat) (machineId : String) : String :=
  "nsmt-nonce-" ++ toString nowMs ++ "-" ++ machineId

/-- What the sessions share. The online machines are those of the registry, see
`state`; `poolRequests` are the memory frames that went to the pool. -/
structure Host (χ : Type) where
  tenants : TenantStore
  registry : String → Tenant χ
  channel : χ → List ServerFrame
  server : ServerState
  received : Received
  poolRequests : List ReadyFrame

/-- What the session gets from its `recv`, `none` at the end of the stream or on
an error, and what its surroundings are then: the clock, the id a nonce is made
with, whether answers can be sent, and the pool. -/
structure Arrival where
  frame : Option Frame
  now : Nat
  random : String
  delivered : Bool
  reachable : Nat → Bool
  latencyMs : Nat

inductive Reply
  | helloAck (msg : HelloAck)
  | registerAck (msg : RegisterAck)
  | memoryRecallResult (msg : MemoryRecallResult)
  | memoryCaptureResult (msg : MemoryCaptureResult)
  | frame (frame : ServerFrame)
  deriving DecidableEq, Repr

inductive Stage
  | hello
  | auth (hello : Hello) (nonce : String)
  | register (hello : Hello)
  | ready (session : Session)
  | ended
  deriving DecidableEq

/-- Where the session is after a turn of its loop. -/
def Turn.stage : Turn → Stage
  | .ready session => .ready session
  | .failed | .panicked => .ended

structure Connection (χ : Type) where
  host : Host χ
  stage : Stage
  sent : List Reply

def errorReply (code message : String) : Reply :=
  .frame (.error { code, message, requestId := none })

namespace Host

variable {χ : Type} (host : Host χ)

def state : ServerState :=
  { host.server with machines := fun domain mid => (host.registry domain).machines.lookup mid }

def setTenant (domain : String) (t : Tenant χ) : Host χ :=
  { host with registry := Function.update host.registry domain t }

end Host

namespace Connection

variable {χ : Type} [DecidableEq χ] (ed : Ed25519) (json : Json) (cfg : Config) (pool : MemoryPool)
  (tx : χ) (addr : String)

def start (host : Host χ) : Connection χ := { host, stage := .hello, sent := [] }

/-- A `?`, or the end of the handler. -/
def finish (c : Connection χ) : Connection χ := { c with stage := .ended }

/-- A reply that cannot be sent ends the session. -/
def reply (c : Connection χ) (delivered : Bool) (msg : Reply) (next : Stage) : Connection χ :=
  if delivered then { c with stage := next, sent := c.sent ++ [msg] } else c.finish

def onHello (c : Connection χ) (a : Arrival) (frame : Frame) : Connection χ :=
  if frame.frameType ≠ .hello then c.finish
  else
    match json.hello frame.payload with
    | none => c.finish
    | some hello =>
      let authNonce := Connection.nonce a.now a.random
      c.reply a.delivered (.helloAck { nonce := authNonce, tenantExists := true })
        (.auth hello authNonce)

def onAuth (c : Connection χ) (a : Arrival) (hello : Hello) (authNonce : String) (frame : Frame) :
    Connection χ :=
  match json.auth frame.payload with
  | none => c.finish
  | some auth =>
    match c.host.tenants.verifyAuth ed hello.userDomain authNonce auth.nonceSignature with
    | .ok () => { c with stage := .register hello }
    | .error e => c.reply a.delivered (errorReply "0xE002" ("auth_failed: " ++ e)) .ended

/-- A verified machine registers, is acknowledged, subscribes and is announced. -/
def join (c : Connection χ) (a : Arrival) (hello : Hello) (reg : Register) : Connection χ :=
  let info := machineInfo reg addr a.now
  let (snapshot, t) := (c.host.registry hello.userDomain).register info
  let c := { c with host := c.host.setTenant hello.userDomain t }
  if a.delivered then
    let t := (t.subscribe tx).2
    { host :=
        { c.host.setTenant hello.userDomain t with
          channel := t.broadcastExcept (joinFrame info) tx c.host.channel }
      stage := .ready
        { userDomain := hello.userDomain
          machineId := reg.machineId
          remoteAddress := addr
          pendingUpload := none }
      sent := c.sent ++ [.registerAck { machines := snapshot }] }
  else c.finish

def onRegister (c : Connection χ) (a : Arrival) (hello : Hello) (frame : Frame) : Connection χ :=
  match json.register frame.payload with
  | none => c.finish
  | some reg =>
    match c.host.tenants.verifyRegister ed hello.userDomain reg.machineId reg.agentTag
        reg.machinePubkey reg.machineSignature with
    | .ok tenants => join tx addr { c with host := { c.host with tenants } } a hello reg
    | .error e => c.reply a.delivered (errorReply "0xE004" ("register_failed: " ++ e)) .ended

/-- The effects of a turn in their order, as far as they can be sent. -/
def perform (domain : String) (delivered : Bool) (next : Stage) (c : Connection χ) :
    List Effect → Connection χ
  | [] => { c with stage := next }
  | .putObject _ _ :: effects => c.perform domain delivered next effects
  | .send frame :: effects =>
    if delivered then
      perform domain delivered next { c with sent := c.sent ++ [.frame frame] } effects
    else c.finish
  | .broadcast frame :: effects =>
    let channel := (c.host.registry domain).broadcast frame c.host.channel
    perform domain delivered next { c with host := { c.host with channel } } effects
  | .broadcastExcept frame :: effects =>
    let channel := (c.host.registry domain).broadcastExcept frame tx c.host.channel
    perform domain delivered next { c with host := { c.host with channel } } effects

/-- One frame in the ready loop. A heartbeat goes to the registry itself. -/
def onReady (c : Connection χ) (a : Arrival) (session : Session) (frame : Frame) : Connection χ :=
  let host := c.host
  match json.readyFrame frame with
  | .memoryRecall msg =>
    let result := pool.onRecall host.received a.reachable msg a.latencyMs
    { c with host := { host with poolRequests := host.poolRequests ++ [json.readyFrame frame] } }.reply
      a.delivered (.memoryRecallResult result) (.ready session)
  | .memoryCapture msg =>
    let (result, received) := pool.onCapture host.received a.reachable cfg.sha256 msg
    let poolRequests := host.poolRequests ++ [json.readyFrame frame]
    { c with host := { host with received, poolRequests } }.reply
      a.delivered (.memoryCaptureResult result) (.ready session)
  | .file .heartbeat =>
    let t := (host.registry session.userDomain).heartbeat a.now session.machineId
    { c with host := host.setTenant session.userDomain t }
  | .file frame =>
    let reaction := session.handle cfg a.now host.state frame
    perform tx session.userDomain a.delivered reaction.turn.stage
      { c with host := { host with server := reaction.server } } reaction.effects

/-- The stream has ended. In the ready loop the machine is said to leave. -/
def onEnd (c : Connection χ) : Connection χ :=
  match c.stage with
  | .ready session =>
    let frame := .onlineDelta { kind := .leave, machine := leaving session.machineId }
    let channel := (c.host.registry session.userDomain).broadcast frame c.host.channel
    { c with host := { c.host with channel }, stage := .ended }
  | _ => c.finish

def step (c : Connection χ) (a : Arrival) : Connection χ :=
  match a.frame with
  | none => c.onEnd
  | some frame =>
    match c.stage with
    | .hello => c.onHello json a frame
    | .auth hello authNonce => c.onAuth ed json a hello authNonce frame
    | .register hello => c.onRegister ed json tx addr a hello frame
    | .ready session => c.onReady json cfg pool tx a session frame
    | .ended => c

end Connection

-- ---------------------------------------------------------------------------
-- A client that verifies
-- ---------------------------------------------------------------------------

section
variable (json : Json) (a : Arrival)

def SaysHello (hello : Hello) : Prop :=
  ∃ frame, a.frame = some frame ∧ frame.frameType = .hello ∧ json.hello frame.payload = some hello

def SaysAuth (auth : Auth) : Prop :=
  ∃ frame, a.frame = some frame ∧ json.auth frame.payload = some auth

def SaysRegister (reg : Register) : Prop :=
  ∃ frame, a.frame = some frame ∧ json.register frame.payload = some reg

end

/-- The signature is good for the domain of the HELLO over the nonce of the session. -/
def AuthVerifies (ed : Ed25519) (tenants : TenantStore) (a : Arrival) (hello : Hello)
    (auth : Auth) : Prop :=
  tenants.verifyAuth ed hello.userDomain (Connection.nonce a.now a.random) auth.nonceSignature = .ok ()

def RegisterVerifies (ed : Ed25519) (tenants : TenantStore) (hello : Hello) (reg : Register) : Prop :=
  ∃ tenants', tenants.verifyRegister ed hello.userDomain reg.machineId reg.agentTag
    reg.machinePubkey reg.machineSignature = .ok tenants'

/-- The first three frames are a HELLO, the payload of an AUTH and the payload of
a REGISTER, and both of these verify for the domain of the HELLO. -/
def Verified (ed : Ed25519) (json : Json) (tenants : TenantStore) (arrivals : List Arrival) : Prop :=
  ∃ a b c rest hello auth reg, arrivals = a :: b :: c :: rest ∧
    SaysHello json a hello ∧ SaysAuth json b auth ∧ SaysRegister json c reg ∧
    AuthVerifies ed tenants a hello auth ∧ RegisterVerifies ed tenants hello reg

theorem Verified.append (h : Verified ed json tenants arrivals) (rest : List Arrival) :
    Verified ed json tenants (arrivals ++ rest) := by
  obtain ⟨a, b, c, more, hello, auth, reg, rfl, hverified⟩ := h
  exact ⟨a, b, c, more ++ rest, hello, auth, reg, rfl, hverified⟩

namespace Connection

variable {χ : Type} [DecidableEq χ] {ed : Ed25519} {json : Json} {host : Host χ} {c : Connection χ}

/-- Where a session can be whose client has not verified, after these arrivals:
nothing that the sessions share has changed. -/
def Unverified (ed : Ed25519) (json : Json) (host : Host χ) (seen : List Arrival)
    (c : Connection χ) : Prop :=
  c.host = host ∧
    match c.stage with
    | .hello => seen = []
    | .auth hello authNonce =>
      ∃ a, seen = [a] ∧ SaysHello json a hello ∧ authNonce = Connection.nonce a.now a.random
    | .register hello =>
      ∃ a b auth, seen = [a, b] ∧ SaysHello json a hello ∧ SaysAuth json b auth ∧
        AuthVerifies ed host.tenants a hello auth
    | .ready _ => False
    | .ended => True

omit [DecidableEq χ] in
theorem Unverified.finish (h : c.host = host) (seen : List Arrival) :
    Unverified ed json host seen c.finish := ⟨h, trivial⟩

omit [DecidableEq χ] in
theorem Unverified.reply {next : Stage} (h : c.host = host) (delivered : Bool) (msg : Reply)
    (hnext : Unverified ed json host seen { c with stage := next }) :
    Unverified ed json host seen (c.reply delivered msg next) := by
  unfold Connection.reply
  split
  · exact ⟨h, hnext.2⟩
  · exact .finish h seen

variable (cfg : Config) (pool : MemoryPool) (tx : χ) (addr : String)

omit [DecidableEq χ] in
theorem Unverified.onHello (hhost : c.host = host) (hframe : a.frame = some frame) :
    Unverified ed json host [a] (c.onHello json a frame) := by
  unfold Connection.onHello
  split
  · exact .finish hhost _
  · rename_i htype
    split
    · exact .finish hhost _
    · rename_i hello hparse
      exact .reply hhost _ _ ⟨hhost, a, rfl, ⟨frame, hframe, not_not.mp htype, hparse⟩, rfl⟩

omit [DecidableEq χ] in
theorem Unverified.onAuth (hhost : c.host = host) (hhello : SaysHello json first hello)
    (hframe : a.frame = some frame) :
    Unverified ed json host [first, a]
      (c.onAuth ed json a hello (Connection.nonce first.now first.random) frame) := by
  unfold Connection.onAuth
  split
  · exact .finish hhost _
  · rename_i auth hparse
    split
    · rename_i hverify
      rw [hhost] at hverify
      exact ⟨hhost, first, a, auth, rfl, hhello, ⟨frame, hframe, hparse⟩, hverify⟩
    · exact .reply hhost _ _ ⟨hhost, trivial⟩

/-- The third payload verifies, or the session ends. -/
theorem Unverified.onRegister (hhost : c.host = host) (hhello : SaysHello json first hello)
    (hauth : SaysAuth json second auth) (hverify : AuthVerifies ed host.tenants first hello auth)
    (hframe : a.frame = some frame) :
    Unverified ed json host [first, second, a] (c.onRegister ed json tx addr a hello frame) ∨
      Verified ed json host.tenants [first, second, a] := by
  unfold Connection.onRegister
  split
  · exact .inl (.finish hhost _)
  · rename_i reg hparse
    split
    · rename_i tenants hregister
      rw [hhost] at hregister
      exact .inr ⟨first, second, a, [], hello, auth, reg, rfl, hhello, hauth,
        ⟨frame, hframe, hparse⟩, hverify, tenants, hregister⟩
    · exact .inl (.reply hhost _ _ ⟨hhost, trivial⟩)

theorem Unverified.step (h : Unverified ed json host seen c) (a : Arrival) :
    Unverified ed json host (seen ++ [a]) (c.step ed json cfg pool tx addr a) ∨
      Verified ed json host.tenants (seen ++ [a]) := by
  obtain ⟨hhost, hstage⟩ := h
  unfold Connection.step
  cases hframe : a.frame with
  | none =>
    left
    unfold onEnd
    cases hs : c.stage with
    | ready session => simp [hs] at hstage
    | _ => exact .finish hhost _
  | some frame =>
    cases hs : c.stage with
    | hello =>
      simp only [hs] at hstage
      subst hstage
      exact .inl (.onHello hhost hframe)
    | auth hello authNonce =>
      simp only [hs] at hstage
      obtain ⟨first, rfl, hhello, rfl⟩ := hstage
      exact .inl (.onAuth hhost hhello hframe)
    | register hello =>
      simp only [hs] at hstage
      obtain ⟨first, second, auth, rfl, hhello, hauth, hverify⟩ := hstage
      exact Unverified.onRegister tx addr hhost hhello hauth hverify hframe
    | ready session => simp [hs] at hstage
    | ended => exact .inl ⟨hhost, by simp [hs]⟩

theorem Unverified.run (h : Unverified ed json host seen c) (arrivals : List Arrival) :
    Unverified ed json host (seen ++ arrivals)
        (Lib.run (Connection.step ed json cfg pool tx addr) c arrivals) ∨
      Verified ed json host.tenants (seen ++ arrivals) := by
  induction arrivals generalizing seen c with
  | nil => exact .inl (by simpa using h)
  | cons a arrivals ih =>
    have hsplit : seen ++ a :: arrivals = seen ++ [a] ++ arrivals := by simp
    rw [hsplit]
    rcases h.step cfg pool tx addr a with hnext | hverified
    · exact ih hnext
    · exact .inr (hverified.append arrivals)

omit [DecidableEq χ] in
theorem Unverified.start (host : Host χ) : Unverified ed json host [] (.start host) := ⟨rfl, rfl⟩

/-- A client that has not verified by the end of its stream has changed nothing,
and asked nothing of the pool. -/
theorem failed_handshake_no_effect (host : Host χ) (arrivals : List Arrival)
    (h : ¬ Verified ed json host.tenants arrivals) (eof : Arrival) (heof : eof.frame = none) :
    (run (step ed json cfg pool tx addr) (start host) (arrivals ++ [eof])).stage = .ended ∧
      (run (step ed json cfg pool tx addr) (start host) (arrivals ++ [eof])).host = host := by
  obtain ⟨hhost, hstage⟩ := ((Unverified.start host).run cfg pool tx addr arrivals).resolve_right h
  rw [run_append, run_cons, run_nil]
  generalize run (step ed json cfg pool tx addr) (start host) arrivals = c at hhost hstage
  simp only [step, heof, onEnd]
  cases hs : c.stage with
  | ready session => simp [hs] at hstage
  | _ => exact ⟨rfl, hhost⟩

def helloText : String := "\x7b\"user_domain\":\"acme\",\"protocol_version\":1,\"client\":\"nsmt\"\x7d"

def authText : String := "\x7b\"user_domain\":\"acme\",\"nonce_signature\":\"00\"\x7d"

/-- A parser that knows these two texts. -/
def twoTexts : Json where
  hello payload := if payload = utf8 helloText then some ⟨"acme", 1, "nsmt"⟩ else none
  auth payload := if payload = utf8 authText then some ⟨"acme", "00"⟩ else none
  register _ := none
  memoryRecall _ := none
  memoryCapture _ := none
  fileTree _ := none
  fileDiff _ := none
  fileGet _ := none
  filePut _ := none
  lockAcquire _ := none
  lockRenew _ := none
  lockRelease _ := none

def arrivalOf (frame : Option Frame) : Arrival where
  frame := frame
  now := 1770000000000
  random := "0123456789abcdef"
  delivered := true
  reachable _ := true
  latencyMs := 0

def noTenants : Host Unit where
  tenants _ := none
  registry _ := .empty
  channel _ := []
  server := .empty
  received := nothingReceived
  poolRequests := []

/-- A tenant that the server does not have. -/
theorem failed_handshake_no_effect_unknown_tenant :
    (run (step TenantStore.smallOrder twoTexts .default .recorder () "127.0.0.1:1") (start noTenants)
      [arrivalOf (some ⟨.hello, 0, 0, utf8 helloText⟩), arrivalOf (some ⟨.auth, 0, 0, utf8 authText⟩),
        arrivalOf none]).host = noTenants := by
  refine (failed_handshake_no_effect .default .recorder () "127.0.0.1:1" noTenants
    [arrivalOf (some ⟨.hello, 0, 0, utf8 helloText⟩), arrivalOf (some ⟨.auth, 0, 0, utf8 authText⟩)]
    ?_ (arrivalOf none) rfl).2
  rintro ⟨a, b, c, rest, hello, auth, reg, -, -, -, -, hverify, -⟩
  simp [AuthVerifies, TenantStore.verifyAuth, noTenants] at hverify

/-- A client that verifies, and whom the answers reach, gets into the ready loop. -/
theorem ready_of_verifies {a b c : Arrival} (hhello : SaysHello json a hello)
    (hauth : SaysAuth json b auth) (hreg : SaysRegister json c reg)
    (hverify : AuthVerifies ed host.tenants a hello auth)
    (hregister : RegisterVerifies ed host.tenants hello reg)
    (hdelivered : a.delivered = true ∧ c.delivered = true) :
    (run (step ed json cfg pool tx addr) (start host) [a, b, c]).stage =
      .ready { userDomain := hello.userDomain, machineId := reg.machineId, remoteAddress := addr,
               pendingUpload := none } := by
  obtain ⟨frame, hframe, htype, hparse⟩ := hhello
  obtain ⟨frame', hframe', hparse'⟩ := hauth
  obtain ⟨frame'', hframe'', hparse''⟩ := hreg
  obtain ⟨tenants, hregister⟩ := hregister
  have h1 : (start host).step ed json cfg pool tx addr a =
      { host
        stage := .auth hello (Connection.nonce a.now a.random)
        sent := [.helloAck { nonce := Connection.nonce a.now a.random, tenantExists := true }] } := by
    simp [step, start, hframe, onHello, htype, hparse, reply, hdelivered.1]
  have h2 : ((start host).step ed json cfg pool tx addr a).step ed json cfg pool tx addr b =
      { host
        stage := .register hello
        sent := [.helloAck { nonce := Connection.nonce a.now a.random, tenantExists := true }] } := by
    rw [h1]
    simp only [step, hframe', onAuth, hparse']
    rw [AuthVerifies] at hverify
    rw [hverify]
  rw [run_cons, run_cons, run_cons, run_nil, h2]
  simp only [step, hframe'', onRegister, hparse'', hregister]
  simp [join, hdelivered.2]

end Connection

end Nsmt.Server
