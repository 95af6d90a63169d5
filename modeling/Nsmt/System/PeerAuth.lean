import Nsmt.Lib.Runs
import Nsmt.Lib.Signatures
import Nsmt.Server.Tenants

/-!
# Peers that authenticate each other

`peer_authenticate` in both roles, and the relay's `HELLO` and `AUTH` that use
the same domain key, under an adversary who runs the network: it hands any frame
to any endpoint at any time and has connections of its own, but it does not hold
the domain keys. A signature covers the nonce alone, neither the role nor the
connection, and an initiator signs whatever nonce it is sent.

`mutual_of_separate` says when an endpoint that accepts has been talking to the
other end of its connection: each nonce must be used in one connection only, and
no endpoint may be handed back a signature of its own.
-/

namespace Nsmt.System

open Nsmt.Lib Nsmt.Server

-- ---------------------------------------------------------------------------
-- One call of `peer_authenticate`
-- ---------------------------------------------------------------------------

inductive Role
  | initiator | responder
  deriving DecidableEq, Repr

def Role.other : Role → Role
  | .initiator => .responder
  | .responder => .initiator

/-- `domainKey` is the public half of the domain key; a party that has the
context can sign with the private one. -/
structure PeerCtx where
  domain : String
  machineId : String
  agentTag : String
  machinePubkey : String
  domainKey : String
  deriving DecidableEq, Repr

structure PeerHello where
  userDomain : String
  machineId : String
  agentTag : String
  machinePubkey : String
  deriving DecidableEq, Repr

structure PeerAuth where
  nonce : String
  deriving DecidableEq, Repr

structure PeerAuthOk (σ : Type) where
  machineId : String
  agentTag : String
  machinePubkey : String
  signature : σ
  deriving DecidableEq, Repr

inductive PeerFrame (σ : Type)
  | peerHello (msg : PeerHello)
  | peerAuth (msg : PeerAuth)
  | peerAuthOk (msg : PeerAuthOk σ)
  deriving DecidableEq, Repr

/-- What moves a call on: its start, a frame, or the end of the stream and frames
that do not parse. -/
inductive PeerInput (σ : Type)
  | start
  | frame (frame : PeerFrame σ)
  | broken
  deriving DecidableEq, Repr

/-- Where a call stands, with the result where it has returned `Ok`. -/
inductive PeerState
  | idle
  | awaitAuth
  | awaitOk (nonce : String)
  | challenged (nonce : String) (hello : PeerHello)
  | ok (nonce machineId machinePubkey : String)
  | failed
  deriving DecidableEq, Repr

def PeerState.nonce : PeerState → Option String
  | .awaitOk nonce | .challenged nonce _ | .ok nonce _ _ => some nonce
  | _ => none

def peerNonce (nowMs : Nat) (machineId : String) : String :=
  "nsmt-peer-" ++ toString nowMs ++ "-" ++ machineId

namespace PeerCtx

def hello (ctx : PeerCtx) : PeerHello :=
  { userDomain := ctx.domain, machineId := ctx.machineId, agentTag := ctx.agentTag
    machinePubkey := ctx.machinePubkey }

def authOk (ctx : PeerCtx) (nonce : String) : PeerAuthOk Sig :=
  { machineId := ctx.machineId, agentTag := ctx.agentTag, machinePubkey := ctx.machinePubkey
    signature := .signed ctx.domainKey nonce }

/-- The new state and the frame that is sent. `recv_until` passes over frames of
another type than the one it waits for. -/
def peerAuthenticate (ctx : PeerCtx) (nowMs : Nat) :
    Role → PeerState → PeerInput Sig → PeerState × Option (PeerFrame Sig)
  | .initiator, .idle, .start => (.awaitAuth, some (.peerHello ctx.hello))
  | .initiator, .awaitAuth, .frame (.peerAuth msg) =>
    (.awaitOk msg.nonce, some (.peerAuthOk (ctx.authOk msg.nonce)))
  | .initiator, .awaitOk nonce, .frame (.peerAuthOk msg) =>
    if msg.signature.verify ctx.domainKey nonce then
      (.ok nonce msg.machineId msg.machinePubkey, none)
    else (.failed, none)
  | .responder, .idle, .frame (.peerHello msg) =>
    if msg.userDomain ≠ ctx.domain then (.failed, none)
    else
      let nonce := peerNonce nowMs msg.machineId
      (.challenged nonce msg, some (.peerAuth { nonce }))
  | .responder, .challenged nonce hello, .frame (.peerAuthOk msg) =>
    if msg.signature.verify ctx.domainKey nonce then
      (.ok nonce hello.machineId hello.machinePubkey, some (.peerAuthOk (ctx.authOk nonce)))
    else (.failed, none)
  | _, .ok nonce machineId machinePubkey, _ => (.ok nonce machineId machinePubkey, none)
  | _, _, .broken => (.failed, none)
  | _, state, _ => (state, none)

end PeerCtx

-- ---------------------------------------------------------------------------
-- The parties and the network
-- ---------------------------------------------------------------------------

structure Endpoint where
  conn : Nat
  role : Role
  deriving DecidableEq, Repr

def Endpoint.other (e : Endpoint) : Endpoint := { e with role := e.role.other }

/-- Who signs: an endpoint of a peer connection, or the client of a session with
the relay. -/
inductive Origin
  | peer (e : Endpoint)
  | handshake (session : Nat)
  deriving DecidableEq, Repr

inductive Channel
  | peer (conn : Nat)
  | relay (session : Nat)
  deriving DecidableEq, Repr

def Origin.channel : Origin → Channel
  | .peer e => .peer e.conn
  | .handshake session => .relay session

/-- A session of the relay up to `AUTH`, with what it has accepted. -/
inductive RelayState
  | idle
  | awaitAuth (userDomain nonce : String)
  | authed (userDomain nonce : String) (signature : Sig)
  | closed
  deriving DecidableEq, Repr

def RelayState.nonce : RelayState → Option String
  | .awaitAuth _ nonce | .authed _ nonce _ => some nonce
  | _ => none

/-- `nonce()` of the server, with the machine id of the server. -/
def relayNonce (nowMs : Nat) (machineId : String) : String :=
  "nsmt-nonce-" ++ toString nowMs ++ "-" ++ machineId

/-- `TenantStore::verify_auth`. -/
def verifyAuth (tenants : TenantStore) (userDomain nonce : String) (signature : Sig) : Bool :=
  match tenants.keyOf userDomain with
  | some domainPubkey => signature.verify domainPubkey nonce
  | none => false

/-- Which endpoints and which clients of the relay are honest; the others are the
adversary's. The keys of honest parties are secret. -/
structure Parties where
  peer : Endpoint → Option PeerCtx
  client : Nat → Option PeerCtx
  secret : String → Bool
  peer_secret : ∀ e ctx, peer e = some ctx → secret ctx.domainKey = true
  client_secret : ∀ r ctx, client r = some ctx → secret ctx.domainKey = true

/-- `record` has the signatures of honest parties in the order they were made and
`used` the nonces of each channel. -/
structure World where
  peers : Endpoint → PeerState
  relay : Nat → RelayState
  record : List (Signing Origin)
  used : List (Channel × String)

/-- `handshake` lets an honest client sign the nonce of its `HELLO_ACK`. `auth`
hands the relay a signature while its table of tenants is `tenants`. -/
inductive NetEvent
  | peer (e : Endpoint) (nowMs : Nat) (input : PeerInput SigSource)
  | hello (session : Nat) (userDomain : String) (nowMs : Nat) (machineId : String)
  | handshake (session : Nat)
  | auth (session : Nat) (tenants : TenantStore) (signature : SigSource)

def PeerInput.resolve (sig : SigSource → Sig) : PeerInput SigSource → PeerInput Sig
  | .start => .start
  | .frame (.peerHello msg) => .frame (.peerHello msg)
  | .frame (.peerAuth msg) => .frame (.peerAuth msg)
  | .frame (.peerAuthOk msg) =>
    .frame (.peerAuthOk
      { machineId := msg.machineId, agentTag := msg.agentTag, machinePubkey := msg.machinePubkey
        signature := sig msg.signature })
  | .broken => .broken

/-- The signature in a frame that an endpoint sends. -/
def signings (e : Endpoint) : Option (PeerFrame Sig) → List (Signing Origin)
  | some (.peerAuthOk { signature := .signed key text, .. }) => [{ origin := .peer e, key, text }]
  | _ => []

namespace World

def initial : World where
  peers _ := .idle
  relay _ := .idle
  record := []
  used := []

def step (p : Parties) (w : World) : NetEvent → World
  | .peer e nowMs input =>
    match p.peer e with
    | none => w
    | some ctx =>
      let turn := ctx.peerAuthenticate nowMs e.role (w.peers e)
        (input.resolve (SigSource.sig p.secret w.record))
      { w with
        peers := Function.update w.peers e turn.1
        record := w.record ++ signings e turn.2
        used := w.used ++ turn.1.nonce.toList.map fun nonce => (Channel.peer e.conn, nonce) }
  | .hello r userDomain nowMs machineId =>
    match w.relay r with
    | .idle =>
      let nonce := relayNonce nowMs machineId
      { w with
        relay := Function.update w.relay r (.awaitAuth userDomain nonce)
        used := w.used ++ [(.relay r, nonce)] }
    | _ => w
  | .handshake r =>
    match p.client r, w.relay r with
    | some ctx, .awaitAuth _ nonce =>
      let signing := { origin := .handshake r, key := ctx.domainKey, text := nonce }
      { w with record := w.record ++ [signing] }
    | _, _ => w
  | .auth r tenants signature =>
    match w.relay r with
    | .awaitAuth userDomain nonce =>
      let sig := signature.sig p.secret w.record
      { w with
        relay := Function.update w.relay r
          (if verifyAuth tenants userDomain nonce sig then .authed userDomain nonce sig
          else .closed) }
    | _ => w

end World

-- ---------------------------------------------------------------------------
-- What a call does with an input
-- ---------------------------------------------------------------------------

/-- The turns of an endpoint: what it moves to and what it signs. -/
inductive PeerTurn (ctx : PeerCtx) (e : Endpoint) (nowMs : Nat) (state : PeerState) :
    PeerInput Sig → PeerState → List (Signing Origin) → Prop
  | quiet (hstate : state' = state ∨ state'.nonce = none) :
    PeerTurn ctx e nowMs state input state' []
  | sign (hrole : e.role = .initiator) (hstate : state = .awaitAuth) :
    PeerTurn ctx e nowMs state (.frame (.peerAuth msg)) (.awaitOk msg.nonce)
      [{ origin := .peer e, key := ctx.domainKey, text := msg.nonce }]
  | challenge (hrole : e.role = .responder) (hstate : state = .idle)
      (hdomain : msg.userDomain = ctx.domain) :
    PeerTurn ctx e nowMs state (.frame (.peerHello msg))
      (.challenged (peerNonce nowMs msg.machineId) msg) []
  | accept (hnonce : state.nonce = some nonce)
      (hverified : msg.signature = .signed ctx.domainKey nonce)
      (hmade : ∀ s ∈ made, s = { origin := .peer e, key := ctx.domainKey, text := nonce }) :
    PeerTurn ctx e nowMs state (.frame (.peerAuthOk msg)) (.ok nonce machineId machinePubkey) made

theorem PeerCtx.peerAuthenticate_turn (ctx : PeerCtx) (e : Endpoint) (nowMs : Nat)
    (state : PeerState) (input : PeerInput Sig) :
    PeerTurn ctx e nowMs state input (ctx.peerAuthenticate nowMs e.role state input).1
      (signings e (ctx.peerAuthenticate nowMs e.role state input).2) := by
  unfold peerAuthenticate
  split
  · exact .quiet (.inr rfl)
  · exact .sign ‹_› rfl
  · split
    · rename_i hverified
      exact .accept rfl (by simpa [Sig.verify] using hverified) (by simp [signings])
    · exact .quiet (.inr rfl)
  · split
    · exact .quiet (.inr rfl)
    · rename_i hdomain
      exact .challenge ‹_› rfl (not_not.mp hdomain)
  · split
    · rename_i hverified
      refine .accept rfl (by simpa [Sig.verify] using hverified) ?_
      simp [signings, PeerCtx.authOk]
    · exact .quiet (.inr rfl)
  · exact .quiet (.inl rfl)
  · exact .quiet (.inr rfl)
  · exact .quiet (.inl rfl)

/-- What is signed is the nonce the endpoint goes on with. -/
theorem PeerTurn.mem_made (h : PeerTurn ctx e nowMs state input state' made) (hs : s ∈ made) :
    s.origin = .peer e ∧ state'.nonce = some s.text := by
  cases h with
  | quiet => cases hs
  | sign =>
    obtain rfl := List.mem_singleton.mp hs
    exact ⟨rfl, rfl⟩
  | challenge => cases hs
  | accept _ _ hmade =>
    obtain rfl := hmade s hs
    exact ⟨rfl, rfl⟩

theorem PeerInput.resolve_peerHello {input : PeerInput SigSource}
    (h : input.resolve sig = .frame (.peerHello msg)) : input = .frame (.peerHello msg) := by
  unfold resolve at h
  split at h
  all_goals cases h
  rfl

theorem PeerInput.resolve_peerAuth {input : PeerInput SigSource}
    (h : input.resolve sig = .frame (.peerAuth msg)) : input = .frame (.peerAuth msg) := by
  unfold resolve at h
  split at h
  all_goals cases h
  rfl

theorem PeerInput.resolve_peerAuthOk {input : PeerInput SigSource}
    (h : input.resolve sig = .frame (.peerAuthOk msg)) :
    ∃ sent : PeerAuthOk SigSource, input = .frame (.peerAuthOk sent) ∧
      msg.signature = sig sent.signature := by
  unfold resolve at h
  split at h
  all_goals cases h
  exact ⟨_, rfl, rfl⟩

namespace World

variable {p : Parties} {w : World}

theorem step_peer (hpeer : p.peer e = some ctx) (nowMs : Nat) (input : PeerInput SigSource) :
    ∃ state' made, PeerTurn ctx e nowMs (w.peers e) (input.resolve (SigSource.sig p.secret w.record))
        state' made ∧
      w.step p (.peer e nowMs input) =
        { w with
          peers := Function.update w.peers e state'
          record := w.record ++ made
          used := w.used ++ state'.nonce.toList.map fun nonce => (Channel.peer e.conn, nonce) } := by
  refine ⟨_, _, ctx.peerAuthenticate_turn e nowMs _ _, ?_⟩
  simp only [step, hpeer]

theorem step_peer_foreign (hpeer : p.peer e = none) (nowMs : Nat) (input : PeerInput SigSource) :
    w.step p (.peer e nowMs input) = w := by
  simp only [step, hpeer]

/-- What the relay does is no turn of an endpoint. -/
theorem step_peers (p : Parties) (w : World) (ev : NetEvent) :
    (∃ e nowMs input, ev = .peer e nowMs input) ∨ (w.step p ev).peers = w.peers := by
  cases ev with
  | peer e nowMs input => exact .inl ⟨e, nowMs, input, rfl⟩
  | _ =>
    refine .inr ?_
    simp only [step]
    split <;> rfl

/-- The state of an endpoint behind an event: as before, or behind its own turn. -/
theorem step_endpoint (p : Parties) (w : World) (ev : NetEvent) (e : Endpoint) :
    (w.step p ev).peers e = w.peers e ∨
      ∃ ctx nowMs input made, p.peer e = some ctx ∧ ev = .peer e nowMs input ∧
        PeerTurn ctx e nowMs (w.peers e) (input.resolve (SigSource.sig p.secret w.record))
          ((w.step p ev).peers e) made := by
  rcases step_peers p w ev with ⟨e', nowMs, input, rfl⟩ | hsame
  · cases hpeer : p.peer e' with
    | none => exact .inl (by rw [step_peer_foreign hpeer])
    | some ctx =>
      obtain ⟨state', made, hturn, hstep⟩ := step_peer (w := w) hpeer nowMs input
      rw [hstep]
      by_cases he : e = e'
      · subst he
        simp only [Function.update_self]
        exact .inr ⟨ctx, nowMs, input, made, hpeer, rfl, hturn⟩
      · exact .inl (Function.update_of_ne he ..)
  · exact .inl (by rw [hsame])

-- ---------------------------------------------------------------------------
-- Nonces and the channels they are used in
-- ---------------------------------------------------------------------------

/-- The event brings a nonce into a channel: an initiator takes the one it is
sent, a responder or the relay makes one. -/
inductive Introduces (p : Parties) (w : World) : NetEvent → Channel → String → Prop
  | auth (hpeer : p.peer e = some ctx) (hrole : e.role = .initiator)
      (hstate : w.peers e = .awaitAuth) :
    Introduces p w (.peer e nowMs (.frame (.peerAuth msg))) (.peer e.conn) msg.nonce
  | hello (hpeer : p.peer e = some ctx) (hrole : e.role = .responder) (hstate : w.peers e = .idle)
      (hdomain : msg.userDomain = ctx.domain) :
    Introduces p w (.peer e nowMs (.frame (.peerHello msg))) (.peer e.conn)
      (peerNonce nowMs msg.machineId)
  | relay (hstate : w.relay r = .idle) :
    Introduces p w (.hello r userDomain nowMs machineId) (.relay r) (relayNonce nowMs machineId)

structure Recorded (w : World) : Prop where
  record : ∀ s ∈ w.record, (s.origin.channel, s.text) ∈ w.used
  peers : ∀ e nonce, (w.peers e).nonce = some nonce → (.peer e.conn, nonce) ∈ w.used
  relay : ∀ r nonce, (w.relay r).nonce = some nonce → (.relay r, nonce) ∈ w.used

/-- An endpoint goes on with the nonce it had, or with one that it brings in. -/
theorem nonce_of_step (h : ((w.step p ev).peers e).nonce = some nonce) :
    (w.peers e).nonce = some nonce ∨
      w.Introduces p ev (.peer e.conn) nonce ∧ ∃ nowMs input, ev = .peer e nowMs input := by
  rcases step_endpoint p w ev e with hsame | ⟨ctx, nowMs, input, made, hpeer, rfl, hturn⟩
  · exact .inl (hsame ▸ h)
  · generalize (w.step p (.peer e nowMs input)).peers e = state' at h hturn
    generalize hin : input.resolve _ = resolved at hturn
    cases hturn with
    | quiet hstate =>
      rcases hstate with rfl | hnone
      · exact .inl h
      · rw [hnone] at h
        cases h
    | sign hrole hstate =>
      cases h
      obtain rfl := PeerInput.resolve_peerAuth hin
      exact .inr ⟨.auth hpeer hrole hstate, nowMs, _, rfl⟩
    | challenge hrole hstate hdomain =>
      cases h
      obtain rfl := PeerInput.resolve_peerHello hin
      exact .inr ⟨.hello hpeer hrole hstate hdomain, nowMs, _, rfl⟩
    | accept hnonce =>
      cases h
      exact .inl hnonce

theorem mem_used_step (h : w.Recorded) (hmem : (ch, nonce) ∈ (w.step p ev).used) :
    (ch, nonce) ∈ w.used ∨ w.Introduces p ev ch nonce := by
  cases ev with
  | peer e nowMs input =>
    cases hpeer : p.peer e with
    | none => exact .inl (step_peer_foreign (w := w) hpeer nowMs input ▸ hmem)
    | some ctx =>
      have hnew (n) (hn : ((w.step p (.peer e nowMs input)).peers e).nonce = some n) :=
        nonce_of_step hn
      obtain ⟨state', made, -, hstep⟩ := step_peer (w := w) hpeer nowMs input
      rw [hstep] at hmem hnew
      rcases List.mem_append.mp hmem with hmem | hmem
      · exact .inl hmem
      · simp only [List.mem_map, Option.mem_toList, Prod.mk.injEq] at hmem
        obtain ⟨n, hn, rfl, rfl⟩ := hmem
        simp only [Function.update_self] at hnew
        exact (hnew n hn).imp (h.peers e n) And.left
  | hello r userDomain nowMs machineId =>
    simp only [step] at hmem
    split at hmem
    · rename_i hidle
      rcases List.mem_append.mp hmem with hmem | hmem
      · exact .inl hmem
      · cases List.mem_singleton.mp hmem
        exact .inr (.relay hidle)
    · exact .inl hmem
  | _ =>
    simp only [step] at hmem
    split at hmem
    · exact .inl hmem
    · exact .inl hmem

theorem step_grows (p : Parties) (w : World) (ev : NetEvent) :
    (∃ made, (w.step p ev).record = w.record ++ made) ∧
    ∃ nonces, (w.step p ev).used = w.used ++ nonces := by
  have hsame : (∃ made, w.record = w.record ++ made) ∧ ∃ nonces, w.used = w.used ++ nonces :=
    ⟨⟨[], by simp⟩, [], by simp⟩
  cases ev with
  | peer e nowMs input =>
    simp only [step]
    split
    · exact hsame
    · exact ⟨⟨_, rfl⟩, _, rfl⟩
  | hello r userDomain nowMs machineId =>
    simp only [step]
    split
    · exact ⟨hsame.1, _, rfl⟩
    · exact hsame
  | handshake r =>
    simp only [step]
    split
    · exact ⟨⟨_, rfl⟩, hsame.2⟩
    · exact hsame
  | auth r tenants signature =>
    simp only [step]
    split
    · exact hsame
    · exact hsame

theorem used_mono (p : Parties) (ev : NetEvent) (h : x ∈ w.used) : x ∈ (w.step p ev).used := by
  obtain ⟨-, nonces, hused⟩ := step_grows p w ev
  rw [hused]
  exact List.mem_append_left _ h

theorem record_mono (p : Parties) (ev : NetEvent) (h : s ∈ w.record) :
    s ∈ (w.step p ev).record := by
  obtain ⟨⟨made, hrecord⟩, -⟩ := step_grows p w ev
  rw [hrecord]
  exact List.mem_append_left _ h

theorem Recorded.peer (h : w.Recorded) (p : Parties) (e : Endpoint) (nowMs : Nat)
    (input : PeerInput SigSource) : (w.step p (.peer e nowMs input)).Recorded := by
  have hmono (x) (hx : x ∈ w.used) := used_mono p (.peer e nowMs input) hx
  cases hpeer : p.peer e with
  | none =>
    rw [step_peer_foreign hpeer]
    exact h
  | some ctx =>
    obtain ⟨state', made, hturn, hstep⟩ := step_peer (w := w) hpeer nowMs input
    rw [hstep] at hmono ⊢
    have hnew (n) (hn : state'.nonce = some n) : (Channel.peer e.conn, n) ∈
        w.used ++ state'.nonce.toList.map fun nonce => (Channel.peer e.conn, nonce) := by
      rw [hn]
      exact List.mem_append_right _ (List.mem_singleton_self _)
    refine ⟨fun s hs => ?_, fun e' n hn => ?_, fun r n hn => hmono _ (h.relay r n hn)⟩
    · rcases List.mem_append.mp hs with hs | hs
      · exact hmono _ (h.record s hs)
      · obtain ⟨horigin, htext⟩ := hturn.mem_made hs
        rw [horigin]
        exact hnew _ htext
    · by_cases he : e' = e
      · subst he
        simp only [Function.update_self] at hn
        exact hnew n hn
      · simp only [Function.update_of_ne he] at hn
        exact hmono _ (h.peers e' n hn)

theorem Recorded.step (h : w.Recorded) (p : Parties) (ev : NetEvent) : (w.step p ev).Recorded := by
  have hmono (x) (hx : x ∈ w.used) := used_mono p ev hx
  cases ev with
  | peer e nowMs input => exact h.peer p e nowMs input
  | hello r userDomain nowMs machineId =>
    simp only [World.step] at hmono ⊢
    split at hmono
    · refine ⟨fun s hs => hmono _ (h.record s hs), fun e n hn => hmono _ (h.peers e n hn), ?_⟩
      intro r' n hn
      by_cases hr : r' = r
      · subst hr
        simp only [Function.update_self] at hn
        cases hn
        exact List.mem_append_right _ (List.mem_singleton_self _)
      · simp only [Function.update_of_ne hr] at hn
        exact hmono _ (h.relay r' n hn)
    · exact h
  | handshake r =>
    simp only [World.step]
    split
    · rename_i ctx userDomain nonce hclient hrelay
      refine ⟨fun s hs => ?_, h.peers, h.relay⟩
      rcases List.mem_append.mp hs with hs | hs
      · exact h.record s hs
      · obtain rfl := List.mem_singleton.mp hs
        exact h.relay r nonce (by rw [hrelay]; rfl)
    · exact h
  | auth r tenants signature =>
    simp only [World.step]
    split
    · rename_i userDomain nonce hrelay
      refine ⟨h.record, h.peers, fun r' n hn => ?_⟩
      by_cases hr : r' = r
      · subst hr
        simp only [Function.update_self] at hn
        split at hn
        · cases hn
          exact h.relay r' nonce (by rw [hrelay]; rfl)
        · cases hn
      · simp only [Function.update_of_ne hr] at hn
        exact h.relay r' n hn
    · exact h

theorem initial_recorded : initial.Recorded :=
  ⟨fun _ hs => (nomatch hs), fun _ _ hn => (nomatch hn), fun _ _ hn => (nomatch hn)⟩

theorem Introduces.unique (h : w.Introduces p ev ch nonce) (h' : w.Introduces p ev ch' nonce') :
    ch = ch' := by
  cases h with
  | auth => cases h'; rfl
  | hello => cases h'; rfl
  | relay => cases h'; rfl

/-- The channels a nonce is used in agree in what `f` sees of them. -/
def Agree (f : Channel → β) (w : World) : Prop :=
  ∀ ch ch' nonce, (ch, nonce) ∈ w.used → (ch', nonce) ∈ w.used → f ch = f ch'

/-- A nonce the event brings in is used nowhere else, as far as `f` sees. -/
def Unshared (f : Channel → β) (p : Parties) (w : World) (ev : NetEvent) : Prop :=
  ∀ ch nonce, w.Introduces p ev ch nonce → ∀ ch', (ch', nonce) ∈ w.used → f ch' = f ch

theorem Agree.step {f : Channel → β} (h : w.Agree f) (hrec : w.Recorded)
    (hev : w.Unshared f p ev) : (w.step p ev).Agree f := by
  intro ch ch' nonce hch hch'
  rcases mem_used_step hrec hch with hold | hnew
  · rcases mem_used_step hrec hch' with hold' | hnew'
    · exact h ch ch' nonce hold hold'
    · exact hev ch' nonce hnew' ch hold
  · rcases mem_used_step hrec hch' with hold' | hnew'
    · exact (hev ch nonce hnew ch' hold').symm
    · rw [hnew.unique hnew']

-- ---------------------------------------------------------------------------
-- Mutual authentication
-- ---------------------------------------------------------------------------

/-- An endpoint whose call has returned `Ok` has the other end of its connection
to thank for it: that end is honest and signed the nonce with the domain key. -/
def Mutual (p : Parties) (w : World) : Prop :=
  ∀ e ctx nonce machineId machinePubkey, p.peer e = some ctx →
    w.peers e = .ok nonce machineId machinePubkey →
    { origin := .peer e.other, key := ctx.domainKey, text := nonce } ∈ w.record

/-- A `PEER_AUTH_OK` does not return to the endpoint that made its signature. -/
def NotReflected (w : World) : NetEvent → Prop
  | .peer e _ (.frame (.peerAuthOk msg)) => msg.signature.origin w.record ≠ some (.peer e)
  | _ => True

/-- Each nonce is used in one channel, and no endpoint verifies a signature of its
own. -/
def Separate (p : Parties) (w : World) (ev : NetEvent) : Prop :=
  w.Unshared id p ev ∧ w.NotReflected ev

/-- An accepted signature over a nonce of one connection was made there. -/
theorem accepted_origin (hrec : w.Recorded) (hone : w.Agree id) (hpeer : p.peer e = some ctx)
    (hnonce : (w.peers e).nonce = some nonce) {src : SigSource}
    (hsig : src.sig p.secret w.record = .signed ctx.domainKey nonce)
    (hdirect : src.origin w.record ≠ some (.peer e)) :
    { origin := .peer e.other, key := ctx.domainKey, text := nonce } ∈ w.record := by
  obtain ⟨s, hs, horigin, hkey, htext⟩ :=
    SigSource.recorded_of_secret (p.peer_secret e ctx hpeer) hsig
  have hchannel : s.origin.channel = .peer e.conn := by
    refine hone _ _ nonce ?_ (hrec.peers e nonce hnonce)
    rw [← htext]
    exact hrec.record s hs
  obtain ⟨origin, key, text⟩ := s
  subst hkey htext
  cases origin with
  | handshake session => cases hchannel
  | peer signer =>
    obtain ⟨conn, role⟩ := signer
    obtain ⟨conn', role'⟩ := e
    cases hchannel
    have hne : role ≠ role' := by
      rintro rfl
      exact hdirect horigin
    have hother : role = role'.other := by
      cases role <;> cases role' <;> first | rfl | exact absurd rfl hne
    rw [Endpoint.other, ← hother]
    exact hs

theorem ok_of_step (h : (w.step p ev).peers e = .ok nonce machineId machinePubkey) :
    w.peers e = .ok nonce machineId machinePubkey ∨
      ∃ ctx nowMs msg, p.peer e = some ctx ∧ ev = .peer e nowMs (.frame (.peerAuthOk msg)) ∧
        (w.peers e).nonce = some nonce ∧
        msg.signature.sig p.secret w.record = .signed ctx.domainKey nonce := by
  rcases step_endpoint p w ev e with hsame | ⟨ctx, nowMs, input, made, hpeer, rfl, hturn⟩
  · exact .inl (hsame ▸ h)
  · rw [h] at hturn
    generalize hin : input.resolve _ = resolved at hturn
    cases hturn with
    | quiet hstate =>
      rcases hstate with hsame | hnone
      · exact .inl hsame.symm
      · cases hnone
    | accept hnonce hverified =>
      obtain ⟨sent, rfl, hsig⟩ := PeerInput.resolve_peerAuthOk hin
      exact .inr ⟨ctx, nowMs, sent, hpeer, rfl, hnonce, hsig ▸ hverified⟩

theorem Mutual.step (h : w.Mutual p) (hrec : w.Recorded) (hone : w.Agree id)
    (hev : w.Separate p ev) : (w.step p ev).Mutual p := by
  intro e ctx nonce machineId machinePubkey hpeer hok
  refine record_mono p ev ?_
  rcases ok_of_step hok with hold | ⟨ctx', nowMs, msg, hpeer', rfl, hnonce, hsig⟩
  · exact h e ctx nonce machineId machinePubkey hpeer hold
  · rw [hpeer] at hpeer'
    obtain rfl := Option.some.inj hpeer'
    exact accepted_origin hrec hone hpeer hnonce hsig hev.2

/-- What the run of peers and relay keeps as long as no nonce is shared. -/
structure Sound (p : Parties) (w : World) : Prop where
  recorded : w.Recorded
  one : w.Agree id
  authentic : w.Mutual p

/-- In every run that shares no nonce between channels and reflects no signature,
an endpoint that accepts has authenticated the other end of its connection. -/
theorem mutual_of_separate (p : Parties) (events : List NetEvent)
    (hall : AllSteps (step p) (Separate p) initial events) :
    (run (step p) initial events).Mutual p := by
  have hsound : Sound p initial := by
    refine ⟨initial_recorded, fun _ _ _ hmem => ?_, fun _ _ _ _ _ _ hok => ?_⟩
    · cases hmem
    · cases hok
  refine (run_invariant (Sound p) (fun w ev h hev => ?_) hsound hall).authentic
  exact ⟨h.recorded.step p ev, h.one.step h.recorded hev.1, h.authentic.step h.recorded h.one hev⟩

def alice : PeerCtx where
  domain := "acme"
  machineId := "a"
  agentTag := "maka"
  machinePubkey := "a0"
  domainKey := "d0"

def bob : PeerCtx := { alice with machineId := "b", machinePubkey := "b0" }

/-- Two machines of one domain, joined by connection 0. -/
def pair : Parties where
  peer e := if e.conn = 0 then some (if e.role = .initiator then alice else bob) else none
  client _ := none
  secret key := key = "d0"
  peer_secret e ctx h := by
    split at h
    · split at h
      all_goals cases h; rfl
    · cases h
  client_secret _ _ h := by cases h

def aliceEnd : Endpoint := { conn := 0, role := .initiator }

def bobEnd : Endpoint := { conn := 0, role := .responder }

def forwarded (i : Nat) : PeerInput SigSource :=
  .frame (.peerAuthOk
    { machineId := "", agentTag := "", machinePubkey := "", signature := .recorded i })

/-- Each frame reaches the other end. -/
def meeting : List NetEvent :=
  [.peer aliceEnd 0 .start, .peer bobEnd 5 (.frame (.peerHello alice.hello)),
    .peer aliceEnd 6 (.frame (.peerAuth { nonce := "nsmt-peer-5-a" })),
    .peer bobEnd 7 (forwarded 0), .peer aliceEnd 8 (forwarded 1)]

theorem mutual_of_separate_meeting :
    { origin := .peer bobEnd, key := "d0", text := "nsmt-peer-5-a" } ∈
        (run (step pair) initial meeting).record ∧
    { origin := .peer aliceEnd, key := "d0", text := "nsmt-peer-5-a" } ∈
        (run (step pair) initial meeting).record := by
  have hall : AllSteps (step pair) (Separate pair) initial meeting := by
    refine ⟨⟨?_, trivial⟩, ⟨?_, trivial⟩, ⟨?_, trivial⟩, ⟨?_, ?_⟩, ⟨?_, ?_⟩, trivial⟩
    · intro ch nonce h
      cases h
    · intro ch nonce h ch' hmem
      cases hmem
    · intro ch nonce h ch' hmem
      have hused : (run (step pair) initial (meeting.take 2)).used =
          [(.peer 0, "nsmt-peer-5-a")] := by decide +kernel
      cases h
      cases List.mem_singleton.mp (hused ▸ hmem)
      rfl
    · intro ch nonce h
      cases h
    · show SigSource.origin _ _ ≠ some (Origin.peer bobEnd)
      decide +kernel
    · intro ch nonce h
      cases h
    · show SigSource.origin _ _ ≠ some (Origin.peer aliceEnd)
      decide +kernel
  have hmutual := mutual_of_separate pair meeting hall
  exact ⟨hmutual aliceEnd alice _ "" "" rfl (by decide +kernel),
    hmutual bobEnd bob _ "a" "a0" rfl (by decide +kernel)⟩

/-- The adversary answers an initiator with a nonce of its choice and sends its
signature back: the initiator takes itself for its peer. -/
theorem reflected_signature_accepted :
    let events : List NetEvent := [.peer aliceEnd 0 .start,
      .peer aliceEnd 1 (.frame (.peerAuth { nonce := "nsmt-peer-1-a" })),
      .peer aliceEnd 2 (forwarded 0)]
    ¬ (run (step pair) initial events).Mutual pair := by
  intro events h
  have hrecord : { origin := .peer bobEnd, key := "d0", text := "nsmt-peer-1-a" } ∉
      (run (step pair) initial events).record := by decide +kernel
  exact hrecord (h aliceEnd alice _ "" "" rfl (by decide +kernel))

end World

end Nsmt.System
