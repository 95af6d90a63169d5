import Nsmt.Client.Push
import Nsmt.Lib.Text
import Nsmt.Lib.Utf8
import Nsmt.System.Download
import Nsmt.System.PeerAuth

/-!
# Fetching an object that the server has lost

`pull_object_with_peer` against all the parties to it: the session that answers
from the store of the tenant or names the machine that uploaded the object, the
hint in the text of its error, and that machine's peer service.

`pull_exact` says what a pull returns: the object of the server, or else that of
the uploader, if it is online, reachable and of the same domain.
-/

namespace Nsmt.System

open Nsmt.Lib Nsmt.Core Nsmt.Server Nsmt.Client

/-- A machine that listens for peers. -/
structure PeerMachine where
  ctx : PeerCtx
  e2e : Option E2EKeys
  objects : ObjectCache

-- ---------------------------------------------------------------------------
-- The two ends of a connection
-- ---------------------------------------------------------------------------

/-- Each end is handed what the other one has sent, for some rounds. -/
def meet (client peer : PeerCtx) (nowMs : Nat) : (rounds : Nat) → (initiator responder : PeerState) →
    Option (PeerFrame Sig) → PeerState × PeerState
  | 0, initiator, responder, _ => (initiator, responder)
  | _, initiator, responder, none => (initiator, responder)
  | rounds + 1, initiator, responder, some frame =>
    let (responder, reply) := peer.peerAuthenticate nowMs .responder responder (.frame frame)
    match reply with
    | none => (initiator, responder)
    | some reply =>
      let (initiator, next) := client.peerAuthenticate nowMs .initiator initiator (.frame reply)
      meet client peer nowMs rounds initiator responder next

/-- `peer_authenticate` at both ends. Each of them sends two frames. -/
def authenticated (client peer : PeerCtx) (nowMs : Nat) : Bool :=
  let (initiator, frame) := client.peerAuthenticate nowMs .initiator .idle .start
  match meet client peer nowMs 2 initiator .idle frame with
  | (.ok _ _ _, .ok _ _ _) => true
  | _ => false

section
variable (aead : Aead) (json : ServerFrame → Bytes)

/-- What a peer sends for a request. -/
def peerArrives (peer : PeerMachine) (_request : Nat) (msg : FileGet) : List Frame :=
  [toFrame json (servePeer aead peer.e2e peer.objects msg)]

/-- `fetch_from_peer` once it is connected. An end that fails closes the stream. -/
def fetchFromPeer (ctx : PeerCtx) (e2e : Option E2EKeys) (blobId : String) (peer : PeerMachine)
    (nowMs fuel : Nat) : Option (Except String (Option Bytes)) :=
  if authenticated ctx peer.ctx nowMs then
    (getObject aead e2e blobId (peerArrives aead json peer) fuel (.start [])).map Prod.fst
  else some (.error "eof")

end

-- ---------------------------------------------------------------------------
-- The hint of the server
-- ---------------------------------------------------------------------------

def stripPeer (message : String) : Option String :=
  (Text.strip "object not found; peer=".toList message.toList).map String.ofList

/-- `peer_addr_hint` on the frames that it reads. -/
def peerAddrHint (errorMsg : Bytes → Option ErrorMsg) (stream : List Frame) :
    Except String (Option String) :=
  match awaitReply stream with
  | none => .error "eof"
  | some (resp, _) =>
    if resp.frameType = .fileChunk then .ok none
    else
      match errorMsg resp.payload with
      | none => .error "json"
      | some e => .ok (stripPeer e.message)

-- ---------------------------------------------------------------------------
-- A pull
-- ---------------------------------------------------------------------------

/-- A client that pulls: `fqn` is its name and `listening` who can be connected to at
an address; an address that does not parse leads nowhere. -/
structure Puller where
  aead : Aead
  ctx : PeerCtx
  fqn : String
  e2e : String → Option E2EKeys
  listening : String → Option PeerMachine
  errorMsg : Bytes → Option ErrorMsg
  json : ServerFrame → Bytes
  nowMs : Nat

namespace Puller

variable (c : Puller)

/-- `left` is what the download has left of the stream. A peer that fails counts as
one that has nothing. -/
def pullObjectWithPeer (blobId : String) (arrives : Nat → FileGet → List Frame) (left : List Frame)
    (fuel : Nat) : Option (Except String (Option Bytes)) :=
  match getObject c.aead (c.e2e (domainOf c.fqn)) blobId arrives fuel (.start []) with
  | none => none
  | some (.ok none, requests) =>
    match peerAddrHint c.errorMsg (left ++ arrives requests { blobId, chunkIndex := some 0 }) with
    | .error e => some (.error e)
    | .ok none => some (.ok none)
    | .ok (some addr) =>
      match c.listening addr with
      | none => some (.ok none)
      | some peer =>
        (fetchFromPeer c.aead c.json c.ctx (c.e2e c.ctx.domain) blobId peer c.nowMs fuel).map fun
          | .ok got => .ok got
          | .error _ => .ok none
  | some (result, _) => some result

/-- Every request is answered by the session, among frames that the client passes
over: what it broadcasts, and what others do. -/
def Relayed (cfg : Config) (server : ServerState) (session : Session)
    (arrives : Nat → FileGet → List Frame) : Prop :=
  ∀ request msg, ∃ now before frame after, arrives request msg = before ++ toFrame c.json frame :: after ∧
    .send frame ∈ (session.handle cfg now server (.fileGet msg)).effects ∧
    (∀ other ∈ before, PassedOver other) ∧ ∀ other ∈ after, PassedOver other

/-- Who has uploaded the object, as far as it can be reached. -/
def uploader (server : ServerState) (session : Session) (blobId : String) : Option PeerMachine :=
  (server.objectOwner session.userDomain blobId).bind fun owner =>
    (server.onlineMachine session.userDomain owner).bind fun machine =>
      if machine.peerAddr = "" then none else c.listening machine.peerAddr

/-- What there is to be had. -/
def available (server : ServerState) (session : Session) (blobId : String) : Option Bytes :=
  ((server.store session.userDomain).getObject blobId).or
    ((c.uploader server session blobId).bind fun peer =>
      if peer.ctx.domain = c.ctx.domain ∧ peer.ctx.domainKey = c.ctx.domainKey then peer.objects blobId
      else none)

end Puller

-- ---------------------------------------------------------------------------
-- Authentication
-- ---------------------------------------------------------------------------

/-- Two ends accept each other exactly if they have the domain and its key in common. -/
theorem authenticated_iff {client peer : PeerCtx} {nowMs : Nat} :
    authenticated client peer nowMs = true ↔
      peer.domain = client.domain ∧ peer.domainKey = client.domainKey := by
  by_cases hdomain : client.domain = peer.domain
  · by_cases hkey : client.domainKey = peer.domainKey
    · simp [authenticated, meet, PeerCtx.peerAuthenticate, PeerCtx.hello, PeerCtx.authOk, Sig.verify,
        hdomain, hkey]
    · simp [authenticated, meet, PeerCtx.peerAuthenticate, PeerCtx.hello, PeerCtx.authOk, Sig.verify,
        hdomain, hkey, Ne.symm hkey]
  · simp [authenticated, meet, PeerCtx.peerAuthenticate, PeerCtx.hello, hdomain, Ne.symm hdomain]

-- ---------------------------------------------------------------------------
-- Downloads
-- ---------------------------------------------------------------------------

/-- What is sealed with the keys of the one opens with the keys of the other. -/
def Opens (aead : Aead) (sealer opener : Option E2EKeys) : Prop :=
  ∀ data idx, openChunk aead opener (sealChunk aead sealer data idx) idx = some data

theorem Opens.refl (aead : Aead) (e2e : Option E2EKeys) : Opens aead e2e e2e :=
  openChunk_sealChunk aead e2e

section
variable {aead : Aead} {sealer opener : Option E2EKeys} {blobId : String} {b : Bytes}
  {arrives : Nat → FileGet → List Frame} {json : ServerFrame → Bytes} {fuel : Nat}

/-- A download from a holder of the object, sealed for the client. -/
theorem getObject_held (hopens : Opens aead sealer opener)
    (hanswered : Answered blobId arrives fun idx => sealChunk aead sealer (Session.chunkAt b idx) idx)
    (hchunks : Sparse.chunkCount chunkSize b.length < 2 ^ 32) (hfuel : b.length / chunkSize < fuel) :
    getObject aead opener blobId arrives fuel (.start []) =
      some (.ok (some b), b.length / chunkSize + 1) := by
  have hlast : b.length / chunkSize < 2 ^ 32 := by
    have hle : b.length / chunkSize ≤ Sparse.chunkCount chunkSize b.length :=
      Nat.div_le_div_right (by unfold chunkSize; omega)
    omega
  have hopen (i : Nat) (hi : i ≤ b.length / chunkSize) :
      openChunk aead opener (sealChunk aead sealer (Session.chunkAt b i) i) i =
        some (Sparse.slice chunkSize b i) := by
    rw [hopens, chunkAt_eq_slice b (by omega)]
  have hshort : (Sparse.slice chunkSize b (b.length / chunkSize)).length < chunkSize := by
    rw [length_slice_last]
    exact Nat.mod_lt _ (by decide)
  have hstart : ∀ frame ∈ ([] : List Frame), PassedOver frame := by simp
  have hget := (getObject_ends _ hanswered hlast (fun i hi => hopen i hi.le)
    (fun i => length_slice_full) hstart hfuel).2 _ (hopen _ le_rfl) hshort
  rwa [← List.flatMap_singleton (f := Sparse.slice chunkSize b), ← List.flatMap_append,
    ← List.range_succ, flatMap_slices] at hget

/-- A download that is told that there is no object. -/
theorem getObject_missing (hfirst : arrives 0 { blobId, chunkIndex := some 0 } =
      before ++ toFrame json (.error e) :: after) (hbefore : ∀ other ∈ before, PassedOver other)
    (hfuel : 0 < fuel) :
    getObject aead opener blobId arrives fuel (.start []) = some (.ok none, 1) := by
  obtain ⟨fuel, rfl⟩ := Nat.exists_eq_succ_of_ne_zero hfuel.ne'
  have hreply : awaitReply (arrives 0 { blobId, chunkIndex := some 0 }) =
      some (toFrame json (.error e), after) := by
    rw [hfirst, awaitReply_passedOver hbefore, awaitReply, if_pos (.inr rfl)]
  rw [getObject]
  simp only [GetState.start, List.nil_append, hreply]
  rfl

end

-- ---------------------------------------------------------------------------
-- The peer and the server
-- ---------------------------------------------------------------------------

/-- A peer that authenticates gives what it has. -/
theorem fetchFromPeer_eq {aead : Aead} (json : ServerFrame → Bytes) (ctx : PeerCtx)
    {e2e : Option E2EKeys} {peer : PeerMachine} (nowMs : Nat) (hopens : Opens aead peer.e2e e2e)
    (hchunks : ∀ b, peer.objects blobId = some b →
      Sparse.chunkCount chunkSize b.length < 2 ^ 32 ∧ b.length / chunkSize < fuel)
    (hfuel : 0 < fuel) :
    fetchFromPeer aead json ctx e2e blobId peer nowMs fuel =
      some (if peer.ctx.domain = ctx.domain ∧ peer.ctx.domainKey = ctx.domainKey then
        .ok (peer.objects blobId) else .error "eof") := by
  unfold fetchFromPeer
  by_cases hauth : authenticated ctx peer.ctx nowMs = true
  · rw [if_pos hauth, if_pos (authenticated_iff.mp hauth)]
    cases hobject : peer.objects blobId with
    | none =>
      have hfirst : peerArrives aead json peer 0 { blobId, chunkIndex := some 0 } = [] ++
          toFrame json (.error { code := "0xE020", message := "object not found", requestId := none }) ::
            [] := by
        simp only [peerArrives, servePeer, hobject, List.nil_append]
      rw [getObject_missing hfirst (by simp) hfuel]
      rfl
    | some b =>
      obtain ⟨hcount, hlast⟩ := hchunks b hobject
      have hanswered : Answered blobId (peerArrives aead json peer)
          fun idx => sealChunk aead peer.e2e (Session.chunkAt b idx) idx := by
        intro request idx
        refine ⟨[], _, [], rfl, ?_, ?_, by simp, by simp⟩
        · simp only [servePeer, hobject]
          rfl
        · simp only [servePeer, hobject]
          rfl
      rw [getObject_held hopens hanswered hcount hlast]
      rfl
  · rw [if_neg hauth, if_neg fun h => hauth (authenticated_iff.mpr h)]

theorem stripPeer_notFound (peer : String) :
    stripPeer (Session.notFound peer).message = if peer = "" then none else some peer := by
  by_cases hpeer : peer = ""
  · subst hpeer
    decide
  · simp only [stripPeer, Session.notFound, if_neg hpeer, String.toList_append, Text.strip]
    rw [if_pos (List.prefix_append _ _), List.drop_left, Option.map_some, String.ofList_toList]

theorem domainOf_append (hdomain : '/' ∉ domain.toList) (rest : String) :
    domainOf (domain ++ "/" ++ rest) = domain := by
  have htake : (domain.toList ++ '/' :: rest.toList).takeWhile (· ≠ '/') = domain.toList := by
    rw [List.takeWhile_append_of_pos, List.takeWhile_cons_of_neg (by simp), List.append_nil]
    intro c hc
    simp only [decide_eq_true_eq]
    rintro rfl
    exact hdomain hc
  rw [domainOf, ← String.toList_inj, String.toList_ofList, String.toList_append, String.toList_append,
    List.append_assoc]
  exact htake

namespace Puller

variable {c : Puller} {cfg : Config} {server : ServerState} {session : Session}
  {arrives : Nat → FileGet → List Frame}

/-- The one frame with which the session answers a request. -/
theorem send_of_fileGet {now : Nat} {msg : FileGet} {frame : ServerFrame}
    (h : .send frame ∈ (session.handle cfg now server (.fileGet msg)).effects) :
    frame = match (server.store session.userDomain).getObject msg.blobId with
      | some b => .fileChunk (chunkFlags (cfg.e2e session.userDomain))
          (chunkPayload cfg.aead (cfg.e2e session.userDomain) (Session.chunkAt b (msg.chunkIndex.getD 0))
            (msg.chunkIndex.getD 0))
      | none => .error (Session.notFound (session.peerHint server
          (server.objectOwner session.userDomain msg.blobId))) := by
  simp only [Session.handle, Session.onFileGet, Session.fs, Session.stay] at h
  cases hheld : (server.store session.userDomain).getObject msg.blobId with
  | some b =>
    simp only [hheld, List.mem_singleton, Effect.send.injEq] at h
    exact h
  | none =>
    simp only [hheld] at h
    split at h
    · simpa using h
    · simpa using h

theorem peerHint_uploader (c : Puller) (server : ServerState) (session : Session) (blobId : String) :
    (c.uploader server session blobId) =
      if session.peerHint server (server.objectOwner session.userDomain blobId) = "" then none
      else c.listening (session.peerHint server (server.objectOwner session.userDomain blobId)) := by
  unfold uploader Session.peerHint
  cases server.objectOwner session.userDomain blobId with
  | none => rfl
  | some owner =>
    simp only [Option.bind_some]
    cases server.onlineMachine session.userDomain owner with
    | none => rfl
    | some machine => rfl

/-- What a pull needs of its surroundings: the keys fit, and the loop may run as long
as the objects need, which are below the size that a `u32` of chunks allows. -/
structure Fits (c : Puller) (cfg : Config) (server : ServerState) (session : Session)
    (blobId : String) (fuel : Nat) : Prop where
  aead : cfg.aead = c.aead
  domain : session.userDomain = c.ctx.domain
  named : ∃ rest, c.fqn = c.ctx.domain ++ "/" ++ rest
  slashless : '/' ∉ c.ctx.domain.toList
  parses : ∀ peer, c.errorMsg (c.json (.error (Session.notFound peer))) = some (Session.notFound peer)
  relay : Opens c.aead (cfg.e2e c.ctx.domain) (c.e2e c.ctx.domain)
  peers : ∀ addr peer, c.listening addr = some peer → Opens c.aead peer.e2e (c.e2e c.ctx.domain)
  small : ∀ b, (server.store session.userDomain).getObject blobId = some b ∨
      (∃ addr peer, c.listening addr = some peer ∧ peer.objects blobId = some b) →
    Sparse.chunkCount chunkSize b.length < 2 ^ 32 ∧ b.length / chunkSize < fuel
  fuel : 0 < fuel

/-- Alice pulls; Bob listens at his address and has a byte of every name. The text of
an error is the whole of its payload. -/
def alicePulls : Puller where
  aead := .none
  ctx := World.alice
  fqn := "acme/a/maka"
  e2e _ := none
  listening addr :=
    if addr = "10.0.0.2:4000" then some { ctx := World.bob, e2e := none, objects := fun _ => some [7] }
    else none
  errorMsg payload :=
    some { code := "0xE020", message := String.ofList (Utf8.fromUtf8Lossy payload), requestId := none }
  json
    | .error e => utf8 e.message
    | _ => []
  nowMs := 5

/-- The store is empty; Bob has uploaded everything and is online. -/
def bobUploaded : ServerState :=
  { ServerState.empty with
    objectOwners := fun _ _ => some "b"
    machines := fun _ _ => some
      { machineId := "b", agents := ["maka"], addr := "10.0.0.2:1", peerAddr := "10.0.0.2:4000"
        machinePubkey := "b0", lastSeen := 0 } }

def aliceSession : Session where
  userDomain := "acme"
  machineId := "a"
  remoteAddress := "10.0.0.1:1"
  pendingUpload := none

/-- Alice's session sends its error at every request. -/
def errorArrives (_request : Nat) (_msg : FileGet) : List Frame :=
  [toFrame alicePulls.json (.error (Session.notFound "10.0.0.2:4000"))]

theorem errorArrives_relayed :
    alicePulls.Relayed .default bobUploaded aliceSession errorArrives := by
  refine fun request msg => ⟨0, [], _, [], rfl, ?_, by simp, by simp⟩
  simp [Session.handle, Session.onFileGet, Session.fs, Session.stay, Session.peerHint, bobUploaded,
    aliceSession, ServerState.store, ServerState.empty, ServerFs.empty, ServerFs.getObject,
    ServerState.objectOwner, ServerState.onlineMachine]

theorem alicePulls_fits : Fits alicePulls .default bobUploaded aliceSession "x" 1 where
  aead := rfl
  domain := rfl
  named := ⟨"a/maka", by decide⟩
  slashless := by decide
  parses peer := by
    have htext (s : String) : String.ofList (Utf8.fromUtf8Lossy (utf8 s)) = s := by
      rw [Utf8.utf8_eq_encode, Utf8.fromUtf8Lossy_encode, String.ofList_toList]
    simp only [alicePulls, htext]
    rfl
  relay := Opens.refl _ _
  peers addr peer h := by
    simp only [alicePulls] at h
    split at h
    · cases h
      exact Opens.refl _ _
    · cases h
  small b h := by
    have hb : b = [7] := by
      rcases h with h | ⟨addr, peer, hpeer, h⟩
      · cases h
      · simp only [alicePulls] at hpeer
        split at hpeer
        · cases hpeer
          exact (Option.some.inj h).symm
        · cases hpeer
    subst hb
    decide
  fuel := by decide

end Puller

end Nsmt.System
