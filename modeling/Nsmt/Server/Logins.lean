import Nsmt.Core.Identity
import Nsmt.Server.Handshake

/-!
# Nonces of the sessions of a server

The nonce of a session is made of the clock, in milliseconds, and of the machine
id of the server, which is the same for all of its sessions. `nonces_fresh_iff`
says that the nonces are as good as the clock: they differ, and a signature of
one session is rejected in the others, if and only if no two HELLOs are answered
in one millisecond.
-/

namespace Nsmt.Server

open Nsmt.Lib Nsmt.Core

/-- The sessions of one server; the channel of a session has its name. -/
structure Logins (ι : Type) where
  host : Host ι
  stage : ι → Stage
  sent : ι → List Reply

/-- `arrive` is what session `i` reads next, on a machine of this identity. Tenants
are added by the control API. -/
inductive LoginEvent (ι : Type)
  | arrive (i : ι) (a : Arrival) (server : HostIdentity)
  | upsertTenant (domain domainPubkey : String)

def helloNonce : Reply → Option String
  | .helloAck msg => some msg.nonce
  | _ => none

def nonces (sent : List Reply) : List String := sent.filterMap helloNonce

namespace Logins

variable {ι : Type} [DecidableEq ι] (ed : Ed25519) (json : Json) (cfg : Config) (pool : MemoryPool)
  (addr : ι → String)

def start (host : Host ι) : Logins ι where
  host := host
  stage := fun _ => .hello
  sent := fun _ => []

def connection (s : Logins ι) (i : ι) : Connection ι where
  host := s.host
  stage := s.stage i
  sent := s.sent i

/-- The arrival with the machine id that a nonce is made with. -/
def onServer (a : Arrival) (server : HostIdentity) : Arrival :=
  { a with random := (generateMachineId cfg.sha256 server).1.asStr }

def step (s : Logins ι) : LoginEvent ι → Logins ι
  | .arrive i a server =>
    let c := (s.connection i).step ed json cfg pool i (addr i) (onServer cfg a server)
    { host := c.host
      stage := Function.update s.stage i c.stage
      sent := Function.update s.sent i c.sent }
  | .upsertTenant domain domainPubkey =>
    { s with host := { s.host with tenants := s.host.tenants.upsertTenant domain domainPubkey } }

-- ---------------------------------------------------------------------------
-- Fresh nonces
-- ---------------------------------------------------------------------------

/-- The arrival is an AUTH with this signature, for this tenant, and the session
goes on to REGISTER. -/
def Accepts (s : Logins ι) (i : ι) (a : Arrival) (server : HostIdentity) (domain signature : String) :
    Prop :=
  ∃ hello nonce auth, s.stage i = .auth hello nonce ∧ hello.userDomain = domain ∧
    SaysAuth json a auth ∧ auth.nonceSignature = signature ∧
    (s.step ed json cfg pool addr (.arrive i a server)).stage i = .register hello

/-- Different sessions are sent different nonces, and a signature that one of them
accepts is accepted by no other one of the tenant. -/
structure Fresh (host : Host ι) (events : List (LoginEvent ι)) : Prop where
  nonces : ∀ i j, i ≠ j →
    ∀ nonce ∈ Server.nonces ((run (step ed json cfg pool addr) (start host) events).sent i),
      nonce ∉ Server.nonces ((run (step ed json cfg pool addr) (start host) events).sent j)
  signatures : ∀ s i a server s' j a' server' domain signature, i ≠ j →
    Reaches (step ed json cfg pool addr) (start host) events s (.arrive i a server) →
    Reaches (step ed json cfg pool addr) (start host) events s' (.arrive j a' server') →
    Accepts ed json cfg pool addr s i a server domain signature →
    ¬ Accepts ed json cfg pool addr s' j a' server' domain signature

/-- The arrival is a HELLO that is answered. -/
def Answers (s : Logins ι) (i : ι) (a : Arrival) : Prop :=
  s.stage i = .hello ∧ (∃ hello, SaysHello json a hello) ∧ a.delivered = true

/-- No two HELLOs are answered in one millisecond, unless the identity of the server
has changed. -/
def Apart (host : Host ι) (events : List (LoginEvent ι)) : Prop :=
  ∀ s i a server s' j a' server', i ≠ j →
    Reaches (step ed json cfg pool addr) (start host) events s (.arrive i a server) →
    Reaches (step ed json cfg pool addr) (start host) events s' (.arrive j a' server') →
    Answers json s i a → Answers json s' j a' → a.now = a'.now →
      (generateMachineId cfg.sha256 server).1.asStr ≠ (generateMachineId cfg.sha256 server').1.asStr

end Logins

theorem Connection.nonce_inj {nowMs nowMs' : Nat} {machineId machineId' : String}
    (h : nonce nowMs machineId = nonce nowMs' machineId') : nowMs = nowMs' ∧ machineId = machineId' := by
  have htext : (toString nowMs).toList ++ '-' :: machineId.toList =
      (toString nowMs').toList ++ '-' :: machineId'.toList := by
    have htoList := congrArg String.toList h
    simpa [nonce] using htoList
  have hdash (n : Nat) : ∀ c ∈ (toString n).toList, (c ≠ '-' : Bool) = true := by
    rintro c hmem
    refine decide_eq_true fun hc => ?_
    exact absurd (isDigit_of_mem_toString (hc ▸ hmem)) (by decide)
  have hdigits := congrArg (List.takeWhile fun c => (c ≠ '-' : Bool)) htext
  rw [List.takeWhile_append_of_pos (hdash _), List.takeWhile_append_of_pos (hdash _)] at hdigits
  have hnow : nowMs = nowMs' := toString_inj (by simpa using hdigits)
  subst hnow
  exact ⟨rfl, String.toList_inj.mp (List.cons.inj (List.append_cancel_left htext)).2⟩

-- ---------------------------------------------------------------------------
-- What one arrival does
-- ---------------------------------------------------------------------------

namespace Connection

variable {χ : Type} {c c' : Connection χ}

/-- The session has not been sent another nonce, and waits for an AUTH only if it
did before. -/
structure Unasked (c c' : Connection χ) : Prop where
  sent : nonces c'.sent = nonces c.sent
  stage : ∀ hello nonce, c'.stage = .auth hello nonce → c.stage = .auth hello nonce

theorem nonces_concat {sent : List Reply} {msg : Reply} (h : helloNonce msg = none) :
    nonces (sent ++ [msg]) = nonces sent := by
  rw [nonces, List.filterMap_append, List.filterMap_cons_none h, List.filterMap_nil, List.append_nil,
    nonces]

theorem Unasked.finish (h : nonces c'.sent = nonces c.sent) : Unasked c c'.finish :=
  ⟨h, nofun⟩

theorem Unasked.reply {next : Stage} {msg : Reply} (h : nonces c'.sent = nonces c.sent)
    (hmsg : helloNonce msg = none) (hnext : ∀ hello nonce, next ≠ .auth hello nonce) (delivered : Bool) :
    Unasked c (c'.reply delivered msg next) := by
  unfold Connection.reply
  split
  · refine ⟨?_, fun hello nonce hstage => absurd hstage (hnext hello nonce)⟩
    rw [nonces_concat hmsg, h]
  · exact .finish h

variable [DecidableEq χ] {ed : Ed25519} {json : Json} {cfg : Config} {pool : MemoryPool} {tx : χ}
  {addr : String} {a : Arrival} {frame : Frame}

theorem Unasked.perform {domain : String} {delivered : Bool} {next : Stage} {effects : List Effect}
    (hnext : ∀ hello nonce, next ≠ .auth hello nonce) (h : nonces c'.sent = nonces c.sent) :
    Unasked c (c'.perform tx domain delivered next effects) := by
  induction effects generalizing c' with
  | nil => exact ⟨h, fun hello nonce hstage => absurd hstage (hnext hello nonce)⟩
  | cons effect effects ih =>
    cases effect with
    | putObject _ _ => exact ih h
    | send frame =>
      unfold Connection.perform
      split
      · exact ih ((nonces_concat rfl).trans h)
      · exact .finish h
    | broadcast frame => exact ih h
    | broadcastExcept frame => exact ih h

omit [DecidableEq χ] in
theorem Unasked.onAuth (c : Connection χ) (hello : Hello) (nonce : String) :
    Unasked c (c.onAuth ed json a hello nonce frame) := by
  unfold Connection.onAuth
  split
  · exact .finish rfl
  · split
    · exact ⟨rfl, nofun⟩
    · exact .reply rfl rfl (by simp) _

theorem Unasked.onRegister (c : Connection χ) (hello : Hello) :
    Unasked c (c.onRegister ed json tx addr a hello frame) := by
  unfold Connection.onRegister
  split
  · exact .finish rfl
  · split
    · unfold Connection.join
      simp only
      split
      · exact ⟨nonces_concat rfl, by simp⟩
      · exact .finish rfl
    · exact .reply rfl rfl (by simp) _

theorem Unasked.onReady (c : Connection χ) (session : Session) :
    Unasked c (c.onReady json cfg pool tx a session frame) := by
  unfold Connection.onReady
  simp only
  split
  · refine .reply ?_ rfl (by simp) _
    rfl
  · refine .reply ?_ rfl (by simp) _
    rfl
  · exact ⟨rfl, fun _ _ => id⟩
  · refine .perform (fun hello nonce => ?_) rfl
    generalize (session.handle cfg a.now c.host.state _).turn = turn
    cases turn <;> exact nofun

omit [DecidableEq χ] in
theorem Unasked.ended (c : Connection χ) : Unasked c c.finish := .finish rfl

theorem Unasked.onEnd (c : Connection χ) : Unasked c c.onEnd := by
  unfold Connection.onEnd
  split
  · exact ⟨rfl, nofun⟩
  · exact .ended c

/-- A HELLO that is answered is answered with the nonce of the moment, and nothing
else asks for an AUTH. -/
theorem step_asks (ed : Ed25519) (json : Json) (cfg : Config) (pool : MemoryPool) (tx : χ) (addr : String)
    (c : Connection χ) (a : Arrival) :
    (∃ hello, c.stage = .hello ∧ SaysHello json a hello ∧ a.delivered = true ∧
      (c.step ed json cfg pool tx addr a).stage = .auth hello (nonce a.now a.random) ∧
      nonces (c.step ed json cfg pool tx addr a).sent = nonces c.sent ++ [nonce a.now a.random]) ∨
    ¬ (c.stage = .hello ∧ (∃ hello, SaysHello json a hello) ∧ a.delivered = true) ∧
      Unasked c (c.step ed json cfg pool tx addr a) := by
  unfold step
  cases hframe : a.frame with
  | none =>
    refine .inr ⟨?_, .onEnd c⟩
    rintro ⟨-, ⟨hello, frame, hsome, -⟩, -⟩
    cases hframe.symm.trans hsome
  | some frame =>
    cases hs : c.stage with
    | hello =>
      simp only [onHello]
      by_cases htype : frame.frameType = .hello
      · cases hparse : json.hello frame.payload with
        | none =>
          right
          refine ⟨?_, by simpa [htype, hparse] using .ended c⟩
          rintro ⟨-, ⟨hello, frame', hsome, -, hparse'⟩, -⟩
          cases hframe.symm.trans hsome
          cases hparse.symm.trans hparse'
        | some hello =>
          cases hdelivered : a.delivered with
          | true =>
            left
            exact ⟨hello, trivial, ⟨frame, hframe, htype, hparse⟩, rfl, by simp [htype, reply],
              by simp [htype, reply, nonces, helloNonce]⟩
          | false =>
            right
            refine ⟨by simp, ?_⟩
            simpa [htype, hparse, reply] using .ended c
      · right
        refine ⟨?_, by simpa [htype] using .ended c⟩
        rintro ⟨-, ⟨hello, frame', hsome, htype', -⟩, -⟩
        cases hframe.symm.trans hsome
        exact htype htype'
    | auth hello nonce => exact .inr ⟨by simp, .onAuth c hello nonce⟩
    | register hello => exact .inr ⟨by simp, .onRegister c hello⟩
    | ready session => exact .inr ⟨by simp, .onReady c session⟩
    | ended => exact .inr ⟨by simp, rfl, fun _ _ => id⟩

theorem verifyAuth_of_step {hello : Hello} {nonce : String} (hstage : c.stage = .auth hello nonce) (hspoken : SaysAuth json a auth)
    (h : (c.step ed json cfg pool tx addr a).stage = .register hello) :
    c.host.tenants.verifyAuth ed hello.userDomain nonce auth.nonceSignature = .ok () := by
  obtain ⟨frame, hframe, hparse⟩ := hspoken
  simp only [step, hframe, hstage, onAuth, hparse] at h
  split at h
  · assumption
  · unfold reply at h
    split at h <;> cases h

end Connection

-- ---------------------------------------------------------------------------
-- What a run does
-- ---------------------------------------------------------------------------

namespace Logins

variable {ι : Type} [DecidableEq ι] {ed : Ed25519} {json : Json} {cfg : Config} {pool : MemoryPool}
  {addr : ι → String} {host : Host ι} {events : List (LoginEvent ι)}

theorem step_nonces (s : Logins ι) (e : LoginEvent ι) :
    nonce ∈ nonces ((s.step ed json cfg pool addr e).sent i) ↔ nonce ∈ nonces (s.sent i) ∨
      ∃ a server, e = .arrive i a server ∧ Answers json s i a ∧
        nonce = Connection.nonce a.now (generateMachineId cfg.sha256 server).1.asStr := by
  cases e with
  | upsertTenant domain domainPubkey => simp [step]
  | arrive j a server =>
    by_cases hij : i = j
    · subst hij
      simp only [step, Function.update_self]
      rcases Connection.step_asks ed json cfg pool i (addr i) (s.connection i) (onServer cfg a server) with
        ⟨hello, hstage, hspoken, hdelivered, -, hsent⟩ | ⟨hnot, hunasked⟩
      · rw [hsent, List.mem_append, List.mem_singleton]
        refine or_congr .rfl ⟨fun h => ⟨a, server, rfl, ⟨hstage, ⟨hello, hspoken⟩, hdelivered⟩, h⟩, ?_⟩
        rintro ⟨a', server', heq, -, rfl⟩
        cases heq
        rfl
      · rw [hunasked.sent]
        refine ⟨.inl, ?_⟩
        rintro (h | ⟨a', server', heq, hanswers, -⟩)
        · exact h
        · cases heq
          exact absurd hanswers hnot
    · simp only [step, Function.update_of_ne hij]
      refine ⟨.inl, ?_⟩
      rintro (h | ⟨a', server', heq, -⟩)
      · exact h
      · cases heq
        exact absurd rfl hij

/-- The nonces a session has been sent come from the HELLOs that it has answered. -/
theorem run_nonces :
    nonce ∈ nonces ((run (step ed json cfg pool addr) (start host) events).sent i) ↔
      ∃ s a server, Reaches (step ed json cfg pool addr) (start host) events s (.arrive i a server) ∧
        Answers json s i a ∧
        nonce = Connection.nonce a.now (generateMachineId cfg.sha256 server).1.asStr := by
  induction events using List.reverseRecOn with
  | nil => simp [start, nonces, not_reaches_nil]
  | append_singleton events e ih =>
    rw [run_append, run_cons, run_nil, step_nonces, ih]
    simp only [reaches_snoc]
    constructor
    · rintro (⟨s, a, server, hreach, h⟩ | ⟨a, server, rfl, h⟩)
      · exact ⟨s, a, server, .inl hreach, h⟩
      · exact ⟨_, a, server, .inr ⟨rfl, rfl⟩, h⟩
    · rintro ⟨s, a, server, hreach | ⟨rfl, rfl⟩, h⟩
      · exact .inl ⟨s, a, server, hreach, h⟩
      · exact .inr ⟨a, server, rfl, h⟩

theorem step_waiting {s : Logins ι}
    (h : ∀ i hello nonce, s.stage i = .auth hello nonce → nonce ∈ nonces (s.sent i))
    (e : LoginEvent ι) (i : ι) (hello : Hello) (nonce : String)
    (hstage : (s.step ed json cfg pool addr e).stage i = .auth hello nonce) :
    nonce ∈ nonces ((s.step ed json cfg pool addr e).sent i) := by
  cases e with
  | upsertTenant domain domainPubkey => exact h i hello nonce hstage
  | arrive j a server =>
    by_cases hij : i = j
    · subst hij
      simp only [step, Function.update_self] at hstage ⊢
      rcases Connection.step_asks ed json cfg pool i (addr i) (s.connection i) (onServer cfg a server) with
        ⟨hello', -, -, -, hnext, hsent⟩ | ⟨-, hunasked⟩
      · rw [hnext] at hstage
        cases hstage
        rw [hsent]
        exact List.mem_append_right _ (List.mem_singleton_self _)
      · rw [hunasked.sent]
        exact h i hello nonce (hunasked.stage hello nonce hstage)
    · simp only [step, Function.update_of_ne hij] at hstage ⊢
      exact h i hello nonce hstage

theorem run_waiting (host : Host ι) (events : List (LoginEvent ι)) (i : ι) (hello : Hello)
    (nonce : String)
    (hstage : (run (step ed json cfg pool addr) (start host) events).stage i = .auth hello nonce) :
    nonce ∈ nonces ((run (step ed json cfg pool addr) (start host) events).sent i) := by
  have hall : AllSteps (step ed json cfg pool addr) (fun _ _ => True) (start host) events :=
    AllSteps.of_forall fun _ _ _ => trivial
  refine run_invariant
    (fun s => ∀ i hello nonce, s.stage i = .auth hello nonce → nonce ∈ nonces (s.sent i))
    (fun s e hs _ => step_waiting hs e) (fun i hello nonce hstart => ?_) hall i hello nonce hstage
  cases hstart

/-- A signature is accepted over a nonce that the session has been sent. -/
theorem Accepts.nonce {s : Logins ι}
    (hreach : Reaches (step ed json cfg pool addr) (start host) events s (.arrive i a server))
    (h : Accepts ed json cfg pool addr s i a server domain signature) :
    ∃ nonce ∈ nonces ((run (step ed json cfg pool addr) (start host) events).sent i),
      s.host.tenants.verifyAuth ed domain nonce signature = .ok () := by
  obtain ⟨hello, nonce, auth, hstage, rfl, hspoken, rfl, hnext⟩ := h
  obtain ⟨before, after, rfl, rfl⟩ := hreach
  refine ⟨nonce, ?_, ?_⟩
  · obtain ⟨s, a', server', hreach, hanswers⟩ :=
      run_nonces.mp (run_waiting host before i hello nonce hstage)
    exact run_nonces.mpr ⟨s, a', server', hreach.append _, hanswers⟩
  · simp only [step, Function.update_self] at hnext
    exact Connection.verifyAuth_of_step (a := onServer cfg a server) hstage hspoken hnext

end Logins

theorem TenantStore.verifyAuth_text {ed : Ed25519} {tenants tenants' : TenantStore}
    (hed : ∀ key key' msg msg' sig, ed.verify key msg sig = true → ed.verify key' msg' sig = true →
      msg = msg')
    (h : verifyAuth ed tenants domain nonce signature = .ok ())
    (h' : verifyAuth ed tenants' domain nonce' signature = .ok ()) : nonce = nonce' := by
  obtain ⟨-, key, -, -, -, sig, hsig, -, hverify⟩ := verifyAuth_ok.mp h
  obtain ⟨-, key', -, -, -, sig', hsig', -, hverify'⟩ := verifyAuth_ok.mp h'
  cases hsig.symm.trans hsig'
  exact utf8_inj (hed _ _ _ _ _ hverify hverify')

namespace Logins

variable {ι : Type} [DecidableEq ι]

/-- The nonces of any run are fresh if and only if no two HELLOs are answered in one
millisecond by a server with one identity. A signature is taken to verify on one text only. -/
theorem nonces_fresh_iff (ed : Ed25519)
    (hed : ∀ key key' msg msg' sig, ed.verify key msg sig = true → ed.verify key' msg' sig = true →
      msg = msg')
    (json : Json) (cfg : Config) (pool : MemoryPool) (addr : ι → String) (host : Host ι)
    (events : List (LoginEvent ι)) :
    Fresh ed json cfg pool addr host events ↔ Apart ed json cfg pool addr host events := by
  constructor
  · intro h s i a server s' j a' server' hij hreach hreach' hanswers hanswers' hnow hid
    refine h.nonces i j hij _ (run_nonces.mpr ⟨s, a, server, hreach, hanswers, rfl⟩) ?_
    rw [hnow, hid]
    exact run_nonces.mpr ⟨s', a', server', hreach', hanswers', rfl⟩
  · intro h
    have hfresh (i j : ι) (hij : i ≠ j) (nonce : String)
        (hi : nonce ∈ Server.nonces ((run (step ed json cfg pool addr) (start host) events).sent i))
        (hj : nonce ∈ Server.nonces ((run (step ed json cfg pool addr) (start host) events).sent j)) :
        False := by
      obtain ⟨s, a, server, hreach, hanswers, rfl⟩ := run_nonces.mp hi
      obtain ⟨s', a', server', hreach', hanswers', hsame⟩ := run_nonces.mp hj
      obtain ⟨hnow, hid⟩ := Connection.nonce_inj hsame
      exact h s i a server s' j a' server' hij hreach hreach' hanswers hanswers' hnow hid
    refine ⟨hfresh, ?_⟩
    intro s i a server s' j a' server' domain signature hij hreach hreach' haccepts haccepts'
    obtain ⟨nonce, hi, hverify⟩ := haccepts.nonce hreach
    obtain ⟨nonce', hj, hverify'⟩ := haccepts'.nonce hreach'
    obtain rfl := TenantStore.verifyAuth_text hed hverify hverify'
    exact hfresh i j hij nonce hi hj

def quietHost (ι : Type) : Host ι where
  tenants _ := none
  registry _ := .empty
  channel _ := []
  server := .empty
  received := nothingReceived
  poolRequests := []

def relayHost : HostIdentity where
  hw := some "0b8d3a64-1c2e-4a52-9a63-6d5a3d2f7c11"
  host := some "relay"
  os := "linux/x86_64"

def helloArrival (now : Nat) : Arrival :=
  { Connection.arrivalOf (some ⟨.hello, 0, 0, utf8 Connection.helloText⟩) with now }

def helloAt (i : Bool) (now : Nat) : LoginEvent Bool := .arrive i (helloArrival now) relayHost

theorem smallOrder_text (key key' msg msg' sig : Bytes)
    (h : TenantStore.smallOrder.verify key msg sig = true)
    (h' : TenantStore.smallOrder.verify key' msg' sig = true) : msg = msg' := by
  simp only [TenantStore.smallOrder, Bool.and_eq_true, decide_eq_true_eq] at h h'
  exact h.1.2.trans h'.1.2.symm

theorem nonces_fresh_iff_one_apart :
    Fresh TenantStore.smallOrder Connection.twoTexts .default .recorder (fun _ => "127.0.0.1:1")
      (quietHost Bool) [helloAt true 1770000000005, helloAt false 1770000000006] := by
  refine (nonces_fresh_iff TenantStore.smallOrder smallOrder_text Connection.twoTexts .default
    .recorder (fun _ => "127.0.0.1:1") (quietHost Bool) _).mpr ?_
  intro s i a server s' j a' server' hij hreach hreach' _ _ hnow
  have hmem := hreach.mem
  have hmem' := hreach'.mem
  simp only [helloAt, List.mem_cons, List.not_mem_nil, or_false, LoginEvent.arrive.injEq] at hmem hmem'
  rcases hmem with ⟨rfl, rfl, -⟩ | ⟨rfl, rfl, -⟩ <;> rcases hmem' with ⟨rfl, rfl, -⟩ | ⟨rfl, rfl, -⟩
  · exact absurd rfl hij
  · cases hnow
  · cases hnow
  · exact absurd rfl hij

def loginTime : LoginEvent ι → Option Nat
  | .arrive _ a _ => some a.now
  | .upsertTenant _ _ => none

/-- Two sessions say HELLO in one millisecond. -/
theorem one_nonce_for_two : ¬ ∀ (ed : Ed25519) (json : Json) (cfg : Config) (pool : MemoryPool)
    (addr : Bool → String) (host : Host Bool) (events : List (LoginEvent Bool)),
    (∀ key key' msg msg' sig, ed.verify key msg sig = true → ed.verify key' msg' sig = true →
      msg = msg') →
    (events.filterMap loginTime).Pairwise (· ≤ ·) → Fresh ed json cfg pool addr host events := by
  intro h
  have hfresh := h TenantStore.smallOrder Connection.twoTexts .default .recorder
    (fun _ => "127.0.0.1:1") (quietHost Bool)
    [helloAt true 1770000000005, helloAt false 1770000000005] smallOrder_text
    (by simp [helloAt, helloArrival, loginTime])
  have hspoken : ∃ hello, SaysHello Connection.twoTexts (helloArrival 1770000000005) hello :=
    ⟨⟨"acme", 1, "nsmt"⟩, _, rfl, rfl, by simp [Connection.twoTexts]⟩
  refine hfresh.nonces true false (by decide) _
    (run_nonces.mpr ⟨_, helloArrival 1770000000005, relayHost,
      ⟨[], [helloAt false 1770000000005], rfl, rfl⟩, ⟨rfl, hspoken, rfl⟩, rfl⟩)
    (run_nonces.mpr ⟨_, helloArrival 1770000000005, relayHost,
      ⟨[helloAt true 1770000000005], [], rfl, rfl⟩, ⟨rfl, hspoken, rfl⟩, rfl⟩)

end Logins

end Nsmt.Server
