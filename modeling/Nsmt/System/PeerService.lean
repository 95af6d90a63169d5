import Nsmt.System.Download
import Nsmt.System.KeyReuse

/-!
# The peer service

`serve_peer`: a connection authenticates, then each `FILE_GET` is answered from
the cache of objects. The adversary opens connections and hands any frame to any
service at any time.

`served_vouched` says who gets objects nevertheless: a service answers only on a
connection for whose nonce another endpoint has signed that holds the same key.
-/

namespace Nsmt.System

open Nsmt.Lib Nsmt.Core Nsmt.Server Nsmt.Client

/-- An answer of a service, with the request and the cache it was made from. -/
structure Served where
  endpoint : Endpoint
  objects : ObjectCache
  msg : FileGet
  frame : ServerFrame

/-- `closed` says whose connection has ended. -/
structure PeerNet where
  world : World
  closed : Endpoint → Bool
  served : List Served

/-- `fileGet` hands a `FILE_GET` to an endpoint whose cache is `objects` by then.
`close` is the end of a stream, or a frame that cannot be read. -/
inductive PeerNetEvent
  | net (ev : NetEvent)
  | fileGet (e : Endpoint) (objects : ObjectCache) (msg : FileGet)
  | close (e : Endpoint)

/-- The endpoint at which an event happens. -/
def NetEvent.endpoint : NetEvent → Option Endpoint
  | .peer e _ _ => some e
  | _ => none

namespace PeerNet

variable (p : Parties) (cfg : Endpoint → Config)

def start : PeerNet := { world := .initial, closed := fun _ => false, served := [] }

/-- The answer to a `FILE_GET`. `recv_until` passes over the frame as long as the
connection authenticates. -/
def answer (s : PeerNet) (e : Endpoint) (objects : ObjectCache) (msg : FileGet) : Option Served :=
  match e.role, p.peer e, s.world.peers e with
  | .responder, some ctx, .ok _ _ _ =>
    if s.closed e then none
    else
      some { endpoint := e, objects, msg
             frame := servePeer (cfg e).aead ((cfg e).e2e ctx.domain) objects msg }
  | _, _, _ => none

def step (s : PeerNet) : PeerNetEvent → PeerNet
  | .net ev => if ev.endpoint.any s.closed then s else { s with world := s.world.step p ev }
  | .fileGet e objects msg => { s with served := s.served ++ (s.answer p cfg e objects msg).toList }
  | .close e => { s with closed := Function.update s.closed e true }

end PeerNet

-- ---------------------------------------------------------------------------
-- Who has signed
-- ---------------------------------------------------------------------------

theorem PeerCtx.peerAuthenticate_ok (ctx : PeerCtx) (nowMs : Nat) (role : Role)
    (input : PeerInput Sig) (nonce peerId peerKey : String) :
    ctx.peerAuthenticate nowMs role (.ok nonce peerId peerKey) input =
      (.ok nonce peerId peerKey, none) := by
  rcases input with _ | (_ | _ | _) | _
  all_goals cases role <;> rfl

namespace World

variable {p : Parties} {w : World}

/-- An endpoint that has accepted stays where it is. -/
theorem step_ok (h : w.peers e = .ok nonce machineId machinePubkey) (ev : NetEvent) :
    (w.step p ev).peers e = .ok nonce machineId machinePubkey := by
  rcases step_peers p w ev with ⟨e', nowMs, input, rfl⟩ | hsame
  · cases hpeer : p.peer e' with
    | none => rw [step_peer_foreign hpeer, h]
    | some ctx =>
      by_cases he : e = e'
      · subst he
        simp only [step, hpeer, h, ctx.peerAuthenticate_ok, Function.update_self]
      · simp only [step, hpeer, Function.update_of_ne he, h]
  · rw [hsame, h]

/-- A new signature: by an endpoint with its own key, a responder's behind its
acceptance, or by a client of the relay. -/
theorem mem_record_step (h : s ∈ (w.step p ev).record) : s ∈ w.record ∨
    (∃ r, s.origin = .handshake r) ∨
    ∃ e ctx, s.origin = .peer e ∧ p.peer e = some ctx ∧ s.key = ctx.domainKey ∧
      (e.role = .responder → ∃ nonce machineId machinePubkey,
        (w.step p ev).peers e = .ok nonce machineId machinePubkey) := by
  cases ev with
  | peer e nowMs input =>
    cases hpeer : p.peer e with
    | none => exact .inl (step_peer_foreign (w := w) hpeer nowMs input ▸ h)
    | some ctx =>
      obtain ⟨state', made, hturn, hstep⟩ := step_peer (w := w) hpeer nowMs input
      rw [hstep] at h ⊢
      generalize input.resolve _ = resolved at hturn
      rcases List.mem_append.mp h with hold | hnew
      · exact .inl hold
      · refine .inr (.inr ⟨e, ctx, (hturn.mem_made hnew).1, hpeer, ?_, fun hrole => ?_⟩)
        · cases hturn with
          | quiet => cases hnew
          | challenge => cases hnew
          | sign => rw [List.mem_singleton.mp hnew]
          | accept _ _ hmade => rw [hmade s hnew]
        · simp only [Function.update_self]
          cases hturn with
          | quiet => cases hnew
          | challenge => cases hnew
          | sign hinitiator =>
            rw [hrole] at hinitiator
            cases hinitiator
          | accept => exact ⟨_, _, _, rfl⟩
  | handshake r =>
    simp only [step] at h
    split at h
    · rcases List.mem_append.mp h with h | h
      · exact .inl h
      · exact .inr (.inl ⟨r, by rw [List.mem_singleton.mp h]⟩)
    · exact .inl h
  | hello r userDomain nowMs machineId =>
    simp only [step] at h
    split at h
    · exact .inl h
    · exact .inl h
  | auth r tenants signature =>
    simp only [step] at h
    split at h
    · exact .inl h
    · exact .inl h

/-- Endpoints sign with their own keys, a responder only once it has accepted, and
what it accepts has not been signed by itself. -/
structure Vouched (p : Parties) (w : World) : Prop where
  own : ∀ s ∈ w.record, ∀ e, s.origin = .peer e → ∃ ctx, p.peer e = some ctx ∧ s.key = ctx.domainKey
  silent : ∀ e, e.role = .responder → (∃ s ∈ w.record, s.origin = .peer e) →
    ∃ nonce machineId machinePubkey, w.peers e = .ok nonce machineId machinePubkey
  accepted : ∀ e ctx nonce machineId machinePubkey, e.role = .responder → p.peer e = some ctx →
    w.peers e = .ok nonce machineId machinePubkey →
    ∃ s ∈ w.record, s.key = ctx.domainKey ∧ s.text = nonce ∧ s.origin ≠ .peer e

theorem initial_vouched (p : Parties) : Vouched p initial := by
  refine ⟨fun _ hs => ?_, fun _ _ ⟨_, hs, _⟩ => ?_, fun _ _ _ _ _ _ _ hok => ?_⟩
  · cases hs
  · cases hs
  · cases hok

theorem Vouched.step (h : w.Vouched p) (ev : NetEvent) : (w.step p ev).Vouched p := by
  refine ⟨fun s hs e horigin => ?_, fun e hrole => ?_, fun e ctx nonce machineId machinePubkey
    hrole hpeer hok => ?_⟩
  · rcases mem_record_step hs with hold | ⟨r, hr⟩ | ⟨e', ctx, he', hpeer, hkey, -⟩
    · exact h.own s hold e horigin
    · rw [hr] at horigin
      cases horigin
    · obtain rfl := Origin.peer.inj (he'.symm.trans horigin)
      exact ⟨ctx, hpeer, hkey⟩
  · rintro ⟨s, hs, horigin⟩
    rcases mem_record_step hs with hold | ⟨r, hr⟩ | ⟨e', ctx, he', -, -, hok⟩
    · obtain ⟨nonce, machineId, machinePubkey, hok⟩ := h.silent e hrole ⟨s, hold, horigin⟩
      exact ⟨nonce, machineId, machinePubkey, step_ok hok ev⟩
    · rw [hr] at horigin
      cases horigin
    · obtain rfl := Origin.peer.inj (he'.symm.trans horigin)
      exact hok hrole
  · by_cases hbefore : ∃ n mid key, w.peers e = .ok n mid key
    · obtain ⟨n, mid, key, hbefore⟩ := hbefore
      cases (step_ok hbefore ev).symm.trans hok
      obtain ⟨s, hs, hsigned⟩ := h.accepted e ctx _ _ _ hrole hpeer hbefore
      exact ⟨s, record_mono p ev hs, hsigned⟩
    · rcases ok_of_step hok with hold | ⟨ctx', nowMs, msg, hpeer', rfl, -, hsig⟩
      · exact absurd ⟨_, _, _, hold⟩ hbefore
      · obtain rfl := Option.some.inj (hpeer.symm.trans hpeer')
        obtain ⟨s, hs, -, hkey, htext⟩ :=
          SigSource.recorded_of_secret (p.peer_secret e ctx hpeer) hsig
        refine ⟨s, record_mono p _ hs, hkey, htext, fun horigin => ?_⟩
        exact hbefore (h.silent e hrole ⟨s, hs, horigin⟩)

end World

-- ---------------------------------------------------------------------------
-- Who gets objects
-- ---------------------------------------------------------------------------

namespace PeerNet

variable {p : Parties} {cfg : Endpoint → Config}

/-- Another endpoint that holds the key has signed the nonce of this one. -/
def Vouches (p : Parties) (w : World) (e : Endpoint) : Prop :=
  ∃ ctx nonce e' ctx', p.peer e = some ctx ∧ (w.peers e).nonce = some nonce ∧ e' ≠ e ∧
    p.peer e' = some ctx' ∧ ctx'.domainKey = ctx.domainKey ∧
    { origin := .peer e', key := ctx.domainKey, text := nonce } ∈ w.record

/-- The answer is the one of a service to its request. -/
def Answers (p : Parties) (cfg : Endpoint → Config) (r : Served) : Prop :=
  r.endpoint.role = .responder ∧ ∃ ctx, p.peer r.endpoint = some ctx ∧
    r.frame = servePeer (cfg r.endpoint).aead ((cfg r.endpoint).e2e ctx.domain) r.objects r.msg

/-- What the signature that a responder accepted vouches for. -/
theorem vouches_of_ok {w : World} (hvouched : w.Vouched p) (hrec : w.Recorded) (hforms : w.Forms)
    (hrole : e.role = .responder) (hpeer : p.peer e = some ctx)
    (hok : w.peers e = .ok nonce machineId machinePubkey) : Vouches p w e := by
  obtain ⟨s, hs, hkey, htext, hother⟩ :=
    hvouched.accepted e ctx nonce machineId machinePubkey hrole hpeer hok
  have hsig : s.sig = .signed ctx.domainKey nonce := by rw [Signing.sig, hkey, htext]
  have hapart := World.responderApart hrec hforms e ctx nonce machineId machinePubkey hpeer hrole hok s
    hs hsig
  cases horigin : s.origin with
  | handshake r => exact absurd horigin (hapart r)
  | peer e' =>
    obtain ⟨ctx', hpeer', hkey'⟩ := hvouched.own s hs e' horigin
    refine ⟨ctx, nonce, e', ctx', hpeer, by rw [hok]; rfl, ?_, hpeer', hkey'.symm.trans hkey, ?_⟩
    · rintro rfl
      exact hother horigin
    · rwa [← horigin, ← hkey, ← htext]

structure Sound (p : Parties) (cfg : Endpoint → Config) (s : PeerNet) : Prop where
  recorded : s.world.Recorded
  forms : s.world.Forms
  vouched : s.world.Vouched p
  served : ∀ r ∈ s.served, Answers p cfg r ∧
    ∃ nonce machineId machinePubkey, s.world.peers r.endpoint = .ok nonce machineId machinePubkey

theorem answer_eq_some {s : PeerNet} (h : s.answer p cfg e objects msg = some r) :
    r.endpoint = e ∧ Answers p cfg r ∧
      ∃ nonce machineId machinePubkey, s.world.peers e = .ok nonce machineId machinePubkey := by
  unfold answer at h
  split at h
  · rename_i hrole hpeer hok
    split at h
    · cases h
    · cases h
      exact ⟨rfl, ⟨hrole, _, hpeer, rfl⟩, _, _, _, hok⟩
  · cases h

theorem Sound.step {s : PeerNet} (h : Sound p cfg s) (ev : PeerNetEvent) :
    Sound p cfg (s.step p cfg ev) := by
  cases ev with
  | net ev =>
    simp only [PeerNet.step]
    split
    · exact h
    · refine ⟨h.recorded.step p ev, h.forms.step h.recorded p ev, h.vouched.step ev, fun r hr => ?_⟩
      obtain ⟨hanswers, nonce, machineId, machinePubkey, hok⟩ := h.served r hr
      exact ⟨hanswers, nonce, machineId, machinePubkey, World.step_ok hok ev⟩
  | fileGet e objects msg =>
    refine ⟨h.recorded, h.forms, h.vouched, fun r hr => ?_⟩
    rcases List.mem_append.mp hr with hr | hr
    · exact h.served r hr
    · obtain ⟨rfl, hanswers, hok⟩ := answer_eq_some (Option.mem_toList.mp hr)
      exact ⟨hanswers, hok⟩
  | close e => exact ⟨h.recorded, h.forms, h.vouched, h.served⟩

theorem start_sound (p : Parties) (cfg : Endpoint → Config) : Sound p cfg start :=
  ⟨World.initial_recorded, World.initial_forms, World.initial_vouched p, fun _ hr => absurd hr List.not_mem_nil⟩

/-- Whatever the network does, an object or the word that there is none leaves a
service only on a connection whose nonce another holder of its key has signed. -/
theorem served_vouched (p : Parties) (cfg : Endpoint → Config) (events : List PeerNetEvent) :
    ∀ r ∈ (run (step p cfg) start events).served,
      Answers p cfg r ∧ Vouches p (run (step p cfg) start events).world r.endpoint := by
  intro r hr
  have hsound : Sound p cfg (run (step p cfg) start events) :=
    run_invariant (Sound p cfg) (fun s ev h _ => h.step ev) (start_sound p cfg)
      (AllSteps.of_forall fun _ _ _ => trivial)
  obtain ⟨hanswers, nonce, machineId, machinePubkey, hok⟩ := hsound.served r hr
  obtain ⟨hrole, ctx, hpeer, -⟩ := id hanswers
  exact ⟨hanswers, vouches_of_ok hsound.vouched hsound.recorded hsound.forms hrole hpeer hok⟩

/-- The frames of a meeting, then a `FILE_GET` at Bob's end. -/
def visit : List PeerNetEvent :=
  World.meeting.map .net ++
    [.fileGet World.bobEnd (fun _ => some [7]) { blobId := "x", chunkIndex := none }]

/-- Bob answers, since Alice has signed his nonce. -/
theorem served_vouched_visit :
    ∃ r ∈ (run (step World.pair fun _ => .default) start visit).served,
      Vouches World.pair (run (step World.pair fun _ => .default) start visit).world r.endpoint := by
  have hlength : (run (step World.pair fun _ => .default) start visit).served.length = 1 := by
    decide +kernel
  obtain ⟨r, hserved⟩ := List.length_eq_one_iff.mp hlength
  have hr : r ∈ (run (step World.pair fun _ => .default) start visit).served := by simp [hserved]
  exact ⟨r, hr, (served_vouched World.pair (fun _ => .default) visit r hr).2⟩

end PeerNet

end Nsmt.System
