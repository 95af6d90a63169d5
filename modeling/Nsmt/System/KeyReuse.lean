import Nsmt.System.PeerAuth

/-!
# One key in two protocols

The domain key signs nonces of peers and nonces of the relay. The texts differ:
`nsmt-peer-` and `nsmt-nonce-`. A responder verifies a nonce of its own, so no
signature made for the relay passes there. An initiator does not look at what it
signs, so a nonce of the relay that reaches it in a `PEER_AUTH` opens a session
of the relay to whoever gets the signature.
-/

namespace Nsmt.System

open Nsmt.Lib Nsmt.Server

theorem peerNonce_ne_relayNonce (nowMs nowMs' : Nat) (machineId machineId' : String) :
    peerNonce nowMs machineId ≠ relayNonce nowMs' machineId' := by
  intro h
  have htext := congrArg (fun s => s.toList[5]?) h
  simp [peerNonce, relayNonce] at htext

def Channel.isRelay : Channel → Bool
  | .peer _ => false
  | .relay _ => true

namespace World

variable {p : Parties} {w : World}

/-- No signature that `AUTH` accepted was made inside `peer_authenticate`. -/
def RelayApart (w : World) : Prop :=
  ∀ r userDomain nonce sig, w.relay r = .authed userDomain nonce sig →
    ∀ s ∈ w.record, s.sig = sig → ∀ e, s.origin ≠ .peer e

/-- No signature that a responder accepted was made for the relay. -/
def ResponderApart (p : Parties) (w : World) : Prop :=
  ∀ e ctx nonce machineId machinePubkey, p.peer e = some ctx → e.role = .responder →
    w.peers e = .ok nonce machineId machinePubkey →
    ∀ s ∈ w.record, s.sig = .signed ctx.domainKey nonce → ∀ r, s.origin ≠ .handshake r

/-- The nonces of the relay and those a responder goes on with. -/
structure Forms (w : World) : Prop where
  relay : ∀ r nonce, (.relay r, nonce) ∈ w.used → ∃ nowMs machineId, nonce = relayNonce nowMs machineId
  responder : ∀ e nonce, e.role = .responder → (w.peers e).nonce = some nonce →
    ∃ nowMs machineId, nonce = peerNonce nowMs machineId
  authed : ∀ r userDomain nonce sig, w.relay r = .authed userDomain nonce sig →
    ∃ key, sig = .signed key nonce

theorem initial_forms : initial.Forms :=
  ⟨fun _ _ h => (nomatch h), fun _ _ _ h => (nomatch h), fun _ _ _ _ h => (nomatch h)⟩

/-- The relay accepts a signature over the nonce of the session. -/
theorem authed_of_step (h : (w.step p ev).relay r = .authed userDomain nonce sig) :
    w.relay r = .authed userDomain nonce sig ∨ ∃ key, sig = .signed key nonce := by
  cases ev with
  | peer e nowMs input =>
    simp only [World.step] at h
    split at h
    · exact .inl h
    · exact .inl h
  | hello r' userDomain' nowMs machineId =>
    simp only [World.step] at h
    split at h
    · by_cases hr : r = r'
      · subst hr
        simp only [Function.update_self] at h
        cases h
      · simp only [Function.update_of_ne hr] at h
        exact .inl h
    · exact .inl h
  | handshake r' =>
    simp only [World.step] at h
    split at h
    · exact .inl h
    · exact .inl h
  | auth r' tenants signature =>
    simp only [World.step] at h
    split at h
    · by_cases hr : r = r'
      · subst hr
        simp only [Function.update_self] at h
        split at h
        · rename_i hverified
          cases h
          unfold verifyAuth at hverified
          split at hverified
          · rename_i key hkey
            exact .inr ⟨key, by simpa [Sig.verify] using hverified⟩
          · cases hverified
        · cases h
      · simp only [Function.update_of_ne hr] at h
        exact .inl h
    · exact .inl h

theorem Forms.step (h : w.Forms) (hrec : w.Recorded) (p : Parties) (ev : NetEvent) :
    (w.step p ev).Forms := by
  refine ⟨fun r nonce hmem => ?_, fun e nonce hrole hnonce => ?_, fun r d nonce sig hauthed => ?_⟩
  · rcases mem_used_step hrec hmem with hold | hnew
    · exact h.relay r nonce hold
    · cases hnew
      exact ⟨_, _, rfl⟩
  · rcases nonce_of_step hnonce with hold | ⟨hnew, nowMs, input, rfl⟩
    · exact h.responder e nonce hrole hold
    · cases hnew with
      | auth _ hinitiator =>
        rw [hrole] at hinitiator
        cases hinitiator
      | hello => exact ⟨_, _, rfl⟩
  · rcases authed_of_step hauthed with hold | hkey
    · exact h.authed r d nonce sig hold
    · exact hkey

theorem run_forms (p : Parties) (events : List NetEvent) :
    (run (step p) initial events).Recorded ∧ (run (step p) initial events).Forms := by
  refine run_invariant (fun w : World => w.Recorded ∧ w.Forms) (fun w ev h _ => ?_)
    ⟨initial_recorded, initial_forms⟩ (AllSteps.of_forall fun _ _ _ => trivial)
  exact ⟨h.1.step p ev, h.2.step h.1 p ev⟩

theorem responderApart (hrec : w.Recorded) (hforms : w.Forms) : w.ResponderApart p := by
  intro e ctx nonce machineId machinePubkey _ hrole hok s hs hsig r horigin
  obtain ⟨nowMs, id, hpeer⟩ := hforms.responder e nonce hrole (by rw [hok]; rfl)
  have hused := hrec.record s hs
  rw [horigin] at hused
  obtain ⟨nowMs', id', hrelay⟩ := hforms.relay r s.text hused
  have htext : s.text = nonce := (Sig.signed.inj hsig).2
  exact peerNonce_ne_relayNonce nowMs nowMs' id id' (hpeer.symm.trans (htext ▸ hrelay))

theorem relayApart (hrec : w.Recorded) (hforms : w.Forms) (hagree : w.Agree Channel.isRelay) :
    w.RelayApart := by
  intro r userDomain nonce sig hauthed s hs hsig e horigin
  obtain ⟨key, rfl⟩ := hforms.authed r userDomain nonce sig hauthed
  have hpeer := hrec.record s hs
  rw [horigin] at hpeer
  rw [(Sig.signed.inj hsig).2] at hpeer
  cases hagree _ _ _ hpeer (hrec.relay r nonce (by rw [hauthed]; rfl))

/-- A responder never accepts a signature made for the relay. The relay accepts
none made inside `peer_authenticate` as long as no nonce of the relay is used
between peers. -/
theorem signatures_apart (p : Parties) (events : List NetEvent) :
    (run (step p) initial events).ResponderApart p ∧
    (AllSteps (step p) (Unshared Channel.isRelay p) initial events →
      (run (step p) initial events).RelayApart) := by
  obtain ⟨hrec, hforms⟩ := run_forms p events
  refine ⟨responderApart hrec hforms, fun hall => relayApart hrec hforms ?_⟩
  have hstart : initial.Recorded ∧ initial.Agree Channel.isRelay :=
    ⟨initial_recorded, fun _ _ _ h => (nomatch h)⟩
  refine (run_invariant (fun w : World => w.Recorded ∧ w.Agree Channel.isRelay) (fun w ev h hev => ?_)
    hstart hall).2
  exact ⟨h.1.step p ev, h.2.step h.1 hev⟩

/-- The domain of the pair, registered with the relay. -/
def acmeTenants : TenantStore := TenantStore.upsertTenant (fun _ => none) "acme" "d0"

/-- The pair, and one of the two as a client of the relay. -/
def pairOnline : Parties :=
  { pair with
    client := fun r => if r = 0 then some alice else none
    client_secret := fun r ctx h => by
      split at h
      · cases h
        rfl
      · cases h }

theorem signatures_apart_login :
    let events : List NetEvent := [.hello 0 "acme" 3 "0123456789abcdef", .handshake 0,
      .auth 0 acmeTenants (.recorded 0)]
    (run (step pairOnline) initial events).relay 0 = .authed "acme" "nsmt-nonce-3-0123456789abcdef"
        (.signed "d0" "nsmt-nonce-3-0123456789abcdef") ∧
    (run (step pairOnline) initial events).RelayApart := by
  intro events
  refine ⟨by decide +kernel, (signatures_apart pairOnline events).2 ⟨?_, ?_, ?_, trivial⟩⟩
  · intro ch nonce _ ch' hmem
    cases hmem
  · intro ch nonce h
    cases h
  · intro ch nonce h
    cases h

/-- The adversary asks the relay for a nonce, has an initiator sign it and is let
in. -/
theorem relay_nonce_signed_by_peer :
    let events : List NetEvent := [.hello 0 "acme" 3 "0123456789abcdef", .peer aliceEnd 4 .start,
      .peer aliceEnd 5 (.frame (.peerAuth { nonce := "nsmt-nonce-3-0123456789abcdef" })),
      .auth 0 acmeTenants (.recorded 0)]
    ¬ (run (step pair) initial events).RelayApart := by
  intro events h
  have hauthed : (run (step pair) initial events).relay 0 = .authed "acme"
      "nsmt-nonce-3-0123456789abcdef" (.signed "d0" "nsmt-nonce-3-0123456789abcdef") := by
    decide +kernel
  have hsigned : { origin := .peer aliceEnd, key := "d0", text := "nsmt-nonce-3-0123456789abcdef" } ∈
      (run (step pair) initial events).record := by decide +kernel
  exact h 0 _ _ _ hauthed _ hsigned rfl aliceEnd rfl

end World

end Nsmt.System
