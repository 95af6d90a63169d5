import Nsmt.Server.TenantLocks

/-!
# Lock frames between the registry and the connection

A session carries out a lock frame at the registry and then sends what follows
from it; other sessions and `cleanup_loop` may come in between. The answers do
not say whether a renewal or a release succeeded, and the registry knows its
holders by the requester strings that the frames carry. `run_truthful` says
when the answers are true all the same, `holders_safe_iff` when a lock is safe
from the sessions that do not hold it.
-/

namespace Nsmt.Server

open Nsmt.Lib Nsmt.Core

/-- What the registry returned. The code drops the results of `renew` and
`release`. -/
inductive LockResult
  | granted (expiresAt : Nat)
  | denied (holder : String)
  | renewed (ok : Bool)
  | released (ok : Bool)
  deriving DecidableEq, Repr

def LockResult.succeeded : LockResult → Bool
  | .granted _ => true
  | .denied _ => false
  | .renewed ok | .released ok => ok

/-- A lock frame that has been carried out at `now` and not answered yet. -/
structure LockReply where
  msg : LockFrame
  now : Nat
  result : LockResult
  deriving DecidableEq, Repr

namespace LockFrame

def requester : LockFrame → String
  | .acquire msg => msg.requester
  | .renew msg => msg.requester
  | .release msg => msg.requester

/-- The part of the handler that holds the registry. -/
def operate (locks : LockRegistry) (now : Nat) : LockFrame → LockResult × LockRegistry
  | .acquire msg =>
    match locks.acquire now msg.path msg.requester msg.ttlMs with
    | (.ok expiresAt, locks) => (.granted expiresAt, locks)
    | (.error holder, locks) => (.denied holder, locks)
  | .renew msg =>
    let (ok, locks) := locks.renew now msg.path msg.requester 30000
    (.renewed ok, locks)
  | .release msg =>
    let (ok, locks) := locks.release msg.path msg.requester
    (.released ok, locks)

end LockFrame

namespace LockReply

/-- The rest of the handler. The clock is read again, at `sentAt`, for the answer
to a renewal. -/
def effects (sentAt : Nat) (reply : LockReply) : List Effect :=
  match reply.result with
  | .granted expiresAt =>
    [.send (.lockGranted { path := reply.msg.path, expiresAt }),
      .broadcastExcept (.lockNotify
        { path := reply.msg.path, event := "locked", holder := some reply.msg.requester })]
  | .denied holder => [.send (.lockDenied { path := reply.msg.path, holder })]
  | .renewed _ =>
    [.send (.lockGranted { path := reply.msg.path, expiresAt := (sentAt + 30000) % 2 ^ 64 })]
  | .released _ =>
    [.broadcastExcept (.lockNotify { path := reply.msg.path, event := "unlocked", holder := none })]

/-- The entry that the answer is about to report. -/
def lease (reply : LockReply) : Option LockEntry :=
  match reply.result with
  | .granted expiresAt => some { holder := reply.msg.requester, expiresAt }
  | .renewed _ => some { holder := reply.msg.requester, expiresAt := (reply.now + 30000) % 2 ^ 64 }
  | .denied _ | .released _ => none

/-- A `LOCK_GRANTED` reports the entry of the registry, and an `unlocked` goes
out only for an entry that was removed. -/
def Truthful (locks : LockRegistry) (sentAt : Nat) (reply : LockReply) : Prop :=
  ∀ effect ∈ reply.effects sentAt,
    match effect with
    | .send (.lockGranted msg) =>
      locks msg.path = some { holder := reply.msg.requester, expiresAt := msg.expiresAt }
    | .broadcastExcept (.lockNotify msg) =>
      msg.event = "unlocked" → reply.result = .released true
    | _ => True

end LockReply

/-- `handle` is the two parts in one go. -/
theorem handle_lock (cfg : Config) (session : Session) (now : Nat) (server : ServerState)
    (msg : LockFrame) :
    session.handle cfg now server msg.frame =
      session.stay { server with locks := (msg.operate server.locks now).2 }
        (LockReply.effects now ⟨msg, now, (msg.operate server.locks now).1⟩) := by
  cases msg with
  | acquire msg =>
    rcases LockRegistry.acquire_cases server.locks now msg.path msg.requester msg.ttlMs with
      ⟨expiresAt, locks, hok⟩ | ⟨held, -, -, -, hdenied⟩
    · simp only [LockFrame.frame, Session.handle, Session.onLockAcquire, LockFrame.operate, hok]
      rfl
    · simp only [LockFrame.frame, Session.handle, Session.onLockAcquire, LockFrame.operate, hdenied]
      rfl
  | renew msg => rfl
  | release msg => rfl

-- ---------------------------------------------------------------------------
-- The registry's side of a frame
-- ---------------------------------------------------------------------------

namespace LockFrame

variable {locks : LockRegistry} {now : Nat} {msg : LockFrame} {path : String}

theorem operate_other (h : q ≠ msg.path) : (msg.operate locks now).2 q = locks q := by
  cases msg with
  | acquire msg =>
    have hother : (locks.acquire now msg.path msg.requester msg.ttlMs).2 q = locks q :=
      LockRegistry.acquire_other h ..
    simp only [operate]
    split
    all_goals
      rename_i heq
      rw [heq] at hother
      exact hother
  | renew msg => exact LockRegistry.renew_other h ..
  | release msg => exact LockRegistry.release_other h ..

/-- Under an entry that has not expired, exactly the frames with the holder's
string succeed. -/
theorem operate_leased (hl : locks msg.path = some held) (hlease : now < held.expiresAt) :
    (msg.operate locks now).1.succeeded = decide (msg.requester = held.holder) ∧
      (msg.requester ≠ held.holder → (msg.operate locks now).2 = locks) := by
  obtain ⟨holder, expiresAt⟩ := held
  by_cases hmine : msg.requester = holder
  · subst hmine
    refine ⟨?_, fun hne => absurd rfl hne⟩
    cases msg with
    | acquire msg =>
      have hfree : ∀ held, locks msg.path = some held → held.expiresAt > now →
          held.holder = msg.requester := by
        intro held hheld _
        rw [show locks msg.path = _ from hl] at hheld
        cases hheld
        rfl
      simp only [operate, LockRegistry.acquire_granted hfree]
      simp [LockResult.succeeded]
    | renew msg =>
      simp only [LockFrame.path] at hl
      simp [operate, LockRegistry.renew, hl, requester, LockResult.succeeded]
    | release msg =>
      simp only [LockFrame.path] at hl
      simp [operate, LockRegistry.release, hl, requester, LockResult.succeeded]
  · rw [decide_eq_false hmine]
    cases msg with
    | acquire msg =>
      have hdenied : locks.acquire now msg.path msg.requester msg.ttlMs = (.error holder, locks) :=
        LockRegistry.acquire_denied hl hlease hmine msg.ttlMs
      simp only [operate, hdenied]
      exact ⟨rfl, fun _ => trivial⟩
    | renew msg =>
      have hdenied : locks.renew now msg.path msg.requester 30000 = (false, locks) :=
        LockRegistry.renew_denied hl hmine now 30000
      simp only [operate, hdenied]
      exact ⟨rfl, fun _ => trivial⟩
    | release msg =>
      have hdenied : locks.release msg.path msg.requester = (false, locks) :=
        LockRegistry.release_denied hl hmine
      simp only [operate, hdenied]
      exact ⟨rfl, fun _ => trivial⟩

/-- A renewal and a release that find the requester's entry succeed. -/
def FindsOwn (locks : LockRegistry) : LockFrame → Prop
  | .acquire _ => True
  | .renew msg => ∃ held, locks msg.path = some held ∧ held.holder = msg.requester
  | .release msg => ∃ held, locks msg.path = some held ∧ held.holder = msg.requester

/-- What a frame that succeeds is about to report is in the registry. -/
theorem operate_reports (now : Nat) (hown : msg.FindsOwn locks) :
    (∀ entry, LockReply.lease ⟨msg, now, (msg.operate locks now).1⟩ = some entry →
      (msg.operate locks now).2 msg.path = some entry) ∧
    (msg.operate locks now).1 ≠ .released false := by
  cases msg with
  | acquire msg =>
    simp only [operate, LockFrame.path]
    split
    · rename_i expiresAt locks' heq
      refine ⟨fun entry hentry => ?_, LockResult.noConfusion⟩
      obtain rfl := Option.some.inj hentry
      have hentry := @LockRegistry.acquire_ok locks msg.path msg.requester expiresAt now msg.ttlMs
        (by rw [heq])
      rw [heq] at hentry
      exact hentry
    · refine ⟨fun entry hentry => ?_, LockResult.noConfusion⟩
      cases hentry
  | renew msg =>
    obtain ⟨held, hl, hheld⟩ := hown
    have hok : (locks.renew now msg.path msg.requester 30000).1 = true := by
      simp only [LockRegistry.renew, hl, hheld, if_true]
    refine ⟨fun entry hentry => ?_, LockResult.noConfusion⟩
    obtain rfl := Option.some.inj hentry
    exact LockRegistry.renew_ok hok
  | release msg =>
    obtain ⟨held, hl, hheld⟩ := hown
    have hok : (locks.release msg.path msg.requester).1 = true := by
      simp only [LockRegistry.release, hl, hheld, if_true]
    refine ⟨fun entry hentry => ?_, ?_⟩
    · cases hentry
    · simp only [operate, hok]
      intro h
      cases h

theorem operate_holder (hl : (msg.operate locks now).2 path = some held) :
    (∃ expiresAt, (msg.operate locks now).1 = .granted expiresAt ∧ path = msg.path ∧
      held.holder = msg.requester) ∨
    (∀ expiresAt, (msg.operate locks now).1 = .granted expiresAt → path ≠ msg.path) ∧
      ∃ old, locks path = some old ∧ old.holder = held.holder := by
  by_cases hpath : path = msg.path
  · subst hpath
    cases msg with
    | acquire msg =>
      rcases LockRegistry.acquire_cases locks now msg.path msg.requester msg.ttlMs with
        ⟨expiresAt, locks', hok⟩ | ⟨_, -, -, -, hdenied⟩
      · have hentry := @LockRegistry.acquire_ok locks msg.path msg.requester expiresAt now msg.ttlMs
        rw [hok] at hentry
        simp only [operate, hok, LockFrame.path, hentry rfl] at hl ⊢
        obtain rfl := Option.some.inj hl
        exact .inl ⟨expiresAt, rfl, trivial, rfl⟩
      · simp only [operate, hdenied] at hl ⊢
        exact .inr ⟨fun _ h => (by cases h), held, hl, rfl⟩
    | renew msg =>
      refine .inr ⟨fun _ h => (by cases h), ?_⟩
      simp only [operate, LockRegistry.renew, LockFrame.path] at hl ⊢
      cases hold : locks msg.path with
      | none =>
        simp only [hold] at hl
        cases hl
      | some old =>
        simp only [hold] at hl
        split at hl
        · simp only [Function.update_self] at hl
          obtain rfl := Option.some.inj hl
          exact ⟨old, rfl, rfl⟩
        · obtain rfl := Option.some.inj (hold.symm.trans hl)
          exact ⟨old, rfl, rfl⟩
    | release msg =>
      refine .inr ⟨fun _ h => (by cases h), ?_⟩
      simp only [operate, LockRegistry.release, LockFrame.path] at hl ⊢
      cases hold : locks msg.path with
      | none =>
        simp only [hold] at hl
        cases hl
      | some old =>
        simp only [hold] at hl
        split at hl
        · simp only [Function.update_self] at hl
          cases hl
        · obtain rfl := Option.some.inj (hold.symm.trans hl)
          exact ⟨old, rfl, rfl⟩
  · rw [operate_other hpath] at hl
    exact .inr ⟨fun _ _ => hpath, held, hl, rfl⟩

/-- `release` returns `true` exactly when it removes an entry. -/
theorem operate_released {msg : LockRelease} :
    (operate locks now (.release msg)).1 = .released true ↔
      locks msg.path ≠ none ∧ (operate locks now (.release msg)).2 msg.path = none := by
  cases hl : locks msg.path with
  | none => simp [operate, LockRegistry.release, hl]
  | some held =>
    by_cases hheld : held.holder = msg.requester
    · simp [operate, LockRegistry.release, hl, hheld]
    · simp [operate, LockRegistry.release, hl, hheld]

end LockFrame

-- ---------------------------------------------------------------------------
-- Any number of sessions
-- ---------------------------------------------------------------------------

/-- What `REGISTER` says of a session of the tenant. -/
structure Registration where
  userDomain : String
  machineId : String
  agentTag : String
  deriving DecidableEq, Repr

def Registration.fqn (r : Registration) : String :=
  r.userDomain ++ "/" ++ r.machineId ++ "/" ++ r.agentTag

/-- Session `i` carries out a lock frame, or sends what follows from it; or one
pass of `cleanup_loop`. -/
inductive LockTurn (ι : Type)
  | operate (i : ι) (now : Nat) (msg : LockFrame)
  | answer (i : ι) (sentAt : Nat)
  | cleanup (readAt : Nat)

/-- `replies` is what the sessions have not answered yet. `owner` is the session
that was granted the path last. -/
structure SharedLocks (ι : Type) where
  locks : LockRegistry
  replies : ι → Option LockReply
  owner : String → Option ι

namespace SharedLocks

variable {ι : Type} [DecidableEq ι]

def unlocked : SharedLocks ι where
  locks := fun _ => none
  replies := fun _ => none
  owner := fun _ => none

/-- A session reads its next frame when it has answered the last one. -/
def step (s : SharedLocks ι) : LockTurn ι → SharedLocks ι
  | .operate i now msg =>
    match s.replies i with
    | some _ => s
    | none =>
      let (result, locks) := msg.operate s.locks now
      { locks
        replies := Function.update s.replies i (some { msg, now, result })
        owner :=
          match result with
          | .granted _ => Function.update s.owner msg.path (some i)
          | _ => s.owner }
  | .answer i _ => { s with replies := Function.update s.replies i none }
  | .cleanup readAt => { s with locks := s.locks.cleanup readAt }

/-- What is sent is true of the registry it is sent beside. -/
def Truthful (s : SharedLocks ι) : LockTurn ι → Prop
  | .answer i sentAt => ∀ reply, s.replies i = some reply → reply.Truthful s.locks sentAt
  | _ => True

/-- Renewals and releases find the requester's entry, the clock reads for the
answer to a renewal what it read for the renewal, and as long as a lease is yet
to be reported it runs and others are refused. -/
def Undisturbed (s : SharedLocks ι) : LockTurn ι → Prop
  | .operate i now msg => s.replies i = none → msg.FindsOwn s.locks ∧
      ∀ j reply entry, s.replies j = some reply → reply.msg.path = msg.path →
        reply.lease = some entry → now < entry.expiresAt ∧ msg.requester ≠ entry.holder
  | .answer i sentAt => ∀ reply ok, s.replies i = some reply → reply.result = .renewed ok →
      sentAt % 2 ^ 64 = reply.now % 2 ^ 64
  | .cleanup readAt => ∀ j reply entry, s.replies j = some reply → reply.lease = some entry →
      readAt < entry.expiresAt

-- ---------------------------------------------------------------------------
-- True answers
-- ---------------------------------------------------------------------------

/-- What is yet to be answered is true of the registry already. -/
structure Reported (s : SharedLocks ι) : Prop where
  lease : ∀ i reply entry, s.replies i = some reply → reply.lease = some entry →
    s.locks reply.msg.path = some entry
  removed : ∀ i reply, s.replies i = some reply → reply.result ≠ .released false

omit [DecidableEq ι] in
theorem Reported.truthful {s : SharedLocks ι} (h : Reported s)
    (hok : s.Undisturbed (.answer i sentAt)) : s.Truthful (.answer i sentAt) := by
  rintro ⟨msg, now, result⟩ hreply effect heffect
  have hlease (entry : LockEntry) := h.lease i _ entry hreply
  have hremoved := h.removed i _ hreply
  cases result with
  | granted expiresAt =>
    simp only [LockReply.effects, List.mem_cons, List.not_mem_nil, or_false] at heffect
    rcases heffect with rfl | rfl
    · exact hlease _ rfl
    · intro hevent
      exact absurd (show "locked" = "unlocked" from hevent) (by decide)
  | denied holder =>
    obtain rfl := List.mem_singleton.mp heffect
    trivial
  | renewed ok =>
    obtain rfl := List.mem_singleton.mp heffect
    have hsame : (sentAt + 30000) % 2 ^ 64 = (now + 30000) % 2 ^ 64 :=
      Nat.ModEq.add_right 30000 (hok _ ok hreply rfl)
    simp only [hsame]
    exact hlease _ rfl
  | released ok =>
    obtain rfl := List.mem_singleton.mp heffect
    rintro -
    cases ok with
    | true => rfl
    | false => exact absurd rfl hremoved

/-- A frame that others may see carried out leaves the leases yet to be reported
as they are. -/
theorem Reported.operate {s : SharedLocks ι} (h : Reported s)
    (hok : s.Undisturbed (.operate i now msg)) : Reported (s.step (.operate i now msg)) := by
  simp only [step]
  split
  · exact h
  rename_i hidle
  obtain ⟨hown, hothers⟩ := hok hidle
  obtain ⟨hlease, hremoved⟩ := LockFrame.operate_reports now hown
  have hkept (j : ι) (reply : LockReply) (entry : LockEntry) (hreply : s.replies j = some reply)
      (hentry : reply.lease = some entry) :
      (msg.operate s.locks now).2 reply.msg.path = some entry := by
    have hbefore := h.lease j reply entry hreply hentry
    by_cases hpath : reply.msg.path = msg.path
    · obtain ⟨hruns, hother⟩ := hothers j reply entry hreply hpath hentry
      rw [hpath] at hbefore ⊢
      rw [(LockFrame.operate_leased hbefore hruns).2 hother]
      exact hbefore
    · rw [LockFrame.operate_other hpath]
      exact hbefore
  have hreplies {j : ι} {reply : LockReply} (hreply : Function.update s.replies i
      (some { msg, now, result := (msg.operate s.locks now).1 }) j = some reply) :
      s.replies j = some reply ∨ reply = ⟨msg, now, (msg.operate s.locks now).1⟩ := by
    by_cases hj : j = i
    · subst hj
      rw [Function.update_self] at hreply
      exact .inr (Option.some.inj hreply).symm
    · rw [Function.update_of_ne hj] at hreply
      exact .inl hreply
  refine ⟨fun j reply entry hreply hentry => ?_, fun j reply hreply => ?_⟩
  · rcases hreplies hreply with hold | rfl
    · exact hkept j reply entry hold hentry
    · exact hlease entry hentry
  · rcases hreplies hreply with hold | rfl
    · exact h.removed j reply hold
    · exact hremoved

theorem Reported.answer {s : SharedLocks ι} (h : Reported s) (i : ι) (sentAt : Nat) :
    Reported (s.step (.answer i sentAt)) := by
  have hold {j : ι} {reply : LockReply}
      (hreply : (s.step (.answer i sentAt)).replies j = some reply) : s.replies j = some reply := by
    by_cases hj : j = i
    · subst hj
      simp [step] at hreply
    · simpa [step, hj] using hreply
  exact ⟨fun j reply entry hreply => h.lease j reply entry (hold hreply),
    fun j reply hreply => h.removed j reply (hold hreply)⟩

theorem Reported.cleanup {s : SharedLocks ι} (h : Reported s)
    (hok : s.Undisturbed (.cleanup readAt)) : Reported (s.step (.cleanup readAt)) := by
  refine ⟨fun j reply entry hreply hentry => ?_, h.removed⟩
  have hbefore := h.lease j reply entry hreply hentry
  exact (LockRegistry.cleanup_leased hbefore (hok j reply entry hreply hentry)).trans hbefore

/-- In a run whose steps are undisturbed every `LOCK_GRANTED` reports the entry
the registry has when it is sent, and every `unlocked` an entry removed. -/
theorem run_truthful {s : SharedLocks ι} (hstart : ∀ i, s.replies i = none)
    (hall : AllSteps step Undisturbed s events) : AllSteps step Truthful s events := by
  refine AllSteps.of_invariant Reported (fun s e h hok => ?_) ⟨?_, ?_⟩ hall
  · cases e with
    | operate i now msg => exact ⟨h.operate hok, trivial⟩
    | answer i sentAt => exact ⟨h.answer i sentAt, h.truthful hok⟩
    | cleanup readAt => exact ⟨h.cleanup hok, trivial⟩
  · intro i reply entry hreply
    rw [hstart] at hreply
    cases hreply
  · intro i reply hreply
    rw [hstart] at hreply
    cases hreply

/-- One session is granted `a`; while it has not been told so, another one is
refused. -/
theorem run_truthful_refused :
    AllSteps step Truthful (unlocked : SharedLocks Bool)
      [.operate true 0 (TenantLocks.lockA "acme/m1/maka"),
        .operate false 5 (TenantLocks.lockA "acme/m2/maka"), .answer true 6, .answer false 7,
        .operate true 9 (.release ⟨"a", "acme/m1/maka"⟩), .answer true 9] := by
  refine run_truthful (fun _ => rfl) ⟨fun _ => ⟨trivial, ?_⟩, fun _ => ⟨trivial, ?_⟩, ?_, ?_,
    fun _ => ⟨⟨_, rfl, rfl⟩, ?_⟩, ?_, trivial⟩
  · intro j reply entry hreply
    cases hreply
  · rintro (_ | _) reply entry hreply - hentry
    · cases hreply
    · obtain rfl := Option.some.inj hreply
      obtain rfl := Option.some.inj hentry
      exact ⟨by decide, by decide⟩
  · intro reply ok hreply hresult
    obtain rfl := Option.some.inj hreply
    cases hresult
  · intro reply ok hreply hresult
    obtain rfl := Option.some.inj hreply
    cases hresult
  · rintro (_ | _) reply entry hreply
    all_goals cases hreply
  · intro reply ok hreply hresult
    obtain rfl := Option.some.inj hreply
    cases hresult

/-- A renewal of a path that nobody holds is answered with `LOCK_GRANTED`. -/
theorem unheld_renewal_granted :
    ¬ ∀ events, AllSteps step Truthful (unlocked : SharedLocks Unit) events := by
  intro h
  have hentry := (h [.operate () 0 (.renew ⟨"a", "acme/m1/maka"⟩), .answer () 0]).2.1 _ rfl _
    (List.mem_singleton_self _)
  cases hentry

-- ---------------------------------------------------------------------------
-- Locks of other sessions
-- ---------------------------------------------------------------------------

/-- A frame fails at a running lock that another session was granted, and leaves
every such lock as it is. -/
def HolderSafe (s : SharedLocks ι) : LockTurn ι → Prop
  | .operate i now msg => s.replies i = none → ∀ path held j, s.locks path = some held →
      now < held.expiresAt → s.owner path = some j → j ≠ i →
        (s.step (.operate i now msg)).locks path = some held ∧
          (path = msg.path → (msg.operate s.locks now).1.succeeded = false)
  | _ => True

/-- A frame does not carry the requester string under which another session
holds the path. -/
def Unforged (s : SharedLocks ι) : LockTurn ι → Prop
  | .operate i now msg => s.replies i = none → ∀ held j, s.locks msg.path = some held →
      now < held.expiresAt → s.owner msg.path = some j → j ≠ i → msg.requester ≠ held.holder
  | _ => True

theorem step_operate_locks {s : SharedLocks ι} (h : s.replies i = none) :
    (s.step (.operate i now msg)).locks = (msg.operate s.locks now).2 := by
  simp only [step, h]

theorem holderSafe_iff (s : SharedLocks ι) (turn : LockTurn ι) : s.HolderSafe turn ↔ s.Unforged turn := by
  cases turn with
  | operate i now msg =>
    refine forall_congr' fun hidle => ?_
    rw [step_operate_locks hidle]
    constructor
    · intro hsafe held j hl hlease howner hj hforged
      have hfailed := (hsafe msg.path held j hl hlease howner hj).2 rfl
      rw [(LockFrame.operate_leased hl hlease).1, decide_eq_false_iff_not] at hfailed
      exact hfailed hforged
    · intro hunforged path held j hl hlease howner hj
      by_cases hpath : path = msg.path
      · subst hpath
        have hne := hunforged held j hl hlease howner hj
        obtain ⟨hsucceeded, hsame⟩ := LockFrame.operate_leased hl hlease
        exact ⟨by rw [hsame hne, hl], fun _ => by rw [hsucceeded, decide_eq_false hne]⟩
      · exact ⟨(LockFrame.operate_other hpath).trans hl, fun heq => absurd heq hpath⟩
  | answer i sentAt => exact .rfl
  | cleanup readAt => exact .rfl

/-- In a run no session gets at the running locks of others exactly when none
uses the requester string of another one's lock. -/
theorem holders_safe_iff (s : SharedLocks ι) (events : List (LockTurn ι)) :
    AllSteps step HolderSafe s events ↔ AllSteps step Unforged s events :=
  AllSteps.congr fun turn _ s => holderSafe_iff s turn

/-- The session asks in its own name. -/
def OwnRequester (registered : ι → Registration) (_ : SharedLocks ι) : LockTurn ι → Prop
  | .operate i _ msg => msg.requester = (registered i).fqn
  | _ => True

/-- Every lock is held in the name of the session that was granted it. -/
def Owned (registered : ι → Registration) (s : SharedLocks ι) : Prop :=
  ∀ path held, s.locks path = some held →
    ∃ j, s.owner path = some j ∧ held.holder = (registered j).fqn

theorem Owned.step {registered : ι → Registration} {s : SharedLocks ι} (h : Owned registered s)
    (hown : s.OwnRequester registered turn) : Owned registered (s.step turn) := by
  cases turn with
  | operate i now msg =>
    simp only [SharedLocks.step]
    split
    · exact h
    intro path held hl
    rcases LockFrame.operate_holder hl with ⟨expiresAt, hgranted, rfl, hholder⟩ |
      ⟨hgranted, old, hold, hholder⟩
    · simp only [hgranted, Function.update_self]
      exact ⟨i, rfl, hholder.trans hown⟩
    · obtain ⟨j, howner, hname⟩ := h path old hold
      refine ⟨j, ?_, hholder.symm.trans hname⟩
      cases hresult : (msg.operate s.locks now).1 with
      | granted expiresAt => simpa [Function.update_of_ne (hgranted expiresAt hresult)] using howner
      | denied _ | renewed _ | released _ => exact howner
  | answer i sentAt => exact h
  | cleanup readAt =>
    intro path held hl
    exact h path held (Option.filter_eq_some_iff.mp hl).1

/-- Sessions that ask in their own names, if these differ, leave each other's
locks alone. -/
theorem own_requesters_safe {registered : ι → Registration} {s : SharedLocks ι}
    (hnames : ∀ i j, (registered i).fqn = (registered j).fqn → i = j)
    (hstart : ∀ path, s.locks path = none)
    (hall : AllSteps step (OwnRequester registered) s events) : AllSteps step HolderSafe s events := by
  refine AllSteps.of_invariant (Owned registered) (fun s turn h hown => ⟨h.step hown, ?_⟩) ?_ hall
  · rw [holderSafe_iff]
    cases turn with
    | operate i now msg =>
      intro _ held j hl _ howner hj hforged
      obtain ⟨k, hk, hname⟩ := h msg.path held hl
      obtain rfl := Option.some.inj (howner.symm.trans hk)
      exact hj (hnames j i (hname.symm.trans (hforged.symm.trans hown)))
    | answer i sentAt => trivial
    | cleanup readAt => trivial
  · intro path held hl
    rw [hstart] at hl
    cases hl

/-- One session releases the lock of another in its name. -/
theorem foreign_release_succeeds : ¬ ∀ (registered : Bool → Registration) (events : List (LockTurn Bool)),
    (∀ i j, (registered i).userDomain = (registered j).userDomain) →
    (∀ i j, i ≠ j → ((registered i).machineId, (registered i).agentTag) ≠
      ((registered j).machineId, (registered j).agentTag)) →
    AllSteps step HolderSafe unlocked events := by
  intro h
  have hsafe := h (fun i => ⟨"acme", if i then "m1" else "m2", "maka"⟩)
    [.operate true 0 (TenantLocks.lockA "acme/m1/maka"),
      .operate false 10 (.release ⟨"a", "acme/m1/maka"⟩)]
    (fun _ _ => rfl) (by decide)
  have hkept := (hsafe.2.1 rfl "a" ⟨"acme/m1/maka", 30000⟩ true rfl (by decide) rfl (by decide)).1
  cases hkept

end SharedLocks

end Nsmt.Server
