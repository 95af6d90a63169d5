import Nsmt.Core.Memory
import Nsmt.Lib.Runs
import Nsmt.Server.Admin

/-!
# The memory pool

`MemoryPool` in front of its gateways: a capture goes to the gateway that the
hash of its `fqn` points to, a recall to all of them. All sessions share one
pool, and neither the captures nor the recalls carry the tenant of the session.
`memory_isolated_iff` says which runs keep the tenants apart all the same.
-/

namespace Nsmt.Server

open Nsmt.Lib Nsmt.Core

/-- The body of `POST /capture`. -/
structure Capture where
  userContent : String
  assistantContent : String
  sessionKey : String
  deriving DecidableEq, Repr

/-- A gateway answers out of what it has received so far; `none` is an error. A
recall is answered with a context, a capture with the number of records. -/
structure Gateway where
  recall_ : (query sessionKey : String) → List Capture → Option String
  capture : Capture → List Capture → Option Nat

structure MemoryPool where
  shards : List Gateway
  shards_ne : shards ≠ []

/-- What each shard has received. -/
abbrev Received := Nat → List Capture

def captureBody (msg : MemoryCapture) : Capture where
  userContent := msg.userContent
  assistantContent := msg.assistantContent
  sessionKey := msg.fqn

/-- The shard of an `fqn` among `n`: the first eight bytes of its hash, big-endian. -/
def shardFor (sha256 : Bytes → Digest) (n : Nat) (fqn : String) : Nat :=
  ofLe ((sha256 (utf8 fqn)).val.take 8).reverse % n

/-- The hit of a context, unless it is blank. -/
def hitsOf (context : String) : List MemoryHit :=
  if trim context = "" then [] else [{ content := context, fqn := "", score := 0, scope := "user" }]

namespace MemoryPool

variable (pool : MemoryPool) (received : Received) (reachable : Nat → Bool)

/-- The answer of one shard to a recall. -/
def ask (msg : MemoryRecall) (k : Nat) : Option String :=
  match pool.shards[k]? with
  | some gateway =>
    if reachable k then gateway.recall_ msg.query ("pool:" ++ msg.requestId) (received k) else none
  | none => none

/-- `recall_one` for a single shard; otherwise all are asked, and the first
`limit` of their hits in the order of the contents are the answer. -/
def recall_ (msg : MemoryRecall) (latencyMs : Nat) : Option MemoryRecallResult :=
  if pool.shards.length = 1 then
    (pool.ask received reachable msg 0).map fun context =>
      { requestId := msg.requestId, source := "pool", memories := hitsOf context, latencyMs }
  else
    let answers := (List.range pool.shards.length).map (pool.ask received reachable msg)
    let hits := answers.flatMap fun answer => (answer.map hitsOf).getD []
    some
      { requestId := msg.requestId
        source := if answers.count none = pool.shards.length then "pool_unavailable" else "pool"
        memories := (hits.insertionSort fun a b => a.content ≤ b.content).take (max msg.limit 1)
        latencyMs }

/-- The handler of `MEMORY_RECALL`; on an error the client falls back to its own
memory. -/
def onRecall (msg : MemoryRecall) (latencyMs : Nat) : MemoryRecallResult :=
  match pool.recall_ received reachable msg latencyMs with
  | some result => result
  | none =>
    { requestId := msg.requestId, source := "pool_unavailable", memories := [], latencyMs := 0 }

/-- The handler of `MEMORY_CAPTURE`. -/
def onCapture (sha256 : Bytes → Digest) (msg : MemoryCapture) : MemoryCaptureResult × Received :=
  let k := shardFor sha256 pool.shards.length msg.fqn
  match pool.shards[k]?, reachable k with
  | some gateway, true =>
    let received' := Function.update received k (received k ++ [captureBody msg])
    match gateway.capture (captureBody msg) (received k) with
    | some recorded =>
      ({ requestId := msg.requestId, committed := recorded > 0, queued := false }, received')
    | none => ({ requestId := msg.requestId, committed := false, queued := true }, received')
  | _, _ => ({ requestId := msg.requestId, committed := false, queued := true }, received)

end MemoryPool

-- ---------------------------------------------------------------------------
-- Runs of the sessions
-- ---------------------------------------------------------------------------

/-- A memory frame of session `i`, and the shards that can be reached when it is
handled. -/
inductive MemoryEvent (ι : Type)
  | memoryRecall (i : ι) (msg : MemoryRecall) (reachable : Nat → Bool) (latencyMs : Nat)
  | memoryCapture (i : ι) (msg : MemoryCapture) (reachable : Nat → Bool)

def nothingReceived : Received := fun _ => []

/-- `fqn.split('/').next()`. -/
def firstSegment (fqn : String) : String := String.ofList (fqn.toList.takeWhile (· ≠ '/'))

namespace MemoryPool

variable {ι : Type} (sha256 : Bytes → Digest) (pool : MemoryPool)

def step (received : Received) : MemoryEvent ι → Received
  | .memoryRecall _ _ _ _ => received
  | .memoryCapture _ msg reachable => (pool.onCapture received reachable sha256 msg).2

/-- What the event asks the gateways to capture. -/
def issued : MemoryEvent ι → List Capture
  | .memoryRecall _ _ _ _ => []
  | .memoryCapture _ msg _ => [captureBody msg]

/-- The run without the captures of other domains. -/
def keep (domain : ι → String) (d : String) : MemoryEvent ι → Bool
  | .memoryRecall _ _ _ _ => true
  | .memoryCapture i _ _ => domain i = d

/-- Captures are keyed by the domain of their session, and recalls are answered
as if the captures of other domains had not been. -/
def Isolated (domain : ι → String) (events : List (MemoryEvent ι)) : Prop :=
  (∀ i msg reachable, .memoryCapture i msg reachable ∈ events →
    ∀ c ∈ issued (.memoryCapture i msg reachable), firstSegment c.sessionKey = domain i) ∧
  ∀ before i msg reachable latencyMs after,
    events = before ++ .memoryRecall i msg reachable latencyMs :: after →
      pool.onRecall (run (pool.step sha256) nothingReceived before) reachable msg latencyMs =
        pool.onRecall (run (pool.step sha256) nothingReceived (before.filter (keep domain (domain i))))
          reachable msg latencyMs

/-- Sessions write their own domain into the `fqn`. -/
def OwnKeys (domain : ι → String) (events : List (MemoryEvent ι)) : Prop :=
  ∀ i msg reachable, .memoryCapture i msg reachable ∈ events → firstSegment msg.fqn = domain i

/-- No recall reaches a shard of `n` that a capture of another domain has reached. -/
def NoneForeign (n : Nat) (domain : ι → String) (events : List (MemoryEvent ι)) : Prop :=
  ∀ before i msg reachable latencyMs after,
    events = before ++ .memoryRecall i msg reachable latencyMs :: after →
      ∀ j c reached, .memoryCapture j c reached ∈ before → domain j ≠ domain i →
        reached (shardFor sha256 n c.fqn) = true → reachable (shardFor sha256 n c.fqn) = false

-- ---------------------------------------------------------------------------
-- What a shard has received
-- ---------------------------------------------------------------------------

section
variable {sha256 : Bytes → Digest} {pool : MemoryPool} {domain : ι → String}
  {events : List (MemoryEvent ι)} {n k : Nat}

/-- What shard `k` receives of an event. -/
def arrival (sha256 : Bytes → Digest) (n k : Nat) : MemoryEvent ι → Option Capture
  | .memoryRecall _ _ _ _ => none
  | .memoryCapture _ msg reachable =>
    if shardFor sha256 n msg.fqn = k ∧ reachable k = true then some (captureBody msg) else none

theorem length_pos (pool : MemoryPool) : 0 < pool.shards.length := List.length_pos_iff.mpr pool.shards_ne

theorem onCapture_received (received : Received) (reachable : Nat → Bool) (msg : MemoryCapture) :
    (pool.onCapture received reachable sha256 msg).2 =
      if reachable (shardFor sha256 pool.shards.length msg.fqn) = true then
        Function.update received (shardFor sha256 pool.shards.length msg.fqn)
          (received (shardFor sha256 pool.shards.length msg.fqn) ++ [captureBody msg])
      else received := by
  have hlt : shardFor sha256 pool.shards.length msg.fqn < pool.shards.length :=
    Nat.mod_lt _ pool.length_pos
  simp only [onCapture, List.getElem?_eq_getElem hlt]
  cases hreach : reachable (shardFor sha256 pool.shards.length msg.fqn) with
  | false => rfl
  | true =>
    simp only [if_true]
    split <;> rfl

theorem step_received (received : Received) (e : MemoryEvent ι) (k : Nat) :
    pool.step sha256 received e k = received k ++ (arrival sha256 pool.shards.length k e).toList := by
  cases e with
  | memoryRecall i msg reachable latencyMs => exact (List.append_nil _).symm
  | memoryCapture i msg reachable =>
    simp only [step, onCapture_received, arrival]
    by_cases hk : shardFor sha256 pool.shards.length msg.fqn = k
    · subst hk
      by_cases hreach : reachable (shardFor sha256 pool.shards.length msg.fqn) = true
      · simp [hreach]
      · simp [hreach]
    · have hnone (c : Capture) : (if shardFor sha256 pool.shards.length msg.fqn = k ∧ reachable k = true
          then some c else none) = none := if_neg fun h => hk h.1
      rw [hnone, Option.toList_none, List.append_nil]
      split
      · exact Function.update_of_ne (Ne.symm hk) ..
      · rfl

theorem run_received (received : Received) (events : List (MemoryEvent ι)) (k : Nat) :
    run (pool.step sha256) received events k =
      received k ++ events.filterMap (arrival sha256 pool.shards.length k) := by
  induction events generalizing received with
  | nil => simp
  | cons e events ih =>
    rw [run_cons, ih, step_received, List.append_assoc]
    cases harrival : arrival sha256 pool.shards.length k e with
    | none => simp [harrival]
    | some c => simp [harrival]

theorem ask_congr {received received' : Received} {reachable : Nat → Bool}
    (h : ∀ k, reachable k = true → received k = received' k) (msg : MemoryRecall) :
    pool.ask received reachable msg = pool.ask received' reachable msg := by
  funext k
  unfold ask
  split
  · split
    · rename_i hreach
      rw [h k hreach]
    · rfl
  · rfl

/-- A recall depends on what the shards have that it reaches. -/
theorem onRecall_congr {received received' : Received} {reachable : Nat → Bool}
    (h : ∀ k, reachable k = true → received k = received' k) (msg : MemoryRecall) (latencyMs : Nat) :
    pool.onRecall received reachable msg latencyMs = pool.onRecall received' reachable msg latencyMs := by
  simp only [onRecall, recall_, ask_congr h]

theorem filterMap_keep {d : String} (h : ∀ j c reached, .memoryCapture j c reached ∈ events → domain j ≠ d →
    reached (shardFor sha256 n c.fqn) = true → shardFor sha256 n c.fqn ≠ k) :
    (events.filter (keep domain d)).filterMap (arrival sha256 n k) =
      events.filterMap (arrival sha256 n k) := by
  rw [List.filterMap_filter]
  refine List.filterMap_congr fun e he => ?_
  cases e with
  | memoryRecall i msg reachable latencyMs => rfl
  | memoryCapture j c reached =>
    by_cases hj : domain j = d
    · simp [keep, hj]
    · simp only [keep, hj, decide_false, Bool.false_eq_true, if_false, arrival]
      symm
      rw [if_neg]
      rintro ⟨rfl, hreached⟩
      exact h j c reached he hj hreached rfl

theorem onRecall_isolated (h : NoneForeign sha256 pool.shards.length domain events)
    (hsplit : events = before ++ .memoryRecall i msg reachable latencyMs :: after) :
    pool.onRecall (run (pool.step sha256) nothingReceived before) reachable msg latencyMs =
      pool.onRecall (run (pool.step sha256) nothingReceived (before.filter (keep domain (domain i))))
        reachable msg latencyMs := by
  refine onRecall_congr (fun k hk => ?_) msg latencyMs
  rw [run_received, run_received, filterMap_keep fun j c reached hmem hj hreached heq => ?_]
  have hunreached := h before i msg reachable latencyMs after hsplit j c reached hmem hj hreached
  rw [heq, hk] at hunreached
  cases hunreached

-- ---------------------------------------------------------------------------
-- A gateway that tells
-- ---------------------------------------------------------------------------

/-- A gateway that answers with the context if it has received `count` captures. -/
def telling (count : Nat) : Gateway where
  recall_ := fun _ _ captures => some (if captures.length = count then "x" else "")
  capture := fun _ _ => some 1

def silent : Gateway where
  recall_ := fun _ _ _ => some ""
  capture := fun _ _ => some 1

/-- Shard `k` of `n` tells, the others do not. -/
def tellingAt (n k count : Nat) (hn : 0 < n) : MemoryPool where
  shards := (List.range n).map fun j => if j = k then telling count else silent
  shards_ne := by
    intro hnil
    have hlen := congrArg List.length hnil
    simp only [List.length_map, List.length_range, List.length_nil] at hlen
    omega

theorem length_tellingAt (hn : 0 < n) : (tellingAt n k count hn).shards.length = n := by
  simp [tellingAt]

theorem ask_tellingAt (hn : 0 < n) (hk : k < n) (count : Nat) (received : Received)
    {reachable : Nat → Bool} (msg : MemoryRecall) (hreach : reachable k = true) :
    (tellingAt n k count hn).ask received reachable msg k =
      some (if (received k).length = count then "x" else "") := by
  simp [ask, tellingAt, hk, hreach, telling]

/-- No other shard has anything to say. -/
theorem ask_tellingAt_other (hn : 0 < n) (count : Nat) (received : Received)
    (reachable : Nat → Bool) (msg : MemoryRecall) (hj : j ≠ k) :
    (tellingAt n k count hn).ask received reachable msg j = none ∨
      (tellingAt n k count hn).ask received reachable msg j = some "" := by
  unfold ask
  split
  · rename_i gateway hgateway
    have hsilent : gateway = silent := by
      simp only [tellingAt, List.getElem?_map, Option.map_eq_some_iff] at hgateway
      obtain ⟨j', hj', rfl⟩ := hgateway
      rw [List.getElem?_eq_some_iff] at hj'
      obtain ⟨_, hj'⟩ := hj'
      rw [List.getElem_range] at hj'
      rw [← hj', if_neg hj]
    subst hsilent
    split
    · exact .inr rfl
    · exact .inl rfl
  · exact .inl rfl

theorem hitsOf_empty : hitsOf "" = [] := by decide

theorem hitsOf_x : hitsOf "x" ≠ [] := by decide

theorem memories_tellingAt (hn : 0 < n) (hk : k < n) {received : Received} {reachable : Nat → Bool}
    (msg : MemoryRecall) (latencyMs : Nat) (hreach : reachable k = true) :
    ((tellingAt n k count hn).onRecall received reachable msg latencyMs).memories = [] ↔
      (received k).length ≠ count := by
  have hask := ask_tellingAt hn hk count received msg hreach
  by_cases hone : n = 1
  · subst hone
    obtain rfl : k = 0 := by omega
    simp only [onRecall, recall_, length_tellingAt, if_true, hask, Option.map_some]
    by_cases hcount : (received 0).length = count
    · simp [hcount, hitsOf_x]
    · simp [hcount, hitsOf_empty]
  · simp only [onRecall, recall_, length_tellingAt, if_neg hone, List.take_eq_nil_iff]
    have hlimit : max msg.limit 1 ≠ 0 := by omega
    rw [or_iff_right hlimit, ← List.length_eq_zero_iff, List.length_insertionSort,
      List.length_eq_zero_iff, List.flatMap_eq_nil_iff]
    constructor
    · intro hblank hcount
      have hx := hblank _ (List.mem_map_of_mem (List.mem_range.mpr hk))
      rw [hask, if_pos hcount] at hx
      exact hitsOf_x hx
    · intro hcount answer hanswer
      obtain ⟨j, -, rfl⟩ := List.mem_map.mp hanswer
      by_cases hj : j = k
      · subst hj
        rw [hask, if_neg hcount]
        exact hitsOf_empty
      · rcases ask_tellingAt_other hn count received reachable msg hj with hnone | hblank
        · rw [hnone]
          rfl
        · rw [hblank]
          exact hitsOf_empty

/-- With gateways that tell, a foreign capture shows in the answer. -/
theorem noneForeign_of_isolated (hn : 0 < n)
    (h : ∀ pool : MemoryPool, pool.shards.length = n → pool.Isolated sha256 domain events) :
    NoneForeign sha256 n domain events := by
  intro before i msg reachable latencyMs after hsplit j c reached hmem hj hreached
  by_contra hreach
  rw [Bool.not_eq_false] at hreach
  have hk : shardFor sha256 n c.fqn < n := Nat.mod_lt _ hn
  generalize hshard : shardFor sha256 n c.fqn = k at hreached hreach hk
  have harrived : arrival sha256 n k (.memoryCapture j c reached) = some (captureBody c) := by
    simp [arrival, hshard, hreached]
  -- The shard has received less in the run without the foreign capture.
  have hfewer : ((before.filter (keep domain (domain i))).filterMap (arrival sha256 n k)).length <
      (before.filterMap (arrival sha256 n k)).length := by
    obtain ⟨a, b, rfl⟩ := List.append_of_mem hmem
    have hsub : ((a ++ .memoryCapture j c reached :: b).filter (keep domain (domain i))).Sublist (a ++ b) := by
      rw [List.filter_append, List.filter_cons_of_neg (by simp [keep, hj])]
      exact List.filter_sublist.append List.filter_sublist
    have hle := (hsub.filterMap (arrival sha256 n k)).length_le
    simp only [List.filterMap_append, List.filterMap_cons, harrived, List.length_append,
      List.length_cons] at hle ⊢
    omega
  have hlen : (tellingAt n k (before.filterMap (arrival sha256 n k)).length hn).shards.length = n :=
    length_tellingAt hn
  have hsame := (h _ hlen).2 before i msg reachable latencyMs after hsplit
  have htold := congrArg MemoryRecallResult.memories hsame
  have hblank := (memories_tellingAt hn hk msg latencyMs hreach).mp
    (htold.trans ((memories_tellingAt hn hk msg latencyMs hreach).mpr ?_))
  · rw [run_received, hlen] at hblank
    exact hblank rfl
  · rw [run_received, hlen]
    exact Nat.ne_of_lt hfewer

/-- Whatever the gateways answer, the tenants are kept apart exactly if sessions
write their own domain and no recall reaches a shard that a capture of another
domain has reached. -/
theorem memory_isolated_iff (sha256 : Bytes → Digest) (domain : ι → String)
    (events : List (MemoryEvent ι)) (hn : 0 < n) :
    (∀ pool : MemoryPool, pool.shards.length = n → pool.Isolated sha256 domain events) ↔
      OwnKeys domain events ∧ NoneForeign sha256 n domain events := by
  constructor
  · intro h
    refine ⟨fun i msg reachable hmem => ?_, noneForeign_of_isolated hn h⟩
    have hkeyed := (h (tellingAt n 0 0 hn) (length_tellingAt hn)).1 i msg reachable hmem
    exact hkeyed (captureBody msg) (List.mem_singleton_self _)
  · rintro ⟨hkeys, hforeign⟩ pool rfl
    refine ⟨fun i msg reachable hmem c hc => ?_, fun before i msg reachable latencyMs after hsplit => ?_⟩
    · obtain rfl := List.mem_singleton.mp hc
      exact hkeys i msg reachable hmem
    · exact onRecall_isolated hforeign hsplit

end

/-- A gateway that puts what it has received behind one another. -/
def recorder : MemoryPool where
  shards := [{ recall_ := fun _ _ captures => some (String.join (captures.map Capture.userContent))
               capture := fun _ _ => some 1 }]
  shards_ne := by simp

/-- A tenant on its own captures and recalls. -/
theorem memory_isolated_iff_alone :
    recorder.Isolated Digest.sha256 (fun _ : Unit => "acme")
      [.memoryCapture () ⟨"1", "hello", "", "user", "acme/m1/maka", 0⟩ (fun _ => true),
        .memoryRecall () ⟨"2", "hello", "user", 5, 1500, true⟩ (fun _ => true) 3] := by
  refine (memory_isolated_iff Digest.sha256 _ _ Nat.one_pos).mpr ⟨fun i msg reachable hmem => ?_, ?_⟩
    recorder rfl
  · simp only [List.mem_cons, MemoryEvent.memoryCapture.injEq, List.not_mem_nil, reduceCtorEq,
      or_false] at hmem
    obtain ⟨-, rfl, -⟩ := hmem
    exact (by decide : firstSegment "acme/m1/maka" = "acme")
  · intro before i msg reachable latencyMs after hsplit j c reached hmem hj
    exact absurd rfl hj

/-- `beta` captures, `acme` recalls and reads it. -/
theorem foreign_capture_recalled : ¬ ∀ (sha256 : Bytes → Digest) (pool : MemoryPool)
    (domain : Bool → String) (events : List (MemoryEvent Bool)), pool.Isolated sha256 domain events := by
  intro h
  have hsame := (h Digest.sha256 recorder (fun i => if i then "acme" else "beta")
    [.memoryCapture false ⟨"1", "secret", "", "user", "beta/m2/maka", 0⟩ (fun _ => true),
      .memoryRecall true ⟨"2", "secret", "user", 5, 1500, true⟩ (fun _ => true) 3]).2
    [.memoryCapture false ⟨"1", "secret", "", "user", "beta/m2/maka", 0⟩ (fun _ => true)] true
    ⟨"2", "secret", "user", 5, 1500, true⟩ (fun _ => true) 3 [] rfl
  have hread := congrArg MemoryRecallResult.memories hsame
  revert hread
  decide +kernel

end MemoryPool

end Nsmt.Server
