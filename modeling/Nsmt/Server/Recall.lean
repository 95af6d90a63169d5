import Nsmt.Server.Memory

/-!
# What a recall answers

With one shard `recall` asks it and hands an error on to the session; with more
it spawns a task for each and awaits them in the order of the shards.
`recall_aggregates` says that the client cannot tell the two apart, nor in which
order the shards stand and their tasks end.
-/

namespace Nsmt.Server

open Nsmt.Lib Nsmt.Core

/-- The first `limit` of the hits, at least one, in the order of the contents. -/
def topHits (limit : Nat) (hits : List MemoryHit) : List MemoryHit :=
  (hits.insertionSort fun a b => a.content ≤ b.content).take (max limit 1)

/-- The hits of the shards; `none` is an error. -/
def hitsOfAll (outcomes : List (Option String)) : List MemoryHit :=
  outcomes.flatMap fun outcome => (outcome.map hitsOf).getD []

/-- The contexts of the shards that have something to say. -/
def contexts (outcomes : List (Option String)) : List String :=
  (outcomes.filterMap id).filter fun context => trim context ≠ ""

/-- The outcome of task `k`, whose handle is awaited, when the tasks have ended in
the order of `ended`. -/
def awaitHandle (ended : List (Nat × Option String)) (k : Nat) : Option String := (ended.lookup k).join

/-- `recall` on `n` shards as it is with more than one. -/
def recallAll (msg : MemoryRecall) (n : Nat) (ended : List (Nat × Option String)) (latencyMs : Nat) :
    MemoryRecallResult :=
  let answers := (List.range n).map (awaitHandle ended)
  { requestId := msg.requestId
    source := if answers.count none = n then "pool_unavailable" else "pool"
    memories := topHits msg.limit (hitsOfAll answers)
    latencyMs }

namespace MemoryPool

variable (pool : MemoryPool) (received : Received) (reachable : Nat → Bool) (msg : MemoryRecall)

def outcomes : List (Option String) :=
  (List.range pool.shards.length).map (pool.ask received reachable msg)

/-- The tasks of a recall with their outcomes. -/
def tasks : List (Nat × Option String) :=
  (List.range pool.shards.length).map fun k => (k, pool.ask received reachable msg k)

end MemoryPool

/-- The answers are the same but for the time that they took. -/
def SameAnswer (r r' : MemoryRecallResult) : Prop :=
  r.requestId = r'.requestId ∧ r.source = r'.source ∧ r.memories = r'.memories

/-- What the client is to receive when the shards answer `outcomes`. -/
structure Aggregates (msg : MemoryRecall) (outcomes : List (Option String)) (r : MemoryRecallResult) :
    Prop where
  requestId : r.requestId = msg.requestId
  unavailable : r.source = "pool_unavailable" ↔ ∀ outcome ∈ outcomes, outcome = none
  available : r.source = "pool" ↔ ∃ context, some context ∈ outcomes
  contents : ∃ sorted : List String, sorted.Perm (contexts outcomes) ∧ sorted.Pairwise (· ≤ ·) ∧
    r.memories.map MemoryHit.content = sorted.take (max msg.limit 1)

theorem SameAnswer.symm {r r' : MemoryRecallResult} (h : SameAnswer r r') : SameAnswer r' r :=
  ⟨h.1.symm, h.2.1.symm, h.2.2.symm⟩

theorem SameAnswer.trans {r r' r'' : MemoryRecallResult} (h : SameAnswer r r') (h' : SameAnswer r' r'') :
    SameAnswer r r'' :=
  ⟨h.1.trans h'.1, h.2.1.trans h'.2.1, h.2.2.trans h'.2.2⟩

theorem Aggregates.of_sameAnswer {msg : MemoryRecall} {outcomes : List (Option String)}
    {r r' : MemoryRecallResult} (h : Aggregates msg outcomes r) (hsame : SameAnswer r' r) :
    Aggregates msg outcomes r' := by
  obtain ⟨hid, hsource, hmemories⟩ := hsame
  refine ⟨hid.trans h.requestId, ?_, ?_, ?_⟩
  · rw [hsource]
    exact h.unavailable
  · rw [hsource]
    exact h.available
  · rw [hmemories]
    exact h.contents

-- ---------------------------------------------------------------------------
-- Hits and contexts
-- ---------------------------------------------------------------------------

def hit (context : String) : MemoryHit := { content := context, fqn := "", score := 0, scope := "user" }

theorem hitsOfAll_eq (outcomes : List (Option String)) :
    hitsOfAll outcomes = (contexts outcomes).map hit := by
  induction outcomes with
  | nil => rfl
  | cons outcome outcomes ih =>
    have hcons : hitsOfAll (outcome :: outcomes) = (outcome.map hitsOf).getD [] ++ hitsOfAll outcomes := rfl
    rw [hcons, ih]
    cases outcome with
    | none => rfl
    | some context =>
      by_cases hblank : trim context = ""
      · simp [contexts, hitsOf, hblank]
      · simp [contexts, hitsOf, hblank, hit]

theorem topHits_map_hit (limit : Nat) (contexts : List String) :
    topHits limit (contexts.map hit) =
      ((contexts.insertionSort (· ≤ ·)).take (max limit 1)).map hit := by
  rw [topHits, List.map_take, List.map_insertionSort (r := (· ≤ ·)) (s := fun a b => a.content ≤ b.content)]
  exact fun _ _ _ _ => Iff.rfl

theorem topHits_perm {outcomes outcomes' : List (Option String)} (h : outcomes.Perm outcomes')
    (limit : Nat) : topHits limit (hitsOfAll outcomes) = topHits limit (hitsOfAll outcomes') := by
  have hcontexts : (contexts outcomes).Perm (contexts outcomes') :=
    (h.filterMap _).filter _
  have hsorted := ((List.perm_insertionSort (· ≤ ·) (contexts outcomes)).trans hcontexts).trans
    (List.perm_insertionSort (· ≤ ·) (contexts outcomes')).symm
  rw [hitsOfAll_eq, hitsOfAll_eq, topHits_map_hit, topHits_map_hit,
    hsorted.eq_of_pairwise' (List.pairwise_insertionSort _ _) (List.pairwise_insertionSort _ _)]

/-- One shard has at most one hit, and a limit leaves it. -/
theorem topHits_single {limit : Nat} (outcome : Option String) :
    topHits limit (hitsOfAll [outcome]) = (outcome.map hitsOf).getD [] := by
  have hsingle : hitsOfAll [outcome] = (outcome.map hitsOf).getD [] := List.append_nil _
  rw [hsingle]
  cases outcome with
  | none => exact List.take_nil
  | some context =>
    show topHits limit (hitsOf context) = hitsOf context
    unfold hitsOf
    split
    · exact List.take_nil
    · exact List.take_of_length_le (Nat.le_max_right limit 1)

-- ---------------------------------------------------------------------------
-- Tasks
-- ---------------------------------------------------------------------------

/-- A handle gives the outcome of its task, whenever the task has ended. -/
theorem awaitHandle_of_perm {n : Nat} {ask : Nat → Option String} {ended : List (Nat × Option String)}
    (h : ended.Perm ((List.range n).map fun k => (k, ask k))) {k : Nat} (hk : k < n) :
    awaitHandle ended k = ask k := by
  have hmem : (k, ask k) ∈ ended :=
    h.mem_iff.mpr (List.mem_map.mpr ⟨k, List.mem_range.mpr hk, rfl⟩)
  unfold awaitHandle
  cases hlookup : ended.lookup k with
  | none =>
    have hne := List.lookup_eq_none_iff.mp hlookup _ hmem
    simp at hne
  | some outcome =>
    obtain ⟨before, after, hsplit, -⟩ := List.lookup_eq_some_iff.mp hlookup
    have hended : (k, outcome) ∈ ended := by simp [hsplit]
    obtain ⟨k', -, hpair⟩ := List.mem_map.mp (h.mem_iff.mp hended)
    obtain ⟨rfl, rfl⟩ := Prod.mk.inj hpair
    rfl

namespace MemoryPool

variable {pool : MemoryPool} {received : Received} {reachable : Nat → Bool} {msg : MemoryRecall}

theorem recallAll_of_perm {ended : List (Nat × Option String)}
    (h : ended.Perm (pool.tasks received reachable msg)) (latencyMs : Nat) :
    recallAll msg pool.shards.length ended latencyMs =
      { requestId := msg.requestId
        source := if (pool.outcomes received reachable msg).count none = pool.shards.length
          then "pool_unavailable" else "pool"
        memories := topHits msg.limit (hitsOfAll (pool.outcomes received reachable msg))
        latencyMs } := by
  have hanswers : (List.range pool.shards.length).map (awaitHandle ended) =
      pool.outcomes received reachable msg :=
    List.map_congr_left fun k hk => awaitHandle_of_perm h (List.mem_range.mp hk)
  simp only [recallAll, hanswers]

theorem outcomes_single (hone : pool.shards.length = 1) :
    pool.outcomes received reachable msg = [pool.ask received reachable msg 0] := by
  rw [outcomes, hone]
  rfl

/-- One shard or many, the answer is that of the tasks. -/
theorem onRecall_sameAnswer {ended : List (Nat × Option String)}
    (h : ended.Perm (pool.tasks received reachable msg)) (latencyMs : Nat) :
    SameAnswer (pool.onRecall received reachable msg latencyMs)
      (recallAll msg pool.shards.length ended latencyMs) := by
  rw [recallAll_of_perm h]
  by_cases hone : pool.shards.length = 1
  · simp only [onRecall, recall_, hone, if_true, outcomes_single hone]
    cases pool.ask received reachable msg 0 with
    | none => exact ⟨rfl, rfl, (topHits_single none).symm⟩
    | some context => exact ⟨rfl, rfl, (topHits_single (some context)).symm⟩
  · simp only [onRecall, recall_, if_neg hone]
    exact ⟨rfl, rfl, rfl⟩

theorem length_outcomes : (pool.outcomes received reachable msg).length = pool.shards.length := by
  simp [outcomes]

theorem count_outcomes : (pool.outcomes received reachable msg).count none = pool.shards.length ↔
    ∀ outcome ∈ pool.outcomes received reachable msg, outcome = none := by
  rw [← length_outcomes, List.count_eq_length]
  simp only [eq_comm]

theorem recallAll_aggregates {ended : List (Nat × Option String)}
    (h : ended.Perm (pool.tasks received reachable msg)) (latencyMs : Nat) :
    Aggregates msg (pool.outcomes received reachable msg)
      (recallAll msg pool.shards.length ended latencyMs) := by
  rw [recallAll_of_perm h]
  refine ⟨rfl, ?_, ?_, (contexts (pool.outcomes received reachable msg)).insertionSort (· ≤ ·),
    List.perm_insertionSort _ _, List.pairwise_insertionSort _ _, ?_⟩
  · rw [← count_outcomes]
    split <;> simp_all
  · have hsome : (∃ context, some context ∈ pool.outcomes received reachable msg) ↔
        ¬ ∀ outcome ∈ pool.outcomes received reachable msg, outcome = none := by
      simp [Option.ne_none_iff_exists']
    rw [hsome, ← count_outcomes]
    split <;> simp_all
  · rw [hitsOfAll_eq, topHits_map_hit, List.map_map]
    exact List.map_id _

/-- Any outcomes are those of some pool. -/
theorem exists_outcomes {all : List (Option String)} (hne : all ≠ []) (msg : MemoryRecall) :
    ∃ pool : MemoryPool, pool.outcomes nothingReceived (fun _ => true) msg = all := by
  refine ⟨⟨all.map fun outcome => ⟨fun _ _ _ => outcome, fun _ _ => none⟩, by simpa using hne⟩, ?_⟩
  refine List.ext_getElem (by simp [outcomes]) fun k hk hk' => ?_
  simp [outcomes, ask, hk']

end MemoryPool

end Nsmt.Server
