import Nsmt.Core.Wire
import Mathlib.Data.List.Induction
import Mathlib.Data.List.TakeDrop

/-!
# The ready loop of a session

The `tokio::select!` of `session::handle`: each turn calls `FrameStream::recv`
anew and races it against the heartbeat timer and the broadcast channel. When
one of those wins, the pending `recv` is dropped with the bytes it holds. The
client's `online_mode` runs the same loop with the timer alone.

`dispatched_eq_iff` says exactly when that is harmless: the frames dispatched
are the frames sent if and only if every interruption falls between frames.
-/

namespace Nsmt.Server

open Nsmt.Lib Nsmt.Core

/-- What the loop waits for: bytes from the connection, `heartbeat.tick()`, or
a frame on the session's broadcast channel. -/
inductive LoopEvent
  | arrive (bytes : Bytes)
  | tick
  | broadcast (frame : Frame)
  deriving DecidableEq, Repr

structure ReadyLoop where
  recv : RecvState
  dispatched : List Frame
  running : Bool
  deriving DecidableEq, Repr

namespace ReadyLoop

def start : ReadyLoop := { recv := .start, dispatched := [], running := true }

/-- One `read` of the pending `recv`. A frame is dispatched and the next turn
calls `recv` again; end of stream and errors leave the loop. -/
def poll (loop : ReadyLoop) (bytes : Bytes) : ReadyLoop :=
  match loop.recv.read bytes with
  | .pending state => { loop with recv := state }
  | .ready (.ok (some frame)) =>
    { loop with recv := .start, dispatched := loop.dispatched ++ [frame] }
  | .ready (.ok none) | .ready (.error _) => { loop with running := false }

/-- Bytes that have arrived are read until none is left and `recv` suspends.
Every read takes at least one byte, which bounds the fuel. -/
def drain : Nat → ReadyLoop → Bytes → ReadyLoop
  | 0, loop, _ => loop
  | fuel + 1, loop, bytes =>
    if bytes = [] ∨ loop.running = false then loop
    else drain fuel (loop.poll (bytes.take loop.recv.want)) (bytes.drop loop.recv.want)

/-- The heartbeat refreshes the registry, a broadcast is forwarded to the
client; neither keeps the `recv` it raced against. -/
def step (loop : ReadyLoop) : LoopEvent → ReadyLoop
  | .arrive bytes => drain bytes.length loop bytes
  | .tick | .broadcast _ => { loop with recv := .start }

def run (loop : ReadyLoop) (events : List LoopEvent) : ReadyLoop := events.foldl step loop

end ReadyLoop

/-- The bytes of a list of frames, one behind the other. -/
def wire (frames : List Frame) : Bytes := frames.flatMap Frame.wire

def LoopEvent.bytes : LoopEvent → Bytes
  | .arrive bytes => bytes
  | .tick | .broadcast _ => []

def LoopEvent.interrupts : LoopEvent → Bool
  | .arrive _ => false
  | .tick | .broadcast _ => true

def delivered (events : List LoopEvent) : Bytes := events.flatMap LoopEvent.bytes

/-- Every tick and every broadcast falls between two frames: what arrived
before it is the bytes of some first frames, and no byte more. -/
def BetweenFrames (frames : List Frame) (events : List LoopEvent) : Prop :=
  ∀ before event after, events = before ++ event :: after → event.interrupts = true →
    ∃ n, delivered before = wire (frames.take n)

-- ---------------------------------------------------------------------------
-- The bytes a loop has accounted for
-- ---------------------------------------------------------------------------

theorem wire_append (a b : List Frame) : wire (a ++ b) = wire a ++ wire b := by
  simp [wire]

theorem wire_singleton (frame : Frame) : wire [frame] = frame.wire := by
  simp [wire]

theorem delivered_append (a b : List LoopEvent) : delivered (a ++ b) = delivered a ++ delivered b := by
  simp [delivered]

namespace ReadyLoop

theorem run_append (loop : ReadyLoop) (a b : List LoopEvent) :
    loop.run (a ++ b) = (loop.run a).run b := List.foldl_append

/-- Bytes in dispatched frames, and bytes held by the pending `recv`. -/
def accounted (loop : ReadyLoop) : Nat := (wire loop.dispatched).length + loop.recv.held.length

theorem poll_accounted {loop : ReadyLoop} (hs : loop.recv.Suspended)
    (hfit : bytes.length ≤ loop.recv.want) :
    (loop.poll bytes).recv.Suspended ∧
      loop.dispatched <+: (loop.poll bytes).dispatched ∧
      (loop.poll bytes).accounted ≤ loop.accounted + bytes.length := by
  unfold poll
  split
  · rename_i state h
    obtain ⟨hs', hheld⟩ := RecvState.read_pending hs hfit h
    refine ⟨hs', List.prefix_rfl, ?_⟩
    simp only [accounted, hheld, List.length_append]
    omega
  · rename_i frame h
    have hlen := RecvState.read_frame hs hfit h
    refine ⟨RecvState.start_suspended, List.prefix_append _ _, ?_⟩
    simp only [accounted, wire_append, wire_singleton, RecvState.held_start, List.length_append,
      List.length_nil, hlen]
    omega
  · exact ⟨hs, List.prefix_rfl, by simp [accounted]⟩
  · exact ⟨hs, List.prefix_rfl, by simp [accounted]⟩

theorem drain_accounted (fuel : Nat) {loop : ReadyLoop} (hs : loop.recv.Suspended) (bytes : Bytes) :
    (drain fuel loop bytes).recv.Suspended ∧
      loop.dispatched <+: (drain fuel loop bytes).dispatched ∧
      (drain fuel loop bytes).accounted ≤ loop.accounted + bytes.length := by
  induction fuel generalizing loop bytes with
  | zero => exact ⟨hs, List.prefix_rfl, by simp [drain]⟩
  | succ fuel ih =>
    rw [drain]
    split
    · exact ⟨hs, List.prefix_rfl, by omega⟩
    · have hfit : (bytes.take loop.recv.want).length ≤ loop.recv.want :=
        List.length_take_le _ _
      obtain ⟨hs1, hpre1, hacc1⟩ := poll_accounted hs hfit
      obtain ⟨hs2, hpre2, hacc2⟩ := ih hs1 (bytes.drop loop.recv.want)
      refine ⟨hs2, hpre1.trans hpre2, ?_⟩
      simp only [List.length_take, List.length_drop] at hacc1 hacc2
      omega

/-- A step accounts for no more bytes than it delivers. An interruption, on
top of that, forgets the bytes held. -/
theorem step_accounted {loop : ReadyLoop} (hs : loop.recv.Suspended) (event : LoopEvent) :
    (loop.step event).recv.Suspended ∧
      loop.dispatched <+: (loop.step event).dispatched ∧
      (loop.step event).accounted ≤ loop.accounted + event.bytes.length := by
  cases event with
  | arrive bytes => exact drain_accounted bytes.length hs bytes
  | _ =>
    refine ⟨RecvState.start_suspended, List.prefix_rfl, ?_⟩
    simp only [step, accounted, RecvState.held_start, List.length_nil]
    omega

theorem accounted_start : start.accounted = 0 := rfl

theorem run_accounted (loop : ReadyLoop) (hs : loop.recv.Suspended) (events : List LoopEvent) :
    (loop.run events).recv.Suspended ∧
      loop.dispatched <+: (loop.run events).dispatched ∧
      (loop.run events).accounted ≤ loop.accounted + (delivered events).length := by
  induction events generalizing loop with
  | nil => exact ⟨hs, List.prefix_rfl, by simp [run, delivered]⟩
  | cons event events ih =>
    obtain ⟨hs1, hpre1, hacc1⟩ := step_accounted hs event
    obtain ⟨hs2, hpre2, hacc2⟩ := ih _ hs1
    refine ⟨hs2, hpre1.trans hpre2, ?_⟩
    simp only [delivered, List.flatMap_cons, List.length_append] at hacc2 ⊢
    simp only [run, List.foldl_cons] at hacc2 ⊢
    omega

end ReadyLoop

-- ---------------------------------------------------------------------------
-- A loop that is not interrupted inside a frame
-- ---------------------------------------------------------------------------

/-- Bytes of the first of these frames, short of its last one. -/
def Partial (held : Bytes) : List Frame → Prop
  | [] => held = []
  | frame :: _ => ∃ rest, rest ≠ [] ∧ held ++ rest = frame.wire

theorem Partial.nil (frames : List Frame) : Partial [] frames := by
  cases frames with
  | nil => rfl
  | cons frame _ => exact ⟨frame.wire, frame.wire_ne_nil, rfl⟩

namespace ReadyLoop

theorem poll_wire (hf : frame.payload.length ≤ maxPayloadLen)
    (hsplit : held ++ bytes ++ rest = frame.wire) (hne : bytes ≠ [])
    (hfit : bytes.length ≤ (RecvState.ofHeld held).want) (done : List Frame) :
    poll ⟨.ofHeld held, done, true⟩ bytes =
      if rest = [] then ⟨.ofHeld [], done ++ [frame], true⟩
      else ⟨.ofHeld (held ++ bytes), done, true⟩ := by
  rw [poll, RecvState.read_wire hf hsplit hne hfit]
  by_cases hrest : rest = []
  · simp only [if_pos hrest, RecvState.ofHeld_nil]
  · simp only [if_neg hrest]

/-- Reading on through the bytes of a list of frames dispatches those that are
complete and holds the rest, however the bytes were cut. -/
theorem drain_wire (fuel : Nat) (hfuel : bytes.length ≤ fuel)
    (hmax : ∀ frame ∈ frames, frame.payload.length ≤ maxPayloadLen)
    (hp : Partial held frames) (hpre : held ++ bytes <+: wire frames) (done : List Frame) :
    ∃ n held', drain fuel ⟨.ofHeld held, done, true⟩ bytes =
        ⟨.ofHeld held', done ++ frames.take n, true⟩ ∧
      held ++ bytes = wire (frames.take n) ++ held' ∧ Partial held' (frames.drop n) := by
  induction fuel generalizing bytes held frames done with
  | zero =>
    have hb : bytes = [] := List.length_eq_zero_iff.mp (by omega)
    subst hb
    exact ⟨0, held, by simp [drain], by simp [wire], hp⟩
  | succ fuel ih =>
    by_cases hb : bytes = []
    · subst hb
      exact ⟨0, held, by simp [drain], by simp [wire], hp⟩
    · cases frames with
      | nil => simp [wire, hb] at hpre
      | cons frame frames =>
        obtain ⟨rest, hrest, hwire⟩ := hp
        have hf := hmax frame (List.mem_cons_self ..)
        obtain ⟨hpos, hle⟩ := RecvState.want_ofHeld hf hwire hrest
        -- One read: it takes `piece`, which stays inside the first frame.
        generalize hw : (RecvState.ofHeld held).want = want at hpos hle
        have hsplit : bytes.take want ++ bytes.drop want = bytes := List.take_append_drop _ _
        have hne : bytes.take want ≠ [] := by
          rw [ne_eq, List.take_eq_nil_iff]
          exact not_or.mpr ⟨by omega, hb⟩
        have hbpos := List.length_pos_iff.mpr hb
        have hin : held ++ bytes.take want <+: frame.wire := by
          have hall : held ++ bytes.take want <+: frame.wire ++ wire frames := by
            refine List.IsPrefix.trans ?_ hpre
            exact (List.prefix_append_right_inj _).mpr (List.take_prefix _ _)
          refine List.prefix_of_prefix_length_le hall (List.prefix_append _ _) ?_
          have hlen := congrArg List.length hwire
          simp only [List.length_append, List.length_take] at hlen ⊢
          omega
        obtain ⟨rest', hrest'⟩ := hin
        have hfit : (bytes.take want).length ≤ (RecvState.ofHeld held).want := by
          rw [hw]
          exact List.length_take_le _ _
        have hlen : (bytes.drop want).length ≤ fuel := by
          rw [List.length_drop]
          omega
        rw [drain, if_neg (by simp [hb])]
        simp only [hw]
        rw [poll_wire hf hrest' hne hfit done]
        by_cases hend : rest' = []
        · -- The frame is complete; go on behind it with nothing held.
          subst hend
          rw [List.append_nil] at hrest'
          rw [if_pos rfl]
          have hpre' : [] ++ bytes.drop want <+: wire frames := by
            rw [← hsplit, ← List.append_assoc, hrest'] at hpre
            exact (List.prefix_append_right_inj _).mp hpre
          obtain ⟨n, held', hrun, hheld, hp'⟩ := ih hlen
            (fun f hf => hmax f (List.mem_cons_of_mem frame hf)) (Partial.nil frames) hpre'
            (done ++ [frame])
          refine ⟨n + 1, held', ?_, ?_, hp'⟩
          · rw [hrun]
            simp
          · rw [List.nil_append] at hheld
            rw [← hsplit, ← List.append_assoc, hrest', hheld, List.take_succ_cons]
            simp [wire]
        · rw [if_neg hend]
          have hpre' : held ++ bytes.take want ++ bytes.drop want <+: wire (frame :: frames) := by
            rwa [List.append_assoc, hsplit]
          obtain ⟨n, held', hrun, hheld, hp'⟩ := ih hlen hmax ⟨rest', hend, hrest'⟩ hpre' done
          exact ⟨n, held', hrun, by rw [← hheld, List.append_assoc, hsplit], hp'⟩

/-- After the bytes `before`, the loop is where an uninterrupted reader is. -/
def Tracks (frames : List Frame) (before : Bytes) (loop : ReadyLoop) : Prop :=
  ∃ n held, loop = ⟨.ofHeld held, frames.take n, true⟩ ∧
    before = wire (frames.take n) ++ held ∧ Partial held (frames.drop n)

theorem Tracks.start (frames : List Frame) : Tracks frames [] start :=
  ⟨0, [], rfl, by simp [wire], Partial.nil _⟩

theorem Tracks.arrive (h : Tracks frames before loop)
    (hmax : ∀ frame ∈ frames, frame.payload.length ≤ maxPayloadLen)
    (hpre : before ++ bytes <+: wire frames) :
    Tracks frames (before ++ bytes) (loop.step (.arrive bytes)) := by
  obtain ⟨n, held, rfl, rfl, hp⟩ := h
  have hsplit : wire frames = wire (frames.take n) ++ wire (frames.drop n) := by
    rw [← wire_append, List.take_append_drop]
  rw [hsplit, List.append_assoc, List.prefix_append_right_inj] at hpre
  obtain ⟨m, held', hrun, hheld, hp'⟩ := drain_wire bytes.length (Nat.le_refl _)
    (fun f hf => hmax f (List.mem_of_mem_drop hf)) hp hpre (frames.take n)
  refine ⟨n + m, held', ?_, ?_, ?_⟩
  · rw [step, hrun, List.take_add]
  · rw [List.append_assoc, hheld, List.take_add, wire_append, List.append_assoc]
  · rwa [List.drop_drop] at hp'

/-- A partly read frame never ends where another number of frames would. -/
theorem Tracks.held_nil {frames : List Frame} (hp : Partial held (frames.drop n))
    (h : wire (frames.take n) ++ held = wire (frames.take m)) : held = [] := by
  have hlen := congrArg List.length h
  rw [List.length_append] at hlen
  rcases Nat.lt_or_ge n m with hlt | hge
  · -- Beyond the boundary `n` there is at least the whole next frame.
    cases hd : frames.drop n with
    | nil =>
      rw [hd] at hp
      exact hp
    | cons frame rest =>
      rw [hd] at hp
      obtain ⟨tail, htail, hwire⟩ := hp
      have htake : frames.take m = frames.take n ++ [frame] ++ (rest.take (m - n - 1)) := by
        rw [show m = n + (m - n - 1 + 1) by omega, List.take_add, hd, List.take_succ_cons]
        simp
      rw [htake, wire_append, wire_append, wire_singleton, List.append_assoc] at h
      have h := List.append_cancel_left h
      rw [← hwire] at h
      have hl := congrArg List.length h
      have hpos := List.length_pos_iff.mpr htail
      simp only [List.length_append] at hl
      omega
  · have htake : wire (frames.take n) = wire (frames.take m) ++ wire ((frames.drop m).take (n - m)) := by
      rw [← wire_append, ← List.take_add]
      congr 2
      omega
    rw [htake, List.length_append] at hlen
    exact List.length_eq_zero_iff.mp (by omega)

theorem Tracks.interrupt (h : Tracks frames before loop)
    (hb : ∃ n, before = wire (frames.take n)) (hi : event.interrupts = true) :
    Tracks frames before (loop.step event) := by
  obtain ⟨n, held, rfl, rfl, hp⟩ := h
  obtain ⟨m, hm⟩ := hb
  have hnil := Tracks.held_nil hp hm
  subst hnil
  refine ⟨n, [], ?_, rfl, hp⟩
  cases event with
  | arrive bytes => cases hi
  | tick => rfl
  | broadcast frame => rfl

theorem Tracks.dispatched (h : Tracks frames (wire frames) loop) : loop.dispatched = frames := by
  obtain ⟨n, held, rfl, hall, hp⟩ := h
  have hnil : held = [] := Tracks.held_nil (m := frames.length) hp (by rw [← hall, List.take_length])
  subst hnil
  cases hd : frames.drop n with
  | nil => simpa using hd
  | cons frame rest =>
    exfalso
    have hsplit : wire frames = wire (frames.take n) ++ wire (frames.drop n) := by
      rw [← wire_append, List.take_append_drop]
    rw [hsplit, List.append_cancel_left_eq, hd] at hall
    simp [wire, frame.wire_ne_nil] at hall

theorem run_tracks (hmax : ∀ frame ∈ frames, frame.payload.length ≤ maxPayloadLen)
    (events : List LoopEvent) (hpre : delivered events <+: wire frames)
    (hb : BetweenFrames frames events) : Tracks frames (delivered events) (start.run events) := by
  induction events using List.reverseRecOn with
  | nil => exact Tracks.start frames
  | append_singleton events event ih =>
    rw [delivered_append] at hpre
    have hih := ih ((List.prefix_append _ _).trans hpre) fun before e after he hi =>
      hb before e (after ++ [event]) (by rw [he]; simp) hi
    rw [run_append, delivered_append]
    cases hi : event.interrupts with
    | false =>
      cases event with
      | arrive bytes =>
        simp only [delivered, List.flatMap_cons, List.flatMap_nil, List.append_nil,
          LoopEvent.bytes] at hpre ⊢
        exact hih.arrive hmax hpre
      | tick => cases hi
      | broadcast frame => cases hi
    | true =>
      have hnone : delivered [event] = [] := by
        cases event with
        | arrive bytes => cases hi
        | tick => rfl
        | broadcast frame => rfl
      rw [hnone, List.append_nil]
      exact hih.interrupt (hb events event [] rfl hi) hi

/-- Bytes that an interruption drops are never made up for, so a run that
dispatched every frame was interrupted only between frames. -/
theorem between_of_dispatched (hall : delivered events = wire frames)
    (h : (start.run events).dispatched = frames) : BetweenFrames frames events := by
  rintro before event after rfl hi
  obtain ⟨hs, -, hacc⟩ := run_accounted start RecvState.start_suspended before
  obtain ⟨hs', -, -⟩ := step_accounted hs event
  obtain ⟨-, hpre, hacc'⟩ := run_accounted _ hs' after
  have hrun : ((start.run before).step event).run after = start.run (before ++ event :: after) := by
    rw [run_append]
    rfl
  have hdrop : ((start.run before).step event).recv = .start ∧
      ((start.run before).step event).dispatched = (start.run before).dispatched ∧
      event.bytes = [] := by
    cases event with
    | arrive bytes => cases hi
    | tick => exact ⟨rfl, rfl, rfl⟩
    | broadcast frame => exact ⟨rfl, rfl, rfl⟩
  rw [hrun, h, hdrop.2.1] at hpre
  rw [hrun] at hacc'
  obtain ⟨rest, hrest⟩ := hpre
  have hsplit : wire frames = wire (start.run before).dispatched ++ wire rest := by
    rw [← wire_append, hrest]
  have hbytes : wire frames = delivered before ++ delivered after := by
    rw [← hall, delivered_append]
    simp [delivered, hdrop.2.2]
  have hlen := congrArg List.length hbytes
  rw [List.length_append] at hlen
  rw [accounted_start] at hacc
  simp only [accounted, h] at hacc hacc'
  rw [hdrop.1, hdrop.2.1, RecvState.held_start, List.length_nil] at hacc'
  have hsame : (delivered before).length = (wire (start.run before).dispatched).length := by
    omega
  refine ⟨(start.run before).dispatched.length, ?_⟩
  rw [← hrest, List.take_left' rfl]
  exact (List.append_inj (hbytes.symm.trans hsplit) hsame).1

/-- The frames dispatched are exactly the frames sent, for every cut of their
bytes and every schedule, if and only if no tick and no broadcast falls inside
a frame. -/
theorem dispatched_eq_iff (hmax : ∀ frame ∈ frames, frame.payload.length ≤ maxPayloadLen)
    (hall : delivered events = wire frames) :
    (start.run events).dispatched = frames ↔ BetweenFrames frames events := by
  constructor
  · exact between_of_dispatched hall
  · intro hb
    have h := run_tracks hmax events (hall ▸ List.prefix_rfl) hb
    rw [hall] at h
    exact h.dispatched

/-- A heartbeat frame without payload. -/
def emptyHeartbeat : Frame := { frameType := .heartbeat, flags := 0, streamId := 0, payload := [] }

theorem dispatched_eq_iff_tick_behind :
    (start.run [.arrive (emptyHeartbeat.wire.take 5), .arrive (emptyHeartbeat.wire.drop 5),
      .tick]).dispatched = [emptyHeartbeat] ↔
    BetweenFrames [emptyHeartbeat] [.arrive (emptyHeartbeat.wire.take 5),
      .arrive (emptyHeartbeat.wire.drop 5), .tick] :=
  dispatched_eq_iff (by decide) (by decide)

/-- A tick three bytes into a header: the twelve bytes sent are a whole frame,
and nothing is dispatched. -/
theorem tick_inside_header_loses_frame :
    ¬ ∀ frames events, (∀ frame ∈ frames, frame.payload.length ≤ maxPayloadLen) →
      delivered events = wire frames → (start.run events).dispatched = frames := by
  intro h
  have hlost := h [emptyHeartbeat] [.arrive (emptyHeartbeat.wire.take 3), .tick,
    .arrive (emptyHeartbeat.wire.drop 3)] (by decide) (by decide)
  revert hlost
  decide

end ReadyLoop

end Nsmt.Server
