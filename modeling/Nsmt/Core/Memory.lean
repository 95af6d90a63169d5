import Nsmt.Core.Messages

/-!
# Messages of the memory protocol

What a session sends to recall and to capture memories, and what comes back.
-/

namespace Nsmt.Core

structure MemoryRecall where
  requestId : String
  query : String
  scope : String
  limit : Nat
  timeoutMs : Nat
  fallbackOnTimeout : Bool
  deriving DecidableEq, Repr

/-- The score is a float that is never anything but zero. -/
structure MemoryHit where
  content : String
  fqn : String
  score : Nat
  scope : String
  deriving DecidableEq, Repr

structure MemoryRecallResult where
  requestId : String
  source : String
  memories : List MemoryHit
  latencyMs : Nat
  deriving DecidableEq, Repr

structure MemoryCapture where
  requestId : String
  userContent : String
  assistantContent : String
  scope : String
  fqn : String
  observedAt : Nat
  deriving DecidableEq, Repr

structure MemoryCaptureResult where
  requestId : String
  committed : Bool
  queued : Bool
  deriving DecidableEq, Repr

/-- A frame of the ready phase, those of the memory protocol included. -/
inductive ReadyFrame
  | file (frame : ClientFrame)
  | memoryRecall (msg : MemoryRecall)
  | memoryCapture (msg : MemoryCapture)
  deriving DecidableEq, Repr

end Nsmt.Core
