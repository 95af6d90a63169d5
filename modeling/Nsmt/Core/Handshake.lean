import Nsmt.Core.Messages

/-!
# Messages of the handshake

What a client and the server say to each other before the ready phase.
-/

namespace Nsmt.Core

structure Hello where
  userDomain : String
  protocolVersion : Nat
  client : String
  deriving DecidableEq, Repr

structure HelloAck where
  nonce : String
  tenantExists : Bool
  deriving DecidableEq, Repr

structure Auth where
  userDomain : String
  nonceSignature : String
  deriving DecidableEq, Repr

structure Register where
  machineId : String
  agentTag : String
  peerAddr : String
  machinePubkey : String
  machineSignature : String
  deriving DecidableEq, Repr

structure RegisterAck where
  machines : List MachineInfo
  deriving DecidableEq, Repr

end Nsmt.Core
