import Nsmt.Core.Tree

/-!
# Tenant names and requesters

`UserDomain::new` accepts lower-case letters, digits and `.`, `_`, `-`. A client
names itself by its tenant, its machine and its agent. The id of a machine is a
hash of what it runs on, the same whenever it is asked for.
-/

namespace Nsmt.Core

open Nsmt.Lib

namespace UserDomain

def allowed (c : Char) : Bool := c.isLower || c.isDigit || "._-".toList.contains c

def isValid (s : String) : Bool := s ≠ "" && (utf8 s).length ≤ 64 && s.toList.all allowed

end UserDomain

/-- A name that `UserDomain::new` has accepted. -/
structure UserDomain where
  asStr : String
  valid : UserDomain.isValid asStr = true
  deriving DecidableEq

/-- `none` is the error, which names the string and nothing else. -/
def UserDomain.new (s : String) : Option UserDomain :=
  if h : isValid s = true then some { asStr := s, valid := h } else none

theorem UserDomain.ne_empty (d : UserDomain) : d.asStr.toList ≠ [] := by
  have h := d.valid
  simp only [isValid, Bool.and_eq_true, decide_eq_true_eq] at h
  exact fun hnil => h.1.1 (String.toList_inj.mp hnil)

theorem UserDomain.chars (d : UserDomain) : ∀ c ∈ d.asStr.toList, allowed c = true := by
  have h := d.valid
  simp only [isValid, Bool.and_eq_true, List.all_eq_true] at h
  exact h.2

theorem UserDomain.no_slash (d : UserDomain) : '/' ∉ d.asStr.toList := by
  intro h
  have hallowed := d.chars '/' h
  revert hallowed
  decide

/-- Sixteen lower-case hex digits. -/
structure MachineId where
  asStr : String
  length_eq : asStr.toList.length = 16
  digits : ∀ c ∈ asStr.toList, isHexDigit c = true

/-- What is found out about the machine; the first two can fail. -/
structure HostIdentity where
  hw : Option String
  host : Option String
  os : String
  deriving DecidableEq, Repr

def generateMachineId (sha256 : Bytes → Digest) (m : HostIdentity) : MachineId × Bool :=
  let digest := sha256 (utf8 (m.hw.getD "") ++ utf8 (m.host.getD "") ++ utf8 m.os)
  ({ asStr := hexEncode (digest.val.take 8)
     length_eq := by
       rw [length_hexEncode, List.length_take, digest.property]
       rfl
     digits := hexEncode_digits _ }, m.hw.isSome)

namespace AgentTag

def allowed (c : Char) : Bool := c.isAlphanum || "._-".toList.contains c

def isValid (s : String) : Bool := s ≠ "" && (utf8 s).length ≤ 63 && s.toList.all allowed

end AgentTag

/-- A name that `AgentTag::new` has accepted. -/
structure AgentTag where
  asStr : String
  valid : AgentTag.isValid asStr = true

structure Fqn where
  userDomain : UserDomain
  machineId : MachineId
  agentTag : AgentTag

def Fqn.toString (fqn : Fqn) : String :=
  fqn.userDomain.asStr ++ "/" ++ fqn.machineId.asStr ++ "/" ++ fqn.agentTag.asStr

theorem Fqn.dash_mem (fqn : Fqn) :
    '-' ∈ fqn.toString.toList ↔ '-' ∈ fqn.userDomain.asStr.toList ∨ '-' ∈ fqn.agentTag.asStr.toList := by
  have hmachine : '-' ∉ fqn.machineId.asStr.toList := by
    intro h
    exact absurd (fqn.machineId.digits _ h) (by decide)
  simp [Fqn.toString, hmachine]

end Nsmt.Core
