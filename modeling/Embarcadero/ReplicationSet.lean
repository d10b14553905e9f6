import Mathlib

namespace Embarcadero

structure ReplicationSet where
  brokerId : Nat
  replicationFactor : Nat
  numBrokers : Nat

def ReplicationSet.broker (r : ReplicationSet) (i : Nat) : Nat := (r.brokerId + i) % r.numBrokers

/-- The number of messages that a `replication_done` value stands for; `none` is `kReplicationNotStarted`. -/
def doneCount (v : Option Nat) : Nat := v.elim 0 (· + 1)

end Embarcadero
