import ElevatorFleet.Broadcast

/-!
# The replica

The registry that one controller broadcasts, kept current with every decision of its
call board, and the reading of the snapshots of others. A snapshot yields a sign of
life of its sender, the state of the sender's car, and one report for every cell that
differs from the own registry. The reports go to the call board, and what the board
decides flows back into the registry.
-/
namespace ElevatorFleet

/-- All that one snapshot of another controller yields. -/
structure Absorbed where
  signal : Signal
  car : CarReport
  reports : List Report
deriving DecidableEq

/-- The outgoing registry with the state of the own car. -/
structure Replica where
  self : PeerId
  registry : Registry
  car : Option CarState
  alive : PeerSet
deriving DecidableEq

namespace Replica

def new (self : PeerId) (numFloors : UInt8) : Replica :=
  ⟨self,(Registry.new numFloors).register self,none,PeerSet.of [self]⟩

/-- Writes a decision of the call board into the outgoing registry. -/
def record (r : Replica) (b : Belief) : Replica := { r with registry := r.registry.apply b }

def isNews (r : Replica) (state : CarState) : Bool := r.car ≠ some state

def setCar (r : Replica) (state : CarState) : Replica := { r with car := some state }

def setAlive (r : Replica) (alive : PeerSet) : Replica := { r with alive := alive }

/-- The snapshot to broadcast now. Nothing is sent before the state of the own car is
    known, or while the controller is not alive itself; its silence lets the fleet
    drop it from every quorum. -/
def outbound (r : Replica) : Option Broadcast :=
  match r.car with
  | none => none
  | some state => if r.alive.contains r.self then some ⟨r.self,r.registry,state⟩ else none

/-- Reads a snapshot. The own one, echoing back, yields nothing. -/
def absorb (r : Replica) (m : Broadcast) : Replica × Option Absorbed :=
  if m.source = r.self then (r,none)
  else
    let (registry,reports) := r.registry.diff m.source m.registry
    ({ r with registry := registry },some ⟨⟨m.source,true⟩,⟨m.source,m.car⟩,reports⟩)

end Replica
end ElevatorFleet
