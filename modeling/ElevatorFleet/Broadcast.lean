import ElevatorFleet.Car
import ElevatorFleet.Registry

/-!
# Broadcasts

The snapshot that a controller sends to the whole fleet at a fixed interval.
-/
namespace ElevatorFleet

/-- The whole registry of one controller and the state of its own car. -/
structure Broadcast where
  source : PeerId
  registry : Registry
  car : CarState
deriving DecidableEq

end ElevatorFleet
