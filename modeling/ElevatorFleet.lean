import ElevatorFleet.Main
import ElevatorFleet.Dispatch.External
import ElevatorFleet.Fleet
import ElevatorFleet.Proofs.Controller
import ElevatorFleet.Proofs.Agreement
import ElevatorFleet.Proofs.Provenance
import ElevatorFleet.Proofs.ServedCalls
import ElevatorFleet.Proofs.Clearance
import ElevatorFleet.Proofs.Revival
import ElevatorFleet.Proofs.Convergence
import ElevatorFleet.Proofs.Rounds
import ElevatorFleet.Proofs.Confirmation
import ElevatorFleet.Proofs.Commutation
import ElevatorFleet.Proofs.Snapshot
import ElevatorFleet.Proofs.Releases
import ElevatorFleet.Proofs.Independence
import ElevatorFleet.Proofs.Repetition
import ElevatorFleet.Proofs.Utf8
import ElevatorFleet.Proofs.Rendering
import ElevatorFleet.Proofs.Decisions
import ElevatorFleet.Proofs.Membership
import ElevatorFleet.Proofs.Freshness
import ElevatorFleet.Proofs.Lamps
import ElevatorFleet.Proofs.Backlog
import ElevatorFleet.Proofs.Dialogue
import ElevatorFleet.Proofs.HostDialogue
import ElevatorFleet.Proofs.Liveness
import ElevatorFleet.Proofs.Floors
import ElevatorFleet.Proofs.Standstill
import ElevatorFleet.Proofs.Datagram
import ElevatorFleet.Proofs.Comparison
import ElevatorFleet.Proofs.AssignerInput
import ElevatorFleet.Proofs.OwnOrder
import ElevatorFleet.Proofs.CommandLines
import ElevatorFleet.Proofs.Sizes
import ElevatorFleet.Proofs.Capacity
import ElevatorFleet.Proofs.Handover
import ElevatorFleet.Proofs.Sessions
