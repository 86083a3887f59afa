import ElevatorFleet.Call
import ElevatorFleet.Status

/-!
# Beliefs, reports and signals

What the parts of a controller tell each other: the status that one controller
holds a call in, the same with the peer that says so, and evidence that a peer
lives or has failed.
-/
namespace ElevatorFleet

/-- A call together with the status it is held in. -/
structure Belief where
  call : Call
  status : Status
deriving DecidableEq, Inhabited, Repr

def Belief.text (b : Belief) : String := s!"{b.call.text}={b.status.text}"

/-- A belief attributed to the peer that holds it. -/
structure Report where
  source : PeerId
  belief : Belief
deriving DecidableEq, Inhabited, Repr

namespace Report

def of (source : PeerId) (call : Call) (status : Status) : Report := ⟨source,⟨call,status⟩⟩

def text (r : Report) : String := s!"{r.source.text} {r.belief.text}"

end Report

/-- Evidence that a peer lives, or the word of a controller that it has failed. -/
structure Signal where
  peer : PeerId
  alive : Bool
deriving DecidableEq, Inhabited, Repr

end ElevatorFleet
