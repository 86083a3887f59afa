import ElevatorFleet.CallBoard
import ElevatorFleet.Dispatch.View
import ElevatorFleet.Presence
import ElevatorFleet.Replica

/-!
# Controllers

One controller of the fleet: its call board, its replica, its presence monitor and
its dispatch view, and how they work together. What the board decides is recorded in
the replica and in the view, and what the monitor hands on becomes the membership of
all three.
-/
namespace ElevatorFleet
open Std

structure Controller where
  board : CallBoard
  replica : Replica
  presence : Presence
  view : Dispatch.View
deriving DecidableEq

namespace Controller

def new (self : PeerId) (numFloors : UInt8) (timeout : Duration) : Controller :=
  ⟨.new self,.new self numFloors,.new self timeout,.new numFloors⟩

/-- Records a decision of the board in the replica and in the view. -/
def settle (c : Controller) (b : Belief) : Controller :=
  { c with replica := c.replica.record b, view := c.view.record b }

def handle (c : Controller) (r : Report) : Controller × Belief :=
  let (board,belief) := c.board.process r
  ({ c with board := board }.settle belief,belief)

def handleAll (c : Controller) (reports : List Report) : Controller :=
  reports.foldl (fun c r => (c.handle r).1) c

/-- Replaces the membership in every part; what the board confirms by that is
    recorded first. -/
def setAlive (c : Controller) (alive : PeerSet) : Controller :=
  let (board,confirmed) := c.board.setAlive alive
  let settled := confirmed.foldl settle { c with board := board }
  { settled with replica := settled.replica.setAlive alive, view := settled.view.setAlive alive }

def poll (c : Controller) (now : Instant) : Controller :=
  let (presence,news) := c.presence.poll now
  let polled := { c with presence := presence }
  match news with
  | none => polled
  | some alive => polled.setAlive alive

def observe (c : Controller) (s : Signal) (now : Instant) : Controller :=
  { c with presence := c.presence.observe s now }

def receive (c : Controller) (m : Broadcast) (now : Instant) : Controller :=
  let (replica,absorbed) := c.replica.absorb m
  let read := { c with replica := replica }
  match absorbed with
  | none => read
  | some a =>
    let seen := read.observe a.signal now
    { seen with view := seen.view.setCar a.car }.handleAll a.reports

/-- Takes the state of the own car; a repeated one is no news. -/
def setCar (c : Controller) (state : CarState) : Controller :=
  if c.replica.isNews state then
    { c with replica := c.replica.setCar state, view := c.view.setCar ⟨c.replica.self,state⟩ }
  else c

def outbound (c : Controller) : Option Broadcast := c.replica.outbound

def press (c : Controller) (call : Call) : Controller × Belief :=
  c.handle (.of c.board.self call .unconfirmed)

def clear (c : Controller) (call : Call) : Controller × Belief :=
  c.handle (.of c.board.self call .absent)

end Controller
end ElevatorFleet
