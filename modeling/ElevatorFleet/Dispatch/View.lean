import ElevatorFleet.Dispatch.Assignment
import ElevatorFleet.Report

/-!
# The dispatch view

What a controller knows of the calls and cars when it asks an assigner: every settled
call, the latest state of each car, and the peers alive.
-/
namespace ElevatorFleet.Dispatch
open Std

/-- The settled calls, the states of the cars and the membership. -/
structure View where
  numFloors : UInt8
  /-- The confirmed hall calls, by floor. -/
  hall : List HallPair
  /-- The confirmed cab calls of each car, by floor. -/
  cab : PeerMap (List Bool)
  states : PeerMap CarState
  alive : PeerSet
deriving DecidableEq

namespace View

def darkRow (numFloors : UInt8) : List Bool := List.replicate numFloors.toNat false

def new (numFloors : UInt8) : View :=
  ⟨numFloors,List.replicate numFloors.toNat ⟨false,false⟩,∅,∅,∅⟩

/-- The cab row of a car, dark if the car has none yet. -/
def cabRow (v : View) (peer : PeerId) : List Bool := v.cab.getD peer (darkRow v.numFloors)

def isCalled (v : View) (call : Call) : Bool :=
  let floor := call.floor.toNat
  match call with
  | .hall _ .up => (v.hall[floor]?).any HallPair.up
  | .hall _ .down => (v.hall[floor]?).any HallPair.down
  | .cab _ owner => (v.cabRow owner).getD floor false

/-- Writes whether the call is to be served, opening the cab row of its owner. -/
def setCalled (v : View) (call : Call) (called : Bool) : View :=
  let floor := call.floor.toNat
  match call with
  | .hall _ .up => { v with hall := v.hall.modify floor fun pair => { pair with up := called } }
  | .hall _ .down => { v with hall := v.hall.modify floor fun pair => { pair with down := called } }
  | .cab _ owner => { v with cab := v.cab.insert owner ((v.cabRow owner).set floor called) }

def accepts (v : View) (b : Belief) : Bool := b.status.isSettled && b.call.floor < v.numFloors

/-- Records a settled belief; any other is ignored. -/
def record (v : View) (b : Belief) : View :=
  if v.accepts b then v.setCalled b.call (b.status = .confirmed) else v

def altered (v : View) (b : Belief) : Bool :=
  v.accepts b && v.isCalled b.call ≠ (b.status = .confirmed : Bool)

/-- Records the state of a car. The first one also opens its cab row. -/
def setCar (v : View) (r : CarReport) : View :=
  { v with states := v.states.insert r.peer r.state, cab := v.cab.insert r.peer (v.cabRow r.peer) }

def isNews (v : View) (r : CarReport) : Bool := v.states[r.peer]? ≠ some r.state

/-- Replaces the membership. Peers that are gone keep their state and cab row, so
    that they find their cab calls again when they come back. -/
def setAlive (v : View) (alive : PeerSet) : View := { v with alive := alive }

def isComplete (v : View) : Bool :=
  v.alive.toList.all fun peer => v.states.contains peer && v.cab.contains peer

def carInput? (v : View) (peer : PeerId) : Option CarInput :=
  match v.states[peer]?,v.cab[peer]? with
  | some state,some row => some ⟨state.behavior,state.floor,state.motor,row⟩
  | _,_ => none

/-- What an assigner is told about the peers alive, once the view is complete. -/
def input? (v : View) : Option Input :=
  if v.isComplete then
    some ⟨v.hall,ExtTreeMap.ofList (v.alive.toList.filterMap fun peer =>
      (v.carInput? peer).map fun car => (peer,car))⟩
  else none

end View
end ElevatorFleet.Dispatch
