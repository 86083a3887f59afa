import ElevatorFleet.Controller

/-!
# Fleets

Several controllers on a common clock, and the snapshots that pass between them.
-/
namespace ElevatorFleet
open Std

structure Fleet where
  numFloors : UInt8
  timeout : Duration
  now : Instant
  cars : PeerMap Controller

namespace Fleet

def new (cars : PeerSet) (numFloors : UInt8) (timeout : Duration) (now : Instant) : Fleet :=
  ⟨numFloors,timeout,now,ExtTreeMap.ofList (cars.toList.map fun peer =>
    (peer,Controller.new peer numFloors timeout))⟩

def modify (f : Fleet) (peer : PeerId) (change : Controller → Controller) : Fleet :=
  match f.cars[peer]? with
  | none => f
  | some car => { f with cars := f.cars.insert peer (change car) }

def tick (f : Fleet) (ms : Duration) : Fleet :=
  let now := f.now + ms
  { f with now := now, cars := f.cars.map fun _ car => car.poll now }

/-- The snapshots that the given controllers have to send now, by ascending sender. -/
def outbound (f : Fleet) (senders : PeerSet) : List Broadcast :=
  senders.toList.filterMap fun peer => (f.cars[peer]?).bind Controller.outbound

def deliver (f : Fleet) (m : Broadcast) (receiver : PeerId) : Fleet :=
  f.modify receiver fun car => car.receive m f.now

/-- Takes the snapshots of the senders and delivers them, one after the other, to
    each of the receivers. -/
def gossip (f : Fleet) (senders receivers : PeerSet) : Fleet :=
  (f.outbound senders).foldl (fun f m => receivers.toList.foldl (fun f peer => f.deliver m peer) f) f

def handle (f : Fleet) (peer : PeerId) (r : Report) : Fleet × Option Belief :=
  match f.cars[peer]? with
  | none => (f,none)
  | some car =>
    let (car,belief) := car.handle r
    ({ f with cars := f.cars.insert peer car },some belief)

def setCar (f : Fleet) (peer : PeerId) (state : CarState) : Fleet :=
  f.modify peer fun car => car.setCar state

/-- Tells one controller how it is itself, which takes effect at once. -/
def setHealth (f : Fleet) (peer : PeerId) (alive : Bool) : Fleet :=
  f.modify peer fun car => (car.observe ⟨peer,alive⟩ f.now).poll f.now

def restart (f : Fleet) (peer : PeerId) : Fleet :=
  f.modify peer fun _ => .new peer f.numFloors f.timeout

end Fleet
end ElevatorFleet
