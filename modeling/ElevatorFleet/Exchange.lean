import ElevatorFleet.Broadcast
import ElevatorFleet.Json.Shape

/-!
# The exchange format

How calls, reports, states and registries are written as JSON in the snapshots of a
fleet.
-/
namespace ElevatorFleet
open Json

def Direction.name : Direction → String
  | .up => "Up"
  | .down => "Down"

def Button.name : Button → String
  | .hallUp => "HallUp"
  | .hallDown => "HallDown"
  | .cab => "Cab"

def Status.name : Status → String
  | .unknown => "Unknown"
  | .absent => "Absent"
  | .unconfirmed => "Unconfirmed"
  | .confirmed => "Confirmed"

namespace Exchange

instance : Shape Direction where
  toJson d := ofWord d.name
  ofJson? := named? [.up,.down] Direction.name

instance : Shape Button where
  toJson b := ofWord b.name
  ofJson? := named? [.hallUp,.hallDown,.cab] Button.name

instance : Shape Status where
  toJson s := ofWord s.name
  ofJson? := named? [.unknown,.absent,.unconfirmed,.confirmed] Status.name

instance : Shape Behavior where
  toJson b := ofWord b.name
  ofJson? := named? [.idle,.moving,.doorOpen] Behavior.name

instance : Shape Motor where
  toJson m := ofWord m.name
  ofJson? := named? [.up,.down,.stop] Motor.name

/-- The members of a call as JSON, without its kind. -/
def callFields : Call → Value
  | .hall floor direction => record [("floor",toJson floor),("direction",toJson direction)]
  | .cab floor owner => record [("floor",toJson floor),("owner",toJson owner)]

/-- A call is an object with its kind as the only key. -/
instance : Shape Call where
  toJson call := record [(if call.isHall then "Hall" else "Cab",callFields call)]
  ofJson?
    | .object [(key,value)] =>
      match text? key with
      | some "Hall" => two? "floor" "direction" Call.hall value
      | some "Cab" => two? "floor" "owner" Call.cab value
      | _ => none
    | _ => none

instance : Shape Belief where
  toJson b := record [("origin",toJson b.call),("status",toJson b.status)]
  ofJson? := two? "origin" "status" Belief.mk

instance : Shape Report where
  toJson r := record [("source",toJson r.source),("request",toJson r.belief)]
  ofJson? := two? "source" "request" Report.mk

instance : Shape Signal where
  toJson s := record [("id",toJson s.peer),("alive",toJson s.alive)]
  ofJson? := two? "id" "alive" Signal.mk

instance : Shape CarState where
  toJson s := record [("floor",toJson s.floor),("behavior",toJson s.behavior),("direction",toJson s.motor)]
  ofJson? := three? "floor" "behavior" "direction" CarState.mk

instance : Shape CarReport where
  toJson r := record [("elevator",toJson r.peer),("state",toJson r.state)]
  ofJson? := two? "elevator" "state" CarReport.mk

instance : Shape Registry where
  toJson r := record [("hall_up",toJson r.hallUp),("hall_down",toJson r.hallDown),("cab",toJson r.cab)]
  ofJson? := three? "hall_up" "hall_down" "cab" Registry.mk

instance : Shape Broadcast where
  toJson m := record [("source",toJson m.source),("registry",toJson m.registry),("elevator_state",toJson m.car)]
  ofJson? := three? "source" "registry" "elevator_state" Broadcast.mk

structure Membership where
  peers : PeerSet

instance : Shape Membership where
  toJson m := record [("peers",toJson m.peers)]
  ofJson? := one? "peers" Membership.mk

end Exchange
end ElevatorFleet
