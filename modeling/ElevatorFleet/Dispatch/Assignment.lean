import ElevatorFleet.Car

/-!
# Orders and assignments

What an assigner is asked, and what it answers: for every car the floors where it
has to stop, and for which button.
-/
namespace ElevatorFleet.Dispatch
open Std

/-- What one car has to serve on one floor. -/
structure Duty where
  hallUp : Bool
  hallDown : Bool
  cab : Bool
deriving DecidableEq, Inhabited, Repr

abbrev Order := List Duty

abbrev Assignment := PeerMap Order

def Assignment.empty : Assignment := ∅

/-- A duty is written as three bits in brackets. -/
def Duty.text (d : Duty) : String :=
  let bit (b : Bool) : String := if b then "1" else "0"
  s!"[{bit d.hallUp}{bit d.hallDown}{bit d.cab}]"

def orderText (order : Order) : String := " ".intercalate (order.map Duty.text)

structure HallPair where
  up : Bool
  down : Bool
deriving DecidableEq, Inhabited, Repr

structure CarInput where
  behavior : Behavior
  floor : Floor
  motor : Motor
  cab : List Bool
deriving DecidableEq, Repr

structure Input where
  hall : List HallPair
  cars : PeerMap CarInput
deriving DecidableEq

/-- The assignment that gives every car all hall calls and its own cab calls, on as
    many floors as both lists have. -/
def Input.shareAll (i : Input) : Assignment :=
  ExtTreeMap.ofList (i.cars.toList.map fun (peer,car) =>
    (peer,i.hall.zipWith (fun hall cab => Duty.mk hall.up hall.down cab) car.cab))

end ElevatorFleet.Dispatch
