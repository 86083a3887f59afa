import ElevatorFleet.Dispatch.Assignment
import ElevatorFleet.Json.Shape

/-!
# What assigners read and write

The input of an assigner and its answer as JSON, and the order for a car.
-/
namespace ElevatorFleet.Dispatch
open Json

instance : Shape Duty where
  toJson d := .array [toJson d.hallUp,toJson d.hallDown,toJson d.cab]
  ofJson?
    | .array [up,down,cab] => do some ⟨← ofJson? up,← ofJson? down,← ofJson? cab⟩
    | _ => none

/-- The order for one car, as it travels to the car. -/
structure ServiceOrder where
  order : Order
deriving DecidableEq, Repr

instance : Shape ServiceOrder where
  toJson o := record [("order",toJson o.order)]
  ofJson? := one? "order" ServiceOrder.mk

def CarInput.json (c : CarInput) : Value :=
  record [("behaviour",ofWord c.behavior.word),("floor",toJson c.floor),
    ("direction",ofWord c.motor.word),("cabRequests",toJson c.cab)]

def Input.json (i : Input) : Value :=
  record [("hallRequests",.array (i.hall.map fun pair => .array [toJson pair.up,toJson pair.down])),
    ("states",.object (i.cars.toList.map fun (peer,car) => (digits peer.num.toNat,car.json)))]

def Input.document (i : Input) : Bytes := i.json.render

end ElevatorFleet.Dispatch
