import ElevatorFleet.Call

/-!
# Words

The words by which people and other programs name directions and the doings of a
car, and the causes for which an entry is refused. Words are read in any letter
case of the ASCII letters.
-/
namespace ElevatorFleet

inductive EntryError where
  /-- The floor is not among the first `numFloors` floors. -/
  | floorOutOfRange (floor : Floor) (numFloors : UInt8)
  | unknownDirection (word : String)
  | unknownBehavior (word : String)
  | unknownMotor (word : String)
  | notAFloor (word : String)
  | unrecognized (line : String)
deriving DecidableEq, Repr

def EntryError.message : EntryError → String
  | .floorOutOfRange floor numFloors =>
    s!"floor {floor.toNat} is outside the served range 0..{numFloors.toNat}"
  | .unknownDirection word => s!"parse error: unknown direction '{word}'"
  | .unknownBehavior word => s!"parse error: unknown behavior '{word}'"
  | .unknownMotor word => s!"parse error: unknown motor direction '{word}'"
  | .notAFloor word => s!"parse error: '{word}' is not a floor"
  | .unrecognized line => s!"parse error: unrecognized command '{line}'"

/-- The floor of the call is one of the first `numFloors`. -/
def Call.check (call : Call) (numFloors : UInt8) : Except EntryError Unit :=
  if call.floor < numFloors then .ok () else .error (.floorOutOfRange call.floor numFloors)

/-- A word with its ASCII letters in lower case. -/
def lowered (word : String) : String := word.map Char.toLower

/-- A direction is named by its word or by the first letter of it. -/
def Direction.read (word : String) : Except EntryError Direction :=
  match lowered word with
  | "up" | "u" => .ok .up
  | "down" | "d" => .ok .down
  | other => .error (.unknownDirection other)

end ElevatorFleet
