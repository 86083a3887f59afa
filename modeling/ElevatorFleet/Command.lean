import ElevatorFleet.Car
import ElevatorFleet.Text.Blank
import ElevatorFleet.Text.Digits

/-!
# Commands

What a person can tell a controller in one line:

- `hall F D` and `cab F` press a button, `clear hall F D` and `clear cab F` say that
  the call has been served;
- `state F B M` reports the state of the car;
- `fail` and `recover` report the health of the controller.

F is a floor, D a direction, B a behavior and M a drive. A cab call is always one of
the own car.
-/
namespace ElevatorFleet

inductive Command where
  | press (call : Call)
  | clear (call : Call)
  | state (state : CarState)
  | fail
  | recover
deriving DecidableEq, Repr

namespace Command

/-- The letters of a number after its plus sign, if it has one. -/
def unsigned : List Char → List Char
  | '+' :: digits => digits
  | digits => digits

def readFloor (word : String) : Except EntryError Floor :=
  let digits := unsigned word.toList
  if digits ≠ [] && digits.all Char.isDigit && Digits.number 10 digits < 256 then
    .ok (UInt8.ofNat (Digits.number 10 digits))
  else .error (.notAFloor word)

def readHall (floor direction : String) : Except EntryError Call := do
  let floor ← readFloor floor
  return .hall floor (← Direction.read direction)

def readCab (self : PeerId) (floor : String) : Except EntryError Call :=
  return .cab (← readFloor floor) self

def readState (floor behavior motor : String) : Except EntryError CarState := do
  let floor ← readFloor floor
  let behavior ← Behavior.read behavior
  return ⟨floor,behavior,← Motor.read motor⟩

/-- The command that words name, on any floor; `line` is the whole line they are of. -/
def ofWords (self : PeerId) (line : String) : List String → Except EntryError Command
  | ["hall",floor,direction] => return .press (← readHall floor direction)
  | ["cab",floor] => return .press (← readCab self floor)
  | ["clear","hall",floor,direction] => return .clear (← readHall floor direction)
  | ["clear","cab",floor] => return .clear (← readCab self floor)
  | ["state",floor,behavior,motor] => return .state (← readState floor behavior motor)
  | ["fail"] => .ok .fail
  | ["recover"] => .ok .recover
  | _ => .error (.unrecognized (Blank.trim line))

def floor? : Command → Option Floor
  | .press call | .clear call => some call.floor
  | .state s => some s.floor
  | .fail | .recover => none

def check (c : Command) (numFloors : UInt8) : Except EntryError Unit :=
  match c.floor? with
  | none => .ok ()
  | some floor => if floor < numFloors then .ok () else .error (.floorOutOfRange floor numFloors)

/-- Reads a line. That a floor is not served is said only of a line that is a command
    otherwise. -/
def parse (line : String) (self : PeerId) (numFloors : UInt8) : Except EntryError Command := do
  let command ← ofWords self line (Blank.words line)
  command.check numFloors
  return command

end Command
end ElevatorFleet
