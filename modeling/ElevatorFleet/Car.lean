import ElevatorFleet.Word

/-!
# Cars

The physical state of an elevator car as its controller reports it.
-/
namespace ElevatorFleet

inductive Behavior where
  | idle
  | moving
  | doorOpen
deriving DecidableEq, Inhabited, Repr

namespace Behavior

/-- The name of a behavior in snapshots and in the text of a state. -/
def name : Behavior → String
  | .idle => "Idle"
  | .moving => "Moving"
  | .doorOpen => "DoorOpen"

/-- The word for a behavior in the input of an assigner. -/
def word : Behavior → String
  | .idle => "idle"
  | .moving => "moving"
  | .doorOpen => "doorOpen"

/-- A behavior is named by its word; the open door has three spellings. -/
def read (word : String) : Except EntryError Behavior :=
  match lowered word with
  | "idle" => .ok .idle
  | "moving" => .ok .moving
  | "dooropen" | "door_open" | "door-open" => .ok .doorOpen
  | other => .error (.unknownBehavior other)

end Behavior

inductive Motor where
  | up
  | down
  | stop
deriving DecidableEq, Repr

namespace Motor

instance : Inhabited Motor := ⟨.stop⟩

def name : Motor → String
  | .up => "Up"
  | .down => "Down"
  | .stop => "Stop"

def word : Motor → String
  | .up => "up"
  | .down => "down"
  | .stop => "stop"

def read (word : String) : Except EntryError Motor :=
  match lowered word with
  | "up" => .ok .up
  | "down" => .ok .down
  | "stop" => .ok .stop
  | other => .error (.unknownMotor other)

end Motor

structure CarState where
  floor : Floor
  behavior : Behavior
  motor : Motor
deriving DecidableEq, Inhabited, Repr

def CarState.text (s : CarState) : String :=
  s!"floor {s.floor.toNat} {s.behavior.name} {s.motor.name}"

structure CarReport where
  peer : PeerId
  state : CarState
deriving DecidableEq, Inhabited, Repr

def CarReport.text (r : CarReport) : String := s!"{r.peer.text} {r.state.text}"

end ElevatorFleet
