import ElevatorFleet.Report

/-!
# The registry

What one controller believes about every call, as rows of statuses indexed by floor:
one row for the hall buttons up, one for those down, and one for the cab of each
peer. Every broadcast carries a whole registry. A registry is written only with what
the call board of its own controller has decided; the registry of another controller
is read through `diff` and never merged in.

A registry that comes from the network may have rows of any lengths. The floors that
it serves are counted by its row for the hall buttons up.
-/
namespace ElevatorFleet
open Std

/-- The statuses of one button over the floors. -/
abbrev Row := List Status

/-- What one controller believes about every call. -/
structure Registry where
  hallUp : Row
  hallDown : Row
  /-- The cab rows. They stay when their owner is gone, so that it finds its calls
      again when it comes back. -/
  cab : PeerMap Row
deriving DecidableEq

namespace Registry

def blankRow (floors : Nat) : Row := List.replicate floors .unknown

def new (numFloors : UInt8) : Registry := ⟨blankRow numFloors.toNat,blankRow numFloors.toNat,∅⟩

def numFloors (r : Registry) : Nat := r.hallUp.length

/-- The number of floors as far as a byte holds it; beliefs about floors from there
    on are ignored. -/
def floorLimit (r : Registry) : UInt8 := UInt8.ofNat r.numFloors

/-- The row of a call, none for a cab whose owner is not registered. -/
def row? (r : Registry) : Call → Option Row
  | .hall _ .up => some r.hallUp
  | .hall _ .down => some r.hallDown
  | .cab _ owner => r.cab[owner]?

def cell? (r : Registry) (call : Call) : Option Status :=
  (r.row? call).bind fun row => row[call.floor.toNat]?

/-- The status of a call, unknown where the registry has no cell for it. -/
def status (r : Registry) (call : Call) : Status := (r.cell? call).getD .unknown

/-! ### Rows of peers -/

def knows (r : Registry) (peer : PeerId) : Bool := r.cab.contains peer

/-- Opens a blank cab row for a peer that has none. -/
def register (r : Registry) (peer : PeerId) : Registry :=
  if r.knows peer then r else { r with cab := r.cab.insert peer (blankRow r.numFloors) }

/-- Opens the row of a call, which only a cab call of an unregistered owner lacks. -/
def registerOwner (r : Registry) : Call → Registry
  | .hall _ _ => r
  | .cab _ owner => r.register owner

/-! ### Writing -/

def write (r : Registry) (call : Call) (status : Status) : Registry :=
  let floor := call.floor.toNat
  match call with
  | .hall _ .up => { r with hallUp := r.hallUp.set floor status }
  | .hall _ .down => { r with hallDown := r.hallDown.set floor status }
  | .cab _ owner =>
    match r.cab[owner]? with
    | none => r
    | some row => { r with cab := r.cab.insert owner (row.set floor status) }

def accepts (r : Registry) (b : Belief) : Bool :=
  b.status ≠ .unknown && b.call.floor < r.floorLimit

/-- Records a belief, registering the owner of a cab call. A belief that is not
    accepted is ignored. -/
def apply (r : Registry) (b : Belief) : Registry :=
  if r.accepts b then (r.registerOwner b.call).write b.call b.status else r

def altered (r : Registry) (b : Belief) : Bool := r.accepts b && r.status b.call ≠ b.status

/-- The belief is accepted and its row is too short to have a cell for it. -/
def lacksCell (r : Registry) (b : Belief) : Bool :=
  r.accepts b && ((r.registerOwner b.call).cell? b.call).isNone

/-- Records a belief and says whether that altered the registry; there is no answer
    where the row has no cell for the belief. -/
def applied? (r : Registry) (b : Belief) : Option (Registry × Bool) :=
  if r.lacksCell b then none else some (r.apply b,r.altered b)

/-! ### Comparing -/

/-- Registers the sender of a snapshot and every owner of a cab row in it. -/
def enroll (r : Registry) (sender : PeerId) (remote : Registry) : Registry :=
  remote.cab.keys.foldl register (r.register sender)

/-- What the sender holds otherwise on the floors that both rows have. Floors are
    counted as bytes. -/
def rowDiff (sender : PeerId) (call : Floor → Call) (own theirs : Row) : List Report :=
  (own.zip theirs).zipIdx.filterMap fun ((mine,other),floor) =>
    if Status.differs mine other then some (.of sender (call (UInt8.ofNat floor)) other) else none

/-- Compares a snapshot of `sender` with this registry: registers the peers in it and
    reports every cell that differs, the hall rows up and down first and then the cab
    rows by ascending owner. -/
def diff (r : Registry) (sender : PeerId) (remote : Registry) : Registry × List Report :=
  let known := r.enroll sender remote
  (known,
    rowDiff sender (.hall · .up) known.hallUp remote.hallUp ++
    rowDiff sender (.hall · .down) known.hallDown remote.hallDown ++
    remote.cab.toList.flatMap fun (owner,row) =>
      rowDiff sender (.cab · owner) (known.cab.getD owner []) row)

/-! ### Text -/

def rowText (row : Row) : String := String.ofList (row.map Status.glyph)

/-- A registry is written row by row, the cab rows by ascending owner. -/
def text (r : Registry) : String :=
  s!"up[{rowText r.hallUp}] down[{rowText r.hallDown}]" ++
    String.join (r.cab.toList.map fun (owner,row) => s!" cab{owner.text}[{rowText row}]")

end Registry
end ElevatorFleet
