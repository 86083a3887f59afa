import ElevatorFleet.Ledger
import ElevatorFleet.Report

/-!
# The call board

The board of one controller holds the status of every call it has heard of, the
ledger of witnesses, and the peers whose witness a confirmation waits for.

- An unknown report carries no information and changes nothing.
- An absent report clears a confirmed call, and settles one that is unknown. It does
  not clear an unconfirmed one, so it cannot undo a press that is still on its way.
- An unconfirmed report is a witness: its source and the controller itself enter the
  ledger, and once the ledger has a quorum the call is confirmed.
- A confirmed report is trusted for a call that is unconfirmed or unknown, since a
  peer confirms a call only with a quorum of its own. It does not bring back an
  absent call.
-/
namespace ElevatorFleet
open Std

structure CallBoard where
  self : PeerId
  /-- The status of every call heard of; a call that is missing is unknown. -/
  statuses : CallMap Status
  ledger : Ledger
  /-- The peers whose witness a confirmation needs. -/
  alive : PeerSet
deriving DecidableEq

namespace CallBoard

def new (self : PeerId) : CallBoard := ⟨self,∅,.empty,PeerSet.of [self]⟩

def status (b : CallBoard) (call : Call) : Status := b.statuses.getD call .unknown

/-- The board with a call held in another status. Unknown is never stored. -/
def hold (b : CallBoard) (call : Call) (status : Status) : CallBoard :=
  if status = .unknown then b else { b with statuses := b.statuses.insert call status }

def confirm (b : CallBoard) (call : Call) : CallBoard :=
  { b with ledger := b.ledger.reset call, statuses := b.statuses.insert call .confirmed }

/-- A press or the witness of a peer: the peer and the controller itself become
    witnesses, and a quorum confirms the call. A confirmed call stays so. -/
def onUnconfirmed (b : CallBoard) (call : Call) (source : PeerId) : CallBoard :=
  if b.status call = .confirmed then b
  else
    let witnessed := { b with ledger := (b.ledger.witness call source).witness call b.self }
    if witnessed.ledger.hasQuorum call b.alive then witnessed.confirm call
    else witnessed.hold call .unconfirmed

/-- A clear: a confirmed call was agreed by every peer alive, so the clear of any
    one controller is enough. -/
def onAbsent (b : CallBoard) (call : Call) : CallBoard :=
  match b.status call with
  | .confirmed | .unknown => b.hold call .absent
  | .absent | .unconfirmed => b

/-- The confirmation of a peer. A call is unknown only before anything was heard of
    it, as after a restart, and then the view of the fleet is adopted. -/
def onConfirmed (b : CallBoard) (call : Call) : CallBoard :=
  match b.status call with
  | .unconfirmed | .unknown => b.confirm call
  | .absent | .confirmed => b

def take (b : CallBoard) (r : Report) : CallBoard :=
  match r.belief.status with
  | .unknown => b
  | .absent => b.onAbsent r.belief.call
  | .unconfirmed => b.onUnconfirmed r.belief.call r.source
  | .confirmed => b.onConfirmed r.belief.call

/-- Takes a report and says in which status its call is held from then on. -/
def process (b : CallBoard) (r : Report) : CallBoard × Belief :=
  let next := b.take r
  (next,⟨r.belief.call,next.status r.belief.call⟩)

def pending (b : CallBoard) : List Call :=
  b.statuses.toList.filterMap fun (call,status) => if status = .unconfirmed then some call else none

/-- The unconfirmed calls that have a quorum over `alive`, in ascending order. -/
def released (b : CallBoard) (alive : PeerSet) : List Call :=
  b.pending.filter fun call => b.ledger.hasQuorum call alive

/-- Replaces the membership and confirms the calls that have a quorum under the new
    one, as happens when a peer whose witness was missing has died. The same
    membership changes nothing. -/
def setAlive (b : CallBoard) (alive : PeerSet) : CallBoard × List Belief :=
  if alive = b.alive then (b,[])
  else
    let calls := b.released alive
    (calls.foldl confirm { b with alive := alive },calls.map fun call => ⟨call,.confirmed⟩)

end CallBoard
end ElevatorFleet
