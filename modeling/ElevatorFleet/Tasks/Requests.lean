import ElevatorFleet.CallBoard
import ElevatorFleet.Tasks.Session

/-!
# The request task

Keeps the call board. Whatever the board decides lights or darkens the lamp of the
call, if it is on the own panel, and is told to the replication task and to the order
task.
-/
namespace ElevatorFleet.Tasks.Requests

inductive Event where
  | report (r : Report)
  | membership (alive : PeerSet)
deriving DecidableEq

inductive Action where
  | lamp (button : Button) (floor : Floor) (lit : Bool)
  | toReplication (r : Report)
  | toOrders (r : Report)
deriving DecidableEq, Repr

def publish (self : PeerId) (b : Belief) : List Action :=
  let told : List Action := [.toReplication ⟨self,b⟩,.toOrders ⟨self,b⟩]
  if b.call.concerns self then
    .lamp b.call.button b.call.floor (b.status = .confirmed) :: told
  else told

def decide (board : CallBoard) : Event → CallBoard × List Belief
  | .report r => let (next,belief) := board.process r; (next,[belief])
  | .membership alive => board.setAlive alive

def react (board : CallBoard) (e : Event) : CallBoard × List Action :=
  let (next,decisions) := decide board e
  (next,decisions.flatMap (publish board.self))

def run (board : CallBoard) (events : List Event) : CallBoard × List Action :=
  events.foldl (fun (board,done) e =>
    let (next,actions) := react board e
    (next,done ++ actions)) (board,[])

/-! ### Closing queues -/

inductive Queue where
  | updates
  | alive
  | replication
  | orders
deriving DecidableEq, Repr

def Queue.name : Queue → String
  | .updates => "updates"
  | .alive => "alive"
  | .replication => "replication"
  | .orders => "orders"

def Action.target? : Action → Option Queue
  | .lamp _ _ _ => none
  | .toReplication _ => some .replication
  | .toOrders _ => some .orders

abbrev Session := Tasks.Session CallBoard Queue QueueClosed

namespace Session

def new (self : PeerId) : Session := .start (.new self)

def source : Event → Queue
  | .report _ => .updates
  | .membership _ => .alive

def feed (s : Session) (e : Event) : Session × List Action :=
  if s.isOpen (source e) then
    let (next,actions) := react s.state e
    s.advance Action.target? (fun queue => ⟨queue.name⟩) next actions
  else (s,[])

/-- Closes a queue. The task ends once both queues that it reads are closed. -/
def shut (s : Session) (queue : Queue) : Session :=
  let s := s.close queue
  if s.isOpen .updates || s.isOpen .alive then s else s.finish

end Session
end ElevatorFleet.Tasks.Requests
