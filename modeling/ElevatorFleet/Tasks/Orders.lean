import ElevatorFleet.Dispatch.View
import ElevatorFleet.Presence
import ElevatorFleet.Tasks.Session

/-!
# The order task

Keeps the dispatch view, asks the assigner at every tick of its timer, and tells the
own car its order when that has changed. An assigner that fails, and a view that is
not complete, change nothing.
-/
namespace ElevatorFleet.Tasks

structure Orders where
  self : PeerId
  view : Dispatch.View
  last : Dispatch.Assignment
deriving DecidableEq

namespace Orders

def new (self : PeerId) (numFloors : UInt8) : Orders := ⟨self,.new numFloors,.empty⟩

inductive Event where
  | settled (r : Report)
  | car (c : CarReport)
  | membership (alive : PeerSet)
deriving DecidableEq

def take (t : Orders) : Event → Orders
  | .settled r => { t with view := t.view.record r.belief }
  | .car c => { t with view := t.view.setCar c }
  | .membership alive => { t with view := t.view.setAlive alive }

/-- Takes an assignment, and gives the order for the own car if there is one and it is
    not the one of the assignment before. -/
def adopt (t : Orders) (a : Dispatch.Assignment) : Orders × Option Dispatch.Order :=
  let order := a[t.self]?
  ({ t with last := a },if order = t.last[t.self]? then none else order)

def refresh (t : Orders) (assign : Dispatch.Input → Option Dispatch.Assignment) :
    Orders × Option Dispatch.Order :=
  match t.view.input?.bind assign with
  | none => (t,none)
  | some a => t.adopt a

/-! ### Closing queues -/

inductive Queue where
  | requests
  | states
  | alive
  | orders
deriving DecidableEq, Repr

def Queue.name : Queue → String
  | .requests => "requests"
  | .states => "states"
  | .alive => "alive"
  | .orders => "service order"

inductive Action where
  | ask (i : Dispatch.Input)
  | order (o : Dispatch.Order)
deriving DecidableEq

def Action.target? : Action → Option Queue
  | .ask _ => none
  | .order _ => some .orders

structure State where
  task : Orders
  assign? : Option (Dispatch.Input → Option Dispatch.Assignment)
  interval : Duration
  elapsed : Duration

abbrev Session := Tasks.Session State Queue QueueClosed

namespace Session

/-- The timer ticks. A task without an assigner asks nobody. -/
def tick (s : Session) : Session × List Action :=
  match s.state.assign? with
  | none => (s,[])
  | some assign =>
    let (task,order) := s.state.task.refresh assign
    s.advance Action.target? (fun queue => ⟨queue.name⟩) { s.state with task := task }
      ((s.state.task.view.input?.map Action.ask).toList ++ (order.map Action.order).toList)

def new (self : PeerId) (numFloors : UInt8) (interval : Duration)
    (assign? : Option (Dispatch.Input → Option Dispatch.Assignment)) : Session × List Action :=
  tick (.start ⟨.new self numFloors,assign?,interval,0⟩)

def source : Event → Queue
  | .settled _ => .requests
  | .car _ => .states
  | .membership _ => .alive

def feed (s : Session) (e : Event) : Session :=
  if s.isRunning && s.isOpen (source e) then
    { s with state := { s.state with task := s.state.task.take e } }
  else s

def setAssigner (s : Session) (assign : Dispatch.Input → Option Dispatch.Assignment) : Session :=
  { s with state := { s.state with assign? := s.state.assign?.map fun _ => assign } }

/-- Closes a queue. The task ends with the queue of the settled calls. -/
def shut (s : Session) (queue : Queue) : Session :=
  let s := s.close queue
  if s.isOpen .requests then s else s.finish

def pass (s : Session) (ms : Duration) : Session × List Action :=
  let later := s.state.elapsed + ms
  let (last,done) := (ticksWithin s.state.interval s.state.elapsed ms).foldl (fun (s,done) _ =>
    let (next,actions) := s.tick
    (next,done ++ actions)) (s,[])
  ({ last with state := { last.state with elapsed := later } },done)

end Session
end Orders
end ElevatorFleet.Tasks
