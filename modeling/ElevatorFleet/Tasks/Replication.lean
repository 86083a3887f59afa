import ElevatorFleet.Presence
import ElevatorFleet.Replica
import ElevatorFleet.Tasks.Session

/-!
# The replication task

Keeps the replica. It records every decision of the request task, broadcasts the
replica at every tick of its timer, and reads the snapshots of other controllers. The
reports of a snapshot wait in a backlog and are handed to the request task one by one,
as its queue has room, while decisions are still being recorded; the two tasks feed
each other and would otherwise come to a standstill. The next snapshot is read when
the backlog is empty.
-/
namespace ElevatorFleet.Tasks

/-- The replica and the reports that wait for the request task. -/
structure Replication where
  replica : Replica
  backlog : List Report
deriving DecidableEq

namespace Replication

def new (self : PeerId) (numFloors : UInt8) : Replication := ⟨.new self numFloors,[]⟩

inductive Event where
  | resolved (r : Report)
  | car (state : CarState)
  | membership (alive : PeerSet)
  | inbound (m : Broadcast)
  | room
  | tick
deriving DecidableEq

inductive Action where
  | toRequests (r : Report)
  | toLiveness (s : Signal)
  | toOrders (c : CarReport)
  | send (m : Broadcast)
deriving DecidableEq

/-- The task takes the event now: a snapshot with an empty backlog only, and room only
    for a report that waits. -/
def accepts (t : Replication) : Event → Bool
  | .inbound _ => t.backlog.isEmpty
  | .room => !t.backlog.isEmpty
  | _ => true

def react (t : Replication) : Event → Replication × List Action
  | .resolved r => ({ t with replica := t.replica.record r.belief },[])
  | .car state =>
    if t.replica.isNews state then
      ({ t with replica := t.replica.setCar state },[.toOrders ⟨t.replica.self,state⟩])
    else (t,[])
  | .membership alive => ({ t with replica := t.replica.setAlive alive },[])
  | .inbound m =>
    let (replica,absorbed) := t.replica.absorb m
    match absorbed with
    | none => ({ t with replica := replica },[])
    | some a => (⟨replica,t.backlog ++ a.reports⟩,[.toLiveness a.signal,.toOrders a.car])
  | .room =>
    match t.backlog with
    | [] => (t,[])
    | r :: rest => ({ t with backlog := rest },[.toRequests r])
  | .tick => (t,(t.replica.outbound.map Action.send).toList)

/-! ### Closing queues -/

inductive Queue where
  | resolved
  | localState
  | alive
  | inbound
  | outbound
  | requests
  | liveness
  | orders
deriving DecidableEq, Repr

def Queue.name : Queue → String
  | .resolved => "resolved"
  | .localState => "local_state"
  | .alive => "alive"
  | .inbound => "inbound"
  | .outbound => "outbound"
  | .requests => "requests"
  | .liveness => "liveness"
  | .orders => "orders"

def Action.target : Action → Queue
  | .toRequests _ => .requests
  | .toLiveness _ => .liveness
  | .toOrders _ => .orders
  | .send _ => .outbound

/-- The task with its clock and the two queues in which something may wait: snapshots
    that come in, and reports that nobody reads yet. -/
structure State where
  task : Replication
  interval : Duration
  elapsed : Duration
  inbox : List Broadcast
  capacity : Nat
  /-- The reports are not read for the time being. -/
  held : Bool
  unread : List Report

abbrev Session := Tasks.Session State Queue QueueClosed

namespace Session

/-- The task of a controller that has heard of nothing. At its first tick there is
    nothing to broadcast. -/
def new (self : PeerId) (numFloors : UInt8) (interval : Duration) (capacity : Nat) : Session :=
  .start ⟨.new self numFloors,interval,0,[],capacity,false,[]⟩

/-- Takes an event. Reports go into their queue and stay there while it is held. -/
def take (s : Session) (e : Event) : Session × List Action :=
  let (task,actions) := s.state.task.react e
  let (next,done) := s.advance (fun action => some action.target) (fun queue => ⟨queue.name⟩)
    { s.state with task := task } actions
  if s.state.held then
    let isReport : Action → Bool | .toRequests _ => true | _ => false
    let unread := done.filterMap fun action =>
      match action with
      | .toRequests r => some r
      | _ => none
    ({ next with state := { next.state with unread := next.state.unread ++ unread } },
      done.filter fun action => !isReport action)
  else (next,done)

def takeNext (sofar : Session × List Action) (e : Event) : Session × List Action :=
  let (s,done) := sofar
  let (next,more) := s.take e
  (next,done ++ more)

/-- How many reports of the backlog the queue of the request task can take now. Into
    a closed queue the task tries to hand one over. -/
def roomFor (s : Session) : Nat :=
  let waiting := s.state.task.backlog.length
  if s.state.held && s.isOpen .requests then min waiting (s.state.capacity - s.state.unread.length)
  else waiting

def handOver (sofar : Session × List Action) : Session × List Action :=
  (List.replicate sofar.1.roomFor Event.room).foldl takeNext sofar

/-- Reads the snapshots that wait for as long as the backlog is empty. -/
def readInbox (sofar : Session × List Action) : List Broadcast → Session × List Action
  | [] => ({ sofar.1 with state := { sofar.1.state with inbox := [] } },sofar.2)
  | m :: rest =>
    if sofar.1.isRunning && sofar.1.state.task.backlog.isEmpty then
      readInbox (handOver (takeNext sofar (.inbound m))) rest
    else ({ sofar.1 with state := { sofar.1.state with inbox := m :: rest } },sofar.2)

/-- Goes on until nothing moves. A task that has read all that a closed queue still
    held ends with it. -/
def settle (sofar : Session × List Action) : Session × List Action :=
  let handed := handOver sofar
  let (s,done) := readInbox handed handed.1.state.inbox
  let isDry := s.state.inbox.isEmpty && s.state.task.backlog.isEmpty
  (if !s.isOpen .resolved || (!s.isOpen .inbound && isDry) then s.finish else s,done)

def source? : Event → Option Queue
  | .resolved _ => some .resolved
  | .car _ => some .localState
  | .membership _ => some .alive
  | .inbound _ => some .inbound
  | .room | .tick => none

def feed (s : Session) (e : Event) : Session × List Action :=
  if (source? e).all s.isOpen then
    match e with
    | .inbound m => settle ({ s with state := { s.state with inbox := s.state.inbox ++ [m] } },[])
    | e => settle (s.take e)
  else (s,[])

def feedInbound (s : Session) (messages : List Broadcast) : Session × List Action :=
  messages.foldl (fun (s,done) m =>
    let (next,more) := s.feed (.inbound m)
    (next,done ++ more)) (s,[])

/-- Closes a queue. Reports that nobody has read are lost with theirs. -/
def shut (s : Session) (queue : Queue) : Session × List Action :=
  let s := s.close queue
  settle (if queue = .requests then { s with state := { s.state with unread := [] } } else s,[])

def hold (s : Session) : Session := { s with state := { s.state with held := true } }

/-- Reads the reports again, those first that are in the queue. -/
def release (s : Session) : Session × List Action :=
  let unread := s.state.unread.map Action.toRequests
  settle ({ s with state := { s.state with held := false, unread := [] } },unread)

def pass (s : Session) (ms : Duration) : Session × List Action :=
  let later := s.state.elapsed + ms
  let (last,done) := ((ticksWithin s.state.interval s.state.elapsed ms).map fun _ => Event.tick).foldl
    (fun sofar e => settle (takeNext sofar e)) (s,[])
  ({ last with state := { last.state with elapsed := later } },done)

end Session
end Replication
end ElevatorFleet.Tasks
