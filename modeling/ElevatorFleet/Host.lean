import ElevatorFleet.LampPanel
import ElevatorFleet.Tasks.Console
import ElevatorFleet.Tasks.Liveness
import ElevatorFleet.Tasks.Orders
import ElevatorFleet.Tasks.Replication
import ElevatorFleet.Tasks.Requests
import ElevatorFleet.Tasks.Transport

/-!
# Hosts

One controller as it runs: its tasks, and bounded queues between them. A task either
waits for an event or is in the middle of the actions that an event has caused; while
the queue for the next of these is full, the task stands still. In which order the
tasks move, and which of several events a task takes, is left open: a move is what one
of them can do next.
-/
namespace ElevatorFleet
open Tasks

inductive TaskName where
  | transport
  | liveness
  | requests
  | replication
  | orders
  | console
deriving DecidableEq, Repr

inductive QueueName where
  | updates
  | signals
  | carStates
  | resolved
  | settled
  | requestMembers
  | replicationMembers
  | orderMembers
  | carReports
  | outbound
  | inbound
deriving DecidableEq, Repr

/-- What waits in the queues, the oldest first. -/
structure Queues where
  updates : List Report := []
  signals : List Signal := []
  carStates : List CarState := []
  resolved : List Report := []
  settled : List Report := []
  requestMembers : List PeerSet := []
  replicationMembers : List PeerSet := []
  orderMembers : List PeerSet := []
  carReports : List CarReport := []
  outbound : List Broadcast := []
  inbound : List Broadcast := []
deriving DecidableEq

def Queues.size (q : Queues) : QueueName → Nat
  | .updates => q.updates.length
  | .signals => q.signals.length
  | .carStates => q.carStates.length
  | .resolved => q.resolved.length
  | .settled => q.settled.length
  | .requestMembers => q.requestMembers.length
  | .replicationMembers => q.replicationMembers.length
  | .orderMembers => q.orderMembers.length
  | .carReports => q.carReports.length
  | .outbound => q.outbound.length
  | .inbound => q.inbound.length

def QueueName.reader : QueueName → TaskName
  | .updates | .requestMembers => .requests
  | .signals => .liveness
  | .carStates | .resolved | .replicationMembers | .inbound => .replication
  | .settled | .orderMembers | .carReports => .orders
  | .outbound => .transport

/-- The actions that the tasks have still to do, the next first. -/
structure Pending where
  transport : List Broadcast := []
  liveness : List Liveness.Notice := []
  requests : List Requests.Action := []
  replication : List Replication.Action := []
  console : List Console.Action := []
  /-- What the assigner is asked at the moment. -/
  orders : Option Dispatch.Input := none
deriving DecidableEq

structure Host where
  capacity : Nat
  transport : Transport
  presence : Presence
  board : CallBoard
  replication : Replication
  orders : Orders
  hasAssigner : Bool
  panel : LampPanel
  queues : Queues
  pending : Pending
  now : Instant
  /-- The broadcasts that have been sent, with their times, the latest first. -/
  sent : List (Instant × Broadcast)
  /-- The orders that the own car has been given, the latest first. -/
  served : List Dispatch.Order

namespace Host

def bindFailure : String := "failed to bind UDP transport"

/-- The tasks that are told the set of living peers, in this order. -/
def subscribers : List String := ["requests","replication","orders"]

def new (self : PeerId) (numFloors : UInt8) (timeout : Duration) (capacity : Nat) (transport : Transport)
    (hasAssigner : Bool) (now : Instant) : Host :=
  { capacity := capacity, transport := transport, presence := .new self timeout, board := .new self,
    replication := .new self numFloors, orders := .new self numFloors, hasAssigner := hasAssigner,
    panel := .dark, queues := {}, pending := {}, now := now, sent := [], served := [] }

/-! ### Moves -/

inductive Move where
  | act (task : TaskName)
  /-- A task that waits takes the oldest message of a queue. -/
  | take (queue : QueueName)
  | handOver
  | broadcastTick
  | pollTick
  | refreshTick
  | datagram (bytes : Bytes)
  | line (text : String)
  | assigned (a : Option Dispatch.Assignment)
  | elapse (ms : Duration)

def isWaiting (h : Host) : TaskName → Bool
  | .transport => h.pending.transport.isEmpty
  | .liveness => h.pending.liveness.isEmpty
  | .requests => h.pending.requests.isEmpty
  | .replication => h.pending.replication.isEmpty
  | .orders => h.pending.orders.isNone
  | .console => h.pending.console.isEmpty

/-- A message joins a queue that has room for it. -/
def join {α : Type} (h : Host) (queue : List α) (message : α) (put : List α → Queues) : Option Host :=
  if queue.length < h.capacity then some { h with queues := put (queue ++ [message]) } else none

def actTransport (h : Host) : Option Host :=
  match h.pending.transport with
  | [] => none
  | m :: rest =>
    { h with pending := { h.pending with transport := rest } }.join h.queues.inbound m
      fun q => { h.queues with inbound := q }

def actLiveness (h : Host) : Option Host :=
  match h.pending.liveness with
  | [] => none
  | n :: rest =>
    let next := { h with pending := { h.pending with liveness := rest } }
    match n.subscriber with
    | "requests" => next.join h.queues.requestMembers n.alive fun q => { h.queues with requestMembers := q }
    | "replication" =>
      next.join h.queues.replicationMembers n.alive fun q => { h.queues with replicationMembers := q }
    | _ => next.join h.queues.orderMembers n.alive fun q => { h.queues with orderMembers := q }

def actRequests (h : Host) : Option Host :=
  match h.pending.requests with
  | [] => none
  | action :: rest =>
    let next := { h with pending := { h.pending with requests := rest } }
    match action with
    | .lamp button floor lit => some { next with panel := h.panel.set button floor lit }
    | .toReplication r => next.join h.queues.resolved r fun q => { h.queues with resolved := q }
    | .toOrders r => next.join h.queues.settled r fun q => { h.queues with settled := q }

def actReplication (h : Host) : Option Host :=
  match h.pending.replication with
  | [] => none
  | action :: rest =>
    let next := { h with pending := { h.pending with replication := rest } }
    match action with
    | .toRequests r => next.join h.queues.updates r fun q => { h.queues with updates := q }
    | .toLiveness s => next.join h.queues.signals s fun q => { h.queues with signals := q }
    | .toOrders c => next.join h.queues.carReports c fun q => { h.queues with carReports := q }
    | .send m => next.join h.queues.outbound m fun q => { h.queues with outbound := q }

def actConsole (h : Host) : Option Host :=
  match h.pending.console with
  | [] => none
  | action :: rest =>
    let next := { h with pending := { h.pending with console := rest } }
    match action with
    | .toRequests r => next.join h.queues.updates r fun q => { h.queues with updates := q }
    | .toReplication s => next.join h.queues.carStates s fun q => { h.queues with carStates := q }
    | .toLiveness s => next.join h.queues.signals s fun q => { h.queues with signals := q }

/-- A task does the next of its actions, if the queue for it has room. The order task
    waits for the assigner instead. -/
def act (h : Host) : TaskName → Option Host
  | .transport => h.actTransport
  | .liveness => h.actLiveness
  | .requests => h.actRequests
  | .replication => h.actReplication
  | .orders => none
  | .console => h.actConsole

def onLiveness (h : Host) (e : Liveness.Event) : Host :=
  let (presence,alive) := Liveness.react h.presence h.now e
  { h with
    presence := presence
    pending := { h.pending with liveness := Liveness.notices subscribers alive } }

def onRequests (h : Host) (e : Requests.Event) : Host :=
  let (board,actions) := Requests.react h.board e
  { h with board := board, pending := { h.pending with requests := actions } }

def onReplication (h : Host) (e : Replication.Event) : Host :=
  let (replication,actions) := h.replication.react e
  { h with replication := replication, pending := { h.pending with replication := actions } }

def onOrders (h : Host) (e : Orders.Event) : Host := { h with orders := h.orders.take e }

/-- The transport task sends a broadcast. The targets hear it or not, which is no
    matter on this host. -/
def onTransport (h : Host) (m : Broadcast) : Host :=
  if (h.transport.arrival? m false).isSome then { h with sent := (h.now,m) :: h.sent } else h

def takeFrom (h : Host) (queue : QueueName) : Option Host :=
  let q := h.queues
  match queue with
  | .updates =>
    match q.updates with
    | [] => none
    | r :: rest => some ({ h with queues := { q with updates := rest } }.onRequests (.report r))
  | .requestMembers =>
    match q.requestMembers with
    | [] => none
    | alive :: rest =>
      some ({ h with queues := { q with requestMembers := rest } }.onRequests (.membership alive))
  | .signals =>
    match q.signals with
    | [] => none
    | s :: rest => some ({ h with queues := { q with signals := rest } }.onLiveness (.signal s))
  | .carStates =>
    match q.carStates with
    | [] => none
    | s :: rest => some ({ h with queues := { q with carStates := rest } }.onReplication (.car s))
  | .resolved =>
    match q.resolved with
    | [] => none
    | r :: rest => some ({ h with queues := { q with resolved := rest } }.onReplication (.resolved r))
  | .replicationMembers =>
    match q.replicationMembers with
    | [] => none
    | alive :: rest =>
      some ({ h with queues := { q with replicationMembers := rest } }.onReplication (.membership alive))
  | .inbound =>
    match q.inbound with
    | [] => none
    | m :: rest =>
      if h.replication.backlog.isEmpty then
        some ({ h with queues := { q with inbound := rest } }.onReplication (.inbound m))
      else none
  | .settled =>
    match q.settled with
    | [] => none
    | r :: rest => some ({ h with queues := { q with settled := rest } }.onOrders (.settled r))
  | .orderMembers =>
    match q.orderMembers with
    | [] => none
    | alive :: rest => some ({ h with queues := { q with orderMembers := rest } }.onOrders (.membership alive))
  | .carReports =>
    match q.carReports with
    | [] => none
    | c :: rest => some ({ h with queues := { q with carReports := rest } }.onOrders (.car c))
  | .outbound =>
    match q.outbound with
    | [] => none
    | m :: rest => some ({ h with queues := { q with outbound := rest } }.onTransport m)

def handOver (h : Host) : Option Host :=
  match h.replication.backlog with
  | [] => none
  | r :: rest =>
    { h with replication := { h.replication with backlog := rest } }.join h.queues.updates r
      fun q => { h.queues with updates := q }

/-- The order task asks the assigner, if there is one and the view is complete. -/
def refresh (h : Host) : Host :=
  if h.hasAssigner then { h with pending := { h.pending with orders := h.orders.view.input? } } else h

def conclude (h : Host) (a : Option Dispatch.Assignment) : Host :=
  let h := { h with pending := { h.pending with orders := none } }
  match a with
  | none => h
  | some a =>
    let (orders,order) := h.orders.adopt a
    { h with orders := orders, served := order.toList ++ h.served }

def onLine (h : Host) (text : String) : Host :=
  let action := Console.react h.board.self h.orders.view.numFloors text
  { h with pending := { h.pending with console := action.toList } }

def move? (h : Host) : Move → Option Host
  | .act task => h.act task
  | .take queue => if h.isWaiting queue.reader then h.takeFrom queue else none
  | .handOver => if h.isWaiting .replication then h.handOver else none
  | .broadcastTick => if h.isWaiting .replication then some (h.onReplication .tick) else none
  | .pollTick => if h.isWaiting .liveness then some (h.onLiveness .tick) else none
  | .refreshTick => if h.isWaiting .orders then some h.refresh else none
  | .datagram bytes =>
    if h.isWaiting .transport then
      some { h with pending := { h.pending with transport := (Transport.receive bytes).toList } }
    else none
  | .line text => if h.isWaiting .console then some (h.onLine text) else none
  | .assigned a => if h.isWaiting .orders then none else some (h.conclude a)
  | .elapse ms => some { h with now := h.now + ms }

/-- The host can come to be in a state by moves from another. -/
inductive Reaches (start : Host) : Host → Prop where
  | here : Reaches start start
  | next {h k : Host} {m : Move} : Reaches start h → h.move? m = some k → Reaches start k

end Host
end ElevatorFleet
