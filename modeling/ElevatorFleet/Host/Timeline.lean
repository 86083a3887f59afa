import ElevatorFleet.Host

/-!
# Hosts in time

A host whose timers tick on time and whose tasks move as soon as they can, until
nothing moves. The assigner is left out: such a host has none.
-/
namespace ElevatorFleet
open Tasks

namespace Host

/-! ### Coming to rest -/

def total {α : Type} (number : α → Nat) (items : List α) : Nat := items.foldl (fun n item => n + number item) 0

def cells (r : Registry) : Nat :=
  r.hallUp.length + r.hallDown.length + total (fun (_,row) => row.length) r.cab.toList

/-- How many moves a report can lead to: it is handed over, taken, shown by a lamp and
    told to two tasks, and what it leaves open may be shown and told once more. -/
def reportWork : Nat := 12

/-- How many moves a signal can lead to: it is taken, and three tasks are told. -/
def signalWork : Nat := 7

def broadcastWork (m : Broadcast) : Nat := 4 + signalWork + reportWork * cells m.registry

def actionWork : Replication.Action → Nat
  | .toRequests _ => 1 + reportWork
  | .toLiveness _ => 1 + signalWork
  | .toOrders _ | .send _ => 2

/-- How many moves a host can make before it rests, at most. -/
def work (h : Host) : Nat :=
  let q := h.queues
  let p := h.pending
  5 * h.board.pending.length + reportWork * (q.updates.length + h.replication.backlog.length) +
    signalWork * q.signals.length + 3 * q.carStates.length + q.resolved.length + q.settled.length +
    q.requestMembers.length + q.replicationMembers.length + q.orderMembers.length +
    q.carReports.length + q.outbound.length + total broadcastWork q.inbound +
    total (fun m => 1 + broadcastWork m) p.transport + 2 * p.liveness.length +
    2 * p.requests.length + total actionWork p.replication + (2 + reportWork) * p.console.length

/-- The moves by which a host comes to rest, in the order in which they are tried. -/
def innerMoves : List Move :=
  [.act .requests,.act .replication,.act .liveness,.act .transport,.act .console,
    .take .resolved,.take .settled,.take .carReports,.take .requestMembers,.take .replicationMembers,
    .take .orderMembers,.take .carStates,.take .signals,.take .outbound,.take .updates,.handOver,
    .take .inbound]

/-- Moves as long as it can, but no more than so many times. -/
def settleWithin (h : Host) : (moves : Nat) → Host
  | 0 => h
  | moves + 1 =>
    match innerMoves.findSome? h.move? with
    | none => h
    | some next => next.settleWithin moves

def settle (h : Host) : Host := h.settleWithin h.work

/-- Makes a move from outside, if it can be made, and comes to rest. -/
def after (h : Host) (m : Move) : Host := ((h.move? m).getD h).settle

end Host

/-! ### Timers -/

structure Timeline where
  host : Host
  broadcastInterval : Duration
  pollInterval : Duration
  refreshInterval : Duration
  elapsed : Duration

namespace Timeline

def due (t : Timeline) (time : Duration) : List Host.Move :=
  (if time % t.broadcastInterval = 0 then [.broadcastTick] else []) ++
    (if time % t.pollInterval = 0 then [.pollTick] else []) ++
    (if time % t.refreshInterval = 0 then [.refreshTick] else [])

def tick (t : Timeline) : Timeline := { t with host := (t.due t.elapsed).foldl Host.after t.host }

def start (host : Host) (broadcastInterval pollInterval refreshInterval : Duration) : Timeline :=
  tick ⟨host,broadcastInterval,pollInterval,refreshInterval,0⟩

def goTo (t : Timeline) (time : Duration) : Timeline :=
  { t with host := t.host.after (.elapse (time - t.elapsed)), elapsed := time }

def ticksWithin (t : Timeline) (ms : Duration) : List Duration :=
  let times := [t.broadcastInterval,t.pollInterval,t.refreshInterval].flatMap fun interval =>
    Tasks.ticksWithin interval t.elapsed ms
  times.mergeSort.eraseReps

def pass (t : Timeline) (ms : Duration) : Timeline :=
  let later := t.elapsed + ms
  ((t.ticksWithin ms).foldl (fun t time => (t.goTo time).tick) t).goTo later

def happen (t : Timeline) (m : Host.Move) : Timeline := { t with host := t.host.after m }

end Timeline
end ElevatorFleet
