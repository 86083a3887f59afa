import ElevatorFleet.Presence
import ElevatorFleet.Tasks.Session

/-!
# The liveness task

Keeps the presence monitor. It polls at every tick of its timer, and at once when the
controller tells how it is itself, and hands every new set of living peers on to each
of its subscribers, in their order.
-/
namespace ElevatorFleet.Tasks.Liveness

inductive Event where
  | signal (s : Signal)
  | tick
deriving DecidableEq

/-- The monitor after an event at `now`, and the set of living peers if it is to be
    handed on. -/
def react (p : Presence) (now : Instant) : Event → Presence × Option PeerSet
  | .signal s =>
    let seen := p.observe s now
    if s.peer = p.self then seen.poll now else (seen,none)
  | .tick => p.poll now

structure Notice where
  subscriber : String
  alive : PeerSet
deriving DecidableEq

def notices (subscribers : List String) (alive : Option PeerSet) : List Notice :=
  match alive with
  | none => []
  | some peers => subscribers.map fun subscriber => ⟨subscriber,peers⟩

/-! ### Closing queues -/

inductive Queue where
  | signals
  | subscriber (name : String)
deriving DecidableEq, Repr

def Queue.name : Queue → String
  | .signals => "signals"
  | .subscriber name => name

structure State where
  presence : Presence
  subscribers : List String
  interval : Duration
  epoch : Instant
  elapsed : Duration

abbrev Session := Tasks.Session State Queue QueueClosed

namespace Session

def take (s : Session) (e : Event) : Session × List Notice :=
  let (presence,alive) := react s.state.presence (s.state.epoch + s.state.elapsed) e
  s.advance (fun notice => some (.subscriber notice.subscriber)) (fun queue => ⟨queue.name⟩)
    { s.state with presence := presence } (notices s.state.subscribers alive)

/-- The task when it has just started and its timer has ticked for the first time. -/
def new (self : PeerId) (interval timeout : Duration) (subscribers : List String) (epoch : Instant) :
    Session × List Notice :=
  take (.start ⟨.new self timeout,subscribers,interval,epoch,0⟩) .tick

def feed (s : Session) (signal : Signal) : Session × List Notice :=
  if s.isOpen .signals then s.take (.signal signal) else (s,[])

/-- Closes a queue. The task ends with the queue that it reads. -/
def shut (s : Session) (queue : Queue) : Session :=
  let s := s.close queue
  if s.isOpen .signals then s else s.finish

def setElapsed (s : Session) (elapsed : Duration) : Session :=
  { s with state := { s.state with elapsed := elapsed } }

/-- Lets time pass; every notice comes with the time at which it was sent. -/
def pass (s : Session) (ms : Duration) : Session × List (Duration × Notice) :=
  let later := s.state.elapsed + ms
  let (last,sent) := (ticksWithin s.state.interval s.state.elapsed ms).foldl (fun (s,sent) time =>
    let (next,notices) := (s.setElapsed time).take .tick
    (next,sent ++ notices.map fun notice => (time,notice))) (s,[])
  (last.setElapsed later,sent)

end Session
end ElevatorFleet.Tasks.Liveness
