import ElevatorFleet.Binary64
import ElevatorFleet.Datagram
import ElevatorFleet.Tasks.Session

/-!
# The transport task

Sends every broadcast as one datagram to each target, and hands on the datagrams that
come in and are broadcasts. Nothing is said of datagrams that get lost, of those that
the host cannot send, and of those that are no broadcasts; the next broadcast tells
the same again.
-/
namespace ElevatorFleet.Tasks

inductive Network where
  | connected
  /-- The host refuses to send anything. -/
  | unreachable
deriving DecidableEq, Repr

def Network.post (n : Network) (datagram : Bytes) : Except String Bytes :=
  match n with
  | .connected => .ok datagram
  | .unreachable => .error "Network is unreachable (os error 101)"

/-- A bound socket: how many targets it sends to, and the share of datagrams that it
    drops on purpose. -/
structure Transport where
  network : Network
  targets : Nat
  loss : Binary64
deriving DecidableEq, Repr

namespace Transport

/-- Binds a socket; there has to be a target. -/
def bind (network : Network) (targets : Nat) (loss : Binary64) : Except NetworkError Transport :=
  if targets = 0 then .error .noTarget else .ok ⟨network,targets,loss⟩

/-- A datagram is dropped on purpose. A share of 0 or less drops none and one of 1 or
    more drops all; otherwise `unlucky` tells how chance has it. -/
def isDropped (loss : Binary64) (unlucky : Bool) : Bool :=
  match loss with
  | .nan => false
  | .infinite negative => !negative
  | .finite negative units =>
    if negative || units = 0 then false else if Binary64.one ≤ units then true else unlucky

def arrival? (t : Transport) (m : Broadcast) (unlucky : Bool) : Option Bytes :=
  match m.encode with
  | .error _ => none
  | .ok datagram => if isDropped t.loss unlucky then none else (t.network.post datagram).toOption

/-- What arrives at each target; `unlucky` tells of each how chance has it. -/
def send (t : Transport) (m : Broadcast) (unlucky : Nat → Bool) : List (Option Bytes) :=
  (List.range t.targets).map fun target => t.arrival? m (unlucky target)

def receive (datagram : Bytes) : Option Broadcast := (Broadcast.decode datagram).toOption

/-! ### Closing queues -/

inductive Queue where
  | outbound
  | inbound
deriving DecidableEq, Repr

def Queue.name : Queue → String
  | .outbound => "outbound"
  | .inbound => "inbound"

abbrev Session := Tasks.Session Transport Queue QueueClosed

namespace Session

def take (s : Session) (datagram : Bytes) : Session × List Broadcast :=
  s.advance (fun _ => some .inbound) (fun queue => ⟨queue.name⟩) s.state (receive datagram).toList

/-- A broadcast is to be sent. A task that has ended sends nothing. -/
def feed (s : Session) (m : Broadcast) (unlucky : Nat → Bool) : List (Option Bytes) :=
  if s.isRunning && s.isOpen .outbound then s.state.send m unlucky
  else List.replicate s.state.targets none

/-- Closes a queue. The task ends with the queue that it reads. -/
def shut (s : Session) (queue : Queue) : Session :=
  let s := s.close queue
  if s.isOpen .outbound then s else s.finish

end Session
end Transport
end ElevatorFleet.Tasks
