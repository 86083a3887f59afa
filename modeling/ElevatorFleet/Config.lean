import ElevatorFleet.Address
import ElevatorFleet.Binary64
import ElevatorFleet.Peer

/-!
# The configuration

What a controller is told when it starts. Every setting has a default.
-/
namespace ElevatorFleet

/-- The number of the socket that the broadcasts of a fleet go to. -/
def broadcastSocket : UInt16 := 20048

/-- The settings of a controller. Intervals and timeouts are in milliseconds. -/
structure Config where
  peerId : PeerId := ⟨1⟩
  numFloors : UInt8 := 4
  /-- How much each queue between two tasks holds. -/
  channelCapacity : UInt64 := 64
  listenAddr : String := s!"0.0.0.0:{broadcastSocket.toNat}"
  broadcastAddrs : List String := [s!"255.255.255.255:{broadcastSocket.toNat}"]
  broadcastInterval : UInt64 := 100
  /-- The share of outgoing datagrams that is dropped on purpose. -/
  simulatedLoss : Binary64 := .zero
  pollInterval : UInt64 := 1000
  /-- After so long a silence a peer is taken for dead. -/
  peerTimeout : UInt64 := 10000
  refreshInterval : UInt64 := 2000
  /-- The program that assigns calls to cars. Without one no orders are made. -/
  assignerPath : Option String := none
deriving DecidableEq, Repr

structure TransportConfig where
  listen : Address
  targets : List Address
  loss : Binary64
deriving DecidableEq, Repr

inductive Invalid where
  | tooFewFloors (numFloors : UInt8)
  | noCapacity
  | zeroInterval (setting : String)
  | lossOutOfRange (loss : Binary64)
  | notAnAddress (setting value : String)
  | noTarget
deriving DecidableEq, Repr

def Invalid.message : Invalid → String
  | .tooFewFloors n => s!"invalid config: node.num_floors must be at least 2, got {n.toNat}"
  | .noCapacity => "invalid config: node.channel_capacity must be positive"
  | .zeroInterval setting => s!"invalid config: {setting} must be non-zero"
  | .lossOutOfRange loss =>
    s!"invalid config: network.simulated_loss must be in [0, 1), got {loss.text}"
  | .notAnAddress setting value =>
    s!"invalid config: {setting}: '{value}' is not an address: invalid socket address syntax"
  | .noTarget => "invalid config: network.broadcast_addrs needs at least one address"

namespace Config

instance : Inhabited Config := ⟨{}⟩

def readAddress (setting value : String) : Except Invalid Address :=
  match Address.read? value with
  | some address => .ok address
  | none => .error (.notAnAddress setting value)

def transport (c : Config) : Except Invalid TransportConfig := do
  let listen ← readAddress "network.listen_addr" c.listenAddr
  if c.broadcastAddrs.isEmpty then throw .noTarget
  let targets ← c.broadcastAddrs.mapM (readAddress "network.broadcast_addrs")
  return ⟨listen,targets,c.simulatedLoss⟩

def intervals (c : Config) : List (String × UInt64) :=
  [("network.broadcast_interval_ms",c.broadcastInterval),("liveness.poll_interval_ms",c.pollInterval),
    ("liveness.peer_timeout_ms",c.peerTimeout),("orders.refresh_interval_ms",c.refreshInterval)]

def zeroInterval? (c : Config) : Option String := (c.intervals.find? fun i => i.2 = 0).map Prod.fst

/-- Accepts a configuration that a controller can work with, or tells the first thing
    that is wrong. -/
def validate (c : Config) : Except Invalid Unit := do
  if c.numFloors < 2 then throw (.tooFewFloors c.numFloors)
  if c.channelCapacity = 0 then throw .noCapacity
  if let some setting := c.zeroInterval? then throw (.zeroInterval setting)
  if !c.simulatedLoss.isFraction then throw (.lossOutOfRange c.simulatedLoss)
  let _ ← c.transport

end Config
end ElevatorFleet
