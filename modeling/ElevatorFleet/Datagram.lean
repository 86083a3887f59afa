import ElevatorFleet.Exchange

/-!
# Datagrams

A broadcast as the bytes of one datagram.
-/
namespace ElevatorFleet

/-- The most bytes that one datagram can carry. -/
def maxDatagramSize : Nat := 65507

inductive NetworkError where
  /-- The operating system refused, with its own text. -/
  | refused (text : String)
  | malformed
  | tooLarge (size : Nat)
  | noTarget
deriving DecidableEq, Repr

def NetworkError.message : NetworkError → String
  | .refused text => s!"I/O error: {text}"
  | .malformed => "codec error"
  | .tooLarge size => s!"transport error: message of {size} bytes exceeds datagram limit"
  | .noTarget => "transport error: no broadcast address"

namespace Broadcast

/-- The datagram of a broadcast, unless it is too large for one. -/
def encode (m : Broadcast) : Except NetworkError Bytes :=
  let bytes := Json.write m
  if bytes.length ≤ maxDatagramSize then .ok bytes else .error (.tooLarge bytes.length)

def decode (bytes : Bytes) : Except NetworkError Broadcast :=
  match Json.parse? bytes with
  | some m => .ok m
  | none => .error .malformed

end Broadcast
end ElevatorFleet
