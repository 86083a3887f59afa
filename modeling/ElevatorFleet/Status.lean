/-!
# Statuses

The lifecycle of a request. A status cycles from absent to unconfirmed to confirmed
and back to absent; unknown stands before the cycle and carries no information.
-/
namespace ElevatorFleet

/-- How far the request of a call has come. -/
inductive Status where
  /-- Nothing has been heard about the call. -/
  | unknown
  /-- Nobody waits. -/
  | absent
  /-- Somebody pressed the button, and not every controller has witnessed it. -/
  | unconfirmed
  /-- Every controller alive has witnessed the press, so the call will be served. -/
  | confirmed
deriving DecidableEq, Inhabited, Repr

namespace Status

def rank : Status → Nat
  | .unknown => 0
  | .absent => 1
  | .unconfirmed => 2
  | .confirmed => 3

instance : Ord Status := ⟨compareOn rank⟩

def text : Status → String
  | .unknown => "unknown"
  | .absent => "absent"
  | .unconfirmed => "unconfirmed"
  | .confirmed => "confirmed"

/-- The mark of a status in the short text of a registry. -/
def glyph : Status → Char
  | .unknown => '?'
  | .absent => 'A'
  | .unconfirmed => 'U'
  | .confirmed => 'C'

/-- Only a settled status means anything to the assignment of orders. -/
def isSettled : Status → Bool
  | .absent | .confirmed => true
  | .unknown | .unconfirmed => false

/-- A remote status is worth telling the local controller. Two unconfirmed
    statuses count as different, so that witnesses keep flowing until the
    request is confirmed; a remote unknown tells nothing. -/
def differs (own theirs : Status) : Bool :=
  match own, theirs with
  | .unconfirmed, .unconfirmed => true
  | _, .unknown => false
  | _, _ => own ≠ theirs

end Status
end ElevatorFleet
