import ElevatorFleet.Command
import ElevatorFleet.Report
import ElevatorFleet.Tasks.Session
import ElevatorFleet.Text.Utf8

/-!
# The console task

Reads commands line by line and tells the other tasks. Blank lines and lines that are
no command are passed over.
-/
namespace ElevatorFleet.Tasks.Console

inductive Action where
  | toRequests (r : Report)
  | toReplication (state : CarState)
  | toLiveness (s : Signal)
deriving DecidableEq, Repr

def action (self : PeerId) : Command → Action
  | .press call => .toRequests (.of self call .unconfirmed)
  | .clear call => .toRequests (.of self call .absent)
  | .state s => .toReplication s
  | .fail => .toLiveness ⟨self,false⟩
  | .recover => .toLiveness ⟨self,true⟩

def react (self : PeerId) (numFloors : UInt8) (line : String) : Option Action :=
  (Command.parse line self numFloors).toOption.map (action self)

/-! ### Lines -/

/-- The line that a line feed ends, by its bytes in reverse. A carriage return right
    before the line feed is no part of it. -/
def ended : Bytes → Bytes
  | 0x0D :: begun => begun.reverse
  | begun => begun.reverse

/-- The lines that some bytes fall into, without what ends them; `begun` holds the bytes
    of the first line so far, in reverse. -/
def linesFrom (begun : Bytes) : Bytes → List Bytes
  | [] => if begun = [] then [] else [begun.reverse]
  | b :: rest => if b = 0x0A then ended begun :: linesFrom [] rest else linesFrom (b :: begun) rest

def lines (bytes : Bytes) : List Bytes := linesFrom [] bytes

def textLines (text : String) : List String :=
  (lines (utf8 text)).filterMap fun line => (Utf8.decode line).toOption

/-! ### A whole input -/

inductive Queue where
  | requests
  | localState
  | health
deriving DecidableEq, Repr

def Action.target : Action → Queue
  | .toRequests _ => .requests
  | .toReplication _ => .localState
  | .toLiveness _ => .health

inductive Error where
  | queueClosed (queue : Queue)
  | notText (fault : Utf8.Fault)
deriving DecidableEq, Repr

def Error.message : Error → String
  | .queueClosed _ => "channel closed"
  | .notText fault => fault.message

/-- Reads lines to the end, or to the first that is no text or says what nobody hears
    any more. -/
def readLines (self : PeerId) (numFloors : UInt8) (closed : List Queue) :
    List Bytes → List Action × Standing Error
  | [] => ([],.finished)
  | line :: rest =>
    match Utf8.decode line with
    | .error fault => ([],.failed (.notText fault))
    | .ok text =>
      match react self numFloors text with
      | none => readLines self numFloors closed rest
      | some a =>
        if closed.contains a.target then ([],.failed (.queueClosed a.target))
        else
          let (done,standing) := readLines self numFloors closed rest
          (a :: done,standing)

def read (self : PeerId) (numFloors : UInt8) (closed : List Queue) (bytes : Bytes) :
    List Action × Standing Error :=
  readLines self numFloors closed (lines bytes)

end ElevatorFleet.Tasks.Console
