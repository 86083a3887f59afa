import ElevatorFleet.Call

/-!
# The ledger of witnesses

For each call with an open cycle, the peers that have witnessed its press. Adding a
witness is commutative and idempotent, so a witness that is heard twice or in another
order counts once.
-/
namespace ElevatorFleet
open Std

/-- A hall call needs two witnesses, so that no controller lights a hall lamp on
    its own word; a cab call needs one. -/
def Call.quorum : Call → Nat
  | .hall _ _ => 2
  | .cab _ _ => 1

/-- The witnesses of every call with an open cycle. -/
structure Ledger where
  entries : CallMap PeerSet
deriving DecidableEq

namespace Ledger

def empty : Ledger := ⟨∅⟩

instance : Inhabited Ledger := ⟨empty⟩

def witnesses? (l : Ledger) (call : Call) : Option PeerSet := l.entries[call]?

/-- The witnesses of a call, none if it has no open cycle. -/
def witnesses (l : Ledger) (call : Call) : PeerSet := (l.witnesses? call).getD ∅

/-- Adds `peer` to the witnesses of `call`, opening its cycle if need be. -/
def witness (l : Ledger) (call : Call) (peer : PeerId) : Ledger :=
  ⟨l.entries.insert call ((l.witnesses call).insert peer)⟩

def reset (l : Ledger) (call : Call) : Ledger := ⟨l.entries.erase call⟩

def count (l : Ledger) (call : Call) : Nat := (l.witnesses call).size

def openCycles (l : Ledger) : Nat := l.entries.size

/-- The witnesses of an open cycle include every peer of `alive` and are as many as
    the call needs. An empty `alive` is included in any witnesses, so a controller
    that has failed and hears nobody still confirms its own cab calls. -/
def hasQuorum (l : Ledger) (call : Call) (alive : PeerSet) : Bool :=
  match l.witnesses? call with
  | none => false
  | some peers => call.quorum ≤ peers.size && alive.within peers

theorem witnesses?_witness (l : Ledger) (call other : Call) (peer : PeerId) :
    (l.witness call peer).witnesses? other =
      if call = other then some ((l.witnesses call).insert peer) else l.witnesses? other := by
  simp [witness,witnesses?,ExtTreeMap.getElem?_insert]

theorem witnesses?_reset (l : Ledger) (call other : Call) :
    (l.reset call).witnesses? other = if call = other then none else l.witnesses? other := by
  simp [reset,witnesses?,ExtTreeMap.getElem?_erase]

end Ledger
end ElevatorFleet
