import ElevatorFleet.Report

/-!
# Presence

Which peers are alive: those whose last sign of life is younger than a timeout. The
set is computed anew at every poll and handed on only when it has changed, so a
steady fleet causes no messages.

Instants and timeouts count milliseconds; an instant counts from the earliest one
that the clock can represent.
-/
namespace ElevatorFleet
open Std

/-- A point in time, as the milliseconds since the earliest instant of the clock. -/
abbrev Instant := Nat

/-- A length of time in milliseconds. -/
abbrev Duration := Nat

/-- The signs of life that one controller has received. -/
structure Presence where
  /-- The controller itself, which is alive unless it says that it has failed. -/
  self : PeerId
  /-- A peer is dead once its last sign of life is so old. -/
  timeout : Duration
  lastSeen : PeerMap Instant
  selfFailed : Bool
  /-- The set of living peers last handed on. -/
  published : PeerSet
deriving DecidableEq

namespace Presence

/-- The monitor of a controller that has heard of nobody and handed on nothing. -/
def new (self : PeerId) (timeout : Duration) : Presence := ⟨self,timeout,∅,false,∅⟩

/-- The instant so long before `now`, if the clock can represent it. -/
def before? (now : Instant) (ago : Duration) : Option Instant :=
  if ago ≤ now then some (now - ago) else none

/-- Takes a signal. A bad one dates the last sign of life back by a whole timeout,
    so that the next poll drops the peer; where the clock does not reach so far back
    the peer is forgotten. -/
def observe (p : Presence) (s : Signal) (now : Instant) : Presence :=
  { p with
    selfFailed := if s.peer = p.self then !s.alive else p.selfFailed
    lastSeen :=
      if s.alive then p.lastSeen.insert s.peer now
      else
        match before? now p.timeout with
        | some expired => p.lastSeen.insert s.peer expired
        | none => p.lastSeen.erase s.peer }

/-- The peers whose last sign of life is younger than the timeout. -/
def fresh (p : Presence) (now : Instant) : PeerSet :=
  PeerSet.of (p.lastSeen.toList.filterMap fun (peer,seen) =>
    if now - seen < p.timeout then some peer else none)

/-- The peers alive at `now`: the fresh ones, and the controller itself exactly when
    it has not failed. -/
def aliveAt (p : Presence) (now : Instant) : PeerSet :=
  if p.selfFailed then (p.fresh now).erase p.self else (p.fresh now).insert p.self

/-- Hands on the set of living peers if it differs from the one last handed on. -/
def poll (p : Presence) (now : Instant) : Presence × Option PeerSet :=
  let alive := p.aliveAt now
  if alive = p.published then (p,none) else ({ p with published := alive },some alive)

end Presence
end ElevatorFleet
