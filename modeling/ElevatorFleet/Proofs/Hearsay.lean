import ElevatorFleet.Proofs.Network

/-!
# Hearsay

A controller comes to hold a call to be absent or unconfirmed because it is told so: from outside, or by the
snapshot of another controller (`comes_to_hold`). What it holds it may hand on in its turn, so behind a status
there can be a chain of snapshots.
-/
namespace ElevatorFleet
open Std Tasks

namespace Network

/-- All along the moves the controller holds the call in the status `s`. -/
def Keeps (w : Network) (moves : List Move) (peer : PeerId) (call : Call) (s : Status) : Prop :=
  ∀ past, past <+: moves → (w.run past).status? peer call = some s

/-- The snapshot `m`, sent as number `index` by another controller, makes the controller hold the call in the
    status `s`, which it does not before. -/
structure Adopts (w : Network) (index : Nat) (peer : PeerId) (m : Broadcast) (call : Call) (s : Status) : Prop where
  sent : w.sent[index]? = some m
  foreign : m.source ≠ peer
  told : m.registry.status call = s
  before : w.status? peer call ≠ some s
  after : (w.step (.deliver index peer)).status? peer call = some s

variable {w : Network} {mv : Move} {moves past : List Move} {peer : PeerId} {call : Call} {s : Status}

theorem Keeps.nil (held : w.status? peer call = some s) : w.Keeps [] peer call s := by
  intro early inside
  rw [List.prefix_nil.mp inside]
  exact held

theorem Keeps.snoc (keeps : w.Keeps past peer call s) (held : (w.run (past ++ [mv])).status? peer call = some s) :
    w.Keeps (past ++ [mv]) peer call s := by
  intro early inside
  rcases List.prefix_concat_iff.mp inside with same | before
  · exact same ▸ held
  · exact keeps early before

theorem Keeps.last (keeps : w.Keeps moves peer call s) : (w.run moves).status? peer call = some s :=
  keeps moves (List.prefix_refl moves)

/-- Whoever holds a call in some status belongs to the fleet. -/
theorem isSome_of_status (held : (w.run moves).status? peer call = some s) : (w.car? peer).isSome = true := by
  obtain ⟨car,found,_⟩ := status?_eq_some.mp held
  rw [← isSome_car_run w moves,found]
  rfl

/-- In an honest move a controller is told of a call from outside, as something of its own, or by the snapshot
    of another controller. -/
theorem origin_of_tells (honest : mv.Honest) {e : Controller.Event} {source : PeerId} (makes : w.event? mv = some (peer,e))
    (tells : e.Tells call peer source s) :
    mv = .act peer (.report (.of peer call s)) ∨
      ∃ index m, mv = .deliver index peer ∧ w.sent[index]? = some m ∧ m.source ≠ peer ∧ m.registry.status call = s := by
  cases mv with
  | pass ms => cases makes
  | act p event =>
    cases makes
    cases tells with
    | report =>
      obtain ⟨same,_⟩ := honest
      cases same
      exact .inl rfl
    | receive => exact honest.elim
  | restart p numFloors timeout => cases makes
  | send p => cases makes
  | deliver index p =>
    rw [event?,Option.map_eq_some_iff] at makes
    obtain ⟨m,sent,same⟩ := makes
    cases same
    cases tells with
    | receive _ other holds => exact .inr ⟨index,m,rfl,sent,other,holds⟩

/-- Only a ledger confirms a call, and only a start makes it unknown; into any other status a controller comes
    because it is told so. -/
theorem comes_to_hold (manned : w.Manned) (honest : mv.Honest) (known : s ≠ .unknown) (unsure : s ≠ .confirmed)
    (before : w.status? peer call ≠ some s) (after : (w.step mv).status? peer call = some s) :
    mv = .act peer (.report (.of peer call s)) ∨ ∃ index m, mv = .deliver index peer ∧ w.Adopts index peer m call s := by
  obtain ⟨car,found,held⟩ := status?_eq_some.mp after
  rcases cycle_step manned found call with ⟨floors,timeout,_,rfl⟩ | ⟨old,had,cause⟩
  · exact absurd (held.symm.trans (CallBoard.status_new peer call)) known
  have earlier : (old.board.cycle call).status ≠ s := fun same => before (status?_eq_some.mpr ⟨old,had,same⟩)
  rw [← CallBoard.cycle_status] at held
  rcases cause with same | ⟨e,source,told,makes,tells,heard⟩ | ⟨alive,reviewed⟩
  · exact absurd (same ▸ held) earlier
  · obtain rfl : told = s := by
      rw [heard] at held
      rcases Cycle.status_hear call peer old.board.alive (old.board.cycle call) source told with same | new | ⟨_,_,_,shut⟩
      · exact absurd (same.symm.trans held) earlier
      · exact new.symm.trans held
      · rw [shut] at held
        exact absurd held.symm unsure
    rcases origin_of_tells honest makes tells with act | ⟨index,m,rfl,sent,other,holds⟩
    · exact .inl act
    · exact .inr ⟨index,m,rfl,sent,other,holds,before,after⟩
  · rw [reviewed,Cycle.review] at held
    split at held
    · exact absurd held.symm unsure
    · exact absurd held earlier

end Network
end ElevatorFleet
