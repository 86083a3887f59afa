import ElevatorFleet.Proofs.Agreement

/-!
# Controllers that hear each other

Controllers that all know each other, in their boards and in their replicas, and that know
the states of their own cars always have a snapshot to send (`Connected.sends`). They stay
connected as long as nobody restarts and no membership changes (`Connected.step`).
-/
namespace ElevatorFleet
open Std Tasks

namespace Network

/-- Nobody restarts and no membership changes. -/
def Move.Constant : Move → Prop
  | .act _ e => e.Constant
  | .restart _ _ _ => False
  | .pass _ | .send _ | .deliver _ _ => True

instance : DecidablePred Move.Constant
  | .act _ e => inferInstanceAs (Decidable e.Constant)
  | .restart _ _ _ => .isFalse id
  | .pass _ | .send _ | .deliver _ _ => .isTrue trivial

/-- The controllers of a fleet that all know each other and have snapshots to send. -/
structure Connected (n : UInt8) (members : PeerSet) (w : Network) : Prop
    extends Acquainted n members w where
  replica : ∀ peer car, w.car? peer = some car → car.replica.alive = members
  ready : ∀ peer car, w.car? peer = some car → car.replica.car.isSome

variable {n : UInt8} {members : PeerSet} {w : Network} {mv : Move}

theorem Move.Constant.event (constant : mv.Constant) {peer : PeerId} {e : Controller.Event}
    (makes : w.event? mv = some (peer,e)) : e.Constant := by
  cases mv with
  | pass ms => cases makes
  | act p event =>
    cases makes
    exact constant
  | restart p numFloors timeout => cases makes
  | send p => cases makes
  | deliver index p =>
    rw [event?,Option.map_eq_some_iff] at makes
    obtain ⟨m,_,same⟩ := makes
    cases same
    trivial

theorem Connected.step (connected : w.Connected n members) (constant : mv.Constant) :
    (w.step mv).Connected n members := by
  have cars : ∀ peer car, (w.step mv).car? peer = some car → car.Reached peer n ∧ car.board.alive = members ∧
      car.replica.alive = members ∧ car.replica.car.isSome := by
    intro peer car found
    rcases car_step found with old | ⟨before,e,had,makes,rfl⟩ | ⟨_,_,rfl,_⟩
    · exact ⟨connected.reached peer car old,connected.alive peer car old,connected.replica peer car old,
        connected.ready peer car old⟩
    · obtain ⟨board,replica,ready⟩ := Controller.constant_react (c := before) (constant.event makes) w.fleet.now
      exact ⟨(connected.reached peer before had).react w.fleet.now e,board.trans (connected.alive peer before had),
        replica.trans (connected.replica peer before had),ready (connected.ready peer before had)⟩
    · exact constant.elim
  refine ⟨⟨fun peer car found => (cars peer car found).1,fun peer car found => (cars peer car found).2.1,?_⟩,
    fun peer car found => (cars peer car found).2.2.1,fun peer car found => (cars peer car found).2.2.2⟩
  intro peer
  rw [isSome_car_step]
  exact connected.complete peer

theorem Connected.run (connected : w.Connected n members) {moves : List Move} (constant : ∀ mv ∈ moves, mv.Constant) :
    (w.run moves).Connected n members := by
  induction moves generalizing w with
  | nil => exact connected
  | cons mv rest ih =>
    exact ih (connected.step (constant mv List.mem_cons_self)) fun mv' member => constant mv' (List.mem_cons_of_mem _ member)

theorem Connected.sends (connected : w.Connected n members) {peer : PeerId} {car : Controller}
    (found : w.car? peer = some car) :
    ∃ m, car.outbound = some m ∧ m.source = peer ∧ m.registry = car.replica.registry := by
  have reached := connected.reached peer car found
  have self : car.replica.self = peer := reached.replica_self
  obtain ⟨state,known⟩ := Option.isSome_iff_exists.mp (connected.ready peer car found)
  have alive : car.replica.alive.contains car.replica.self := by
    rw [self,connected.replica peer car found]
    exact connected.member found
  have sends : car.outbound = some ⟨car.replica.self,car.replica.registry,state⟩ := by
    rw [Controller.outbound,Replica.outbound]
    simp only [known,alive,if_true]
  exact ⟨_,sends,self,rfl⟩

/-- Two controllers that hear each other. -/
def linked : Network :=
  introduced.run [.act ⟨1⟩ (.replicaAlive (.of [⟨1⟩,⟨2⟩])),.act ⟨2⟩ (.replicaAlive (.of [⟨1⟩,⟨2⟩]))]

theorem linked_connected : linked.Connected 4 (.of [⟨1⟩,⟨2⟩]) := by
  have agreeing := introduced_uninformed.agreeing.run
    (show ∀ mv ∈ [.act ⟨1⟩ (.replicaAlive (.of [⟨1⟩,⟨2⟩])),.act ⟨2⟩ (.replicaAlive (.of [⟨1⟩,⟨2⟩]))],
      Move.Steady (.hall 1 .up) mv by decide)
  have both : ∀ peer, peer = ⟨1⟩ ∨ peer = ⟨2⟩ →
      (linked.car? peer).map (fun car => (car.replica.alive,car.replica.car.isSome)) = some (.of [⟨1⟩,⟨2⟩],true) := by
    rintro peer (rfl | rfl)
    · decide +kernel
    · decide +kernel
  have replicas : ∀ peer car, linked.car? peer = some car →
      (car.replica.alive,car.replica.car.isSome) = (.of [⟨1⟩,⟨2⟩],true) := by
    intro peer car found
    have known := found
    rw [linked,introduced,← run_append] at known
    have told := both peer (car?_pair known)
    rw [found] at told
    exact Option.some.inj told
  exact ⟨agreeing.toAcquainted,fun peer car found => (Prod.mk.inj (replicas peer car found)).1,
    fun peer car found => (Prod.mk.inj (replicas peer car found)).2⟩

end Network
end ElevatorFleet
