import ElevatorFleet.Proofs.Snapshot

/-!
# Served floors

A datagram may hold rows of any lengths and for any owners. None of it enters the registry: every row keeps
a cell for each served floor and no more (`Replica.shaped_after`), so a record always finds its cell
(`Registry.applied?_eq`), and what a snapshot reports is about served floors, as its sender tells it
(`Replica.reported_absorb`). So a controller holds a call on another floor only if something other than a
snapshot has told it of one (`no_call_beyond`).
-/
namespace ElevatorFleet
open Std Tasks

namespace Registry
variable {n : UInt8} {r : Registry}

/-- In a registry of one shape every belief that is accepted has a cell. -/
theorem lacksCell_eq (shaped : r.Shaped n.toNat) (b : Belief) : r.lacksCell b = false := by
  rw [lacksCell]
  by_cases accepted : r.accepts b = true
  · have served := ((accepts_iff shaped).mp accepted).2
    obtain ⟨row,found⟩ := Option.isSome_iff_exists.mp (row?_registerOwner r b.call)
    have inside : b.call.floor.toNat < row.length := by
      rw [length_row (shaped_registerOwner shaped b.call) found]
      exact UInt8.lt_iff_toNat_lt.mp served
    rw [cell?,found,Option.bind_some,List.getElem?_eq_getElem inside]
    simp
  · simp [accepted]

theorem applied?_eq (shaped : r.Shaped n.toNat) (b : Belief) : r.applied? b = some (r.apply b,r.altered b) := by
  rw [applied?,lacksCell_eq shaped]
  rfl

/-- What a report says is in the registry that it is read from, and about a served floor. -/
structure Reports (n : UInt8) (sender : PeerId) (remote : Registry) (r : Report) : Prop where
  source : r.source = sender
  known : r.belief.status ≠ .unknown
  served : r.belief.call.floor < n
  cell : remote.cell? r.belief.call = some r.belief.status

theorem reports_diff (shaped : r.Shaped n.toNat) {sender : PeerId} {remote : Registry} {u : Report}
    (reported : u ∈ (r.diff sender remote).2) : Reports n sender remote u := by
  obtain ⟨source,served,cell,differ⟩ := (mem_diff_cell shaped).mp reported
  exact ⟨source,(Status.differs_iff.mp differ).1,served,cell⟩

end Registry

namespace Replica
variable {n : UInt8} {r : Replica}

/-- What can be done to a replica. -/
inductive Input where
  | record (b : Belief)
  | absorb (m : Broadcast)
  | alive (alive : PeerSet)
  | car (state : CarState)
deriving DecidableEq

/-- The replica after an input. -/
def take (r : Replica) : Input → Replica
  | .record b => r.record b
  | .absorb m => (r.absorb m).1
  | .alive alive => r.setAlive alive
  | .car state => if r.isNews state then r.setCar state else r

/-- The replica after several inputs. -/
def after (r : Replica) (inputs : List Input) : Replica := inputs.foldl take r

theorem shaped_new (self : PeerId) (n : UInt8) : (new self n).registry.Shaped n.toNat :=
  Registry.shaped_register (Registry.shaped_new n) self

theorem shaped_absorb (shaped : r.registry.Shaped n.toNat) (m : Broadcast) :
    (r.absorb m).1.registry.Shaped n.toNat := by
  rw [absorb]
  split
  · exact shaped
  · exact Registry.shaped_diff shaped m.source m.registry

theorem shaped_take (shaped : r.registry.Shaped n.toNat) (input : Input) : (r.take input).registry.Shaped n.toNat := by
  cases input with
  | record b => exact Registry.shaped_apply shaped b
  | absorb m => exact shaped_absorb shaped m
  | alive alive => exact shaped
  | car state =>
    rw [take]
    split
    · exact shaped
    · exact shaped

theorem shaped_after (shaped : r.registry.Shaped n.toNat) (inputs : List Input) :
    (r.after inputs).registry.Shaped n.toNat := by
  induction inputs generalizing r with
  | nil => exact shaped
  | cons input rest ih => exact ih (shaped_take shaped input)

theorem reported_absorb (shaped : r.registry.Shaped n.toNat) {m : Broadcast} {absorbed : Absorbed}
    (reads : (r.absorb m).2 = some absorbed) : ∀ u ∈ absorbed.reports, Registry.Reports n m.source m.registry u := by
  rw [absorb] at reads
  split at reads
  · cases reads
  · cases reads
    exact fun u reported => Registry.reports_diff shaped reported

end Replica

namespace CallBoard
variable {n : UInt8} {b : CallBoard}

/-- The board has an entry for the call. -/
def Lists (b : CallBoard) (call : Call) : Prop := call ∈ b.statuses ∨ call ∈ b.ledger.entries

/-- Nothing was heard of calls beyond the first `n` floors. -/
def Within (n : UInt8) (b : CallBoard) : Prop := ∀ call, ¬ call.floor < n → b.cycle call = ⟨.unknown,none⟩

theorem within_new (self : PeerId) (n : UInt8) : (new self).Within n := fun call _ => cycle_new self call

theorem Within.take (inside : b.Within n) {r : Report} (served : r.belief.call.floor < n) : (b.take r).Within n := by
  intro call beyond
  have other : r.belief.call ≠ call := fun about => beyond (about ▸ served)
  rw [cycle_take,if_neg other]
  exact inside call beyond

theorem Within.setAlive (inside : b.Within n) (alive : PeerSet) : (b.setAlive alive).1.Within n := by
  intro call beyond
  have undue : ¬ (⟨.unknown,none⟩ : Cycle).Due call alive := fun due => absurd due.1 (by decide)
  rw [cycle_setAlive,inside call beyond,Cycle.review,if_neg undue,ite_self]

theorem Within.after (inside : b.Within n) {events : List Requests.Event}
    (served : ∀ r, .report r ∈ events → r.belief.call.floor < n) : (b.after events).Within n := by
  induction events generalizing b with
  | nil => exact inside
  | cons e rest ih =>
    refine ih ?_ fun r member => served r (List.mem_cons_of_mem _ member)
    cases e with
    | report r => exact inside.take (served r List.mem_cons_self)
    | membership alive => exact inside.setAlive alive

theorem Within.served (inside : b.Within n) (known : b.Known) {call : Call} (listed : b.Lists call) :
    call.floor < n := by
  by_cases served : call.floor < n
  · exact served
  have blank := inside call served
  rcases listed with listed | listed
  · obtain ⟨s,entry⟩ := Option.isSome_iff_exists.mp (ExtTreeMap.isSome_getElem?_iff_mem.mpr listed)
    have held : b.status call = .unknown := congrArg Cycle.status blank
    rw [status,ExtTreeMap.getD_eq_getD_getElem?,entry,Option.getD_some] at held
    exact absurd (held ▸ entry) (known call)
  · obtain ⟨peers,entry⟩ := Option.isSome_iff_exists.mp (ExtTreeMap.isSome_getElem?_iff_mem.mpr listed)
    have shut : b.ledger.entries[call]? = none := congrArg Cycle.witnesses blank
    rw [entry] at shut
    cases shut

end CallBoard

namespace Controller
variable {self : PeerId} {n : UInt8} {c : Controller} {told : List Report}

/-- A report that is not read from a snapshot is about one of the first `n` floors. -/
def Event.Within (n : UInt8) : Event → Prop
  | .report r => r.belief.call.floor < n
  | _ => True

instance (n : UInt8) : DecidablePred (Event.Within n) := fun e => by
  cases e <;> unfold Event.Within <;> infer_instance

/-- The controllers of `self` whose reports from outside stay within the first `n` floors. What the
    snapshots read so far have told may be taken when they are read or at any time later, in any order
    and more than once. -/
inductive Course (self : PeerId) (n : UInt8) : Controller → List Report → Prop where
  | new (timeout : Duration) : Course self n (.new self n timeout) []
  | react {c : Controller} {told : List Report} (now : Instant) {e : Event} (served : e.Within n) :
      Course self n c told → Course self n (c.react now e) told
  | read {c : Controller} {told : List Report} {m : Broadcast} {absorbed : Absorbed}
      (reads : (c.replica.absorb m).2 = some absorbed) :
      Course self n c told → Course self n (c.read m) (told ++ absorbed.reports)
  | take {c : Controller} {told : List Report} {r : Report} (member : r ∈ told) :
      Course self n c told → Course self n (c.handle r).1 told

theorem Course.evolved (course : Course self n c told) : c.Evolved self n := by
  induction course with
  | new timeout => exact .new timeout
  | react now _ _ ih => exact .react now _ ih
  | read _ _ ih => exact .read _ ih
  | @take c told r _ _ ih => exact .react 0 (.report r) ih

theorem Course.told_served (course : Course self n c told) : ∀ r ∈ told, r.belief.call.floor < n := by
  induction course with
  | new timeout => simp
  | react now served _ ih => exact ih
  | read reads before ih =>
    intro r member
    rcases List.mem_append.mp member with old | new
    · exact ih r old
    · exact (Replica.reported_absorb before.evolved.mirrors.shaped reads r new).served
  | take _ _ ih => exact ih

/-- An event tells the board of served floors only. -/
theorem served_inputs (mirrors : c.Mirrors n) (now : Instant) {e : Event} (inside : e.Within n) {r : Report}
    (member : .report r ∈ c.inputs now e) : r.belief.call.floor < n := by
  cases e with
  | report outside =>
    cases List.mem_singleton.mp member
    exact inside
  | receive m =>
    obtain ⟨_,reported,same⟩ := List.mem_map.mp member
    cases same
    exact ((mem_reports mirrors).mp reported).2.2.1
  | poll =>
    obtain ⟨_,_,same⟩ := List.mem_map.mp member
    cases same
  | boardAlive alive => cases List.mem_singleton.mp member
  | signal _ | car _ | replicaAlive _ | viewAlive _ => cases member

theorem Course.within_board (course : Course self n c told) : c.board.Within n := by
  induction course with
  | new timeout => exact CallBoard.within_new self n
  | react now served before ih =>
    rw [board_react]
    exact ih.after fun r member => served_inputs before.evolved.mirrors now served member
  | read _ _ ih => exact ih
  | take member before ih => exact ih.take (before.told_served _ member)

end Controller

/-- Whatever a replica of `n` floors records and absorbs, its rows keep `n` cells, every record finds its
    cell, and what a snapshot reports of a call stands in the snapshot's cell of that call, on a served floor.
    A controller to which all else tells of served floors only holds no other calls. -/
theorem no_call_beyond (self : PeerId) (n : UInt8) :
    (∀ inputs, let r := (Replica.new self n).after inputs
      r.registry.Shaped n.toNat ∧
      (∀ b, r.registry.applied? b = some (r.registry.apply b,r.registry.altered b)) ∧
      ∀ m absorbed, (r.absorb m).2 = some absorbed →
        ∀ u ∈ absorbed.reports, Registry.Reports n m.source m.registry u) ∧
    ∀ c told, Controller.Course self n c told → ∀ call, c.board.Lists call → call.floor < n := by
  refine ⟨fun inputs => ?_,fun c told course call listed => ?_⟩
  · have shaped := Replica.shaped_after (Replica.shaped_new self n) inputs
    exact ⟨shaped,Registry.applied?_eq shaped,fun m absorbed reads => Replica.reported_absorb shaped reads⟩
  · exact course.within_board.served course.evolved.board.known listed

/-- A snapshot with a row for no floor, rows for more floors than a byte counts, and rows of a stranger and
    of the reader itself. -/
def wild : Broadcast :=
  ⟨⟨2⟩,⟨[],List.replicate 300 .confirmed,
    .ofList [((⟨1⟩ : PeerId),([.unconfirmed] : Row)),(⟨9⟩,List.replicate 257 .absent)]⟩,default⟩

/-- All that it tells is about four floors. -/
theorem wild_within :
    let r := (Replica.new ⟨1⟩ 4).after [.absorb wild,.record ⟨.hall 4 .up,.confirmed⟩,.record ⟨.cab 3 ⟨7⟩,.absent⟩]
    r.registry.Shaped 4 ∧ r.registry.cab.keys = [⟨1⟩,⟨2⟩,⟨7⟩,⟨9⟩] ∧
    ∃ absorbed, (r.absorb wild).2 = some absorbed ∧ absorbed.reports.length = 9 ∧
      (∀ u ∈ absorbed.reports, u.belief.call.floor < 4) ∧
      ∀ call, (((Controller.new ⟨1⟩ 4 1000).read wild).handle (.of ⟨2⟩ (.hall 3 .down) .confirmed)).1.board.Lists call →
        call.floor < 4 := by
  intro r
  obtain ⟨replicas,boards⟩ := no_call_beyond ⟨1⟩ 4
  obtain ⟨shaped,_,reports⟩ := replicas [.absorb wild,.record ⟨.hall 4 .up,.confirmed⟩,.record ⟨.cab 3 ⟨7⟩,.absent⟩]
  have nine : (r.absorb wild).2.map (fun a => a.reports.length) = some 9 := by decide +kernel
  obtain ⟨absorbed,reads,count⟩ := Option.map_eq_some_iff.mp nine
  refine ⟨shaped,by decide +kernel,absorbed,reads,count,fun u member => (reports _ _ reads u member).served,?_⟩
  have course : Controller.Course ⟨1⟩ 4 ((Controller.new ⟨1⟩ 4 1000).read wild) _ := .read rfl (.new 1000)
  exact boards _ _ (course.take (by decide +kernel))

end ElevatorFleet
