import ElevatorFleet.Controller
import ElevatorFleet.Proofs.CallBoard
import ElevatorFleet.Proofs.Registry
import ElevatorFleet.Proofs.View

/-!
# Histories of a controller

Everything that can happen to one controller, in any order: reports from outside,
snapshots, signals, polls, and memberships that its parts learn of one by one
(`Controller.Event`). The call board of the controller goes through a history of its
own, the reports and memberships that each event gives it (`Controller.inputs`,
`board_react`), and for every served call the registry tells what the board holds
(`Reached.mirrors`).
-/
namespace ElevatorFleet
open Std Tasks

namespace Controller

/-- What can happen to a controller. -/
inductive Event where
  /-- The call board takes a report. -/
  | report (r : Report)
  /-- A snapshot comes in. -/
  | receive (m : Broadcast)
  | signal (s : Signal)
  | poll
  | car (state : CarState)
  /-- The call board learns who is alive. -/
  | boardAlive (alive : PeerSet)
  /-- The replica learns who is alive. -/
  | replicaAlive (alive : PeerSet)
  /-- The dispatch view learns who is alive. -/
  | viewAlive (alive : PeerSet)
deriving DecidableEq

/-- Replaces the membership of the call board and records what it confirms by that. -/
def setBoardAlive (c : Controller) (alive : PeerSet) : Controller :=
  let (board,confirmed) := c.board.setAlive alive
  confirmed.foldl settle { c with board := board }

/-- The controller after an event at `now`. -/
def react (c : Controller) (now : Instant) : Event → Controller
  | .report r => (c.handle r).1
  | .receive m => c.receive m now
  | .signal s => c.observe s now
  | .poll => c.poll now
  | .car state => c.setCar state
  | .boardAlive alive => c.setBoardAlive alive
  | .replicaAlive alive => { c with replica := c.replica.setAlive alive }
  | .viewAlive alive => { c with view := c.view.setAlive alive }

/-- The reports of a snapshot; the own one has none. -/
def reports (c : Controller) (m : Broadcast) : List Report :=
  if m.source = c.replica.self then [] else (c.replica.registry.diff m.source m.registry).2

/-- What the call board is given by an event. -/
def inputs (c : Controller) (now : Instant) : Event → List Requests.Event
  | .report r => [.report r]
  | .receive m => (c.reports m).map .report
  | .poll => (c.presence.poll now).2.toList.map .membership
  | .boardAlive alive => [.membership alive]
  | .signal _ | .car _ | .replicaAlive _ | .viewAlive _ => []

/-- The controllers of `self` that come about by any history. -/
inductive Reached (self : PeerId) (numFloors : UInt8) : Controller → Prop where
  | new (timeout : Duration) : Reached self numFloors (.new self numFloors timeout)
  | react {c : Controller} (now : Instant) (e : Event) :
      Reached self numFloors c → Reached self numFloors (c.react now e)

/-! ### The parts of a controller -/

theorem setAlive_eq (c : Controller) (alive : PeerSet) :
    c.setAlive alive = { c.setBoardAlive alive with
      replica := (c.setBoardAlive alive).replica.setAlive alive
      view := (c.setBoardAlive alive).view.setAlive alive } := rfl

theorem handle_eq (c : Controller) (r : Report) :
    (c.handle r).1 =
      { c with board := c.board.take r }.settle ⟨r.belief.call,(c.board.take r).status r.belief.call⟩ := rfl

theorem foldl_settle (beliefs : List Belief) (c : Controller) :
    beliefs.foldl settle c = { c with
      replica := { c.replica with registry := beliefs.foldl Registry.apply c.replica.registry }
      view := beliefs.foldl Dispatch.View.record c.view } := by
  induction beliefs generalizing c with
  | nil => rfl
  | cons b rest ih => exact ih (c.settle b)

/-- A snapshot of another controller: its peers get rows, its sender is seen, and its
    reports are taken one by one. -/
def opened (c : Controller) (m : Broadcast) (now : Instant) : Controller :=
  { c with
    replica := { c.replica with registry := (c.replica.registry.diff m.source m.registry).1 }
    presence := c.presence.observe ⟨m.source,true⟩ now
    view := c.view.setCar ⟨m.source,m.car⟩ }

theorem receive_own {c : Controller} {m : Broadcast} (own : m.source = c.replica.self) (now : Instant) :
    c.receive m now = c := by
  rw [receive,Replica.absorb,if_pos own]

theorem receive_other {c : Controller} {m : Broadcast} (other : m.source ≠ c.replica.self) (now : Instant) :
    c.receive m now = (c.opened m now).handleAll (c.reports m) := by
  rw [receive,Replica.absorb,if_neg other,reports,if_neg other]
  rfl

theorem poll_none {c : Controller} {now : Instant} (same : (c.presence.poll now).2 = none) :
    c.poll now = { c with presence := (c.presence.poll now).1 } := by
  simp only [poll,same]

theorem poll_some {c : Controller} {now : Instant} {alive : PeerSet} (news : (c.presence.poll now).2 = some alive) :
    c.poll now = { c with presence := (c.presence.poll now).1 }.setAlive alive := by
  simp only [poll,news]

/-! ### The board -/

theorem board_handleAll (c : Controller) (reports : List Report) :
    (c.handleAll reports).board = c.board.after (reports.map .report) := by
  induction reports generalizing c with
  | nil => rfl
  | cons r rest ih => exact ih (c.handle r).1

theorem board_setBoardAlive (c : Controller) (alive : PeerSet) :
    (c.setBoardAlive alive).board = c.board.next (.membership alive) := by
  show ((c.board.setAlive alive).2.foldl settle { c with board := (c.board.setAlive alive).1 }).board = _
  rw [foldl_settle]
  rfl

/-- An event leads the board through the reports and memberships that it gives it. -/
theorem board_react (c : Controller) (now : Instant) (e : Event) :
    (c.react now e).board = c.board.after (c.inputs now e) := by
  cases e with
  | report r => rfl
  | receive m =>
    by_cases own : m.source = c.replica.self
    · rw [react,receive_own own,inputs,reports,if_pos own]
      rfl
    · rw [react,receive_other own,board_handleAll]
      rfl
  | signal s => rfl
  | poll =>
    rw [react,inputs]
    cases news : (c.presence.poll now).2 with
    | none => rw [poll_none news]; rfl
    | some alive =>
      rw [poll_some news,setAlive_eq]
      exact board_setBoardAlive _ alive
  | car state => rw [react,setCar]; split <;> rfl
  | boardAlive alive => exact board_setBoardAlive c alive
  | replicaAlive alive => rfl
  | viewAlive alive => rfl

/-! ### The registry -/

/-- The registry serves `n` floors and tells of every call on them what the board
    holds. -/
structure Mirrors (n : UInt8) (c : Controller) : Prop where
  self : c.replica.self = c.board.self
  shaped : c.replica.registry.Shaped n.toNat
  cell : ∀ call, call.floor < n → c.replica.registry.status call = c.board.status call

/-- A registry cell tells what the board holds, or nothing. -/
theorem Mirrors.told {n : UInt8} {c : Controller} (mirrors : c.Mirrors n) (call : Call) :
    c.replica.registry.status call = .unknown ∨ c.replica.registry.status call = c.board.status call := by
  by_cases served : call.floor < n
  · exact .inr (mirrors.cell call served)
  · exact .inl (Registry.status_unserved mirrors.shaped served)

theorem Mirrors.handle {n : UInt8} {c : Controller} (mirrors : c.Mirrors n) (r : Report) : (c.handle r).1.Mirrors n := by
  rw [handle_eq]
  refine ⟨mirrors.self.trans (CallBoard.self_take c.board r).symm,Registry.shaped_apply mirrors.shaped _,?_⟩
  intro call served
  refine (Registry.status_apply mirrors.shaped _ call).trans ?_
  by_cases about : r.belief.call = call
  · subst about
    by_cases known : (c.board.take r).status r.belief.call = .unknown
    · have before := CallBoard.unknown_next (e := .report r) known
      rw [if_neg (fun told => told.1 known),mirrors.cell _ served,before]
      exact known.symm
    · rw [if_pos ⟨known,served,rfl⟩]
      rfl
  · rw [if_neg (fun told => about told.2.2),mirrors.cell call served]
    exact (CallBoard.status_take_other about).symm

theorem Mirrors.handleAll {n : UInt8} {c : Controller} (mirrors : c.Mirrors n) (reports : List Report) :
    (c.handleAll reports).Mirrors n := by
  induction reports generalizing c with
  | nil => exact mirrors
  | cons r rest ih => exact ih (mirrors.handle r)

theorem Mirrors.setBoardAlive {n : UInt8} {c : Controller} (mirrors : c.Mirrors n) (alive : PeerSet) :
    (c.setBoardAlive alive).Mirrors n := by
  show ((c.board.setAlive alive).2.foldl settle { c with board := (c.board.setAlive alive).1 }).Mirrors n
  rw [foldl_settle,CallBoard.beliefs_setAlive]
  have self := mirrors.self.trans (CallBoard.self_setAlive c.board alive).symm
  by_cases same : alive = c.board.alive
  · rw [if_pos same]
    refine ⟨self,mirrors.shaped,fun call served => (mirrors.cell call served).trans ?_⟩
    have kept := congrArg Cycle.status (CallBoard.cycle_setAlive c.board alive call)
    rw [if_pos same] at kept
    exact kept.symm
  · rw [if_neg same]
    obtain ⟨shaped,statuses⟩ := Registry.status_foldl_apply mirrors.shaped (by decide : Status.confirmed ≠ .unknown)
      (c.board.released alive)
    refine ⟨self,shaped,fun call served => (statuses call).trans ?_⟩
    have review := congrArg Cycle.status (CallBoard.cycle_setAlive c.board alive call)
    rw [if_neg same,Cycle.review] at review
    by_cases due : (c.board.cycle call).Due call alive
    · rw [if_pos ⟨served,(CallBoard.mem_released c.board alive call).mpr due⟩]
      rw [if_pos due] at review
      exact review.symm
    · rw [if_neg (fun both => due ((CallBoard.mem_released c.board alive call).mp both.2))]
      rw [if_neg due] at review
      exact (mirrors.cell call served).trans review.symm

theorem Mirrors.receive {n : UInt8} {c : Controller} (mirrors : c.Mirrors n) (m : Broadcast) (now : Instant) :
    (c.receive m now).Mirrors n := by
  by_cases own : m.source = c.replica.self
  · rw [receive_own own]
    exact mirrors
  · rw [receive_other own]
    have opened : (c.opened m now).Mirrors n := by
      refine ⟨mirrors.self,Registry.shaped_diff mirrors.shaped m.source m.registry,fun call served => ?_⟩
      exact (Registry.status_diff c.replica.registry m.source m.registry call).trans (mirrors.cell call served)
    exact opened.handleAll (c.reports m)

/-- No event lets the registry and the board part. -/
theorem Mirrors.react {n : UInt8} {c : Controller} (mirrors : c.Mirrors n) (now : Instant) (e : Event) :
    (c.react now e).Mirrors n := by
  cases e with
  | report r => exact mirrors.handle r
  | receive m => exact mirrors.receive m now
  | signal s => exact ⟨mirrors.self,mirrors.shaped,mirrors.cell⟩
  | poll =>
    rw [Controller.react]
    have polled : ({ c with presence := (c.presence.poll now).1 } : Controller).Mirrors n :=
      ⟨mirrors.self,mirrors.shaped,mirrors.cell⟩
    cases news : (c.presence.poll now).2 with
    | none => rw [poll_none news]; exact polled
    | some alive =>
      have learned := polled.setBoardAlive alive
      rw [poll_some news,setAlive_eq]
      exact ⟨learned.self,learned.shaped,learned.cell⟩
  | car state =>
    rw [Controller.react,setCar]
    split
    · exact ⟨mirrors.self,mirrors.shaped,mirrors.cell⟩
    · exact mirrors
  | boardAlive alive => exact mirrors.setBoardAlive alive
  | replicaAlive alive => exact ⟨mirrors.self,mirrors.shaped,mirrors.cell⟩
  | viewAlive alive => exact ⟨mirrors.self,mirrors.shaped,mirrors.cell⟩

theorem mirrors_new (self : PeerId) (n : UInt8) (timeout : Duration) : (new self n timeout).Mirrors n := by
  refine ⟨rfl,Registry.shaped_register (Registry.shaped_new n) self,fun call _ => ?_⟩
  have blank : ((Registry.new n).register self).status call = .unknown := by
    rw [Registry.status_register,Registry.status_new]
  exact blank.trans (CallBoard.status_new self call).symm

theorem Reached.mirrors {self : PeerId} {n : UInt8} {c : Controller} (reached : c.Reached self n) : c.Mirrors n := by
  induction reached with
  | new timeout => exact mirrors_new self n timeout
  | react now e _ ih => exact ih.react now e

/-- The board of a controller goes through a history of its own. -/
theorem Reached.board {self : PeerId} {n : UInt8} {c : Controller} (reached : c.Reached self n) :
    c.board.Reached self := by
  induction reached with
  | new timeout => exact .new
  | @react c now e _ ih => rw [board_react]; exact ih.after (c.inputs now e)

theorem Reached.replica_self {self : PeerId} {n : UInt8} {c : Controller} (reached : c.Reached self n) :
    c.replica.self = self :=
  reached.mirrors.self.trans reached.board.self

/-- The reports of a snapshot are the statuses of the calls on served floors in which
    its sender differs from the board. -/
theorem mem_reports {n : UInt8} {c : Controller} (mirrors : c.Mirrors n) {m : Broadcast} {r : Report} :
    r ∈ c.reports m ↔ m.source ≠ c.board.self ∧ r.source = m.source ∧ r.belief.call.floor < n ∧
      r.belief.status = m.registry.status r.belief.call ∧
      Status.differs (c.board.status r.belief.call) (m.registry.status r.belief.call) = true := by
  rw [reports,mirrors.self]
  by_cases own : m.source = c.board.self
  · rw [if_pos own]; simp [own]
  · rw [if_neg own,Registry.mem_diff mirrors.shaped]
    constructor
    · rintro ⟨source,served,told,differ⟩
      exact ⟨own,source,served,told,by rw [← mirrors.cell _ served]; exact differ⟩
    · rintro ⟨_,source,served,told,differ⟩
      exact ⟨source,served,told,by rw [mirrors.cell _ served]; exact differ⟩

/-- Reports that stand for a snapshot: each tells how its sender holds a served call, and
    where the sender differs from the board there is one. -/
structure Covers (b : CallBoard) (n : UInt8) (m : Broadcast) (reports : List Report) : Prop where
  told : ∀ r ∈ reports, r.source = m.source ∧ r.belief.call.floor < n ∧
    r.belief.status = m.registry.status r.belief.call
  complete : ∀ call, call.floor < n → Status.differs (b.status call) (m.registry.status call) = true →
    call ∈ reports.map fun r => r.belief.call

/-- Such reports tell the board the sender's status of every served call, once. -/
theorem Covers.cycle {b : CallBoard} {n : UInt8} {m : Broadcast} {reports : List Report}
    (covers : Covers b n m reports) (call : Call) :
    (b.after (reports.map .report)).cycle call =
      if call.floor < n then (b.cycle call).hear call b.self b.alive m.source (m.registry.status call)
      else b.cycle call := by
  have alike : ∀ r ∈ reports, r.belief.call = call →
      r.source = m.source ∧ r.belief.status = m.registry.status call := by
    intro r member about
    obtain ⟨source,_,told⟩ := covers.told r member
    exact ⟨source,about ▸ told⟩
  rw [CallBoard.cycle_after_reports alike]
  by_cases reported : call ∈ reports.map fun r => r.belief.call
  · obtain ⟨r,member,rfl⟩ := List.mem_map.mp reported
    rw [if_pos reported,if_pos (covers.told r member).2.1]
  · rw [if_neg reported]
    split
    · rename_i served
      -- What is served and not reported is held in the same status.
      exact (Cycle.hear_same (Bool.eq_false_iff.mpr fun differ => reported (covers.complete call served differ))).symm
    · rfl

theorem covers_reports {n : UInt8} {c : Controller} (mirrors : c.Mirrors n) {m : Broadcast}
    (other : m.source ≠ c.board.self) : Covers c.board n m (c.reports m) := by
  constructor
  · intro r member
    obtain ⟨_,source,served,told,_⟩ := (mem_reports mirrors).mp member
    exact ⟨source,served,told⟩
  · intro call served differ
    exact List.mem_map.mpr ⟨.of m.source call (m.registry.status call),
      (mem_reports mirrors).mpr ⟨other,rfl,served,rfl,differ⟩,rfl⟩

/-- A snapshot of another controller tells the board the sender's status of every
    served call, once. -/
theorem cycle_receive {n : UInt8} {c : Controller} (mirrors : c.Mirrors n) (m : Broadcast) (now : Instant)
    (call : Call) :
    (c.receive m now).board.cycle call =
      if m.source ≠ c.board.self ∧ call.floor < n then
        (c.board.cycle call).hear call c.board.self c.board.alive m.source (m.registry.status call)
      else c.board.cycle call := by
  by_cases own : m.source = c.board.self
  · rw [receive_own (own.trans mirrors.self.symm),if_neg fun both => both.1 own]
  · have board : (c.receive m now).board = c.board.after ((c.reports m).map .report) := board_react c now (.receive m)
    rw [board,(covers_reports mirrors own).cycle]
    simp only [ne_eq,own,not_false_eq_true,true_and]

/-- The event tells the controller `own` that `source` holds the call in the status
    `told`. -/
inductive Event.Tells (call : Call) (own : PeerId) : Event → PeerId → Status → Prop where
  | report (source : PeerId) (told : Status) : Tells call own (.report (.of source call told)) source told
  | receive (m : Broadcast) {told : Status} (other : m.source ≠ own) (holds : m.registry.status call = told) :
      Tells call own (.receive m) m.source told

/-- What an event does to the cycle of a call: it tells the status in which somebody
    else holds it, or brings a new membership, or it leaves the cycle as it is. -/
theorem cycle_react {n : UInt8} {c : Controller} (mirrors : c.Mirrors n) (now : Instant) (e : Event) (call : Call) :
    (c.react now e).board.cycle call = c.board.cycle call ∨
      (∃ source told, e.Tells call c.board.self source told ∧ (c.react now e).board.cycle call =
        (c.board.cycle call).hear call c.board.self c.board.alive source told) ∨
      ∃ alive, (c.react now e).board.cycle call = (c.board.cycle call).review call alive := by
  have reviewed (alive : PeerSet) : (c.board.next (.membership alive)).cycle call = c.board.cycle call ∨
      (c.board.next (.membership alive)).cycle call = (c.board.cycle call).review call alive := by
    rw [CallBoard.next_membership,CallBoard.cycle_setAlive]
    split
    · exact .inl rfl
    · exact .inr rfl
  cases e with
  | report r =>
    have cycles : (c.react now (.report r)).board.cycle call = _ := CallBoard.cycle_take c.board r call
    by_cases about : r.belief.call = call
    · subst about
      rw [if_pos rfl] at cycles
      exact .inr (.inl ⟨r.source,r.belief.status,.report r.source r.belief.status,cycles⟩)
    · rw [if_neg about] at cycles
      exact .inl cycles
  | receive m =>
    have cycles : (c.react now (.receive m)).board.cycle call = _ := cycle_receive mirrors m now call
    split at cycles
    · rename_i heard
      exact .inr (.inl ⟨m.source,_,.receive m heard.1 rfl,cycles⟩)
    · exact .inl cycles
  | poll =>
    rw [board_react,inputs]
    cases (c.presence.poll now).2 with
    | none => exact .inl rfl
    | some alive => exact (reviewed alive).imp_right fun same => .inr ⟨alive,same⟩
  | boardAlive alive =>
    rw [board_react]
    exact (reviewed alive).imp_right fun same => .inr ⟨alive,same⟩
  | signal s => exact .inl rfl
  | car state =>
    rw [board_react]
    exact .inl rfl
  | replicaAlive alive => exact .inl rfl
  | viewAlive alive => exact .inl rfl

/-! ### Rows of the registry -/

theorem registry_handle (c : Controller) (r : Report) : (c.handle r).1.replica.registry =
    c.replica.registry.apply ⟨r.belief.call,(c.board.take r).status r.belief.call⟩ := rfl

theorem cab_handleAll_grows {c : Controller} {owner : PeerId} (old : owner ∈ c.replica.registry.cab)
    (reports : List Report) : owner ∈ (c.handleAll reports).replica.registry.cab := by
  induction reports generalizing c with
  | nil => exact old
  | cons r rest ih =>
    refine ih (c := (c.handle r).1) ?_
    rw [registry_handle]
    exact (Registry.mem_cab_apply _ _ owner).mpr (.inr old)

/-- Reports open rows for the owners of their calls at most. -/
theorem mem_cab_handleAll {c : Controller} {reports : List Report} {owner : PeerId}
    (member : owner ∈ (c.handleAll reports).replica.registry.cab) :
    owner ∈ c.replica.registry.cab ∨ ∃ r ∈ reports, ∃ floor, r.belief.call = .cab floor owner := by
  induction reports generalizing c with
  | nil => exact .inl member
  | cons r rest ih =>
    rcases ih (c := (c.handle r).1) member with handled | ⟨r',later,about⟩
    · rw [registry_handle,Registry.mem_cab_apply] at handled
      rcases handled with ⟨_,about⟩ | old
      · exact .inr ⟨r,List.mem_cons_self,about⟩
      · exact .inl old
    · exact .inr ⟨r',List.mem_cons_of_mem _ later,about⟩

/-- A snapshot opens rows for its sender and for the owners in it, and for nobody else. -/
theorem mem_cab_receive {n : UInt8} {c : Controller} (mirrors : c.Mirrors n) {m : Broadcast}
    (other : m.source ≠ c.replica.self) (now : Instant) (owner : PeerId) :
    owner ∈ (c.receive m now).replica.registry.cab ↔
      owner = m.source ∨ owner ∈ m.registry.cab ∨ owner ∈ c.replica.registry.cab := by
  have opened : owner ∈ (c.opened m now).replica.registry.cab ↔ _ :=
    Registry.mem_cab_enroll c.replica.registry m.source m.registry owner
  rw [receive_other other,← opened]
  constructor
  · intro member
    rcases mem_cab_handleAll member with old | ⟨r,reported,floor,about⟩
    · exact old
    · rw [reports,if_neg other] at reported
      exact Registry.owner_of_diff mirrors.shaped (Nat.le_of_lt n.toNat_lt) reported about
  · exact fun old => cab_handleAll_grows old _

theorem cab_setBoardAlive_grows {c : Controller} {owner : PeerId} (old : owner ∈ c.replica.registry.cab)
    (alive : PeerSet) : owner ∈ (c.setBoardAlive alive).replica.registry.cab := by
  show owner ∈ ((c.board.setAlive alive).2.foldl settle { c with board := (c.board.setAlive alive).1 }).replica.registry.cab
  rw [foldl_settle]
  exact Registry.mem_cab_foldl_apply old

/-- The rows of a registry stay. -/
theorem cab_react_grows {n : UInt8} {c : Controller} (mirrors : c.Mirrors n) (now : Instant) (e : Event) {owner : PeerId}
    (old : owner ∈ c.replica.registry.cab) : owner ∈ (c.react now e).replica.registry.cab := by
  cases e with
  | report r => exact cab_handleAll_grows old [r]
  | receive m =>
    rw [react]
    by_cases own : m.source = c.replica.self
    · rw [receive_own own]
      exact old
    · exact (mem_cab_receive mirrors own now owner).mpr (.inr (.inr old))
  | signal s => exact old
  | poll =>
    rw [react]
    cases news : (c.presence.poll now).2 with
    | none => rw [poll_none news]; exact old
    | some alive =>
      rw [poll_some news,setAlive_eq]
      exact cab_setBoardAlive_grows (c := { c with presence := (c.presence.poll now).1 }) old alive
  | car state => rw [react,setCar]; split <;> exact old
  | boardAlive alive => exact cab_setBoardAlive_grows old alive
  | replicaAlive alive => exact old
  | viewAlive alive => exact old

/-- A controller has a row for its own cab. -/
theorem Reached.own_row {self : PeerId} {n : UInt8} {c : Controller} (reached : c.Reached self n) :
    self ∈ c.replica.registry.cab := by
  induction reached with
  | new timeout => exact (Registry.mem_cab_register _ self self).mpr (.inl rfl)
  | react now e before ih => exact cab_react_grows before.mirrors now e ih

/-! ### Steady memberships -/

/-- The event tells neither the board nor the replica who is alive. -/
def Event.Constant : Event → Prop
  | .poll | .boardAlive _ | .replicaAlive _ => False
  | _ => True

instance : DecidablePred Event.Constant
  | .poll | .boardAlive _ | .replicaAlive _ => .isFalse id
  | .report _ | .receive _ | .signal _ | .car _ | .viewAlive _ => .isTrue trivial

theorem replica_handleAll (c : Controller) (reports : List Report) :
    (c.handleAll reports).replica.alive = c.replica.alive ∧ (c.handleAll reports).replica.car = c.replica.car := by
  induction reports generalizing c with
  | nil => exact ⟨rfl,rfl⟩
  | cons r rest ih => exact ih (c.handle r).1

/-- Events of this kind leave the memberships alone and forget no state of the own car. -/
theorem constant_react {c : Controller} {e : Event} (constant : e.Constant) (now : Instant) :
    (c.react now e).board.alive = c.board.alive ∧ (c.react now e).replica.alive = c.replica.alive ∧
      (c.replica.car.isSome → (c.react now e).replica.car.isSome) := by
  cases e with
  | report r =>
    refine ⟨CallBoard.alive_take c.board r,?_⟩
    exact ⟨rfl,id⟩
  | receive m =>
    rw [react]
    by_cases own : m.source = c.replica.self
    · rw [receive_own own]
      exact ⟨rfl,rfl,id⟩
    · rw [receive_other own]
      obtain ⟨alive,car⟩ := replica_handleAll (c.opened m now) (c.reports m)
      refine ⟨?_,alive,fun known => ?_⟩
      · rw [board_handleAll,CallBoard.alive_after_reports]
        rfl
      · rw [car]
        exact known
  | signal s => exact ⟨rfl,rfl,id⟩
  | car state =>
    rw [react,setCar]
    split
    · exact ⟨rfl,rfl,fun _ => rfl⟩
    · exact ⟨rfl,rfl,id⟩
  | viewAlive alive => exact ⟨rfl,rfl,id⟩
  | poll => exact constant.elim
  | boardAlive alive => exact constant.elim
  | replicaAlive alive => exact constant.elim

/-! ### The view -/

/-- A call that is on after several reports was on before, or the board confirms it in
    their course. -/
theorem view_handleAll {c : Controller} {reports : List Report} {call : Call}
    (on : (c.handleAll reports).view.isCalled call = true) :
    c.view.isCalled call = true ∨
      ∃ t ∈ c.board.trace (reports.map .report), (t.1.next t.2).status call = .confirmed := by
  induction reports generalizing c with
  | nil => exact .inl on
  | cons r rest ih =>
    rcases ih on with handled | ⟨t,member,confirmed⟩
    · rcases Dispatch.View.isCalled_record handled with old | ⟨rfl,confirmed⟩
      · exact .inl old
      · exact .inr ⟨(c.board,.report r),List.mem_cons_self,confirmed⟩
    · exact .inr ⟨t,List.mem_cons_of_mem _ member,confirmed⟩

theorem view_setBoardAlive {c : Controller} {alive : PeerSet} {call : Call}
    (on : (c.setBoardAlive alive).view.isCalled call = true) :
    c.view.isCalled call = true ∨ (c.board.next (.membership alive)).status call = .confirmed := by
  have folded : (c.setBoardAlive alive).view = (c.board.setAlive alive).2.foldl Dispatch.View.record c.view := by
    show ((c.board.setAlive alive).2.foldl settle { c with board := (c.board.setAlive alive).1 }).view = _
    rw [foldl_settle]
  rw [folded] at on
  rcases Dispatch.View.isCalled_foldl_record on with old | ⟨b,member,rfl,_⟩
  · exact .inl old
  · right
    rw [CallBoard.beliefs_setAlive] at member
    split at member
    · cases member
    · rename_i changed
      obtain ⟨call,released,rfl⟩ := List.mem_map.mp member
      have cycles := CallBoard.cycle_setAlive c.board alive call
      rw [if_neg changed,Cycle.review,if_pos ((CallBoard.mem_released c.board alive call).mp released)] at cycles
      exact congrArg Cycle.status cycles

/-- The view calls for nothing but what it did before and what the board confirms in
    the course of the event. -/
theorem view_react {c : Controller} {now : Instant} {e : Event} {call : Call}
    (on : (c.react now e).view.isCalled call = true) :
    c.view.isCalled call = true ∨
      ∃ t ∈ c.board.trace (c.inputs now e), (t.1.next t.2).status call = .confirmed := by
  cases e with
  | report r => exact view_handleAll (show (c.handleAll [r]).view.isCalled call = true from on)
  | receive m =>
    rw [react] at on
    by_cases own : m.source = c.replica.self
    · rw [receive_own own] at on
      exact .inl on
    · rw [receive_other own] at on
      rcases view_handleAll on with opened | confirmed
      · exact .inl ((Dispatch.View.isCalled_setCar c.view ⟨m.source,m.car⟩ call).symm.trans opened)
      · exact .inr confirmed
  | signal s => exact .inl on
  | poll =>
    rw [react] at on
    rw [inputs]
    cases news : (c.presence.poll now).2 with
    | none => rw [poll_none news] at on; exact .inl on
    | some alive =>
      rw [poll_some news,setAlive_eq] at on
      rcases view_setBoardAlive on with old | confirmed
      · exact .inl old
      · exact .inr ⟨(c.board,.membership alive),List.mem_cons_self,confirmed⟩
  | car state =>
    rw [react,setCar] at on
    split at on
    · exact .inl ((Dispatch.View.isCalled_setCar c.view ⟨c.replica.self,state⟩ call).symm.trans on)
    · exact .inl on
  | boardAlive alive =>
    rcases view_setBoardAlive on with old | confirmed
    · exact .inl old
    · exact .inr ⟨(c.board,.membership alive),List.mem_cons_self,confirmed⟩
  | replicaAlive alive => exact .inl on
  | viewAlive alive => exact .inl on

end Controller
end ElevatorFleet
