import Mathlib.Data.List.Induction
import ElevatorFleet.Fleet
import ElevatorFleet.Proofs.Controller

/-!
# Runs of a fleet over a network

A fleet whose snapshots pass through a network without guarantees. Every snapshot that
a controller sends is kept for good, and any of them can be delivered to any controller
at any time and any number of times: a snapshot that is lost is one that is never
delivered, and delays, repetitions and changes of order need nothing more. Besides,
anything can happen to a controller at any time, and it can be replaced by one that has
just started.

A move changes at most one controller, by one event or a restart (`car_step`), and adds
at most the snapshot of one controller (`sent_step`). The log of a run names every
report and membership that a call board took, with the board that took it.
-/
namespace ElevatorFleet
open Std Tasks

/-- A fleet with all the snapshots that were ever sent in it. -/
structure Network where
  fleet : Fleet
  sent : List Broadcast

namespace Network

/-- One step of a fleet. -/
inductive Move where
  /-- Time passes. -/
  | pass (ms : Duration)
  /-- Something happens to a controller. -/
  | act (peer : PeerId) (e : Controller.Event)
  /-- A controller is replaced by one that has just started. -/
  | restart (peer : PeerId) (numFloors : UInt8) (timeout : Duration)
  /-- A controller sends its snapshot, if it has one to send. -/
  | send (peer : PeerId)
  /-- The snapshot at `index`, counted from the first one ever sent, reaches a
      controller. -/
  | deliver (index : Nat) (peer : PeerId)
deriving DecidableEq

namespace Move

/-- Somebody presses a button at a controller. -/
def press (peer : PeerId) (call : Call) : Move := .act peer (.report (.of peer call .unconfirmed))

/-- A controller has served a call. -/
def clear (peer : PeerId) (call : Call) : Move := .act peer (.report (.of peer call .absent))

/-- From outside, controllers are told only of presses and clears at themselves, and
    snapshots reach them only through the network. -/
def Honest : Move → Prop
  | .act peer (.report r) =>
    r.source = peer ∧ (r.belief.status = .unconfirmed ∨ r.belief.status = .absent)
  | .act _ (.receive _) => False
  | _ => True

instance : DecidablePred Honest
  | .act peer (.report r) =>
    inferInstanceAs (Decidable (r.source = peer ∧ (r.belief.status = .unconfirmed ∨ r.belief.status = .absent)))
  | .act _ (.receive _) => .isFalse id
  | .act _ (.signal _) | .act _ .poll | .act _ (.car _) => .isTrue trivial
  | .act _ (.boardAlive _) | .act _ (.replicaAlive _) | .act _ (.viewAlive _) => .isTrue trivial
  | .pass _ | .restart _ _ _ | .send _ | .deliver _ _ => .isTrue trivial

end Move

/-- The controller of a peer, if the fleet has one. -/
def car? (w : Network) (peer : PeerId) : Option Controller := w.fleet.cars[peer]?

/-- The status in which a controller holds a call. -/
def status? (w : Network) (peer : PeerId) (call : Call) : Option Status :=
  (w.car? peer).map fun car => car.board.status call

/-- What a move makes happen to which controller. -/
def event? (w : Network) : Move → Option (PeerId × Controller.Event)
  | .act peer e => some (peer,e)
  | .deliver index peer => (w.sent[index]?).map fun m => (peer,.receive m)
  | .pass _ | .restart _ _ _ | .send _ => none

/-- The network after a move. -/
def step (w : Network) : Move → Network
  | .pass ms => { w with fleet := { w.fleet with now := w.fleet.now + ms } }
  | .act peer e => { w with fleet := w.fleet.modify peer fun car => car.react w.fleet.now e }
  | .restart peer numFloors timeout =>
    { w with fleet := w.fleet.modify peer fun _ => .new peer numFloors timeout }
  | .send peer => { w with sent := w.sent ++ ((w.car? peer).bind Controller.outbound).toList }
  | .deliver index peer =>
    match w.sent[index]? with
    | none => w
    | some m => { w with fleet := w.fleet.deliver m peer }

/-- The network after several moves. -/
def run (w : Network) (moves : List Move) : Network := moves.foldl step w

/-- A report or membership with the call board that takes it. -/
structure Taken where
  peer : PeerId
  board : CallBoard
  event : Requests.Event

/-- What call boards take in the course of a move, in this order. -/
def taken (w : Network) (mv : Move) : List Taken :=
  match w.event? mv with
  | none => []
  | some (peer,e) =>
    match w.car? peer with
    | none => []
    | some car => (car.board.trace (car.inputs w.fleet.now e)).map fun t => ⟨peer,t.1,t.2⟩

/-- What call boards take in the course of several moves. -/
def log (w : Network) : List Move → List Taken
  | [] => []
  | mv :: rest => w.taken mv ++ (w.step mv).log rest

/-- A fleet that has just started, with nothing sent. Its controllers may serve
    different numbers of floors. -/
structure Fresh (w : Network) : Prop where
  cars : ∀ peer car, w.car? peer = some car → ∃ numFloors timeout, car = .new peer numFloors timeout
  sent : w.sent = []

/-- The network of a fleet that starts now. -/
def new (peers : PeerSet) (numFloors : UInt8) (timeout : Duration) : Network :=
  ⟨.new peers numFloors timeout 0,[]⟩

/-- Two controllers that serve four floors. -/
def pair : Network := new (.of [⟨1⟩,⟨2⟩]) 4 1000

/-- Every controller has come about by some history of its own. -/
def Manned (w : Network) : Prop := ∀ peer car, w.car? peer = some car → ∃ n, car.Reached peer n

/-- Every controller has come about by some history and serves `n` floors. -/
def Serving (n : UInt8) (w : Network) : Prop := ∀ peer car, w.car? peer = some car → car.Reached peer n

/-! ### Runs -/

theorem run_append (w : Network) (past later : List Move) : w.run (past ++ later) = (w.run past).run later :=
  List.foldl_append

theorem run_snoc (w : Network) (past : List Move) (mv : Move) : w.run (past ++ [mv]) = (w.run past).step mv :=
  run_append w past [mv]

theorem log_append (w : Network) (past later : List Move) :
    w.log (past ++ later) = w.log past ++ (w.run past).log later := by
  induction past generalizing w with
  | nil => rfl
  | cons mv rest ih => rw [List.cons_append,log,ih (w.step mv),log,List.append_assoc]; rfl

theorem log_snoc (w : Network) (past : List Move) (mv : Move) :
    w.log (past ++ [mv]) = w.log past ++ (w.run past).taken mv := by
  rw [log_append,log,log,List.append_nil]

/-! ### Moves -/

theorem status?_eq_some {w : Network} {peer : PeerId} {call : Call} {s : Status} :
    w.status? peer call = some s ↔ ∃ car, w.car? peer = some car ∧ car.board.status call = s :=
  Option.map_eq_some_iff

theorem car?_modify (f : Fleet) (sent : List Broadcast) (peer : PeerId) (change : Controller → Controller)
    (other : PeerId) :
    (⟨f.modify peer change,sent⟩ : Network).car? other =
      if peer = other then (f.cars[other]?).map change else f.cars[other]? := by
  rw [car?,Fleet.modify]
  cases found : f.cars[peer]? with
  | none =>
    by_cases same : peer = other
    · subst same; simp [found]
    · simp [same]
  | some car =>
    by_cases same : peer = other
    · subst same; simp [found]
    · simp [same,ExtTreeMap.getElem?_insert]

/-- An event happens to the controller of its peer, and to no other. -/
theorem car?_event {w : Network} {mv : Move} {peer : PeerId} {e : Controller.Event}
    (makes : w.event? mv = some (peer,e)) (other : PeerId) :
    (w.step mv).car? other =
      if peer = other then (w.car? other).map fun car => car.react w.fleet.now e else w.car? other := by
  cases mv with
  | pass ms => cases makes
  | act p event => cases makes; exact car?_modify w.fleet w.sent peer _ other
  | restart p numFloors timeout => cases makes
  | send p => cases makes
  | deliver index p =>
    rw [event?,Option.map_eq_some_iff] at makes
    obtain ⟨m,found,same⟩ := makes
    cases same
    simp only [step,found]
    exact car?_modify w.fleet w.sent peer _ other

/-- A controller after a move is the one before, the one before after an event, or one
    that has just started. -/
theorem car_step {w : Network} {mv : Move} {peer : PeerId} {car : Controller}
    (found : (w.step mv).car? peer = some car) :
    w.car? peer = some car ∨
      (∃ before e, w.car? peer = some before ∧ w.event? mv = some (peer,e) ∧ car = before.react w.fleet.now e) ∨
      ∃ numFloors timeout, mv = .restart peer numFloors timeout ∧ car = .new peer numFloors timeout := by
  cases makes : w.event? mv with
  | some made =>
    obtain ⟨p,e⟩ := made
    rw [car?_event makes] at found
    split at found
    · rename_i same
      subst same
      obtain ⟨before,had,same⟩ := Option.map_eq_some_iff.mp found
      exact .inr (.inl ⟨before,e,had,rfl,same.symm⟩)
    · exact .inl found
  | none =>
    cases mv with
    | pass ms => exact .inl found
    | act p e => cases makes
    | restart p numFloors timeout =>
      rw [step,car?_modify] at found
      split at found
      · rename_i same
        subst same
        obtain ⟨_,_,same⟩ := Option.map_eq_some_iff.mp found
        exact .inr (.inr ⟨numFloors,timeout,rfl,same.symm⟩)
      · exact .inl found
    | send p => exact .inl found
    | deliver index p =>
      cases snapshot : w.sent[index]? with
      | none => simp only [step,snapshot] at found; exact .inl found
      | some m => simp [event?,snapshot] at makes

/-- In the course of the move a controller is told, from outside or by a snapshot, that
    somebody holds the call in the status `told`. -/
def Tells (w : Network) (mv : Move) (call : Call) (told : Status) : Prop :=
  ∃ peer e source, w.event? mv = some (peer,e) ∧ e.Tells call peer source told

/-- What a controller holds about a call after a move: as much as one that has just
    started, or what it held before, changed by what it is told or by a membership. -/
theorem cycle_step {w : Network} (manned : w.Manned) {mv : Move} {peer : PeerId} {car : Controller}
    (found : (w.step mv).car? peer = some car) (call : Call) :
    (∃ n timeout, mv = .restart peer n timeout ∧ car = .new peer n timeout) ∨
      ∃ before, w.car? peer = some before ∧
        (car.board.cycle call = before.board.cycle call ∨
          (∃ e source told, w.event? mv = some (peer,e) ∧ e.Tells call peer source told ∧ car.board.cycle call =
            (before.board.cycle call).hear call peer before.board.alive source told) ∨
          ∃ alive, car.board.cycle call = (before.board.cycle call).review call alive) := by
  rcases car_step found with old | ⟨before,e,had,makes,rfl⟩ | restarted
  · exact .inr ⟨car,old,.inl rfl⟩
  · obtain ⟨n,reached⟩ := manned peer before had
    refine .inr ⟨before,had,?_⟩
    have cycles := Controller.cycle_react reached.mirrors w.fleet.now e call
    rw [reached.board.self] at cycles
    rcases cycles with same | ⟨source,told,tells,heard⟩ | reviewed
    · exact .inl same
    · exact .inr (.inl ⟨e,source,told,makes,tells,heard⟩)
    · exact .inr (.inr reviewed)
  · exact .inl restarted

/-- A snapshot that is there after a move was sent before, or it is the one that a
    controller has to send now. -/
theorem sent_step_at {w : Network} {mv : Move} {index : Nat} {m : Broadcast}
    (found : (w.step mv).sent[index]? = some m) :
    w.sent[index]? = some m ∨
      w.sent.length ≤ index ∧ ∃ peer car, mv = .send peer ∧ w.car? peer = some car ∧ car.outbound = some m := by
  cases mv with
  | pass ms => exact .inl found
  | act p e => exact .inl found
  | restart p numFloors timeout => exact .inl found
  | send p =>
    rw [step,List.getElem?_append] at found
    split at found
    · exact .inl found
    · rename_i late
      obtain ⟨car,here,sends⟩ := Option.bind_eq_some_iff.mp (Option.mem_toList.mp (List.mem_of_getElem? found))
      exact .inr ⟨Nat.le_of_not_lt late,p,car,rfl,here,sends⟩
  | deliver i p =>
    rw [step] at found
    split at found <;> exact .inl found

theorem sent_step {w : Network} {mv : Move} {m : Broadcast} (member : m ∈ (w.step mv).sent) :
    m ∈ w.sent ∨ ∃ peer car, mv = .send peer ∧ w.car? peer = some car ∧ car.outbound = some m := by
  obtain ⟨index,found⟩ := List.getElem?_of_mem member
  rcases sent_step_at found with old | ⟨_,new⟩
  · exact .inl (List.mem_of_getElem? old)
  · exact .inr new

/-- A snapshot carries the name and the registry of its controller. -/
theorem outbound_eq {car : Controller} {m : Broadcast} (sends : car.outbound = some m) :
    m.source = car.replica.self ∧ m.registry = car.replica.registry := by
  rw [Controller.outbound,Replica.outbound] at sends
  split at sends
  · cases sends
  · split at sends
    · cases sends; exact ⟨rfl,rfl⟩
    · cases sends

theorem sent_send {w : Network} {peer : PeerId} {car : Controller} {m : Broadcast} (found : w.car? peer = some car)
    (sends : car.outbound = some m) : (w.step (.send peer)).sent[w.sent.length]? = some m := by
  rw [step,found,Option.bind_some,sends]
  exact List.getElem?_concat_length

theorem sent_keeps_step {w : Network} {index : Nat} {m : Broadcast} (found : w.sent[index]? = some m) (mv : Move) :
    (w.step mv).sent[index]? = some m := by
  cases mv with
  | pass ms => exact found
  | act p e => exact found
  | restart p numFloors timeout => exact found
  | send p => exact (List.getElem?_append_left (List.getElem?_eq_some_iff.mp found).1).trans found
  | deliver i p => rw [step]; split <;> exact found

/-- The snapshots that were sent stay. -/
theorem sent_keeps {w : Network} {index : Nat} {m : Broadcast} (found : w.sent[index]? = some m) (moves : List Move) :
    (w.run moves).sent[index]? = some m := by
  induction moves generalizing w with
  | nil => exact found
  | cons mv rest ih => exact ih (sent_keeps_step found mv)

/-- A move neither adds nor removes a controller. -/
theorem isSome_car_step (w : Network) (mv : Move) (peer : PeerId) :
    ((w.step mv).car? peer).isSome = (w.car? peer).isSome := by
  cases mv with
  | pass ms => rfl
  | act p e => rw [step,car?_modify]; split <;> simp [car?]
  | restart p numFloors timeout => rw [step,car?_modify]; split <;> simp [car?]
  | send p => rfl
  | deliver index p =>
    rw [step]
    split
    · rfl
    · rw [Fleet.deliver,car?_modify]; split <;> simp [car?]

/-- Nobody leaves the fleet. -/
theorem car_survives {w : Network} {peer : PeerId} {car : Controller} (found : w.car? peer = some car) (mv : Move) :
    ∃ after, (w.step mv).car? peer = some after := by
  rw [← Option.isSome_iff_exists,isSome_car_step,found]
  rfl

theorem isSome_car_run (w : Network) (moves : List Move) (peer : PeerId) :
    ((w.run moves).car? peer).isSome = (w.car? peer).isSome := by
  induction moves generalizing w with
  | nil => rfl
  | cons mv rest ih => exact (ih (w.step mv)).trans (isSome_car_step w mv peer)

theorem car?_new (peers : PeerSet) (numFloors : UInt8) (timeout : Duration) (peer : PeerId) :
    (new peers numFloors timeout).car? peer =
      if peer ∈ peers then some (.new peer numFloors timeout) else none := by
  have distinct : List.Pairwise (fun a b => ¬ compare a.1 b.1 = .eq)
      (peers.toList.map fun p => (p,Controller.new p numFloors timeout)) :=
    List.pairwise_map.mpr peers.distinct_toList
  refine Option.ext fun c => (PeerMap.getElem?_ofList distinct).trans ?_
  by_cases member : peer ∈ peers
  · simp [member]
  · simp [member]

theorem fresh_new (peers : PeerSet) (numFloors : UInt8) (timeout : Duration) :
    (new peers numFloors timeout).Fresh := by
  refine ⟨fun peer car found => ?_,rfl⟩
  rw [car?_new] at found
  split at found
  · exact ⟨numFloors,timeout,(Option.some.inj found).symm⟩
  · cases found

/-- The controllers of a network are those that it started with. -/
theorem mem_of_car? {peers : PeerSet} {n : UInt8} {timeout : Duration} {moves : List Move} {peer : PeerId}
    {car : Controller} (found : ((new peers n timeout).run moves).car? peer = some car) : peer ∈ peers := by
  have here := isSome_car_run (new peers n timeout) moves peer
  rw [found,car?_new] at here
  split at here
  · assumption
  · cases here

theorem car?_pair {moves : List Move} {peer : PeerId} {car : Controller} (found : (pair.run moves).car? peer = some car) :
    peer = ⟨1⟩ ∨ peer = ⟨2⟩ := by
  rcases List.mem_cons.mp (PeerSet.mem_of.mp (mem_of_car? found)) with first | second
  · exact .inl first
  · exact .inr (List.mem_singleton.mp second)

theorem Fresh.manned {w : Network} (fresh : w.Fresh) : w.Manned := by
  intro peer car found
  obtain ⟨n,timeout,same⟩ := fresh.cars peer car found
  exact ⟨n,same ▸ .new timeout⟩

theorem Serving.manned {w : Network} {n : UInt8} (serving : w.Serving n) : w.Manned :=
  fun peer car found => ⟨n,serving peer car found⟩

theorem Manned.step {w : Network} (manned : w.Manned) (mv : Move) : (w.step mv).Manned := by
  intro peer car found
  rcases car_step found with old | ⟨before,e,had,_,rfl⟩ | ⟨n,timeout,_,rfl⟩
  · exact manned peer car old
  · obtain ⟨n,reached⟩ := manned peer before had
    exact ⟨n,reached.react w.fleet.now e⟩
  · exact ⟨n,.new timeout⟩

theorem Manned.run {w : Network} (manned : w.Manned) (moves : List Move) : (w.run moves).Manned := by
  induction moves generalizing w with
  | nil => exact manned
  | cons mv rest ih => exact ih (manned.step mv)

/-! ### What call boards take -/

/-- A board takes what an event gives to it. -/
theorem mem_taken {w : Network} {mv : Move} {t : Taken} :
    t ∈ w.taken mv ↔ ∃ car e, w.car? t.peer = some car ∧ w.event? mv = some (t.peer,e) ∧
      (t.board,t.event) ∈ car.board.trace (car.inputs w.fleet.now e) := by
  rw [taken]
  constructor
  · intro member
    split at member
    · cases member
    · rename_i peer e makes
      split at member
      · cases member
      · rename_i car found
        obtain ⟨entry,inside,rfl⟩ := List.mem_map.mp member
        exact ⟨car,e,found,makes,inside⟩
  · rintro ⟨car,e,found,makes,inside⟩
    simp only [makes,found]
    exact List.mem_map.mpr ⟨_,inside,rfl⟩

/-- What is in the log of a run was taken in the course of one of its moves. -/
theorem mem_log {w : Network} {moves : List Move} {t : Taken} :
    t ∈ w.log moves ↔ ∃ past mv later, moves = past ++ mv :: later ∧ t ∈ (w.run past).taken mv := by
  constructor
  · intro member
    induction moves generalizing w with
    | nil => cases member
    | cons mv rest ih =>
      rcases List.mem_append.mp member with now | afterwards
      · exact ⟨[],mv,rest,rfl,now⟩
      · obtain ⟨past,mv',later,rfl,taken⟩ := ih afterwards
        exact ⟨mv :: past,mv',later,rfl,taken⟩
  · rintro ⟨past,mv,later,rfl,taken⟩
    rw [log_append,log]
    exact List.mem_append_right _ (List.mem_append_left _ taken)

/-- In honest runs a board takes presses and clears at its own controller, and what the
    snapshots of others hold. -/
theorem report_origin {w : Network} (manned : w.Manned) {mv : Move} (honest : mv.Honest) {peer : PeerId}
    {e : Controller.Event} {car : Controller} (found : w.car? peer = some car) (makes : w.event? mv = some (peer,e))
    {r : Report} (given : .report r ∈ car.inputs w.fleet.now e) :
    (mv = .act peer (.report r) ∧ r.source = peer ∧ (r.belief.status = .unconfirmed ∨ r.belief.status = .absent)) ∨
      ∃ index m, mv = .deliver index peer ∧ w.sent[index]? = some m ∧ r.source = m.source ∧
        r.belief.status = m.registry.status r.belief.call := by
  obtain ⟨n,reached⟩ := manned peer car found
  cases mv with
  | pass ms => cases makes
  | act p event =>
    cases makes
    cases e with
    | report r' =>
      rw [Controller.inputs,List.mem_singleton] at given
      cases given
      exact .inl ⟨rfl,honest⟩
    | receive m => exact honest.elim
    | poll =>
      obtain ⟨alive,_,same⟩ := List.mem_map.mp given
      cases same
    | boardAlive alive => cases List.mem_singleton.mp given
    | signal s => cases given
    | car state => cases given
    | replicaAlive alive => cases given
    | viewAlive alive => cases given
  | restart p numFloors timeout => cases makes
  | send p => cases makes
  | deliver index p =>
    rw [event?,Option.map_eq_some_iff] at makes
    obtain ⟨m,sent,same⟩ := makes
    cases same
    obtain ⟨r',member,same⟩ := List.mem_map.mp given
    cases same
    obtain ⟨_,source,_,told,_⟩ := (Controller.mem_reports reached.mirrors).mp member
    exact .inr ⟨index,m,rfl,sent,source,told⟩

/-- A snapshot comes from its sender and tells what the sender's board holds, or
    nothing. -/
theorem outbound_told {n : UInt8} {peer : PeerId} {car : Controller} (reached : car.Reached peer n) {m : Broadcast}
    (sends : car.outbound = some m) (call : Call) :
    m.source = peer ∧ (m.registry.status call = .unknown ∨ m.registry.status call = car.board.status call) := by
  obtain ⟨source,registry⟩ := outbound_eq sends
  refine ⟨source.trans reached.replica_self,?_⟩
  rw [registry]
  exact reached.mirrors.told call

/-- A controller hears what it is told from outside. -/
theorem Manned.report {w : Network} (manned : w.Manned) {peer : PeerId} {car : Controller}
    (found : w.car? peer = some car) (source : PeerId) (call : Call) (told : Status) :
    ∃ after, (w.step (.act peer (.report (.of source call told)))).car? peer = some after ∧
      after.board.cycle call = (car.board.cycle call).hear call peer car.board.alive source told := by
  have makes : w.event? (.act peer (.report (.of source call told))) = some (peer,.report (.of source call told)) := rfl
  obtain ⟨n,reached⟩ := manned peer car found
  refine ⟨_,by rw [car?_event makes,if_pos rfl,found]; rfl,?_⟩
  have cycles := CallBoard.cycle_take car.board (.of source call told) call
  rw [reached.board.self,if_pos (show (Report.of source call told).belief.call = call from rfl)] at cycles
  exact cycles

/-- A delivery hands the receiver its sender's status of the call, unless the receiver is the
    sender. -/
theorem Serving.deliver {w : Network} {n : UInt8} (serving : w.Serving n) {call : Call} (served : call.floor < n)
    {index : Nat} {m : Broadcast} (sent : w.sent[index]? = some m) {peer : PeerId} {car : Controller}
    (found : w.car? peer = some car) :
    ∃ after, (w.step (.deliver index peer)).car? peer = some after ∧ after.board.cycle call =
      if m.source ≠ peer then
        (car.board.cycle call).hear call peer car.board.alive m.source (m.registry.status call)
      else car.board.cycle call := by
  have makes : w.event? (.deliver index peer) = some (peer,.receive m) := by rw [event?,sent]; rfl
  have reached := serving peer car found
  refine ⟨car.react w.fleet.now (.receive m),by rw [car?_event makes,if_pos rfl,found]; rfl,?_⟩
  have cycles := Controller.cycle_receive reached.mirrors m w.fleet.now call
  simp only [reached.board.self,served,and_true] at cycles
  exact cycles

/-! ### Invariants of runs -/

/-- What the log of a run says of each controller and of each snapshot holds for good
    once it holds at the start, provided that more entries never spoil it, that a fresh
    controller has it, that a controller hands it on to its snapshots, and that no event
    of an honest run breaks it. -/
theorem run_keeps {start : Network} (fresh : start.Fresh) (own : List Taken → PeerId → Controller → Prop)
    (told : List Taken → Broadcast → Prop)
    (ownLater : ∀ {log more peer car}, own log peer car → own (log ++ more) peer car)
    (toldLater : ∀ {log more m}, told log m → told (log ++ more) m)
    (new : ∀ log peer n timeout, own log peer (.new peer n timeout))
    (sends : ∀ {log peer car n m}, own log peer car → car.Reached peer n → car.outbound = some m → told log m)
    (reacts : ∀ {w : Network} {mv log peer car e}, w.Manned → mv.Honest → w.car? peer = some car →
      w.event? mv = some (peer,e) → own log peer car → (∀ m ∈ w.sent, told log m) →
      own (log ++ w.taken mv) peer (car.react w.fleet.now e))
    {moves : List Move} (honest : ∀ mv ∈ moves, mv.Honest) :
    (∀ peer car, (start.run moves).car? peer = some car → own (start.log moves) peer car) ∧
      ∀ m ∈ (start.run moves).sent, told (start.log moves) m := by
  induction moves using List.reverseRecOn with
  | nil =>
    refine ⟨fun peer car found => ?_,fun m member => ?_⟩
    · obtain ⟨n,timeout,rfl⟩ := fresh.cars peer car found
      exact new _ peer n timeout
    · rw [show (start.run []).sent = [] from fresh.sent] at member
      cases member
  | append_singleton past mv ih =>
    obtain ⟨cars,snapshots⟩ := ih fun mv' member => honest mv' (List.mem_append_left _ member)
    have manned := fresh.manned.run past
    have last : mv.Honest := honest mv (List.mem_append_right _ List.mem_cons_self)
    rw [run_snoc,log_snoc]
    refine ⟨fun peer car found => ?_,fun m member => ?_⟩
    · rcases car_step found with old | ⟨before,e,had,makes,rfl⟩ | ⟨n,timeout,_,rfl⟩
      · exact ownLater (cars peer car old)
      · exact reacts manned last had makes (cars peer before had) snapshots
      · exact new _ peer n timeout
    · rcases sent_step member with old | ⟨peer,car,_,found,outbound⟩
      · exact toldLater (snapshots m old)
      · obtain ⟨n,reached⟩ := manned peer car found
        exact toldLater (sends (cars peer car found) reached outbound)

end Network
end ElevatorFleet
