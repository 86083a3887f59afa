import ElevatorFleet.Proofs.Decisions
import ElevatorFleet.Proofs.LastWrites

/-!
# What an assigner is told

The view of an order task is kept in parts: hall calls, cab rows that outlive their owners, states of cars
that may be gone, and the membership. Each part is what was last said about it, for every call
(`isCalled_eq`), every car (`state_after`) and the peers alive (`alive_after`), and a car with a state has a
row (`row_after`). So an assigner is told of exactly the peers alive, once each of them has reported a state,
and of each call what was last decided about it (`input_reflects`).
-/
namespace ElevatorFleet
open Std

namespace Dispatch.View
variable {n : UInt8} {v : View} {peer : PeerId}

/-- The view has a cell for the call. -/
def HasCell (v : View) : Call → Prop
  | .hall floor _ => floor.toNat < v.hall.length
  | .cab floor owner => floor.toNat < (v.cabRow owner).length

theorem Shaped.hasCell (shaped : v.Shaped n) {b : Belief} (accepted : v.accepts b = true) : v.HasCell b.call := by
  have inside := UInt8.lt_iff_toNat_lt.mp (shaped.accepts_iff.mp accepted).2
  cases about : b.call with
  | hall floor direction =>
    rw [about] at inside
    rw [HasCell,shaped.hall]
    exact inside
  | cab floor owner =>
    rw [about] at inside
    rw [HasCell,shaped.cabRow]
    exact inside

theorem record_unserved (shaped : v.Shaped n) {b : Belief} (unserved : ¬ b.call.floor < n) : v.record b = v :=
  if_neg fun accepted => unserved (shaped.accepts_iff.mp accepted).2

theorem state_setCar (v : View) (c : CarReport) (peer : PeerId) :
    (v.setCar c).states[peer]? = if c.peer = peer then some c.state else v.states[peer]? := by
  simp [setCar,ExtTreeMap.getElem?_insert]

theorem isComplete_iff : v.isComplete = true ↔ ∀ peer ∈ v.alive, peer ∈ v.states ∧ peer ∈ v.cab := by
  simp [isComplete,List.all_eq_true]

theorem carInput?_eq_some {car : CarInput} : v.carInput? peer = some car ↔
    ∃ state row, v.states[peer]? = some state ∧ v.cab[peer]? = some row ∧
      car = ⟨state.behavior,state.floor,state.motor,row⟩ := by
  rw [carInput?]
  cases v.states[peer]? with
  | none => simp
  | some state =>
    cases v.cab[peer]? with
    | none => simp
    | some row => simp [eq_comm]

/-- Of each peer alive, and of no other, an assigner is told what the view holds of its car. -/
theorem cars_input {i : Input} (asked : v.input? = some i) {car : CarInput} :
    i.cars[peer]? = some car ↔ peer ∈ v.alive ∧ v.carInput? peer = some car := by
  rw [input?,Option.ite_none_right_eq_some,Option.some.injEq] at asked
  obtain ⟨_,rfl⟩ := asked
  have distinct : (v.alive.toList.filterMap fun peer => (v.carInput? peer).map fun car => (peer,car)).Pairwise
      fun a b => ¬ compare a.1 b.1 = .eq := by
    refine v.alive.distinct_toList.filterMap _ ?_
    intro first second apart a one b two
    obtain ⟨_,_,rfl⟩ := Option.map_eq_some_iff.mp one
    obtain ⟨_,_,rfl⟩ := Option.map_eq_some_iff.mp two
    exact apart
  rw [PeerMap.getElem?_ofList distinct]
  simp only [List.mem_filterMap,ExtTreeSet.mem_toList,Option.map_eq_some_iff,Prod.mk.injEq]
  constructor
  · rintro ⟨_,lives,_,told,rfl,rfl⟩
    exact ⟨lives,told⟩
  · rintro ⟨lives,told⟩
    exact ⟨peer,lives,car,told,rfl,rfl⟩

end Dispatch.View

namespace Tasks.Orders
variable {n : UInt8} {self peer : PeerId} {events : List Event} {call : Call}

/-! ### The history of a view -/

/-- The last settled decision about a call. -/
def lastSettled (call : Call) (events : List Event) : Option Report :=
  ((decisions events).filter fun r => r.belief.status.isSettled && r.belief.call = call).getLast?

/-- The last settled decision about a call confirms it. -/
def isWanted (events : List Event) (call : Call) : Bool :=
  (lastSettled call events).any fun r => r.belief.status = .confirmed

/-- The states that cars have reported. -/
def carReports (events : List Event) : List CarReport :=
  events.filterMap fun e => match e with
    | .car c => some c
    | _ => none

/-- The state that a car has reported last. -/
def lastState (peer : PeerId) (events : List Event) : Option CarState :=
  ((carReports events).filter fun c => c.peer = peer).getLast?.map CarReport.state

/-- The memberships, in the order in which they came. -/
def memberships (events : List Event) : List PeerSet :=
  events.filterMap fun e => match e with
    | .membership alive => some alive
    | _ => none

/-- The peers last said to be alive, nobody as long as nothing was said. -/
def lastAlive (events : List Event) : PeerSet := (memberships events).getLastD ∅

theorem after_snoc (t : Orders) (past : List Event) (e : Event) : t.after (past ++ [e]) = (t.after past).take e := by
  simp [after]

theorem shaped_after (self : PeerId) (n : UInt8) (events : List Event) : ((new self n).after events).view.Shaped n := by
  induction events using List.reverseRecOn with
  | nil => exact Dispatch.View.shaped_new n
  | append_singleton past e ih =>
    rw [after_snoc]
    exact shaped_take ih e

theorem foldl_lastSettled (call : Call) (told : List Report) (on : Bool) :
    told.foldl call.lastSettled on =
      ((told.filter fun r => r.belief.status.isSettled && r.belief.call = call).getLast?).elim on
        fun r => r.belief.status = .confirmed := by
  induction told using List.reverseRecOn with
  | nil => rfl
  | append_singleton past r ih =>
    rw [List.foldl_append,ih,getLast?_filter_snoc,List.foldl_cons,List.foldl_nil,Call.lastSettled]
    by_cases counts : r.belief.status.isSettled = true ∧ r.belief.call = call
    · simp [counts]
    · have ignored : ¬ (r.belief.status.isSettled && decide (r.belief.call = call)) = true := by simpa using counts
      rw [if_neg counts,if_neg ignored]

/-- A view calls for what the last settled decision confirms. -/
theorem isCalled_eq (self : PeerId) (served : call.floor < n) (events : List Event) :
    ((new self n).after events).view.isCalled call = isWanted events call := by
  rw [isCalled_after (Dispatch.View.shaped_new n) served,foldl_lastSettled,
    show (new self n).view.isCalled call = false from Dispatch.View.isCalled_new n call,isWanted,lastSettled]
  cases ((decisions events).filter _).getLast? with
  | none => rfl
  | some r => rfl

theorem lastState_snoc_car (past : List Event) (c : CarReport) (peer : PeerId) :
    lastState peer (past ++ [.car c]) = if c.peer = peer then some c.state else lastState peer past := by
  rw [lastState,carReports,List.filterMap_append]
  refine (congrArg (Option.map _) (getLast?_filter_snoc _ (carReports past) c)).trans ?_
  by_cases about : c.peer = peer
  · simp [about]
  · simp [about,lastState]

theorem lastState_snoc_other (past : List Event) {e : Event} (other : carReports [e] = []) (peer : PeerId) :
    lastState peer (past ++ [e]) = lastState peer past := by
  have same : carReports (past ++ [e]) = carReports past := by
    rw [carReports,List.filterMap_append]
    exact (congrArg (carReports past ++ ·) other).trans (List.append_nil _)
  rw [lastState,same,lastState]

theorem isSome_lastState : (lastState peer events).isSome = true ↔ ∃ state, .car ⟨peer,state⟩ ∈ events := by
  rw [lastState,Option.isSome_map,List.getLast?_isSome,← List.isEmpty_eq_false_iff,
    List.isEmpty_eq_false_iff_exists_mem]
  simp only [List.mem_filter,carReports,List.mem_filterMap]
  constructor
  · rintro ⟨⟨other,state⟩,⟨e,listed,same⟩,about⟩
    cases e with
    | car c =>
      cases same
      cases of_decide_eq_true about
      exact ⟨state,listed⟩
    | settled r => cases same
    | membership alive => cases same
  · rintro ⟨state,listed⟩
    exact ⟨⟨peer,state⟩,⟨_,listed,rfl⟩,decide_eq_true rfl⟩

/-- A view holds the state that each car has reported last. -/
theorem state_after (self : PeerId) (n : UInt8) (events : List Event) (peer : PeerId) :
    ((new self n).after events).view.states[peer]? = lastState peer events := by
  induction events using List.reverseRecOn with
  | nil => rfl
  | append_singleton past e ih =>
    rw [after_snoc]
    cases e with
    | settled r =>
      rw [lastState_snoc_other past rfl,← ih]
      exact congrArg (·[peer]?) (Dispatch.View.states_record _ r.belief)
    | car c =>
      rw [lastState_snoc_car,← ih]
      exact Dispatch.View.state_setCar _ c peer
    | membership alive =>
      rw [lastState_snoc_other past rfl,← ih]
      rfl

/-- A car with a state has a row. -/
theorem row_after (self : PeerId) (n : UInt8) (events : List Event) :
    ∀ peer ∈ ((new self n).after events).view.states, peer ∈ ((new self n).after events).view.cab := by
  induction events using List.reverseRecOn with
  | nil =>
    intro peer known
    exact absurd known ExtTreeMap.not_mem_empty
  | append_singleton past e ih =>
    rw [after_snoc]
    intro peer known
    cases e with
    | settled r =>
      rw [take,Dispatch.View.states_record] at known
      exact (Dispatch.View.mem_cab_record _ r.belief peer).mpr (.inr (ih peer known))
    | car c =>
      rcases ExtTreeMap.mem_insert.mp known with same | old
      · exact ExtTreeMap.mem_insert.mpr (.inl same)
      · exact ExtTreeMap.mem_insert.mpr (.inr (ih peer old))
    | membership alive => exact ih peer known

theorem alive_after (self : PeerId) (n : UInt8) (events : List Event) :
    ((new self n).after events).view.alive = lastAlive events := by
  induction events using List.reverseRecOn with
  | nil => rfl
  | append_singleton past e ih =>
    rw [after_snoc,lastAlive,memberships,List.filterMap_append]
    cases e with
    | settled r =>
      refine (Dispatch.View.alive_record _ r.belief).trans (ih.trans ?_)
      exact congrArg (·.getLastD ∅) (List.append_nil (memberships past)).symm
    | car c => exact ih.trans (congrArg (·.getLastD ∅) (List.append_nil (memberships past)).symm)
    | membership alive => exact (List.getLastD_concat (l := memberships past)).symm

/-! ### What the view tells -/

theorem isComplete_after (self : PeerId) (n : UInt8) (events : List Event) :
    ((new self n).after events).view.isComplete = true ↔
      ∀ peer ∈ lastAlive events, ∃ state, .car ⟨peer,state⟩ ∈ events := by
  rw [Dispatch.View.isComplete_iff,alive_after]
  refine forall₂_congr fun peer _ => ?_
  -- The row comes with the first state, so it asks for nothing more.
  rw [← isSome_lastState,← state_after self n events peer,ExtTreeMap.isSome_getElem?_iff_mem]
  exact ⟨And.left,fun known => ⟨known,row_after self n events peer known⟩⟩

/-- The input tells the assigner of the peers last said to be alive, of each the state that it has reported
    last, and of every call on the `n` floors whether the last settled decision confirms it. -/
structure Reflects (n : UInt8) (events : List Event) (i : Dispatch.Input) : Prop where
  floors : i.hall.length = n.toNat
  hall : ∀ floor < n, i.hall[floor.toNat]? =
    some ⟨isWanted events (.hall floor .up),isWanted events (.hall floor .down)⟩
  peers : ∀ peer, peer ∈ i.cars ↔ peer ∈ lastAlive events
  state : ∀ peer car, i.cars[peer]? = some car → lastState peer events = some ⟨car.floor,car.behavior,car.motor⟩
  row : ∀ peer car, i.cars[peer]? = some car → car.cab.length = n.toNat ∧
    ∀ floor < n, car.cab[floor.toNat]? = some (isWanted events (.cab floor peer))

theorem reflects (self : PeerId) {i : Dispatch.Input} (asked : ((new self n).after events).view.input? = some i) :
    Reflects n events i := by
  have shaped := shaped_after self n events
  have complete : ((new self n).after events).view.isComplete = true := by
    rw [Dispatch.View.input?,Option.ite_none_right_eq_some] at asked
    exact asked.1
  have halls : i.hall = ((new self n).after events).view.hall := by
    rw [Dispatch.View.input?,if_pos complete] at asked
    cases asked
    rfl
  refine ⟨halls ▸ shaped.hall,fun floor served => ?hall,fun peer => ?peers,fun peer car told => ?state,
    fun peer car told => ?row⟩
  case hall =>
    have up : Call.floor (.hall floor .up) < n := served
    have down : Call.floor (.hall floor .down) < n := served
    rw [halls,Dispatch.View.hall_cell shaped served,isCalled_eq self up,isCalled_eq self down]
  case peers =>
    rw [← alive_after self n events,← ExtTreeMap.isSome_getElem?_iff_mem,Option.isSome_iff_exists]
    constructor
    · rintro ⟨car,told⟩
      exact ((Dispatch.View.cars_input asked).mp told).1
    · intro lives
      obtain ⟨known,row⟩ := Dispatch.View.isComplete_iff.mp complete peer lives
      obtain ⟨state,held⟩ := Option.isSome_iff_exists.mp (ExtTreeMap.isSome_getElem?_iff_mem.mpr known)
      obtain ⟨cells,found⟩ := Option.isSome_iff_exists.mp (ExtTreeMap.isSome_getElem?_iff_mem.mpr row)
      exact ⟨_,(Dispatch.View.cars_input asked).mpr
        ⟨lives,Dispatch.View.carInput?_eq_some.mpr ⟨state,cells,held,found,rfl⟩⟩⟩
  case state =>
    obtain ⟨state,_,held,_,rfl⟩ := Dispatch.View.carInput?_eq_some.mp ((Dispatch.View.cars_input asked).mp told).2
    rw [← state_after self n events,held]
  case row =>
    obtain ⟨_,cells,_,found,rfl⟩ := Dispatch.View.carInput?_eq_some.mp ((Dispatch.View.cars_input asked).mp told).2
    refine ⟨shaped.cab peer cells found,fun floor served => ?_⟩
    have inside : Call.floor (.cab floor peer) < n := served
    rw [Dispatch.View.cab_cell shaped served found,isCalled_eq self inside]

/-- Memberships, states of cars and decisions beyond the served floors alter no bit of a view. -/
theorem bits_take {t : Orders} (shaped : t.view.Shaped n) {e : Event}
    (aside : ∀ r, e = .settled r → ¬ r.belief.call.floor < n) :
    (t.take e).view.hall = t.view.hall ∧ ∀ peer, (t.take e).view.cabRow peer = t.view.cabRow peer := by
  cases e with
  | settled r =>
    have same : t.take (.settled r) = t := by
      rw [take,Dispatch.View.record_unserved shaped (aside r rfl)]
    rw [same]
    exact ⟨rfl,fun _ => rfl⟩
  | car c => exact ⟨rfl,Dispatch.View.cabRow_setCar t.view c⟩
  | membership alive => exact ⟨rfl,fun _ => rfl⟩

/-- Whatever an order task of `n` floors has been told, it has an input for the assigner exactly if every peer
    last said to be alive has reported a state, and then the input is what was last said of each peer and call.
    Every decision finds its cell, and only settled decisions about served floors alter a bit. -/
theorem input_reflects (self : PeerId) (n : UInt8) (events : List Event) :
    let v := ((new self n).after events).view
    (v.input?.isSome = true ↔ ∀ peer ∈ lastAlive events, ∃ state, .car ⟨peer,state⟩ ∈ events) ∧
    (∀ i, v.input? = some i → Reflects n events i) ∧
    (∀ b, v.accepts b = true → v.HasCell b.call) ∧
    ∀ e, (∀ r, e = .settled r → ¬ r.belief.call.floor < n) →
      let w := ((new self n).after (events ++ [e])).view
      w.hall = v.hall ∧ ∀ peer, w.cabRow peer = v.cabRow peer := by
  intro v
  have shaped : v.Shaped n := shaped_after self n events
  refine ⟨?_,fun i asked => reflects self asked,fun b accepted => shaped.hasCell accepted,fun e aside => ?_⟩
  · rw [← isComplete_after self n events,Dispatch.View.input?]
    split
    · rename_i complete
      exact iff_of_true rfl complete
    · rename_i incomplete
      exact iff_of_false (by simp) incomplete
  · intro w
    have next : w = (((new self n).after events).take e).view := congrArg view (after_snoc _ events e)
    rw [next]
    exact bits_take shaped aside

/-- While a peer is gone, its cab call is confirmed and a call beyond the top floor is decided. Then it is back. -/
def comeback : List Event :=
  [.car ⟨⟨1⟩,default⟩,.car ⟨⟨2⟩,default⟩,.membership (PeerSet.of [⟨1⟩]),.settled (.of ⟨1⟩ (.cab 3 ⟨2⟩) .confirmed),
    .settled (.of ⟨1⟩ (.cab 4 ⟨2⟩) .confirmed),.settled (.of ⟨2⟩ (.cab 3 ⟨2⟩) .unconfirmed),
    .car ⟨⟨2⟩,⟨3,.doorOpen,.stop⟩⟩,.membership (PeerSet.of [⟨1⟩,⟨2⟩])]

theorem comeback_told : ∃ i car, ((new ⟨1⟩ 4).after comeback).view.input? = some i ∧ i.cars[(⟨2⟩ : PeerId)]? = some car ∧
    car.floor = 3 ∧ car.cab.length = 4 ∧ car.cab[3]? = some true := by
  obtain ⟨complete,told,_⟩ := input_reflects ⟨1⟩ 4 comeback
  have asked : (((new ⟨1⟩ 4).after comeback).view.input?).isSome = true := by
    refine complete.mpr fun peer lives => ?_
    have listed : peer = ⟨1⟩ ∨ peer = ⟨2⟩ := by simpa [lastAlive,memberships,comeback] using lives
    rcases listed with rfl | rfl
    · exact ⟨default,by decide⟩
    · exact ⟨default,by decide⟩
  obtain ⟨i,input⟩ := Option.isSome_iff_exists.mp asked
  have reflects := told i input
  have known : (⟨2⟩ : PeerId) ∈ i.cars := (reflects.peers ⟨2⟩).mpr (by decide +kernel)
  obtain ⟨car,row⟩ := Option.isSome_iff_exists.mp (ExtTreeMap.isSome_getElem?_iff_mem.mpr known)
  obtain ⟨long,bits⟩ := reflects.row ⟨2⟩ car row
  have state : some (⟨3,.doorOpen,.stop⟩ : CarState) = some ⟨car.floor,car.behavior,car.motor⟩ := reflects.state ⟨2⟩ car row
  have wanted : isWanted comeback (.cab 3 ⟨2⟩) = true := by decide
  refine ⟨i,car,input,row,?_,long,(bits 3 (by decide)).trans (congrArg some wanted)⟩
  exact (CarState.mk.inj (Option.some.inj state)).1.symm

end Tasks.Orders
end ElevatorFleet
