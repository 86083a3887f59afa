import ElevatorFleet.Tasks.Requests
import ElevatorFleet.Proofs.Cycle

/-!
# Histories of a call board

A report changes the cycle of its own call only, and a new membership changes every
cycle on its own (`cycle_take`, `cycle_setAlive`). So a property of a board over its
whole history is one of cycles: a board that starts anew and takes reports and
memberships in any order keeps every cycle sound (`Reached.sound`), and confirms a call
only on the word of a peer or with a quorum in its own ledger (`status_next`).
-/
namespace ElevatorFleet
open Std Tasks

namespace CallBoard

/-- The cycle of a call. -/
def cycle (b : CallBoard) (call : Call) : Cycle := ⟨b.status call,b.ledger.witnesses? call⟩

@[simp] theorem cycle_status (b : CallBoard) (call : Call) : (b.cycle call).status = b.status call := rfl

@[simp] theorem cycle_witnesses (b : CallBoard) (call : Call) :
    (b.cycle call).witnesses = b.ledger.witnesses? call := rfl

theorem witnesses_eq (b : CallBoard) (call : Call) :
    b.ledger.witnesses call = (b.cycle call).witnesses.getD ∅ := rfl

@[simp] theorem self_hold (b : CallBoard) (call : Call) (s : Status) : (b.hold call s).self = b.self := by
  rw [hold]; split <;> rfl

@[simp] theorem alive_hold (b : CallBoard) (call : Call) (s : Status) : (b.hold call s).alive = b.alive := by
  rw [hold]; split <;> rfl

@[simp] theorem ledger_hold (b : CallBoard) (call : Call) (s : Status) : (b.hold call s).ledger = b.ledger := by
  rw [hold]; split <;> rfl

theorem status_hold (b : CallBoard) (call other : Call) {s : Status} (known : s ≠ .unknown) :
    (b.hold call s).status other = if call = other then s else b.status other := by
  simp [hold,known,status,ExtTreeMap.getD_insert]

theorem cycle_hold (b : CallBoard) (call other : Call) {s : Status} (known : s ≠ .unknown) :
    (b.hold call s).cycle other = if call = other then { b.cycle other with status := s } else b.cycle other := by
  rw [cycle,status_hold b call other known,ledger_hold]
  by_cases same : call = other
  · simp [same]
  · simp [same,cycle]

theorem cycle_confirm (b : CallBoard) (call other : Call) :
    (b.confirm call).cycle other = if call = other then .closed else b.cycle other := by
  by_cases same : call = other
  · simp [confirm,cycle,status,Ledger.witnesses?_reset,same,Cycle.closed]
  · simp [confirm,cycle,status,ExtTreeMap.getD_insert,Ledger.witnesses?_reset,same]

/-! ### What a report does -/

theorem cycle_onAbsent (b : CallBoard) (call other : Call) (self source : PeerId) (alive : PeerSet) :
    (b.onAbsent call).cycle other =
      if call = other then (b.cycle other).hear other self alive source .absent else b.cycle other := by
  by_cases same : call = other
  · subst same
    rw [onAbsent]
    cases held : b.status call <;> simp [Cycle.hear,held,cycle_hold]
  · rw [onAbsent]
    cases held : b.status call <;> simp [same,cycle_hold]

theorem cycle_onConfirmed (b : CallBoard) (call other : Call) (self source : PeerId) (alive : PeerSet) :
    (b.onConfirmed call).cycle other =
      if call = other then (b.cycle other).hear other self alive source .confirmed else b.cycle other := by
  by_cases same : call = other
  · subst same
    rw [onConfirmed]
    cases held : b.status call <;> simp [Cycle.hear,held,cycle_confirm]
  · rw [onConfirmed]
    cases held : b.status call <;> simp [same,cycle_confirm]

/-- The ledger once `source` and `self` have witnessed a call. -/
theorem witnesses?_witnessed (b : CallBoard) (call other : Call) (source self : PeerId) :
    ((b.ledger.witness call source).witness call self).witnesses? other =
      if call = other then some ((b.cycle other).joined source self) else b.ledger.witnesses? other := by
  by_cases same : call = other
  · subst same
    simp [Ledger.witnesses?_witness,Cycle.joined,Ledger.witnesses]
  · simp [Ledger.witnesses?_witness,same]

theorem cycle_onUnconfirmed (b : CallBoard) (call other : Call) (source : PeerId) :
    (b.onUnconfirmed call source).cycle other =
      if call = other then (b.cycle other).hear other b.self b.alive source .unconfirmed else b.cycle other := by
  rw [onUnconfirmed]
  by_cases held : b.status call = .confirmed
  · by_cases same : call = other
    · subst same; simp [held,Cycle.hear]
    · simp [held,same]
  · have quorum := Ledger.hasQuorum_iff ((b.ledger.witness call source).witness call b.self) call b.alive
    rw [witnesses?_witnessed] at quorum
    simp only [↓reduceIte,Option.some.injEq,exists_eq_left'] at quorum
    by_cases agreed : call.AgreedBy ((b.cycle call).joined source b.self) b.alive
    · rw [if_neg held,if_pos (quorum.mpr agreed),cycle_confirm]
      by_cases same : call = other
      · subst same; simp [Cycle.hear,held,agreed]
      · simp [same,cycle,status,witnesses?_witnessed]
    · rw [if_neg held,if_neg (fun yes => agreed (quorum.mp yes)),cycle_hold _ _ _ (by decide)]
      by_cases same : call = other
      · subst same; simp [Cycle.hear,held,agreed,witnesses?_witnessed]
      · simp [same,cycle,status,witnesses?_witnessed]

/-- A report changes the cycle of its own call and no other. -/
theorem cycle_take (b : CallBoard) (r : Report) (call : Call) :
    (b.take r).cycle call =
      if r.belief.call = call then (b.cycle call).hear call b.self b.alive r.source r.belief.status
      else b.cycle call := by
  rw [take]
  cases told : r.belief.status with
  | unknown => simp [Cycle.hear]
  | absent => exact cycle_onAbsent b r.belief.call call b.self r.source b.alive
  | unconfirmed => exact cycle_onUnconfirmed b r.belief.call call r.source
  | confirmed => exact cycle_onConfirmed b r.belief.call call b.self r.source b.alive

theorem self_take (b : CallBoard) (r : Report) : (b.take r).self = b.self := by
  rw [take]
  cases r.belief.status with
  | unknown => rfl
  | absent => simp only [onAbsent]; split <;> simp
  | unconfirmed =>
    simp only [onUnconfirmed]
    split
    · rfl
    · split <;> simp [confirm]
  | confirmed => simp only [onConfirmed]; split <;> simp [confirm]

theorem alive_take (b : CallBoard) (r : Report) : (b.take r).alive = b.alive := by
  rw [take]
  cases r.belief.status with
  | unknown => rfl
  | absent => simp only [onAbsent]; split <;> simp
  | unconfirmed =>
    simp only [onUnconfirmed]
    split
    · rfl
    · split <;> simp [confirm]
  | confirmed => simp only [onConfirmed]; split <;> simp [confirm]

/-! ### What a membership does -/

theorem mem_pending (b : CallBoard) (call : Call) : call ∈ b.pending ↔ b.status call = .unconfirmed := by
  simp only [pending,List.mem_filterMap,Prod.exists,status]
  constructor
  · rintro ⟨key,held,entry,kept⟩
    rw [ExtTreeMap.mem_toList_iff_getElem?_eq_some] at entry
    split at kept
    · rename_i isUnconfirmed
      cases kept
      rw [ExtTreeMap.getD_eq_getD_getElem?,entry]
      exact isUnconfirmed
    · cases kept
  · intro held
    refine ⟨call,.unconfirmed,?_,by simp⟩
    rw [ExtTreeMap.mem_toList_iff_getElem?_eq_some]
    rw [ExtTreeMap.getD_eq_getD_getElem?] at held
    cases entry : b.statuses[call]? with
    | none => rw [entry] at held; cases held
    | some s => rw [entry] at held; exact congrArg some held

/-- The calls that a membership releases are those whose cycle is due under it. -/
theorem mem_released (b : CallBoard) (alive : PeerSet) (call : Call) :
    call ∈ b.released alive ↔ (b.cycle call).Due call alive := by
  rw [released,List.mem_filter,mem_pending,Ledger.hasQuorum_iff]
  rfl

theorem foldl_confirm (calls : List Call) (b : CallBoard) (call : Call) :
    (calls.foldl confirm b).cycle call = (if call ∈ calls then .closed else b.cycle call) ∧
      (calls.foldl confirm b).self = b.self ∧ (calls.foldl confirm b).alive = b.alive := by
  induction calls generalizing b with
  | nil => simp
  | cons head rest ih =>
    obtain ⟨cycles,self,alive⟩ := ih (b.confirm head)
    refine ⟨?_,self,alive⟩
    rw [List.foldl_cons,cycles,cycle_confirm]
    by_cases later : call ∈ rest
    · simp [later]
    · by_cases same : head = call
      · simp [same]
      · simp [later,same,Ne.symm same]

/-- A new membership confirms the calls that are due under it and leaves every other
    cycle as it is. -/
theorem cycle_setAlive (b : CallBoard) (alive : PeerSet) (call : Call) :
    (b.setAlive alive).1.cycle call =
      if alive = b.alive then b.cycle call else (b.cycle call).review call alive := by
  rw [setAlive]
  split
  · rfl
  · rw [(foldl_confirm _ _ _).1,Cycle.review]
    by_cases due : (b.cycle call).Due call alive
    · simp [due,(mem_released b alive call).mpr due]
    · have kept : call ∉ b.released alive := fun member => due ((mem_released b alive call).mp member)
      simp only [kept,due,↓reduceIte]
      rfl

theorem beliefs_setAlive (b : CallBoard) (alive : PeerSet) :
    (b.setAlive alive).2 =
      if alive = b.alive then [] else (b.released alive).map fun call => ⟨call,.confirmed⟩ := by
  rw [setAlive]; split <;> rfl

theorem self_setAlive (b : CallBoard) (alive : PeerSet) : (b.setAlive alive).1.self = b.self := by
  rw [setAlive]
  split
  · rfl
  · exact (foldl_confirm _ _ (default : Call)).2.1

theorem alive_setAlive (b : CallBoard) (alive : PeerSet) : (b.setAlive alive).1.alive = alive := by
  rw [setAlive]
  split
  · rename_i same; exact same.symm
  · exact (foldl_confirm _ _ (default : Call)).2.2

/-! ### Histories -/

/-- The board after an event. -/
def next (b : CallBoard) (e : Requests.Event) : CallBoard := (Requests.decide b e).1

/-- The board after several events. -/
def after (b : CallBoard) (events : List Requests.Event) : CallBoard := events.foldl next b

theorem after_append (b : CallBoard) (past later : List Requests.Event) :
    b.after (past ++ later) = (b.after past).after later :=
  List.foldl_append

theorem after_snoc (b : CallBoard) (past : List Requests.Event) (e : Requests.Event) :
    b.after (past ++ [e]) = (b.after past).next e :=
  after_append b past [e]

/-- The events, each with the board that takes it. -/
def trace (b : CallBoard) : List Requests.Event → List (CallBoard × Requests.Event)
  | [] => []
  | e :: rest => (b,e) :: (b.next e).trace rest

/-- The boards of `self` that come about by any reports and memberships. -/
inductive Reached (self : PeerId) : CallBoard → Prop where
  | new : Reached self (.new self)
  | next {b : CallBoard} (e : Requests.Event) : Reached self b → Reached self (b.next e)

theorem status_take_other {b : CallBoard} {r : Report} {call : Call} (other : r.belief.call ≠ call) :
    (b.take r).status call = b.status call := by
  have cycles := cycle_take b r call
  rw [if_neg other] at cycles
  exact congrArg Cycle.status cycles

theorem next_report (b : CallBoard) (r : Report) : b.next (.report r) = b.take r := rfl

theorem next_membership (b : CallBoard) (alive : PeerSet) : b.next (.membership alive) = (b.setAlive alive).1 := rfl

@[simp] theorem self_next (b : CallBoard) (e : Requests.Event) : (b.next e).self = b.self := by
  cases e with
  | report r => exact self_take b r
  | membership alive => exact self_setAlive b alive

theorem self_after (b : CallBoard) (events : List Requests.Event) : (b.after events).self = b.self := by
  induction events generalizing b with
  | nil => rfl
  | cons e rest ih => exact (ih (b.next e)).trans (self_next b e)

theorem alive_next (b : CallBoard) (e : Requests.Event) :
    (b.next e).alive = match e with | .report _ => b.alive | .membership alive => alive := by
  cases e with
  | report r => exact alive_take b r
  | membership alive => exact alive_setAlive b alive

/-- What holds of a board and is kept by each event of its trace holds of every board
    in the trace and of the last one. -/
theorem trace_induct {K : CallBoard → Prop} {events : List Requests.Event} {b : CallBoard} (holds : K b)
    (step : ∀ t ∈ b.trace events, K t.1 → K (t.1.next t.2)) :
    (∀ t ∈ b.trace events, K t.1) ∧ K (b.after events) := by
  induction events generalizing b with
  | nil => exact ⟨by simp [trace],holds⟩
  | cons e rest ih =>
    have first : K (b.next e) := step (b,e) List.mem_cons_self holds
    obtain ⟨inside,last⟩ := ih first (fun t member => step t (List.mem_cons_of_mem _ member))
    refine ⟨fun t member => ?_,last⟩
    rcases List.mem_cons.mp member with same | later
    · exact same ▸ holds
    · exact inside t later

theorem alive_after_reports (b : CallBoard) (reports : List Report) :
    (b.after (reports.map .report)).alive = b.alive := by
  induction reports generalizing b with
  | nil => rfl
  | cons r rest ih => exact (ih (b.take r)).trans (alive_take b r)

theorem event_of_trace {events : List Requests.Event} {b : CallBoard} {t : CallBoard × Requests.Event}
    (member : t ∈ b.trace events) : t.2 ∈ events := by
  induction events generalizing b with
  | nil => simp [trace] at member
  | cons e rest ih =>
    rcases List.mem_cons.mp member with same | later
    · exact same ▸ List.mem_cons_self
    · exact List.mem_cons_of_mem _ (ih later)

theorem self_of_trace {events : List Requests.Event} {b : CallBoard} {t : CallBoard × Requests.Event}
    (member : t ∈ b.trace events) : t.1.self = b.self :=
  (trace_induct (K := fun board => board.self = b.self) rfl (fun t _ same => (self_next t.1 t.2).trans same)).1 t member

/-- Of several reports about a call that agree in source and status only one counts. -/
theorem cycle_after_reports {reports : List Report} {call : Call} {source : PeerId} {told : Status}
    (alike : ∀ r ∈ reports, r.belief.call = call → r.source = source ∧ r.belief.status = told) (b : CallBoard) :
    (b.after (reports.map .report)).cycle call =
      if call ∈ reports.map (fun r => r.belief.call) then (b.cycle call).hear call b.self b.alive source told
      else b.cycle call := by
  induction reports generalizing b with
  | nil => rfl
  | cons r rest ih =>
    have later := ih (fun r' member => alike r' (List.mem_cons_of_mem _ member)) (b.take r)
    rw [self_take,alive_take,cycle_take] at later
    refine (show ((b.take r).after (rest.map .report)).cycle call = _ from later).trans ?_
    by_cases about : r.belief.call = call
    · obtain ⟨sender,same⟩ := alike r List.mem_cons_self about
      rw [if_pos about,sender,same,Cycle.hear_hear,ite_self,if_pos (by simp [about])]
    · simp [about,Ne.symm about]

/-- The board is itself a witness of exactly the calls that are unconfirmed, and leaves
    no call unconfirmed that has a quorum. -/
def Sound (b : CallBoard) : Prop := ∀ call, (b.cycle call).Sound call b.self b.alive

theorem Sound.next {b : CallBoard} (sound : b.Sound) (e : Requests.Event) : (b.next e).Sound := by
  intro call
  cases e with
  | report r =>
    rw [next_report,cycle_take,self_take,alive_take]
    split
    · exact Cycle.sound_hear (sound call) r.source r.belief.status
    · exact sound call
  | membership alive =>
    rw [next_membership,cycle_setAlive,self_setAlive,alive_setAlive]
    split
    · rename_i same
      exact same ▸ sound call
    · exact Cycle.sound_review (sound call) alive

theorem cycle_new (self : PeerId) (call : Call) : (new self).cycle call = ⟨.unknown,none⟩ := by
  simp [new,cycle,status,Ledger.empty,Ledger.witnesses?]

theorem status_new (self : PeerId) (call : Call) : (new self).status call = .unknown :=
  congrArg Cycle.status (cycle_new self call)

theorem Reached.sound {self : PeerId} {b : CallBoard} (reached : b.Reached self) : b.Sound := by
  induction reached with
  | new => intro call; rw [cycle_new]; exact ⟨by simp,by simp,by simp⟩
  | next e _ ih => exact ih.next e

theorem Reached.self {self : PeerId} {b : CallBoard} (reached : b.Reached self) : b.self = self := by
  induction reached with
  | new => rfl
  | next e _ ih => exact (self_next _ e).trans ih

theorem Reached.after {self : PeerId} {b : CallBoard} (reached : b.Reached self) (events : List Requests.Event) :
    (b.after events).Reached self := by
  induction events generalizing b with
  | nil => exact reached
  | cons e rest ih => exact ih (reached.next e)

/-! ### How a cycle changes -/

/-- The witnesses of a call that a board counts when it takes an event: those in its
    ledger and, with an unconfirmed report about the call, also the source of the
    report and the controller itself. -/
def tally (b : CallBoard) (call : Call) : Requests.Event → PeerSet
  | .report r =>
    if r.belief = ⟨call,.unconfirmed⟩ then ((b.ledger.witnesses call).insert r.source).insert b.self
    else b.ledger.witnesses call
  | .membership _ => b.ledger.witnesses call

theorem mem_tally {b : CallBoard} {call : Call} {e : Requests.Event} {p : PeerId} :
    p ∈ b.tally call e ↔ p ∈ b.ledger.witnesses call ∨
      ∃ r, e = .report r ∧ r.belief = ⟨call,.unconfirmed⟩ ∧ (p = b.self ∨ p = r.source) := by
  cases e with
  | report r =>
    rw [tally]
    split
    · rename_i told
      rw [PeerSet.mem_insert,PeerSet.mem_insert]
      constructor
      · rintro (same | same | old)
        · exact .inr ⟨r,rfl,told,.inl same⟩
        · exact .inr ⟨r,rfl,told,.inr same⟩
        · exact .inl old
      · rintro (old | ⟨_,⟨⟩,_,same | same⟩)
        · exact .inr (.inr old)
        · exact .inl same
        · exact .inr (.inl same)
    · rename_i other
      constructor
      · exact .inl
      · rintro (old | ⟨_,⟨⟩,told,_⟩)
        · exact old
        · exact absurd told other
  | membership alive => simp [tally]

/-- With the event the board confirms a call by its own ledger and not on the word of
    a peer: the witnesses it counts include everybody alive and are as many as the
    call needs. -/
structure ConfirmsByLedger (b : CallBoard) (call : Call) (e : Requests.Event) : Prop where
  before : b.status call ≠ .confirmed
  after : (b.next e).status call = .confirmed
  own : ∀ r, e = .report r → r.belief.status ≠ .confirmed
  covered : ∀ p ∈ (b.next e).alive, p ∈ b.tally call e
  enough : call.quorum ≤ (b.tally call e).size

/-- The status of a call after an event is the old one, the one that a report about the
    call tells, or confirmed by the own ledger. -/
theorem status_next (b : CallBoard) (call : Call) (e : Requests.Event) :
    (b.next e).status call = b.status call ∨
      (∃ r, e = .report r ∧ r.belief = ⟨call,(b.next e).status call⟩) ∨ b.ConfirmsByLedger call e := by
  cases e with
  | report r =>
    have cycles := cycle_take b r call
    rw [← next_report] at cycles
    by_cases about : r.belief.call = call
    · rw [if_pos about] at cycles
      rw [← cycle_status,cycles]
      rcases Cycle.status_hear call b.self b.alive (b.cycle call) r.source r.belief.status with
        old | told | ⟨told,before,agreed,after⟩
      · exact .inl old
      · exact .inr (.inl ⟨r,rfl,by rw [told,← about]⟩)
      · have counted : b.tally call (.report r) = (b.cycle call).joined r.source b.self := by
          rw [tally,if_pos (by rw [← told,← about])]; rfl
        refine .inr (.inr ⟨before,?_,?_,?_,?_⟩)
        · rw [← cycle_status,cycles,after]; rfl
        · rintro other same isConfirmed
          cases same
          rw [told] at isConfirmed
          cases isConfirmed
        · rw [alive_next,counted]; exact agreed.2
        · rw [counted]; exact agreed.1
    · rw [if_neg about] at cycles
      exact .inl (congrArg Cycle.status cycles)
  | membership alive =>
    have cycles := cycle_setAlive b alive call
    rw [← next_membership] at cycles
    split at cycles
    · exact .inl (congrArg Cycle.status cycles)
    · by_cases due : (b.cycle call).Due call alive
      · rw [Cycle.review,if_pos due] at cycles
        obtain ⟨isUnconfirmed,peers,entry,agreed⟩ := due
        rw [cycle_status] at isUnconfirmed
        have counted : b.tally call (.membership alive) = peers := by
          rw [tally,witnesses_eq,entry]; rfl
        refine .inr (.inr ⟨?_,congrArg Cycle.status cycles,?_,?_,?_⟩)
        · rw [isUnconfirmed]; decide
        · rintro r same; cases same
        · rw [alive_next,counted]; exact agreed.2
        · rw [counted]; exact agreed.1
      · rw [Cycle.review,if_neg due] at cycles
        exact .inl (congrArg Cycle.status cycles)

/-- A call that is unknown was unknown before. -/
theorem unknown_next {b : CallBoard} {call : Call} {e : Requests.Event} (after : (b.next e).status call = .unknown) :
    b.status call = .unknown := by
  rcases status_next b call e with old | ⟨r,rfl,told⟩ | confirms
  · rw [← old]; exact after
  · rw [after,Belief.eq_iff] at told
    have cycles := cycle_take b r call
    rw [if_pos told.1,told.2,← next_report] at cycles
    exact (congrArg Cycle.status cycles).symm.trans after
  · rw [confirms.after] at after; cases after

/-- The witnesses in the ledger after an event are among those counted with it. -/
theorem witness_next {b : CallBoard} {call : Call} {e : Requests.Event} {p : PeerId}
    (member : p ∈ (b.next e).ledger.witnesses call) : p ∈ b.tally call e := by
  rw [witnesses_eq] at member
  rw [mem_tally]
  cases e with
  | report r =>
    rw [next_report,cycle_take] at member
    split at member
    · rename_i about
      rcases Cycle.witness_hear member with old | ⟨told,own⟩
      · exact .inl old
      · exact .inr ⟨r,rfl,by rw [← told,← about],own⟩
    · exact .inl member
  | membership alive =>
    rw [next_membership,cycle_setAlive] at member
    split at member
    · exact .inl member
    · exact .inl (Cycle.witness_review member)

/-! ### What is stored -/

/-- Unknown is never stored: a call that nothing was heard of has no entry. -/
def Known (b : CallBoard) : Prop := ∀ call : Call, b.statuses[call]? ≠ some Status.unknown

theorem known_new (self : PeerId) : (new self).Known := by
  intro call
  simp [new]

theorem Known.insert {b : CallBoard} (known : b.Known) (call : Call) {s : Status} (told : s ≠ .unknown) :
    Known { b with statuses := b.statuses.insert call s } := by
  intro other
  rw [ExtTreeMap.getElem?_insert]
  split
  · exact fun same => told (Option.some.inj same)
  · exact known other

theorem Known.hold {b : CallBoard} (known : b.Known) (call : Call) (s : Status) : (b.hold call s).Known := by
  rw [CallBoard.hold]
  split
  · exact known
  · rename_i told
    exact known.insert call told

theorem Known.confirm {b : CallBoard} (known : b.Known) (call : Call) : (b.confirm call).Known :=
  known.insert call (by decide)

theorem Known.take {b : CallBoard} (known : b.Known) (r : Report) : (b.take r).Known := by
  rw [CallBoard.take]
  cases r.belief.status with
  | unknown => exact known
  | absent =>
    simp only [onAbsent]
    split
    · exact known.hold _ _
    · exact known.hold _ _
    · exact known
    · exact known
  | unconfirmed =>
    simp only [onUnconfirmed]
    split
    · exact known
    · have witnessed (l : Ledger) : Known { b with ledger := l } := known
      split
      · exact (witnessed _).confirm _
      · exact (witnessed _).hold _ _
  | confirmed =>
    simp only [onConfirmed]
    split
    · exact known.confirm _
    · exact known.confirm _
    · exact known
    · exact known

theorem Known.next {b : CallBoard} (known : b.Known) (e : Requests.Event) : (b.next e).Known := by
  cases e with
  | report r => exact known.take r
  | membership alive =>
    rw [next_membership,setAlive]
    split
    · exact known
    · exact List.foldlRecOn _ _ (show Known { b with alive := alive } from known) fun _ held call _ => held.confirm call

theorem Known.after {b : CallBoard} (known : b.Known) (events : List Requests.Event) : (b.after events).Known := by
  induction events generalizing b with
  | nil => exact known
  | cons e rest ih => exact ih (known.next e)

theorem Sound.after {b : CallBoard} (sound : b.Sound) (events : List Requests.Event) : (b.after events).Sound := by
  induction events generalizing b with
  | nil => exact sound
  | cons e rest ih => exact ih (sound.next e)

theorem Reached.known {self : PeerId} {b : CallBoard} (reached : b.Reached self) : b.Known := by
  induction reached with
  | new => exact known_new self
  | next e _ ih => exact ih.next e

/-- A board is made up of its cycles, its own name and its membership. -/
theorem eq_of_cycles {a b : CallBoard} (known : a.Known) (known' : b.Known) (self : a.self = b.self)
    (alive : a.alive = b.alive) (cycles : ∀ call, a.cycle call = b.cycle call) : a = b := by
  have statuses : a.statuses = b.statuses := by
    apply ExtTreeMap.ext_getElem?
    intro call
    have same : a.status call = b.status call := congrArg Cycle.status (cycles call)
    rw [status,status,ExtTreeMap.getD_eq_getD_getElem?,ExtTreeMap.getD_eq_getD_getElem?] at same
    have own := known call
    have other := known' call
    cases left : a.statuses[call]? <;> cases right : b.statuses[call]? <;> simp_all
  have entries : a.ledger.entries = b.ledger.entries :=
    ExtTreeMap.ext_getElem? fun call => congrArg Cycle.witnesses (cycles call)
  have ledger : a.ledger = b.ledger := congrArg Ledger.mk entries
  calc a = ⟨a.self,a.statuses,a.ledger,a.alive⟩ := rfl
    _ = ⟨b.self,b.statuses,b.ledger,b.alive⟩ := by rw [self,statuses,ledger,alive]
    _ = b := rfl

end CallBoard
end ElevatorFleet
