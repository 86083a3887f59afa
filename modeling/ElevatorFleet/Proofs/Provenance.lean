import ElevatorFleet.Proofs.Network

/-!
# Where confirmations and witnesses come from

In an honest run controllers hear from outside of nothing but presses and clears at
themselves, and of everything else through snapshots. Nothing in such a run is believed
without a cause: whoever holds a call to be confirmed does so because a board has
confirmed it by its own ledger (`decided_of_confirmed`), every witness in a ledger has
taken an unconfirmed report about the call itself (`truthful_run`), and somebody has
pressed the button (`pressed_of_raised`). Lost, late, repeated and reordered snapshots,
memberships of any kind and restarts change nothing about that.
-/
namespace ElevatorFleet
open Std Tasks

namespace Network

/-- By the log the controller of `peer` has taken an unconfirmed report about the call. -/
def Heard (log : List Taken) (call : Call) (peer : PeerId) : Prop :=
  ∃ t ∈ log, t.peer = peer ∧ ∃ r, t.event = .report r ∧ r.belief = ⟨call,.unconfirmed⟩

/-- By the log a board has confirmed the call by its own ledger. -/
def Decided (log : List Taken) (call : Call) : Prop := ∃ t ∈ log, t.board.ConfirmsByLedger call t.event

/-- Some controller holds the call to be confirmed: its board, its registry or its view,
    or a snapshot on the way. -/
def Believed (w : Network) (call : Call) : Prop :=
  (∃ peer car, w.car? peer = some car ∧ (car.board.status call = .confirmed ∨
      car.replica.registry.status call = .confirmed ∨ car.view.isCalled call = true)) ∨
    ∃ m ∈ w.sent, m.registry.status call = .confirmed

/-- Some controller holds the call to be unconfirmed or confirmed, or a snapshot does. -/
def Raised (w : Network) (call : Call) : Prop :=
  (∃ peer car, w.car? peer = some car ∧
      ((car.board.status call).Raised ∨ (car.replica.registry.status call).Raised)) ∨
    ∃ m ∈ w.sent, (m.registry.status call).Raised

/-- The first controller is pressed and tells the second one, which confirms the call.
    Then the first one restarts and takes the second one's word for it. -/
def handover : List Move :=
  [.act ⟨1⟩ (.car default),.act ⟨2⟩ (.car default),
    .act ⟨1⟩ (.boardAlive (.of [⟨1⟩,⟨2⟩])),.act ⟨2⟩ (.boardAlive (.of [⟨1⟩,⟨2⟩])),
    .press ⟨1⟩ (.hall 1 .up),.send ⟨1⟩,.deliver 0 ⟨2⟩,.restart ⟨1⟩ 4 1000,.send ⟨2⟩,.deliver 1 ⟨1⟩]

variable {start : Network} {moves : List Move} {call : Call}

theorem Heard.later {log more : List Taken} {peer : PeerId} (heard : Heard log call peer) :
    Heard (log ++ more) call peer := by
  obtain ⟨t,member,rest⟩ := heard
  exact ⟨t,List.mem_append_left _ member,rest⟩

theorem Decided.later {log more : List Taken} (decided : Decided log call) : Decided (log ++ more) call := by
  obtain ⟨t,member,confirms⟩ := decided
  exact ⟨t,List.mem_append_left _ member,confirms⟩

/-! ### Confirmations -/

/-- In an honest run boards, views and snapshots confirm only what a board has confirmed
    by its own ledger. -/
theorem decided_of_confirmed (fresh : start.Fresh) (honest : ∀ mv ∈ moves, mv.Honest) (call : Call) :
    (∀ peer car, (start.run moves).car? peer = some car →
      car.board.status call = .confirmed ∨ car.view.isCalled call = true → Decided (start.log moves) call) ∧
    ∀ m ∈ (start.run moves).sent, m.registry.status call = .confirmed → Decided (start.log moves) call := by
  refine run_keeps fresh
    (fun log _ car => car.board.status call = .confirmed ∨ car.view.isCalled call = true → Decided log call)
    (fun log m => m.registry.status call = .confirmed → Decided log call)
    (fun own held => (own held).later) (fun told held => (told held).later) ?_ ?_ ?_ honest
  · rintro log peer n timeout (held | on)
    · cases (CallBoard.status_new peer call).symm.trans held
    · cases (Dispatch.View.isCalled_new n call).symm.trans on
  · intro log peer car n m own reached outbound held
    rcases (outbound_told reached outbound call).2 with unknown | same
    · cases unknown.symm.trans held
    · exact own (.inl (same.symm.trans held))
  · intro w mv log peer car e manned honest found makes own told
    -- A board confirms on the word of a snapshot, or it is itself in the log.
    have step : ∀ t ∈ car.board.trace (car.inputs w.fleet.now e),
        (t.1.status call = .confirmed → Decided (log ++ w.taken mv) call) →
        (t.1.next t.2).status call = .confirmed → Decided (log ++ w.taken mv) call := by
      intro t member before after
      rcases CallBoard.status_next t.1 call t.2 with old | ⟨r,event,belief⟩ | confirms
      · exact before (old.symm.trans after)
      · have given := event ▸ CallBoard.event_of_trace member
        rw [after,Belief.eq_iff] at belief
        rcases report_origin manned honest found makes given with ⟨_,_,pressed | cleared⟩ | ⟨_,m,_,sent,_,same⟩
        · cases belief.2.symm.trans pressed
        · cases belief.2.symm.trans cleared
        · rw [belief.1,belief.2] at same
          exact (told m (List.mem_of_getElem? sent) same.symm).later
      · exact ⟨⟨peer,t.1,t.2⟩,List.mem_append_right _ (mem_taken.mpr ⟨car,e,found,makes,member⟩),confirms⟩
    obtain ⟨inside,last⟩ := CallBoard.trace_induct
      (K := fun board => board.status call = .confirmed → Decided (log ++ w.taken mv) call)
      (fun held => (own (.inl held)).later) step
    rintro (held | on)
    · rw [Controller.board_react] at held
      exact last held
    · rcases Controller.view_react on with old | ⟨t,member,confirmed⟩
      · exact (own (.inr old)).later
      · exact step t member (inside t member) confirmed

/-- Whatever is believed to be confirmed in an honest run was confirmed by some board
    out of its own ledger in an earlier step: the witnesses that it counted then
    included everybody whom it believed alive and were as many as the call needs. -/
theorem confirmed_decided (fresh : start.Fresh) (honest : ∀ mv ∈ moves, mv.Honest) {call : Call}
    (believed : (start.run moves).Believed call) :
    ∃ past mv later, moves = past ++ mv :: later ∧
      ∃ t ∈ (start.run past).taken mv, t.board.ConfirmsByLedger call t.event := by
  obtain ⟨cars,snapshots⟩ := decided_of_confirmed fresh honest call
  have decided : Decided (start.log moves) call := by
    rcases believed with ⟨peer,car,found,board | registry | view⟩ | ⟨m,sent,held⟩
    · exact cars peer car found (.inl board)
    · obtain ⟨n,reached⟩ := fresh.manned.run moves peer car found
      rcases reached.mirrors.told call with unknown | same
      · cases unknown.symm.trans registry
      · exact cars peer car found (.inl (same.symm.trans registry))
    · exact cars peer car found (.inr view)
    · exact snapshots m sent held
  obtain ⟨t,member,confirms⟩ := decided
  obtain ⟨past,mv,later,same,taken⟩ := mem_log.mp member
  exact ⟨past,mv,later,same,t,taken,confirms⟩

theorem believed_of_status {w : Network} {call : Call} (peer : PeerId) (held : w.status? peer call = some .confirmed) :
    w.Believed call := by
  obtain ⟨car,found,confirmed⟩ := status?_eq_some.mp held
  exact .inl ⟨peer,car,found,.inl confirmed⟩

theorem handover_decided : (pair.run handover).Believed (.hall 1 .up) ∧
    ∃ past mv later, handover = past ++ mv :: later ∧
      ∃ t ∈ (pair.run past).taken mv, t.board.ConfirmsByLedger (.hall 1 .up) t.event := by
  have believed : (pair.run handover).Believed (.hall 1 .up) := believed_of_status ⟨1⟩ (by decide +kernel)
  exact ⟨believed,confirmed_decided (fresh_new _ _ _) (by decide) believed⟩

/-! ### Witnesses -/

/-- In an honest run a report that tells a board the call to be unconfirmed comes from
    a press there, or from a controller that has itself taken such a report. -/
theorem heard_of_told {w : Network} (manned : w.Manned) {mv : Move} (honest : mv.Honest) {log : List Taken}
    (told : ∀ m ∈ w.sent, m.registry.status call = .unconfirmed → Heard log call m.source) {peer : PeerId}
    {e : Controller.Event} {car : Controller} (found : w.car? peer = some car) (makes : w.event? mv = some (peer,e))
    {t : CallBoard × Requests.Event} (member : t ∈ car.board.trace (car.inputs w.fleet.now e)) {r : Report}
    (event : t.2 = .report r) (belief : r.belief = ⟨call,.unconfirmed⟩) {p : PeerId}
    (counted : p = t.1.self ∨ p = r.source) : Heard (log ++ w.taken mv) call p := by
  obtain ⟨n,reached⟩ := manned peer car found
  have here : Heard (log ++ w.taken mv) call peer :=
    ⟨⟨peer,t.1,t.2⟩,List.mem_append_right _ (mem_taken.mpr ⟨car,e,found,makes,member⟩),rfl,r,event,belief⟩
  rcases counted with own | source
  · rw [own,CallBoard.self_of_trace member,reached.board.self]
    exact here
  · have given := event ▸ CallBoard.event_of_trace member
    rcases report_origin manned honest found makes given with ⟨_,pressed,_⟩ | ⟨_,m,_,sent,sender,same⟩
    · rw [source,pressed]
      exact here
    · rw [Belief.eq_iff] at belief
      rw [belief.1,belief.2] at same
      rw [source,sender]
      exact (told m (List.mem_of_getElem? sent) same.symm).later

/-- A controller has itself taken an unconfirmed report about the call if it holds it to
    be unconfirmed, and so have all the witnesses in its ledger. -/
structure Truthful (log : List Taken) (call : Call) (peer : PeerId) (b : CallBoard) : Prop where
  witnesses : ∀ p ∈ b.ledger.witnesses call, Heard log call p
  holder : b.status call = .unconfirmed → Heard log call peer

theorem Truthful.later {log more : List Taken} {peer : PeerId} {b : CallBoard} (truthful : Truthful log call peer b) :
    Truthful (log ++ more) call peer b :=
  ⟨fun p member => (truthful.witnesses p member).later,fun held => (truthful.holder held).later⟩

/-- In the course of a move boards stay truthful, and everybody whom they count has
    taken an unconfirmed report. -/
theorem Truthful.trace {w : Network} (manned : w.Manned) {mv : Move} (honest : mv.Honest) {log : List Taken}
    (told : ∀ m ∈ w.sent, m.registry.status call = .unconfirmed → Heard log call m.source) {peer : PeerId}
    {e : Controller.Event} {car : Controller} (found : w.car? peer = some car) (makes : w.event? mv = some (peer,e))
    (truthful : Truthful log call peer car.board) :
    (∀ t ∈ car.board.trace (car.inputs w.fleet.now e), ∀ p ∈ t.1.tally call t.2, Heard (log ++ w.taken mv) call p) ∧
      Truthful (log ++ w.taken mv) call peer (car.react w.fleet.now e).board := by
  obtain ⟨n,reached⟩ := manned peer car found
  have counted : ∀ t ∈ car.board.trace (car.inputs w.fleet.now e),
      Truthful (log ++ w.taken mv) call peer t.1 → ∀ p ∈ t.1.tally call t.2, Heard (log ++ w.taken mv) call p := by
    intro t member before p inside
    rcases CallBoard.mem_tally.mp inside with old | ⟨r,event,belief,which⟩
    · exact before.witnesses p old
    · exact heard_of_told manned honest told found makes member event belief which
  have step : ∀ t ∈ car.board.trace (car.inputs w.fleet.now e),
      Truthful (log ++ w.taken mv) call peer t.1 → Truthful (log ++ w.taken mv) call peer (t.1.next t.2) := by
    intro t member before
    refine ⟨fun p inside => counted t member before p (CallBoard.witness_next inside),fun held => ?_⟩
    rcases CallBoard.status_next t.1 call t.2 with old | ⟨r,event,belief⟩ | confirms
    · exact before.holder (old.symm.trans held)
    · rw [held] at belief
      refine heard_of_told manned honest told found makes member event belief (.inl ?_)
      rw [CallBoard.self_of_trace member,reached.board.self]
    · cases confirms.after.symm.trans held
  obtain ⟨inside,last⟩ := CallBoard.trace_induct (K := Truthful (log ++ w.taken mv) call peer) truthful.later step
  rw [Controller.board_react]
  exact ⟨fun t member => counted t member (inside t member),last⟩

theorem truthful_run (fresh : start.Fresh) (honest : ∀ mv ∈ moves, mv.Honest) (call : Call) :
    (∀ peer car, (start.run moves).car? peer = some car → Truthful (start.log moves) call peer car.board) ∧
      ∀ m ∈ (start.run moves).sent, m.registry.status call = .unconfirmed → Heard (start.log moves) call m.source := by
  refine run_keeps fresh (fun log peer car => Truthful log call peer car.board)
    (fun log m => m.registry.status call = .unconfirmed → Heard log call m.source)
    Truthful.later (fun told held => (told held).later) ?_ ?_ ?_ honest
  · intro log peer n timeout
    refine ⟨fun p member => ?_,fun held => ?_⟩
    · change p ∈ (CallBoard.new peer).ledger.witnesses call at member
      rw [CallBoard.witnesses_eq,CallBoard.cycle_new] at member
      exact absurd member ExtTreeSet.not_mem_empty
    · cases (CallBoard.status_new peer call).symm.trans held
  · intro log peer car n m own reached outbound held
    obtain ⟨source,unknown | same⟩ := outbound_told reached outbound call
    · cases unknown.symm.trans held
    · exact source ▸ own.holder (same.symm.trans held)
  · intro w mv log peer car e manned honest found makes own told
    exact (own.trace manned honest told found makes).2

/-- Everybody whom a board counts when it takes a report or a membership has by then
    taken an unconfirmed report about the call. -/
theorem heard_of_tally (fresh : start.Fresh) {past : List Move} {mv : Move} (honest : ∀ mv' ∈ past ++ [mv], mv'.Honest)
    {t : Taken} (taken : t ∈ (start.run past).taken mv) {p : PeerId} (counted : p ∈ t.board.tally call t.event) :
    Heard (start.log (past ++ [mv])) call p := by
  have earlier : ∀ mv' ∈ past, mv'.Honest := fun mv' member => honest mv' (List.mem_append_left _ member)
  obtain ⟨cars,told⟩ := truthful_run fresh earlier call
  obtain ⟨car,e,found,makes,member⟩ := mem_taken.mp taken
  rw [log_snoc]
  exact ((cars t.peer car found).trace (fresh.manned.run past)
    (honest mv (List.mem_append_right _ List.mem_cons_self)) told found makes).1 (t.board,t.event) member p counted

/-- Whoever takes an unconfirmed report about a call, somebody has pressed the button. -/
theorem pressed_of_heard (fresh : start.Fresh) (honest : ∀ mv ∈ moves, mv.Honest) {p : PeerId}
    (heard : Heard (start.log moves) call p) : ∃ peer, (start.car? peer).isSome ∧ Move.press peer call ∈ moves := by
  induction moves using List.reverseRecOn generalizing p with
  | nil =>
    obtain ⟨t,member,_⟩ := heard
    cases member
  | append_singleton past mv ih =>
    have earlier : ∀ mv' ∈ past, mv'.Honest := fun mv' member => honest mv' (List.mem_append_left _ member)
    have before {q : PeerId} (old : Heard (start.log past) call q) :
        ∃ peer, (start.car? peer).isSome ∧ Move.press peer call ∈ past ++ [mv] := by
      obtain ⟨peer,here,member⟩ := ih earlier old
      exact ⟨peer,here,List.mem_append_left _ member⟩
    obtain ⟨t,member,_,r,event,belief⟩ := heard
    rw [log_snoc] at member
    rcases List.mem_append.mp member with old | taken
    · exact before ⟨t,old,rfl,r,event,belief⟩
    · obtain ⟨car,e,found,makes,inside⟩ := mem_taken.mp taken
      have given : .report r ∈ car.inputs _ e := event ▸ CallBoard.event_of_trace inside
      have last : mv.Honest := honest mv (List.mem_append_right _ List.mem_cons_self)
      rcases report_origin (fresh.manned.run past) last found makes given with ⟨act,source,_⟩ | ⟨_,m,_,sent,_,same⟩
      · refine ⟨t.peer,?_,List.mem_append_right _ (List.mem_singleton.mpr ?_)⟩
        · rw [← isSome_car_run start past,found]
          rfl
        · rw [act,Move.press,Report.of,← source,← belief]
      · rw [Belief.eq_iff] at belief
        rw [belief.1,belief.2] at same
        exact before ((truthful_run fresh earlier call).2 m (List.mem_of_getElem? sent) same.symm)

theorem pressed_of_decided (fresh : start.Fresh) (honest : ∀ mv ∈ moves, mv.Honest)
    (decided : Decided (start.log moves) call) : ∃ peer, (start.car? peer).isSome ∧ Move.press peer call ∈ moves := by
  obtain ⟨t,member,confirms⟩ := decided
  obtain ⟨past,mv,later,rfl,taken⟩ := mem_log.mp member
  have least : 1 ≤ call.quorum := by cases call <;> simp [Call.quorum]
  obtain ⟨p,counted⟩ := PeerSet.one_of_size (Nat.le_trans least confirms.enough)
  have upTo : past ++ mv :: later = (past ++ [mv]) ++ later := by simp
  rw [upTo] at honest ⊢
  have heard := heard_of_tally fresh (fun mv' member => honest mv' (List.mem_append_left _ member)) taken counted
  obtain ⟨peer,here,pressed⟩ := pressed_of_heard fresh (fun mv' member => honest mv' (List.mem_append_left _ member)) heard
  exact ⟨peer,here,List.mem_append_left _ pressed⟩

/-- Nobody waits for a call in an honest run unless somebody has pressed the button. -/
theorem pressed_of_raised (fresh : start.Fresh) (honest : ∀ mv ∈ moves, mv.Honest)
    (raised : (start.run moves).Raised call) : ∃ peer, (start.car? peer).isSome ∧ Move.press peer call ∈ moves := by
  obtain ⟨cars,snapshots⟩ := truthful_run fresh honest call
  obtain ⟨confirmedCars,confirmedSnapshots⟩ := decided_of_confirmed fresh honest call
  have board {peer : PeerId} {car : Controller} (found : (start.run moves).car? peer = some car)
      (held : (car.board.status call).Raised) : ∃ peer, (start.car? peer).isSome ∧ Move.press peer call ∈ moves := by
    rcases held with unconfirmed | confirmed
    · exact pressed_of_heard fresh honest ((cars peer car found).holder unconfirmed)
    · exact pressed_of_decided fresh honest (confirmedCars peer car found (.inl confirmed))
  rcases raised with ⟨peer,car,found,held | held⟩ | ⟨m,sent,unconfirmed | confirmed⟩
  · exact board found held
  · obtain ⟨n,reached⟩ := fresh.manned.run moves peer car found
    rcases reached.mirrors.told call with unknown | same
    · rw [unknown] at held
      exact absurd held (by decide)
    · exact board found (same ▸ held)
  · exact pressed_of_heard fresh honest (snapshots m sent unconfirmed)
  · exact pressed_of_decided fresh honest (confirmedSnapshots m sent confirmed)

/-- In an honest run every witness in a ledger has itself taken an unconfirmed report
    about the call. So two controllers have taken one when a board confirms a hall call
    by its own ledger, and nobody waits for a call whose button was not pressed. -/
theorem witnesses_truthful (fresh : start.Fresh) (honest : ∀ mv ∈ moves, mv.Honest) (call : Call) :
    (∀ peer car, (start.run moves).car? peer = some car →
      ∀ p ∈ car.board.ledger.witnesses call, Heard (start.log moves) call p) ∧
    (call.isHall = true → ∀ past mv later, moves = past ++ mv :: later →
      ∀ t ∈ (start.run past).taken mv, t.board.ConfirmsByLedger call t.event →
        ∃ p q, p ≠ q ∧ Heard (start.log (past ++ [mv])) call p ∧ Heard (start.log (past ++ [mv])) call q) ∧
    ((start.run moves).Raised call → ∃ peer, (start.car? peer).isSome ∧ Move.press peer call ∈ moves) := by
  refine ⟨fun peer car found => ((truthful_run fresh honest call).1 peer car found).witnesses,?_,
    pressed_of_raised fresh honest⟩
  rintro isHall past mv later rfl t taken confirms
  have two : call.quorum = 2 := by
    cases call with
    | hall floor direction => rfl
    | cab floor owner => cases isHall
  obtain ⟨p,counted,q,counted',distinct⟩ := PeerSet.two_of_size (two ▸ confirms.enough)
  have upTo : ∀ mv' ∈ past ++ [mv], mv'.Honest := by
    intro mv' member
    refine honest mv' ?_
    rw [List.append_cons]
    exact List.mem_append_left _ member
  exact ⟨p,q,distinct,heard_of_tally fresh upTo taken counted,heard_of_tally fresh upTo taken counted'⟩

theorem handover_truthful : (pair.run handover).Raised (.hall 1 .up) ∧
    ∃ peer, (pair.car? peer).isSome ∧ Move.press peer (.hall 1 .up) ∈ handover := by
  have held : (pair.run handover).status? ⟨2⟩ (.hall 1 .up) = some .confirmed := by decide +kernel
  obtain ⟨car,found,confirmed⟩ := status?_eq_some.mp held
  have raised : (pair.run handover).Raised (.hall 1 .up) := .inl ⟨⟨2⟩,car,found,.inl (.inr confirmed)⟩
  exact ⟨raised,(witnesses_truthful (fresh_new _ _ _) (by decide) (.hall 1 .up)).2.2 raised⟩

end Network
end ElevatorFleet
