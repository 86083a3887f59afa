import ElevatorFleet.Proofs.Connected

/-!
# Rounds

In a round every controller sends its snapshot, and then each of these snapshots reaches
everybody else, in any order. So a controller hears from each of the others, at least once,
in which status they held a call when the round began (`Round.heard`). A call that is pressed
somewhere is waited for everywhere after one round (`Round.raises`): some controllers may
still tell that it is absent, but nobody confirms it without having counted these, and
nobody counts them before they wait for it themselves. In the next round everybody hears from
everybody else and confirms the call, and so it stays (`confirmed_in_two_rounds`).
-/
namespace ElevatorFleet
open Std Tasks

namespace Network

/-- The move concerns neither the call nor a membership nor a snapshot. -/
def Move.Aside (call : Call) : Move → Prop
  | .act _ (.report r) => r.belief.call ≠ call
  | .pass _ | .act _ (.signal _) | .act _ (.car _) | .act _ (.viewAlive _) => True
  | .act _ (.receive _) | .act _ .poll | .act _ (.boardAlive _) | .act _ (.replicaAlive _) => False
  | .restart _ _ _ | .send _ | .deliver _ _ => False

instance (call : Call) : DecidablePred (Move.Aside call)
  | .act _ (.report r) => inferInstanceAs (Decidable (r.belief.call ≠ call))
  | .pass _ | .act _ (.signal _) | .act _ (.car _) | .act _ (.viewAlive _) => .isTrue trivial
  | .act _ (.receive _) | .act _ .poll | .act _ (.boardAlive _) | .act _ (.replicaAlive _) => .isFalse id
  | .restart _ _ _ | .send _ | .deliver _ _ => .isFalse id

/-- A snapshot is taken, or the move does not concern the call. -/
def Move.Takes (call : Call) (mv : Move) : Prop := mv.Aside call ∨ ∃ p, mv = .send p

/-- First everybody sends a snapshot, and then all these snapshots reach everybody else, in
    any order. Meanwhile anything can happen to other calls. -/
structure Round (members : PeerSet) (call : Call) (w : Network) (taking handing : List Move) : Prop where
  takes : ∀ mv ∈ taking, mv.Takes call
  everybody : ∀ p ∈ members, .send p ∈ taking
  hands : ∀ mv ∈ handing, mv.Aside call ∨ ∃ index p, mv = .deliver index p ∧ w.sent.length ≤ index
  everywhere : ∀ index m, w.sent.length ≤ index → (w.run taking).sent[index]? = some m →
    ∀ p ∈ members, p ≠ m.source → .deliver index p ∈ handing

/-- So many rounds, one after the other. -/
inductive Rounds (members : PeerSet) (call : Call) : Network → Nat → List Move → Prop where
  | none (w : Network) : Rounds members call w 0 []
  | round {w : Network} {count : Nat} {taking handing rest : List Move} : w.Round members call taking handing →
      Rounds members call (w.run (taking ++ handing)) count rest →
      Rounds members call w (count+1) (taking ++ handing ++ rest)

/-- What a controller tells of the call in its snapshots. -/
def told (w : Network) (call : Call) (peer : PeerId) : Status := (w.status? peer call).getD .unknown

variable {n : UInt8} {members : PeerSet} {call : Call} {w : Network} {mv : Move}

/-! ### Moves -/

theorem Move.Aside.constant (aside : mv.Aside call) : mv.Constant := by
  cases mv with
  | act p e => cases e <;> trivial
  | pass ms => trivial
  | restart p numFloors timeout => exact aside
  | send p => trivial
  | deliver index p => trivial

theorem Move.Aside.sent (aside : mv.Aside call) (w : Network) : (w.step mv).sent = w.sent := by
  cases mv with
  | send p => exact aside.elim
  | deliver index p => exact aside.elim
  | pass ms => rfl
  | act p e => rfl
  | restart p numFloors timeout => rfl

theorem Move.Aside.cycle (aside : mv.Aside call) {peer : PeerId} {car : Controller} (found : w.car? peer = some car) :
    ∃ after, (w.step mv).car? peer = some after ∧ after.board.cycle call = car.board.cycle call := by
  obtain ⟨after,foundAfter⟩ := car_survives found mv
  refine ⟨after,foundAfter,?_⟩
  rcases car_step foundAfter with old | ⟨before,e,had,makes,rfl⟩ | ⟨_,_,rfl,_⟩
  · cases found.symm.trans old
    rfl
  · cases found.symm.trans had
    cases mv with
    | pass ms => cases makes
    | send p => exact aside.elim
    | deliver index p => exact aside.elim
    | restart p numFloors timeout => exact aside.elim
    | act p event =>
      cases makes
      rw [Controller.board_react]
      cases e with
      | report r => exact (CallBoard.cycle_take car.board r call).trans (if_neg aside)
      | signal s => rfl
      | car state => rfl
      | viewAlive alive => rfl
      | receive m => exact aside.elim
      | poll => exact aside.elim
      | boardAlive alive => exact aside.elim
      | replicaAlive alive => exact aside.elim
  · exact aside.elim

theorem sent_length_le (w : Network) (moves : List Move) : w.sent.length ≤ (w.run moves).sent.length := by
  refine Nat.le_of_not_lt fun fewer => ?_
  have kept := sent_keeps (List.getElem?_eq_getElem fewer) moves
  exact Nat.lt_irrefl _ (List.getElem?_eq_some_iff.mp kept).1

theorem told_eq {peer : PeerId} {car : Controller} (found : w.car? peer = some car) :
    w.told call peer = car.board.status call := by
  rw [told,status?_eq found]
  rfl

/-! ### Sending -/

theorem Move.Takes.constant (takes : mv.Takes call) : mv.Constant := by
  rcases takes with aside | ⟨p,rfl⟩
  · exact aside.constant
  · trivial

theorem Connected.taking (connected : w.Connected n members) {taking : List Move}
    (takes : ∀ mv ∈ taking, mv.Takes call) : (w.run taking).Connected n members :=
  connected.run fun mv member => (takes mv member).constant

theorem taking_cycle {taking : List Move} (takes : ∀ mv ∈ taking, mv.Takes call) {peer : PeerId}
    {car : Controller} (found : w.car? peer = some car) :
    ∃ after, (w.run taking).car? peer = some after ∧ after.board.cycle call = car.board.cycle call := by
  induction taking generalizing w car with
  | nil => exact ⟨car,found,rfl⟩
  | cons mv rest ih =>
    have one : ∃ next, (w.step mv).car? peer = some next ∧ next.board.cycle call = car.board.cycle call := by
      rcases takes mv List.mem_cons_self with aside | ⟨p,rfl⟩
      · exact aside.cycle found
      · exact ⟨car,found,rfl⟩
    obtain ⟨next,foundNext,same⟩ := one
    obtain ⟨after,foundAfter,kept⟩ := ih (fun mv' member => takes mv' (List.mem_cons_of_mem _ member)) foundNext
    exact ⟨after,foundAfter,kept.trans same⟩

/-- The snapshots that are taken tell what their senders hold when the round begins. -/
theorem taking_told (connected : w.Connected n members) (served : call.floor < n) {taking : List Move}
    (takes : ∀ mv ∈ taking, mv.Takes call) {index : Nat} {m : Broadcast}
    (late : w.sent.length ≤ index) (sent : (w.run taking).sent[index]? = some m) :
    m.source ∈ members ∧ m.registry.status call = w.told call m.source := by
  induction taking using List.reverseRecOn with
  | nil => exact absurd (List.getElem?_eq_some_iff.mp sent).1 (Nat.not_lt_of_le late)
  | append_singleton past mv ih =>
    have before : ∀ mv ∈ past, mv.Takes call := fun mv' member => takes mv' (List.mem_append_left _ member)
    rw [run_snoc] at sent
    rcases sent_step_at sent with old | ⟨_,peer,car,_,found,outbound⟩
    · exact ih before old
    · have there := connected.taking before
      obtain ⟨source,registry⟩ := outbound_eq outbound
      have reached := there.reached peer car found
      have own : m.source = peer := source.trans reached.replica_self
      have member := there.member found
      obtain ⟨earlier,had⟩ := connected.car member
      obtain ⟨_,foundAgain,same⟩ := taking_cycle before had
      cases found.symm.trans foundAgain
      rw [own,registry,reached.mirrors.cell call served,told_eq had]
      exact ⟨member,congrArg Cycle.status same⟩

theorem taking_sent (connected : w.Connected n members) {taking : List Move}
    (takes : ∀ mv ∈ taking, mv.Takes call) {peer : PeerId} (member : peer ∈ members)
    (sends : .send peer ∈ taking) :
    ∃ index m, w.sent.length ≤ index ∧ (w.run taking).sent[index]? = some m ∧ m.source = peer := by
  obtain ⟨early,late,rfl⟩ := List.append_of_mem sends
  have there := connected.taking fun mv inside => takes mv (List.mem_append_left _ inside)
  obtain ⟨car,found⟩ := there.car member
  obtain ⟨m,outbound,source,_⟩ := there.sends found
  refine ⟨(w.run early).sent.length,m,sent_length_le w early,?_,source⟩
  rw [run_append]
  exact sent_keeps (sent_send found outbound) late

/-! ### Handing out -/

/-- The move hands out a snapshot in which a member tells its status, or does not concern the
    call. -/
def Hands (w : Network) (members : PeerSet) (call : Call) (told : PeerId → Status) (mv : Move) : Prop :=
  mv.Aside call ∨ ∃ index p, mv = .deliver index p ∧ ∀ m, w.sent[index]? = some m →
    m.source ∈ members ∧ m.registry.status call = told m.source

theorem Hands.constant {told : PeerId → Status} (hands : w.Hands members call told mv) : mv.Constant := by
  rcases hands with aside | ⟨index,p,rfl,_⟩
  · exact aside.constant
  · trivial

theorem Hands.sent {told : PeerId → Status} (hands : w.Hands members call told mv) : (w.step mv).sent = w.sent := by
  rcases hands with aside | ⟨index,p,rfl,_⟩
  · exact aside.sent w
  · rw [Network.step]
    split <;> rfl

/-- What a controller hears in the course of a move. -/
theorem Hands.heard {told : PeerId → Status} (hands : w.Hands members call told mv) (connected : w.Connected n members)
    (served : call.floor < n) {peer : PeerId} {car : Controller} (found : w.car? peer = some car) :
    ∃ after sources, (w.step mv).car? peer = some after ∧
      after.board.cycle call = (car.board.cycle call).hearAll call peer members told sources ∧
      (∀ p ∈ sources, p ∈ members ∧ p ≠ peer) ∧
      ∀ index m, mv = .deliver index peer → w.sent[index]? = some m → m.source ≠ peer → m.source ∈ sources := by
  rcases hands with aside | ⟨index,p,rfl,tells⟩
  · obtain ⟨after,foundAfter,same⟩ := aside.cycle found
    refine ⟨after,[],foundAfter,same,by simp,?_⟩
    rintro index m rfl
    exact aside.elim
  · cases sent : w.sent[index]? with
    | none =>
      refine ⟨car,[],?_,rfl,by simp,?_⟩
      · simp only [Network.step,sent]
        exact found
      · rintro _ m same here
        cases same
        cases sent.symm.trans here
    | some m =>
      by_cases own : p = peer
      · subst own
        obtain ⟨after,foundAfter,cycles⟩ := connected.serving.deliver served sent found
        obtain ⟨member,status⟩ := tells m sent
        by_cases other : m.source ≠ p
        · rw [if_pos other,connected.alive p car found,status] at cycles
          refine ⟨after,[m.source],foundAfter,cycles,?_,?_⟩
          · rintro q inside
            rw [List.mem_singleton.mp inside]
            exact ⟨member,other⟩
          · rintro _ m' same here _
            cases same
            cases sent.symm.trans here
            exact List.mem_singleton_self _
        · rw [if_neg other] at cycles
          refine ⟨after,[],foundAfter,cycles,by simp,?_⟩
          rintro _ m' same here apart
          cases same
          cases sent.symm.trans here
          exact absurd apart other
      · have makes : w.event? (.deliver index p) = some (p,.receive m) := by rw [event?,sent]; rfl
        refine ⟨car,[],?_,rfl,by simp,?_⟩
        · rw [car?_event makes,if_neg own]
          exact found
        · rintro _ m' same
          cases same
          exact absurd rfl own

theorem Hands.later {told : PeerId → Status} {first mv : Move} (hands : w.Hands members call told mv)
    (before : w.Hands members call told first) : (w.step first).Hands members call told mv := by
  rw [Hands,before.sent]
  exact hands

theorem handing_heard {told : PeerId → Status} {handing : List Move} (hands : ∀ mv ∈ handing, w.Hands members call told mv)
    (connected : w.Connected n members) (served : call.floor < n) {peer : PeerId} {car : Controller}
    (found : w.car? peer = some car) :
    ∃ after sources, (w.run handing).car? peer = some after ∧
      after.board.cycle call = (car.board.cycle call).hearAll call peer members told sources ∧
      (∀ p ∈ sources, p ∈ members ∧ p ≠ peer) ∧
      ∀ index m, .deliver index peer ∈ handing → w.sent[index]? = some m → m.source ≠ peer → m.source ∈ sources := by
  induction handing generalizing w car with
  | nil => exact ⟨car,[],found,rfl,by simp,by simp⟩
  | cons mv rest ih =>
    have first := hands mv List.mem_cons_self
    obtain ⟨next,now,foundNext,cycles,others,gets⟩ := first.heard connected served found
    obtain ⟨after,later,foundAfter,cyclesAfter,othersAfter,getsAfter⟩ :=
      ih (fun mv' member => (hands mv' (List.mem_cons_of_mem _ member)).later first) (connected.step first.constant) foundNext
    refine ⟨after,now ++ later,foundAfter,?_,?_,?_⟩
    · rw [cyclesAfter,cycles,Cycle.hearAll,Cycle.hearAll,Cycle.hearAll,List.foldl_append]
    · intro p member
      rcases List.mem_append.mp member with early | late
      · exact others p early
      · exact othersAfter p late
    · intro index m member sent other
      rcases List.mem_cons.mp member with same | late
      · exact List.mem_append_left _ (gets index m same.symm sent other)
      · rw [← first.sent] at sent
        exact List.mem_append_right _ (getsAfter index m late sent other)

/-! ### Rounds -/

variable {taking handing : List Move}

theorem Round.hands_after (round : w.Round members call taking handing) (connected : w.Connected n members)
    (served : call.floor < n) : ∀ mv ∈ handing, (w.run taking).Hands members call (w.told call) mv := by
  intro mv member
  rcases round.hands mv member with aside | ⟨index,p,same,late⟩
  · exact .inl aside
  · exact .inr ⟨index,p,same,fun m sent => taking_told connected served round.takes late sent⟩

/-- In a round a controller hears from all the others, and from nobody else, what they held
    when it began. -/
theorem Round.heard (round : w.Round members call taking handing) (connected : w.Connected n members)
    (served : call.floor < n) {peer : PeerId} {car : Controller} (found : w.car? peer = some car) :
    ∃ after sources, (w.run (taking ++ handing)).car? peer = some after ∧
      after.board.cycle call = (car.board.cycle call).hearAll call peer members (w.told call) sources ∧
      ∀ p, p ∈ sources ↔ p ∈ members ∧ p ≠ peer := by
  obtain ⟨ready,foundReady,kept⟩ := taking_cycle round.takes found
  have there := connected.taking round.takes
  obtain ⟨after,sources,foundAfter,cycles,others,gets⟩ :=
    handing_heard (round.hands_after connected served) there served foundReady
  rw [← run_append] at foundAfter
  rw [kept] at cycles
  refine ⟨after,sources,foundAfter,cycles,fun p => ⟨others p,?_⟩⟩
  rintro ⟨member,other⟩
  obtain ⟨index,m,late,sent,rfl⟩ := taking_sent connected round.takes member (round.everybody p member)
  exact gets index m (round.everywhere index m late sent peer (connected.member found) (Ne.symm other)) sent other

theorem Round.connected (round : w.Round members call taking handing) (connected : w.Connected n members)
    (served : call.floor < n) : (w.run (taking ++ handing)).Connected n members := by
  refine connected.run fun mv member => ?_
  rcases List.mem_append.mp member with takes | hands
  · exact (round.takes mv takes).constant
  · exact (round.hands_after connected served mv hands).constant

/-- After a round everybody waits for a call that nobody had confirmed when it began, and
    that some controller waited for on its own. -/
theorem Round.raises (round : w.Round members call taking handing) (connected : w.Connected n members)
    (served : call.floor < n) (alone : ∀ peer car, w.car? peer = some car → (car.board.cycle call).Alone peer)
    {presser : PeerId} (member : presser ∈ members) (pressed : w.Holds call presser) {peer : PeerId}
    (here : peer ∈ members) : (w.run (taking ++ handing)).Holds call peer := by
  obtain ⟨car,found⟩ := connected.car here
  obtain ⟨after,sources,foundAfter,cycles,others⟩ := round.heard connected served found
  have unsure : ∀ p ∈ sources, w.told call p ≠ .confirmed := by
    intro p inside
    obtain ⟨other,had⟩ := connected.car ((others p).mp inside).1
    rw [told_eq had]
    exact (alone p other had).waits
  refine .intro foundAfter ?_
  rw [← CallBoard.cycle_status,cycles]
  refine (alone peer car found).backed.raised_hearAll (fun p => (others p).mp) unsure ?_
  obtain ⟨s,held,raised⟩ := pressed
  obtain ⟨own,had,rfl⟩ := status?_eq_some.mp held
  by_cases same : presser = peer
  · subst same
    cases found.symm.trans had
    exact .inl raised
  · refine .inr ⟨presser,(others presser).mpr ⟨member,same⟩,?_⟩
    rw [told_eq had]
    exact raised.resolve_right (alone presser own had).waits

/-- After a round everybody has confirmed a call that everybody held when it began. -/
theorem Round.confirms (round : w.Round members call taking handing) (connected : w.Connected n members)
    (served : call.floor < n) (two : 2 ≤ members.size) (holds : ∀ p ∈ members, w.Holds call p) {peer : PeerId}
    (here : peer ∈ members) : (w.run (taking ++ handing)).status? peer call = some .confirmed := by
  have raised : ∀ p car, w.car? p = some car → (car.board.status call).Raised := by
    intro p car found
    obtain ⟨s,held,raised⟩ := holds p (connected.member found)
    rw [status?_eq found] at held
    exact Option.some.inj held ▸ raised
  obtain ⟨car,found⟩ := connected.car here
  obtain ⟨after,sources,foundAfter,cycles,others⟩ := round.heard connected served found
  have sound := (connected.reached peer car found).board.sound call
  rw [(connected.reached peer car found).board.self,connected.alive peer car found] at sound
  rw [status?_eq foundAfter,← CallBoard.cycle_status,cycles]
  refine congrArg some (sound.confirmed_hearAll two (raised peer car found) (fun p inside => ?_) fun p member other => ?_)
  · obtain ⟨other,had⟩ := connected.car ((others p).mp inside).1
    rw [told_eq had]
    exact raised p other had
  · exact (others p).mpr ⟨member,other⟩

theorem Rounds.connected {count : Nat} {moves : List Move} (rounds : w.Rounds members call count moves)
    (connected : w.Connected n members) (served : call.floor < n) : (w.run moves).Connected n members := by
  induction rounds with
  | none w => exact connected
  | round first _ ih =>
    rw [run_append]
    exact ih (first.connected connected served)

theorem Rounds.confirms {count : Nat} {moves : List Move} (rounds : w.Rounds members call count moves)
    (connected : w.Connected n members) (served : call.floor < n) (two : 2 ≤ members.size)
    (confirmed : ∀ p ∈ members, w.status? p call = some .confirmed) :
    ∀ p ∈ members, (w.run moves).status? p call = some .confirmed := by
  induction rounds with
  | none w => exact confirmed
  | round first _ ih =>
    rw [run_append]
    refine ih (first.connected connected served) fun p member => ?_
    exact first.confirms connected served two (fun q inside => ⟨_,confirmed q inside,.inr rfl⟩) member

/-- Two rounds confirm a call that nobody had confirmed before them, and that some controller
    waited for on its own. -/
theorem Rounds.confirmed {more : Nat} {moves : List Move} (rounds : w.Rounds members call (more+2) moves)
    (connected : w.Connected n members) (served : call.floor < n) (two : 2 ≤ members.size)
    (alone : ∀ peer car, w.car? peer = some car → (car.board.cycle call).Alone peer) {presser : PeerId}
    (member : presser ∈ members) (pressed : w.Holds call presser) :
    ∀ p ∈ members, (w.run moves).status? p call = some .confirmed := by
  cases rounds with
  | round first others =>
    have between := first.connected connected served
    have waiting := fun p (here : p ∈ members) => first.raises connected served alone member pressed here
    cases others with
    | round second further =>
      have confirmed := fun p (here : p ∈ members) => second.confirms between served two waiting here
      rw [run_append,run_append]
      exact further.confirms (second.connected between served) served two confirmed

/-! ### Presses -/

/-- A controller is pressed, or the move does not concern the call. -/
def Move.Presses (call : Call) (mv : Move) : Prop := mv.Aside call ∨ ∃ p, mv = .press p call

theorem Move.Presses.constant (presses : mv.Presses call) : mv.Constant := by
  rcases presses with aside | ⟨p,rfl⟩
  · exact aside.constant
  · trivial

/-- A press makes a controller wait on its own. -/
theorem Connected.presses_step (connected : w.Connected n members) (two : 2 ≤ members.size) (presses : mv.Presses call)
    {peer : PeerId} {car : Controller} (found : w.car? peer = some car) (alone : (car.board.cycle call).Alone peer) :
    ∃ after, (w.step mv).car? peer = some after ∧ (after.board.cycle call).Alone peer ∧
      ((car.board.status call).Raised ∨ mv = .press peer call → (after.board.status call).Raised) := by
  rcases presses with aside | ⟨p,rfl⟩
  · obtain ⟨after,foundAfter,same⟩ := aside.cycle found
    refine ⟨after,foundAfter,same ▸ alone,?_⟩
    rintro (raised | rfl)
    · rw [← CallBoard.cycle_status,same]
      exact raised
    · exact absurd rfl aside
  · by_cases own : p = peer
    · subst own
      obtain ⟨after,foundAfter,cycles⟩ := connected.serving.manned.report found p call .unconfirmed
      rw [connected.alive p car found] at cycles
      refine ⟨after,foundAfter,cycles ▸ alone.press two,fun _ => ?_⟩
      rw [← CallBoard.cycle_status,cycles]
      exact Cycle.raised_hear call p members (car.board.cycle call) p
    · have makes : w.event? (.press p call) = some (p,.report (.of p call .unconfirmed)) := rfl
      refine ⟨car,by rw [car?_event makes,if_neg own]; exact found,alone,?_⟩
      rintro (raised | same)
      · exact raised
      · exact absurd (by cases same; rfl) own

theorem Connected.presses (connected : w.Connected n members) (two : 2 ≤ members.size) {moves : List Move}
    (presses : ∀ mv ∈ moves, mv.Presses call) {peer : PeerId} {car : Controller} (found : w.car? peer = some car)
    (alone : (car.board.cycle call).Alone peer) :
    ∃ after, (w.run moves).car? peer = some after ∧ (after.board.cycle call).Alone peer ∧
      ((car.board.status call).Raised ∨ .press peer call ∈ moves → (after.board.status call).Raised) := by
  induction moves generalizing w car with
  | nil =>
    refine ⟨car,found,alone,?_⟩
    rintro (raised | pressed)
    · exact raised
    · cases pressed
  | cons mv rest ih =>
    have first := presses mv List.mem_cons_self
    obtain ⟨next,foundNext,aloneNext,raises⟩ := connected.presses_step two first found alone
    obtain ⟨after,foundAfter,aloneAfter,raisesAfter⟩ :=
      ih (connected.step first.constant) (fun mv' member => presses mv' (List.mem_cons_of_mem _ member)) foundNext aloneNext
    refine ⟨after,foundAfter,aloneAfter,?_⟩
    rintro (raised | pressed)
    · exact raisesAfter (.inl (raises (.inl raised)))
    · rcases List.mem_cons.mp pressed with same | later
      · exact raisesAfter (.inl (raises (.inr same.symm)))
      · exact raisesAfter (.inr later)

/-- After presses of a call that was idle everywhere, controllers wait for it on their own. -/
theorem Connected.pressed (connected : w.Connected n members) (two : 2 ≤ members.size)
    (idle : ∀ peer car, w.car? peer = some car → car.board.status call = .unknown ∨ car.board.status call = .absent)
    {presses : List Move} (pressing : ∀ mv ∈ presses, mv.Presses call) {peer : PeerId} {car : Controller}
    (found : (w.run presses).car? peer = some car) :
    (car.board.cycle call).Alone peer ∧ (.press peer call ∈ presses → (car.board.status call).Raised) := by
  have start := connected.run fun mv inside => (pressing mv inside).constant
  obtain ⟨old,had⟩ := connected.car (start.member found)
  have shut : (old.board.cycle call).status ≠ .unconfirmed ∧ (old.board.cycle call).status ≠ .confirmed := by
    rw [CallBoard.cycle_status]
    rcases idle peer old had with unknown | absent
    · rw [unknown]
      decide
    · rw [absent]
      decide
  have sound := (connected.reached peer old had).board.sound call
  have alone : (old.board.cycle call).Alone peer :=
    ⟨shut.2,fun p witness => absurd witness (sound.no_witness shut.1 p)⟩
  obtain ⟨after,foundAfter,aloneAfter,raises⟩ := connected.presses two pressing had alone
  cases found.symm.trans foundAfter
  exact ⟨aloneAfter,fun press => raises (.inr press)⟩

/-- A call that nobody has been told to wait for, and that is then pressed at any controllers,
    is confirmed everywhere after two rounds and after all further ones, with no witnesses
    left, whatever happens to other calls meanwhile. -/
theorem confirmed_in_two_rounds (connected : w.Connected n members) (two : 2 ≤ members.size) (served : call.floor < n)
    (idle : ∀ peer car, w.car? peer = some car → car.board.status call = .unknown ∨ car.board.status call = .absent)
    {presses : List Move} (pressing : ∀ mv ∈ presses, mv.Presses call) {presser : PeerId} (member : presser ∈ members)
    (pressed : .press presser call ∈ presses) {more : Nat} {moves : List Move}
    (rounds : (w.run presses).Rounds members call (more+2) moves) :
    ∀ peer ∈ members, ∃ car, (w.run (presses ++ moves)).car? peer = some car ∧ car.board.status call = .confirmed ∧
      car.replica.registry.status call = .confirmed ∧ car.board.ledger.witnesses? call = none := by
  have start := connected.run fun mv inside => (pressing mv inside).constant
  have before := fun peer car (found : (w.run presses).car? peer = some car) => connected.pressed two idle pressing found
  obtain ⟨own,foundOwn⟩ := start.car member
  have waits : (w.run presses).Holds call presser := .intro foundOwn ((before presser own foundOwn).2 pressed)
  intro peer inside
  have confirmed := rounds.confirmed start served two (fun q car found => (before q car found).1) member waits peer inside
  rw [← run_append] at confirmed
  obtain ⟨car,found,same⟩ := status?_eq_some.mp confirmed
  have last := rounds.connected start served
  rw [← run_append] at last
  have reached := last.reached peer car found
  refine ⟨car,found,same,(reached.mirrors.cell call served).trans same,(reached.board.sound call).shut ?_⟩
  rw [CallBoard.cycle_status,same]
  decide

theorem everywhere_of_check {taking handing : List Move}
    (check : ∀ index < (w.run taking).sent.length, w.sent.length ≤ index → ∀ p ∈ members.toList,
      (w.run taking).sent[index]?.map Broadcast.source = some p ∨ .deliver index p ∈ handing) :
    ∀ index m, w.sent.length ≤ index → (w.run taking).sent[index]? = some m →
      ∀ p ∈ members, p ≠ m.source → .deliver index p ∈ handing := by
  intro index m late sent p member other
  have bound := (List.getElem?_eq_some_iff.mp sent).1
  rcases check index bound late p (ExtTreeSet.mem_toList.mpr member) with own | hands
  · rw [sent] at own
    exact absurd (Option.some.inj own).symm other
  · exact hands

/-- Of two controllers only the second one has heard of the call. -/
def heardOnce : Network := linked.run [.clear ⟨2⟩ (.hall 1 .up)]

def bothSend : List Move := [.send ⟨1⟩,.send ⟨2⟩]

theorem heardOnce_rounds : (heardOnce.run [.press ⟨1⟩ (.hall 1 .up)]).Rounds (.of [⟨1⟩,⟨2⟩]) (.hall 1 .up) 2
    (bothSend ++ [.deliver 1 ⟨1⟩,.deliver 0 ⟨2⟩] ++ (bothSend ++ [.deliver 2 ⟨2⟩,.deliver 3 ⟨1⟩] ++ [])) := by
  have takes : ∀ mv ∈ bothSend, mv.Takes (.hall 1 .up) := by simp [bothSend,Move.Takes]
  have everybody : ∀ p ∈ PeerSet.of [⟨1⟩,⟨2⟩], Move.send p ∈ bothSend :=
    fun p member => List.mem_map_of_mem (PeerSet.mem_of.mp member)
  have delivers {w : Network} {handing : List Move} (indices : List Nat) (late : ∀ index ∈ indices, w.sent.length ≤ index)
      (all : ∀ mv ∈ handing, ∃ index ∈ indices, ∃ p, mv = .deliver index p) :
      ∀ mv ∈ handing, mv.Aside (.hall 1 .up) ∨ ∃ index p, mv = .deliver index p ∧ w.sent.length ≤ index := by
    intro mv member
    obtain ⟨index,listed,p,same⟩ := all mv member
    exact .inr ⟨index,p,same,late index listed⟩
  refine .round ⟨takes,everybody,delivers [0,1] (by decide +kernel) (by simp),everywhere_of_check (by decide +kernel)⟩ ?_
  refine .round ⟨takes,everybody,delivers [2,3] (by decide +kernel) (by simp),everywhere_of_check (by decide +kernel)⟩ ?_
  exact .none _

theorem heardOnce_confirms :
    (heardOnce.status? ⟨1⟩ (.hall 1 .up) = some .unknown ∧ heardOnce.status? ⟨2⟩ (.hall 1 .up) = some .absent) ∧
      ∀ peer ∈ PeerSet.of [⟨1⟩,⟨2⟩], ∃ car,
        (heardOnce.run ([.press ⟨1⟩ (.hall 1 .up)] ++ (bothSend ++ [.deliver 1 ⟨1⟩,.deliver 0 ⟨2⟩] ++
          (bothSend ++ [.deliver 2 ⟨2⟩,.deliver 3 ⟨1⟩] ++ [])))).car? peer = some car ∧
          car.board.status (.hall 1 .up) = .confirmed ∧ car.replica.registry.status (.hall 1 .up) = .confirmed ∧
          car.board.ledger.witnesses? (.hall 1 .up) = none := by
  have connected : heardOnce.Connected 4 (.of [⟨1⟩,⟨2⟩]) := linked_connected.run (by decide)
  have statuses : heardOnce.status? ⟨1⟩ (.hall 1 .up) = some .unknown ∧
      heardOnce.status? ⟨2⟩ (.hall 1 .up) = some .absent := by decide +kernel
  have idle : ∀ peer car, heardOnce.car? peer = some car →
      car.board.status (.hall 1 .up) = .unknown ∨ car.board.status (.hall 1 .up) = .absent := by
    intro peer car found
    rcases List.mem_cons.mp (PeerSet.mem_of.mp (connected.member found)) with rfl | last
    · rw [status?_eq found] at statuses
      exact .inl (Option.some.inj statuses.1)
    · cases List.mem_singleton.mp last
      rw [status?_eq found] at statuses
      exact .inr (Option.some.inj statuses.2)
  have pressing : ∀ mv ∈ [Move.press ⟨1⟩ (.hall 1 .up)], mv.Presses (.hall 1 .up) :=
    fun mv member => .inr ⟨⟨1⟩,List.mem_singleton.mp member⟩
  exact ⟨statuses,confirmed_in_two_rounds connected (by decide +kernel) (by decide) idle pressing
    (PeerSet.mem_of.mpr List.mem_cons_self) List.mem_cons_self heardOnce_rounds⟩

end Network
end ElevatorFleet
