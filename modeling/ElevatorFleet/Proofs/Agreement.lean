import ElevatorFleet.Proofs.Network

/-!
# Agreement on a call

A fleet whose controllers all know each other, and none of which has heard of some call,
agrees on it whatever happens to its snapshots. As long as the call is only pressed, and
neither cleared nor confirmed from outside, no controller goes back in the lifecycle of
the call, nobody confirms it before everybody holds it, and a controller that has got a
snapshot holding the call from each of the others has confirmed it. So two rounds of
snapshots are enough to confirm a call that somebody holds everywhere.
-/
namespace ElevatorFleet
open Std Tasks

namespace Network

/-- From outside the call is only pressed; other calls may have any reports. Nobody
    restarts and no membership changes. -/
def Move.Steady (call : Call) : Move → Prop
  | .act peer (.report r) => r.belief.call = call → r = .of peer call .unconfirmed
  | .act _ (.receive _) | .act _ .poll | .act _ (.boardAlive _) | .restart _ _ _ => False
  | _ => True

instance (call : Call) : DecidablePred (Move.Steady call)
  | .act peer (.report r) => inferInstanceAs (Decidable (r.belief.call = call → r = .of peer call .unconfirmed))
  | .act _ (.receive _) | .act _ .poll | .act _ (.boardAlive _) | .restart _ _ _ => .isFalse id
  | .act _ (.signal _) | .act _ (.car _) | .act _ (.replicaAlive _) | .act _ (.viewAlive _) => .isTrue trivial
  | .pass _ | .send _ | .deliver _ _ => .isTrue trivial

/-- The controllers of a fleet that serve the same floors and all know each other. -/
structure Acquainted (n : UInt8) (members : PeerSet) (w : Network) : Prop where
  reached : ∀ peer car, w.car? peer = some car → car.Reached peer n
  alive : ∀ peer car, w.car? peer = some car → car.board.alive = members
  complete : ∀ peer, peer ∈ members ↔ (w.car? peer).isSome

/-- No controller has heard of the call, and no snapshot is on the way. -/
structure Uninformed (n : UInt8) (members : PeerSet) (call : Call) (w : Network) : Prop
    extends Acquainted n members w where
  unknown : ∀ peer car, w.car? peer = some car → car.board.status call = .unknown
  sent : w.sent = []

/-- The controller holds the call to be unconfirmed or confirmed. -/
def Holds (w : Network) (call : Call) (peer : PeerId) : Prop := ∃ s, w.status? peer call = some s ∧ s.Raised

/-- Ledgers, confirmations and snapshots tell the truth about who holds the call. -/
structure Agreeing (n : UInt8) (members : PeerSet) (call : Call) (w : Network) : Prop
    extends Acquainted n members w where
  notAbsent : ∀ peer car, w.car? peer = some car → car.board.status call ≠ .absent
  witnesses : ∀ peer car, w.car? peer = some car → ∀ p ∈ car.board.ledger.witnesses call, w.Holds call p
  unanimous : ∀ peer car, w.car? peer = some car → car.board.status call = .confirmed → ∀ p ∈ members, w.Holds call p
  sent : ∀ m ∈ w.sent, m.registry.status call ≠ .absent ∧
    ∃ s, w.status? m.source call = some s ∧ (m.registry.status call).rank ≤ s.rank

/-- What a controller can be told of the call, and by whom, in the course of a move. -/
inductive Vouched (w : Network) (members : PeerSet) (call : Call) (mv : Move) (peer : PeerId) :
    PeerId → Status → Prop where
  | pressed : mv = .press peer call → Vouched w members call mv peer peer .unconfirmed
  | witnessed {source : PeerId} : w.Holds call source → Vouched w members call mv peer source .unconfirmed
  | confirmed {source : PeerId} : (∀ p ∈ members, w.Holds call p) → Vouched w members call mv peer source .confirmed

variable {n : UInt8} {members : PeerSet} {call : Call} {w start : Network} {mv : Move}

theorem status?_eq {peer : PeerId} {car : Controller} (found : w.car? peer = some car) (call : Call) :
    w.status? peer call = some (car.board.status call) :=
  status?_eq_some.mpr ⟨car,found,rfl⟩

theorem Holds.intro {peer : PeerId} {car : Controller} (found : w.car? peer = some car)
    (raised : (car.board.status call).Raised) : w.Holds call peer :=
  ⟨_,status?_eq found call,raised⟩

theorem Vouched.notAbsent {peer source : PeerId} {told : Status} (vouched : Vouched w members call mv peer source told) :
    told ≠ .absent := by
  cases vouched <;> decide

theorem Acquainted.serving (acquainted : w.Acquainted n members) : w.Serving n := acquainted.reached

theorem Acquainted.member (acquainted : w.Acquainted n members) {peer : PeerId} {car : Controller}
    (found : w.car? peer = some car) : peer ∈ members :=
  (acquainted.complete peer).mpr (by rw [found]; rfl)

theorem Acquainted.car (acquainted : w.Acquainted n members) {peer : PeerId} (member : peer ∈ members) :
    ∃ car, w.car? peer = some car :=
  Option.isSome_iff_exists.mp ((acquainted.complete peer).mp member)

theorem Uninformed.agreeing (uninformed : w.Uninformed n members call) : w.Agreeing n members call := by
  refine ⟨uninformed.toAcquainted,fun peer car found => ?_,fun peer car found p member => ?_,
    fun peer car found held => ?_,fun m sent => ?_⟩
  · rw [uninformed.unknown peer car found]
    decide
  · have sound := (uninformed.reached peer car found).board.sound call
    refine absurd member (sound.no_witness ?_ p)
    rw [CallBoard.cycle_status,uninformed.unknown peer car found]
    decide
  · cases (uninformed.unknown peer car found).symm.trans held
  · rw [uninformed.sent] at sent
    cases sent

/-! ### One move -/

/-- What a snapshot in a steady run tells of the call is vouched for. -/
theorem Agreeing.vouched (agreeing : w.Agreeing n members call) {m : Broadcast} (sent : m ∈ w.sent)
    (raised : (m.registry.status call).Raised) (mv : Move) (peer : PeerId) :
    Vouched w members call mv peer m.source (m.registry.status call) := by
  obtain ⟨_,s,holder,bound⟩ := agreeing.sent m sent
  obtain ⟨car,found,held⟩ := status?_eq_some.mp holder
  rcases raised with unconfirmed | confirmed
  · rw [unconfirmed] at bound ⊢
    exact .witnessed ⟨s,holder,Status.raised_of_rank bound⟩
  · rw [confirmed] at bound ⊢
    exact .confirmed (agreeing.unanimous _ car found (held.trans (Status.confirmed_of_rank bound)))

/-- In a steady run an event leaves a membership as it is, and the cycle of the call too,
    unless it tells something that is vouched for. -/
theorem Agreeing.react (agreeing : w.Agreeing n members call) (steady : mv.Steady call) {peer : PeerId}
    {e : Controller.Event} {car : Controller} (found : w.car? peer = some car) (makes : w.event? mv = some (peer,e)) :
    (car.react w.fleet.now e).board.alive = members ∧
      ((car.react w.fleet.now e).board.cycle call = car.board.cycle call ∨
        ∃ source told, Vouched w members call mv peer source told ∧
          (car.react w.fleet.now e).board.cycle call = (car.board.cycle call).hear call peer members source told) := by
  have reached := agreeing.reached peer car found
  have alive := agreeing.alive peer car found
  have self := reached.board.self
  cases mv with
  | pass ms => cases makes
  | act p event =>
    cases makes
    cases e with
    | report r =>
      refine ⟨(CallBoard.alive_take car.board r).trans alive,?_⟩
      have cycles : (car.react w.fleet.now (.report r)).board.cycle call = _ := CallBoard.cycle_take car.board r call
      by_cases about : r.belief.call = call
      · have pressed := steady about
        subst pressed
        rw [if_pos about,self,alive] at cycles
        exact .inr ⟨peer,.unconfirmed,.pressed rfl,cycles⟩
      · rw [if_neg about] at cycles
        exact .inl cycles
    | receive m => exact steady.elim
    | signal s => exact ⟨alive,.inl rfl⟩
    | poll => exact steady.elim
    | car state =>
      have board : (car.react w.fleet.now (.car state)).board = car.board := by
        rw [Controller.react,Controller.setCar]
        split <;> rfl
      rw [board]
      exact ⟨alive,.inl rfl⟩
    | boardAlive alive => exact steady.elim
    | replicaAlive _ => exact ⟨alive,.inl rfl⟩
    | viewAlive _ => exact ⟨alive,.inl rfl⟩
  | restart p numFloors timeout => cases makes
  | send p => cases makes
  | deliver index p =>
    rw [event?,Option.map_eq_some_iff] at makes
    obtain ⟨m,sent,same⟩ := makes
    cases same
    have member := List.mem_of_getElem? sent
    constructor
    · rw [Controller.board_react,Controller.inputs,CallBoard.alive_after_reports]
      exact alive
    · have cycles : (car.react w.fleet.now (.receive m)).board.cycle call = _ :=
        Controller.cycle_receive reached.mirrors m w.fleet.now call
      rw [self,alive] at cycles
      split at cycles
      · by_cases raised : (m.registry.status call).Raised
        · exact .inr ⟨m.source,_,agreeing.vouched member raised _ _,cycles⟩
        · cases told : m.registry.status call with
          | unknown => rw [told] at cycles; exact .inl cycles
          | absent => exact absurd told (agreeing.sent m member).1
          | unconfirmed => exact absurd (.inl told) raised
          | confirmed => exact absurd (.inr told) raised
      · exact .inl cycles

theorem Agreeing.grows (agreeing : w.Agreeing n members call) (steady : mv.Steady call) {peer : PeerId} {s : Status}
    (held : w.status? peer call = some s) : ∃ t, (w.step mv).status? peer call = some t ∧ s.rank ≤ t.rank := by
  obtain ⟨before,had,rfl⟩ := status?_eq_some.mp held
  obtain ⟨car,found⟩ := car_survives had mv
  refine ⟨car.board.status call,status?_eq found call,?_⟩
  rcases car_step found with old | ⟨before',e,had',makes,rfl⟩ | ⟨_,_,rfl,_⟩
  · cases had.symm.trans old
    exact Nat.le_refl _
  · cases had.symm.trans had'
    rcases (agreeing.react steady had makes).2 with same | ⟨source,told,vouched,cycles⟩
    · exact Nat.le_of_eq (congrArg (fun k => k.status.rank) same.symm)
    · rw [← CallBoard.cycle_status,← CallBoard.cycle_status,cycles]
      exact Cycle.rank_hear vouched.notAbsent
  · exact steady.elim

theorem Agreeing.holds (agreeing : w.Agreeing n members call) (steady : mv.Steady call) {peer : PeerId}
    (holds : w.Holds call peer) : (w.step mv).Holds call peer := by
  obtain ⟨s,held,raised⟩ := holds
  obtain ⟨t,now,grown⟩ := agreeing.grows steady held
  exact ⟨t,now,Status.raised_of_rank (Nat.le_trans raised.rank grown)⟩

/-- A controller in a steady run after a move: nothing has changed for the call, or it
    has been told something that is vouched for. -/
theorem Agreeing.car_after (agreeing : w.Agreeing n members call) (steady : mv.Steady call) {peer : PeerId}
    {car : Controller} (found : (w.step mv).car? peer = some car) :
    car.Reached peer n ∧ car.board.alive = members ∧
      ∃ before, w.car? peer = some before ∧ (car.board.cycle call = before.board.cycle call ∨
        ∃ source told, Vouched w members call mv peer source told ∧
          car.board.cycle call = (before.board.cycle call).hear call peer members source told) := by
  rcases car_step found with old | ⟨before,e,had,makes,rfl⟩ | ⟨_,_,rfl,_⟩
  · exact ⟨agreeing.reached peer car old,agreeing.alive peer car old,car,old,.inl rfl⟩
  · obtain ⟨alive,cycles⟩ := agreeing.react steady had makes
    exact ⟨(agreeing.reached peer before had).react w.fleet.now e,alive,before,had,cycles⟩
  · exact steady.elim

/-- What is vouched for stays so: the source holds the call after the move, and so does
    everybody if the call is confirmed. -/
theorem Agreeing.vouched_after (agreeing : w.Agreeing n members call) (steady : mv.Steady call) {peer source : PeerId}
    {told : Status} (vouched : Vouched w members call mv peer source told) :
    (source ≠ peer → told = .unconfirmed → (w.step mv).Holds call source) ∧
      (told = .confirmed → ∀ p ∈ members, (w.step mv).Holds call p) := by
  cases vouched with
  | pressed press => exact ⟨fun other => absurd rfl other,fun told => (nomatch told)⟩
  | witnessed holds => exact ⟨fun _ _ => agreeing.holds steady holds,fun told => (nomatch told)⟩
  | confirmed all => exact ⟨fun _ told => (nomatch told),fun _ p member => agreeing.holds steady (all p member)⟩

theorem Agreeing.notAbsent_after (agreeing : w.Agreeing n members call) (steady : mv.Steady call) {peer : PeerId}
    {car : Controller} (found : (w.step mv).car? peer = some car) : car.board.status call ≠ .absent := by
  obtain ⟨_,_,before,had,same | ⟨source,told,vouched,cycles⟩⟩ := agreeing.car_after steady found
  · rw [← CallBoard.cycle_status,same]
    exact agreeing.notAbsent peer before had
  · rw [← CallBoard.cycle_status,cycles]
    rcases Cycle.status_hear call peer members (before.board.cycle call) source told with old | new | ⟨_,_,_,closed⟩
    · rw [old]
      exact agreeing.notAbsent peer before had
    · rw [new]
      exact vouched.notAbsent
    · rw [closed]
      decide

theorem Agreeing.witnesses_after (agreeing : w.Agreeing n members call) (steady : mv.Steady call) {peer p : PeerId}
    {car : Controller} (found : (w.step mv).car? peer = some car) (member : p ∈ car.board.ledger.witnesses call) :
    (w.step mv).Holds call p := by
  obtain ⟨_,_,before,had,same | ⟨source,told,vouched,cycles⟩⟩ := agreeing.car_after steady found
  · rw [CallBoard.witnesses_eq,same] at member
    exact agreeing.holds steady (agreeing.witnesses peer before had p member)
  · rw [CallBoard.witnesses_eq,cycles] at member
    have here : told = .unconfirmed → (w.step mv).Holds call peer := by
      rintro rfl
      refine .intro found ?_
      rw [← CallBoard.cycle_status,cycles]
      exact Cycle.raised_hear call peer members (before.board.cycle call) source
    rcases Cycle.witness_hear member with old | ⟨isUnconfirmed,rfl | rfl⟩
    · exact agreeing.holds steady (agreeing.witnesses peer before had p old)
    · exact here isUnconfirmed
    · by_cases own : p = peer
      · exact own ▸ here isUnconfirmed
      · exact (agreeing.vouched_after steady vouched).1 own isUnconfirmed

theorem Agreeing.unanimous_after (agreeing : w.Agreeing n members call) (steady : mv.Steady call) {peer p : PeerId}
    {car : Controller} (found : (w.step mv).car? peer = some car) (held : car.board.status call = .confirmed)
    (member : p ∈ members) : (w.step mv).Holds call p := by
  have here : (w.step mv).Holds call peer := .intro found (.inr held)
  obtain ⟨_,_,before,had,same | ⟨source,told,vouched,cycles⟩⟩ := agreeing.car_after steady found
  · rw [← CallBoard.cycle_status,same] at held
    exact agreeing.holds steady (agreeing.unanimous peer before had held p member)
  · rw [← CallBoard.cycle_status,cycles] at held
    rcases Cycle.status_hear call peer members (before.board.cycle call) source told with
      old | new | ⟨isUnconfirmed,_,agreed,_⟩
    · exact agreeing.holds steady (agreeing.unanimous peer before had (old.symm.trans held) p member)
    · exact (agreeing.vouched_after steady vouched).2 (new.symm.trans held) p member
    · rcases Cycle.mem_joined.mp (agreed.2 p member) with rfl | rfl | old
      · exact here
      · by_cases own : p = peer
        · exact own ▸ here
        · exact (agreeing.vouched_after steady vouched).1 own isUnconfirmed
      · exact agreeing.holds steady (agreeing.witnesses peer before had p old)

theorem Agreeing.sent_after (agreeing : w.Agreeing n members call) (steady : mv.Steady call) {m : Broadcast}
    (member : m ∈ (w.step mv).sent) : m.registry.status call ≠ .absent ∧
      ∃ s, (w.step mv).status? m.source call = some s ∧ (m.registry.status call).rank ≤ s.rank := by
  rcases sent_step member with old | ⟨peer,car,rfl,found,outbound⟩
  · obtain ⟨known,s,held,bound⟩ := agreeing.sent m old
    obtain ⟨t,now,grown⟩ := agreeing.grows steady held
    exact ⟨known,t,now,Nat.le_trans bound grown⟩
  · have after : (w.step (.send peer)).status? peer call = some (car.board.status call) := status?_eq found call
    obtain ⟨rfl,unknown | same⟩ := outbound_told (agreeing.reached peer car found) outbound call
    · rw [unknown]
      exact ⟨by decide,_,after,Nat.zero_le _⟩
    · rw [same]
      exact ⟨agreeing.notAbsent _ car found,_,after,Nat.le_refl _⟩

theorem Agreeing.step (agreeing : w.Agreeing n members call) (steady : mv.Steady call) :
    (w.step mv).Agreeing n members call where
  reached _ _ found := (agreeing.car_after steady found).1
  alive _ _ found := (agreeing.car_after steady found).2.1
  complete peer := by rw [isSome_car_step]; exact agreeing.complete peer
  notAbsent _ _ found := agreeing.notAbsent_after steady found
  witnesses _ _ found _ member := agreeing.witnesses_after steady found member
  unanimous _ _ found held _ member := agreeing.unanimous_after steady found held member
  sent _ member := agreeing.sent_after steady member

/-! ### Runs -/

theorem Agreeing.run (agreeing : w.Agreeing n members call) {moves : List Move} (steady : ∀ mv ∈ moves, mv.Steady call) :
    (w.run moves).Agreeing n members call := by
  induction moves generalizing w with
  | nil => exact agreeing
  | cons mv rest ih =>
    exact ih (agreeing.step (steady mv List.mem_cons_self)) fun mv' member => steady mv' (List.mem_cons_of_mem _ member)

theorem Agreeing.grows_run (agreeing : w.Agreeing n members call) {moves : List Move}
    (steady : ∀ mv ∈ moves, mv.Steady call) {peer : PeerId} {s : Status} (held : w.status? peer call = some s) :
    ∃ t, (w.run moves).status? peer call = some t ∧ s.rank ≤ t.rank := by
  induction moves generalizing w s with
  | nil => exact ⟨s,held,Nat.le_refl _⟩
  | cons mv rest ih =>
    have first := steady mv List.mem_cons_self
    obtain ⟨t,now,grown⟩ := agreeing.grows first held
    obtain ⟨u,last,further⟩ := ih (agreeing.step first) (fun mv' member => steady mv' (List.mem_cons_of_mem _ member)) now
    exact ⟨u,last,Nat.le_trans grown further⟩

/-- Nobody holds the call in a steady run unless somebody has pressed the button. -/
theorem Uninformed.pressed (uninformed : start.Uninformed n members call) (two : 2 ≤ members.size) {moves : List Move}
    (steady : ∀ mv ∈ moves, mv.Steady call) {peer : PeerId} (holds : (start.run moves).Holds call peer) :
    ∃ p ∈ members, Move.press p call ∈ moves := by
  induction moves using List.reverseRecOn generalizing peer with
  | nil =>
    obtain ⟨s,held,raised⟩ := holds
    obtain ⟨car,found,rfl⟩ := status?_eq_some.mp held
    rw [uninformed.unknown peer car found] at raised
    exact absurd raised (by decide)
  | append_singleton past mv ih =>
    have before : ∀ mv' ∈ past, mv'.Steady call := fun mv' member => steady mv' (List.mem_append_left _ member)
    by_cases earlier : ∃ q, (start.run past).Holds call q
    · obtain ⟨q,holdsEarlier⟩ := earlier
      obtain ⟨p,member,press⟩ := ih before holdsEarlier
      exact ⟨p,member,List.mem_append_left _ press⟩
    have agreeing := uninformed.agreeing.run before
    obtain ⟨s,held,raised⟩ := holds
    rw [run_snoc] at held
    obtain ⟨car,found,rfl⟩ := status?_eq_some.mp held
    obtain ⟨_,_,old,had,same | ⟨source,told,vouched,_⟩⟩ :=
      agreeing.car_after (steady mv (List.mem_append_right _ List.mem_cons_self)) found
    · rw [← CallBoard.cycle_status,same] at raised
      exact absurd ⟨peer,.intro had raised⟩ earlier
    · cases vouched with
      | pressed press =>
        refine ⟨peer,agreeing.member had,List.mem_append_right _ ?_⟩
        rw [press]
        exact List.mem_cons_self
      | witnessed holdsEarlier => exact absurd ⟨source,holdsEarlier⟩ earlier
      | confirmed all =>
        obtain ⟨p,member,_⟩ := PeerSet.two_of_size two
        exact absurd ⟨p,all p member⟩ earlier

/-! ### Deliveries -/

/-- A snapshot of another controller tells the receiver its sender's status of the call. -/
theorem Agreeing.deliver (agreeing : w.Agreeing n members call) (served : call.floor < n) {index : Nat} {m : Broadcast}
    (sent : w.sent[index]? = some m) {peer : PeerId} {car : Controller} (found : w.car? peer = some car)
    (other : m.source ≠ peer) :
    ∃ after, (w.step (.deliver index peer)).car? peer = some after ∧ after.board.cycle call =
      (car.board.cycle call).hear call peer members m.source (m.registry.status call) := by
  obtain ⟨after,foundAfter,cycles⟩ := agreeing.serving.deliver served sent found
  rw [if_pos other,agreeing.alive peer car found] at cycles
  exact ⟨after,foundAfter,cycles⟩

/-- A confirmation in a snapshot confirms the call wherever the snapshot arrives. -/
theorem Agreeing.settles (agreeing : w.Agreeing n members call) (served : call.floor < n) {index : Nat} {m : Broadcast}
    (sent : w.sent[index]? = some m) (confirmed : m.registry.status call = .confirmed) {peer : PeerId}
    (member : peer ∈ members) : (w.step (.deliver index peer)).status? peer call = some .confirmed := by
  obtain ⟨car,found⟩ := agreeing.car member
  by_cases own : m.source = peer
  · obtain ⟨_,s,held,bound⟩ := agreeing.sent m (List.mem_of_getElem? sent)
    rw [own] at held
    obtain ⟨t,now,grown⟩ := agreeing.grows (show (Move.deliver index peer).Steady call from trivial) held
    rw [confirmed] at bound
    rw [now,Status.confirmed_of_rank (Nat.le_trans bound grown)]
  · obtain ⟨after,foundAfter,cycles⟩ := agreeing.deliver served sent found own
    rw [status?_eq foundAfter,← CallBoard.cycle_status,cycles,confirmed]
    exact congrArg some (Cycle.confirmed_hear (agreeing.notAbsent peer car found) m.source)

/-- A snapshot that holds the call makes its receiver hold it. -/
theorem Agreeing.spreads (agreeing : w.Agreeing n members call) (served : call.floor < n) {index : Nat} {m : Broadcast}
    (sent : w.sent[index]? = some m) (raised : (m.registry.status call).Raised) {peer : PeerId}
    (member : peer ∈ members) : (w.step (.deliver index peer)).Holds call peer := by
  rcases raised with unconfirmed | confirmed
  · obtain ⟨car,found⟩ := agreeing.car member
    by_cases own : m.source = peer
    · obtain ⟨_,s,held,bound⟩ := agreeing.sent m (List.mem_of_getElem? sent)
      rw [own] at held
      rw [unconfirmed] at bound
      exact agreeing.holds (show (Move.deliver index peer).Steady call from trivial) ⟨s,held,Status.raised_of_rank bound⟩
    · obtain ⟨after,foundAfter,cycles⟩ := agreeing.deliver served sent found own
      refine .intro foundAfter ?_
      rw [← CallBoard.cycle_status,cycles,unconfirmed]
      exact Cycle.raised_hear call peer members (car.board.cycle call) m.source
  · exact ⟨_,agreeing.settles served sent confirmed member,.inr rfl⟩

theorem Agreeing.counts_run (agreeing : w.Agreeing n members call) {moves : List Move}
    (steady : ∀ mv ∈ moves, mv.Steady call) {peer p : PeerId} {before after : Controller}
    (had : w.car? peer = some before) (counts : (before.board.cycle call).Counts p)
    (found : (w.run moves).car? peer = some after) : (after.board.cycle call).Counts p := by
  induction moves generalizing w before with
  | nil =>
    cases had.symm.trans found
    exact counts
  | cons mv rest ih =>
    have first := steady mv List.mem_cons_self
    obtain ⟨next,foundNext⟩ := car_survives had mv
    refine ih (agreeing.step first) (fun mv' member => steady mv' (List.mem_cons_of_mem _ member)) foundNext ?_ found
    obtain ⟨_,_,old,hadOld,same | ⟨source,told,vouched,cycles⟩⟩ := agreeing.car_after first foundNext
    · cases had.symm.trans hadOld
      exact same ▸ counts
    · cases had.symm.trans hadOld
      exact cycles ▸ Cycle.counts_hear counts source vouched.notAbsent

/-- In the course of the moves the receiver has got a snapshot of the sender that holds
    the call. -/
def Delivered (start : Network) (moves : List Move) (call : Call) (sender receiver : PeerId) : Prop :=
  ∃ past index later m, moves = past ++ .deliver index receiver :: later ∧
    (start.run past).sent[index]? = some m ∧ m.source = sender ∧ (m.registry.status call).Raised

/-- Whose snapshot has arrived is counted from then on. -/
theorem Agreeing.counts_delivered (agreeing : start.Agreeing n members call) (served : call.floor < n)
    {moves : List Move} (steady : ∀ mv ∈ moves, mv.Steady call) {sender receiver : PeerId} (other : sender ≠ receiver)
    (delivered : Delivered start moves call sender receiver) {car : Controller}
    (found : (start.run moves).car? receiver = some car) : (car.board.cycle call).Counts sender := by
  obtain ⟨past,index,later,m,rfl,sent,rfl,raised⟩ := delivered
  have agreed := agreeing.run fun mv member => steady mv (List.mem_append_left _ member)
  have last : (Move.deliver index receiver).Steady call := trivial
  rw [run_append] at found
  have here := isSome_car_run (start.run past) (.deliver index receiver :: later) receiver
  rw [found,Option.isSome_some,eq_comm,Option.isSome_iff_exists] at here
  obtain ⟨before,had⟩ := here
  obtain ⟨after,foundAfter,cycles⟩ := agreed.deliver served sent had other
  refine (agreed.step last).counts_run (fun mv member => steady mv ?_) foundAfter ?_ found
  · exact List.mem_append_right _ (List.mem_cons_of_mem _ member)
  · rw [cycles]
    exact Cycle.counts_told (agreed.notAbsent receiver before had) m.source raised

/-- A controller that has got a snapshot holding the call from each of the others has
    confirmed it. -/
theorem Agreeing.converges (agreeing : start.Agreeing n members call) (two : 2 ≤ members.size) (served : call.floor < n)
    {moves : List Move} (steady : ∀ mv ∈ moves, mv.Steady call) {peer : PeerId} (member : peer ∈ members)
    (delivered : ∀ p ∈ members, p ≠ peer → Delivered start moves call p peer) :
    (start.run moves).status? peer call = some .confirmed := by
  have agreed := agreeing.run steady
  obtain ⟨car,found⟩ := agreed.car member
  have reached := agreed.reached peer car found
  have sound := reached.board.sound call
  rw [reached.board.self,agreed.alive peer car found] at sound
  rw [status?_eq found]
  refine congrArg some (sound.confirmed_of_counts two fun p inside other => ?_)
  exact agreeing.counts_delivered served steady other (delivered p inside other) found

/-- In the course of the moves the sender has sent a snapshot, and that one has arrived
    at the receiver. -/
def Passed (w : Network) (moves : List Move) (sender receiver : PeerId) : Prop :=
  ∃ past between later car m, moves = past ++ .send sender :: (between ++
      .deliver (w.run past).sent.length receiver :: later) ∧
    (w.run past).car? sender = some car ∧ car.outbound = some m

/-- A controller that holds the call passes it on. -/
theorem Agreeing.passed (agreeing : w.Agreeing n members call) (served : call.floor < n) {moves : List Move}
    (steady : ∀ mv ∈ moves, mv.Steady call) {sender receiver : PeerId} (holds : w.Holds call sender)
    (passed : w.Passed moves sender receiver) : Delivered w moves call sender receiver := by
  obtain ⟨past,between,later,car,m,rfl,found,outbound⟩ := passed
  have before : ∀ mv ∈ past, mv.Steady call := fun mv member => steady mv (List.mem_append_left _ member)
  have agreed := agreeing.run before
  obtain ⟨s,held,raised⟩ := holds
  obtain ⟨t,now,grown⟩ := agreeing.grows_run before held
  rw [status?_eq found] at now
  cases now
  have mirrored := (agreed.reached sender car found).mirrors.cell call served
  have kept := (outbound_eq outbound).2
  refine ⟨past ++ .send sender :: between,(w.run past).sent.length,later,m,by simp,?_,?_,?_⟩
  · rw [run_append]
    exact sent_keeps (sent_send found outbound) between
  · exact (outbound_told (agreed.reached sender car found) outbound call).1
  · rw [kept,mirrored]
    exact Status.raised_of_rank (Nat.le_trans raised.rank grown)

theorem Agreeing.holds_run (agreeing : w.Agreeing n members call) {moves : List Move}
    (steady : ∀ mv ∈ moves, mv.Steady call) {peer : PeerId} (holds : w.Holds call peer) :
    (w.run moves).Holds call peer := by
  obtain ⟨s,held,raised⟩ := holds
  obtain ⟨t,now,grown⟩ := agreeing.grows_run steady held
  exact ⟨t,now,Status.raised_of_rank (Nat.le_trans raised.rank grown)⟩

theorem Agreeing.holds_delivered (agreeing : w.Agreeing n members call) (served : call.floor < n) {moves : List Move}
    (steady : ∀ mv ∈ moves, mv.Steady call) {sender receiver : PeerId} (member : receiver ∈ members)
    (delivered : Delivered w moves call sender receiver) : (w.run moves).Holds call receiver := by
  obtain ⟨past,index,later,m,rfl,sent,_,raised⟩ := delivered
  have agreed := agreeing.run fun mv inside => steady mv (List.mem_append_left _ inside)
  have told := agreed.spreads served sent raised member
  rw [run_append]
  exact (agreed.step (show (Move.deliver index receiver).Steady call from trivial)).holds_run
    (fun mv inside => steady mv (List.mem_append_right _ (List.mem_cons_of_mem _ inside))) told

/-- When everybody has twice got a snapshot of everybody else, a call that somebody held
    is confirmed everywhere. -/
theorem Agreeing.exchanged (agreeing : w.Agreeing n members call) (two : 2 ≤ members.size) (served : call.floor < n)
    {first second : List Move} (steady : ∀ mv ∈ first ++ second, mv.Steady call) {holder : PeerId}
    (holds : w.Holds call holder) (once : ∀ p ∈ members, ∀ q ∈ members, p ≠ q → w.Passed first p q)
    (twice : ∀ p ∈ members, ∀ q ∈ members, p ≠ q → (w.run first).Passed second p q) {peer : PeerId}
    (member : peer ∈ members) : (w.run (first ++ second)).status? peer call = some .confirmed := by
  have firstSteady : ∀ mv ∈ first, mv.Steady call := fun mv inside => steady mv (List.mem_append_left _ inside)
  have secondSteady : ∀ mv ∈ second, mv.Steady call := fun mv inside => steady mv (List.mem_append_right _ inside)
  obtain ⟨s,held,raised⟩ := holds
  obtain ⟨car,found,_⟩ := status?_eq_some.mp held
  have known : holder ∈ members := agreeing.member found
  have everybody : ∀ q ∈ members, (w.run first).Holds call q := by
    intro q inside
    by_cases own : holder = q
    · exact own ▸ agreeing.holds_run firstSteady ⟨s,held,raised⟩
    · have delivered := agreeing.passed served firstSteady ⟨s,held,raised⟩ (once holder known q inside own)
      exact agreeing.holds_delivered served firstSteady inside delivered
  have agreed := agreeing.run firstSteady
  rw [run_append]
  refine agreed.converges two served secondSteady member fun p inside other => ?_
  exact agreed.passed served secondSteady (everybody p inside) (twice p inside peer member other)

/-! ### The agreement -/

/-- What the controllers of a fleet agree on about a call after several moves. -/
structure Agreement (members : PeerSet) (call : Call) (start : Network) (moves : List Move) : Prop where
  /-- No controller ever goes back in the lifecycle of the call. -/
  grows : ∀ past later, moves = past ++ later → ∀ peer s, (start.run past).status? peer call = some s →
    ∃ t, (start.run moves).status? peer call = some t ∧ s.rank ≤ t.rank ∧ t ≠ .absent
  /-- When anybody has confirmed the call, everybody holds it. -/
  unanimous : (∃ peer, (start.run moves).status? peer call = some .confirmed) ∨
      (∃ m ∈ (start.run moves).sent, m.registry.status call = .confirmed) →
    ∀ p ∈ members, (start.run moves).Holds call p
  /-- The witnesses in every ledger hold the call. -/
  witnesses : ∀ peer car, (start.run moves).car? peer = some car →
    ∀ p ∈ car.board.ledger.witnesses call, p ∈ members ∧ (start.run moves).Holds call p
  /-- A snapshot is not ahead of its sender, however late it arrives. -/
  bounded : ∀ m ∈ (start.run moves).sent, m.registry.status call ≠ .absent ∧
    ∃ s, (start.run moves).status? m.source call = some s ∧ (m.registry.status call).rank ≤ s.rank
  /-- Nobody holds the call unless it was pressed. -/
  pressed : ∀ peer, (start.run moves).Holds call peer → ∃ p ∈ members, Move.press p call ∈ moves
  /-- The registry of a controller tells what its board holds. -/
  recorded : ∀ peer car, (start.run moves).car? peer = some car →
    car.replica.registry.status call = car.board.status call
  /-- A snapshot that holds the call makes its receiver hold it, and one that confirms
      it makes the receiver confirm it. -/
  spreads : ∀ index m peer, (start.run moves).sent[index]? = some m → peer ∈ members →
    ((m.registry.status call).Raised → ((start.run moves).step (.deliver index peer)).Holds call peer) ∧
      (m.registry.status call = .confirmed →
        ((start.run moves).step (.deliver index peer)).status? peer call = some .confirmed)
  /-- Whoever has got a snapshot holding the call from each of the others has confirmed
      it. -/
  converges : ∀ peer ∈ members, (∀ p ∈ members, p ≠ peer → Delivered start moves call p peer) →
    (start.run moves).status? peer call = some .confirmed
  /-- Two rounds, in each of which a snapshot of everybody arrives at everybody else,
      confirm a call everywhere that somebody held before. -/
  exchanged : ∀ past first second, moves = past ++ (first ++ second) → (∃ p, (start.run past).Holds call p) →
    (∀ p ∈ members, ∀ q ∈ members, p ≠ q → (start.run past).Passed first p q) →
    (∀ p ∈ members, ∀ q ∈ members, p ≠ q → (start.run (past ++ first)).Passed second p q) →
    ∀ peer ∈ members, (start.run moves).status? peer call = some .confirmed

/-- Controllers that all know each other and have not heard of a call agree on it after
    any presses of its button, any reports about other calls, and any snapshots that are
    taken, lost, delayed, repeated and reordered. -/
theorem agreement (uninformed : start.Uninformed n members call) (two : 2 ≤ members.size) (served : call.floor < n)
    {moves : List Move} (steady : ∀ mv ∈ moves, mv.Steady call) : Agreement members call start moves := by
  have agreeing := uninformed.agreeing.run steady
  refine ⟨?_,?_,?_,agreeing.sent,fun peer holds => uninformed.pressed two steady holds,?_,?_,
    fun peer member delivered => uninformed.agreeing.converges two served steady member delivered,?_⟩
  · rintro past later rfl peer s held
    have earlier := uninformed.agreeing.run fun mv member => steady mv (List.mem_append_left _ member)
    obtain ⟨t,now,grown⟩ := earlier.grows_run (fun mv member => steady mv (List.mem_append_right _ member)) held
    rw [← run_append] at now
    refine ⟨t,now,grown,?_⟩
    obtain ⟨car,found,rfl⟩ := status?_eq_some.mp now
    exact agreeing.notAbsent peer car found
  · rintro (⟨peer,held⟩ | ⟨m,sent,held⟩)
    · obtain ⟨car,found,confirmed⟩ := status?_eq_some.mp held
      exact agreeing.unanimous peer car found confirmed
    · obtain ⟨_,s,holder,bound⟩ := agreeing.sent m sent
      rw [held] at bound
      obtain ⟨car,found,same⟩ := status?_eq_some.mp holder
      exact agreeing.unanimous m.source car found (same.trans (Status.confirmed_of_rank bound))
  · intro peer car found p member
    obtain ⟨s,held,raised⟩ := agreeing.witnesses peer car found p member
    obtain ⟨holder,here,_⟩ := status?_eq_some.mp held
    exact ⟨agreeing.member here,s,held,raised⟩
  · intro peer car found
    exact (agreeing.reached peer car found).mirrors.cell call served
  · intro index m peer sent member
    exact ⟨fun raised => agreeing.spreads served sent raised member,
      fun confirmed => agreeing.settles served sent confirmed member⟩
  · rintro past first second rfl ⟨p,holds⟩ once twice peer member
    have earlier := uninformed.agreeing.run fun mv inside => steady mv (List.mem_append_left _ inside)
    rw [run_append] at twice ⊢
    exact earlier.exchanged two served (fun mv inside => steady mv (List.mem_append_right _ inside)) holds once twice
      member

/-- Two controllers that know each other. -/
def introduced : Network :=
  pair.run [.act ⟨1⟩ (.car default),.act ⟨2⟩ (.car default),
    .act ⟨1⟩ (.boardAlive (.of [⟨1⟩,⟨2⟩])),.act ⟨2⟩ (.boardAlive (.of [⟨1⟩,⟨2⟩]))]

/-- The first one is pressed, the second one hears of it twice, and the first one hears
    of the second one. -/
def exchange : List Move :=
  [.press ⟨1⟩ (.hall 1 .up),.send ⟨1⟩,.deliver 0 ⟨2⟩,.send ⟨2⟩,.deliver 0 ⟨2⟩,.deliver 1 ⟨1⟩]

theorem introduced_car {peer : PeerId} {car : Controller} (found : introduced.car? peer = some car) :
    car = ((Controller.new peer 4 1000).react 0 (.car default)).react 0 (.boardAlive (.of [⟨1⟩,⟨2⟩])) := by
  rcases car?_pair found with rfl | rfl
  · exact Option.some.inj (found.symm.trans (by decide +kernel))
  · exact Option.some.inj (found.symm.trans (by decide +kernel))

theorem introduced_uninformed : introduced.Uninformed 4 (.of [⟨1⟩,⟨2⟩]) (.hall 1 .up) := by
  refine ⟨⟨fun peer car found => ?_,fun peer car found => ?_,fun peer => ?_⟩,fun peer car found => ?_,by decide +kernel⟩
  · rw [introduced_car found]
    exact .react 0 _ (.react 0 _ (.new 1000))
  · rw [introduced_car found]
    rfl
  · rw [introduced,isSome_car_run,pair,car?_new]
    split <;> simp_all
  · rcases car?_pair found with rfl | rfl
    · rw [introduced_car found]
      decide +kernel
    · rw [introduced_car found]
      decide +kernel

theorem introduced_agree : (introduced.run exchange).status? ⟨1⟩ (.hall 1 .up) = some .confirmed ∧
    Agreement (.of [⟨1⟩,⟨2⟩]) (.hall 1 .up) introduced exchange :=
  ⟨by decide +kernel,agreement introduced_uninformed (by decide +kernel) (by decide) (by decide)⟩

end Network
end ElevatorFleet
