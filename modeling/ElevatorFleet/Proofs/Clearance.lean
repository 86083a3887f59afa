import ElevatorFleet.Proofs.Network

/-!
# Calls that have been served

A controller comes to wait for a call only when it is told of a press, from outside or by
the snapshot of another controller that waits for it (`unconfirmed_earlier`), and an absent
call comes back in no other way (`absent_stays`). So a call that nobody waits for any more,
and that no snapshot on the way raises, dies out (`clearance`): whoever holds it to be
absent keeps to that, and whoever gets a snapshot that says so believes it, whatever happens
to the memberships and to the snapshots that still confirm the call. A snapshot clears a
call everywhere else, though, and not at its own sender: one that was sent before its sender
confirmed the call again leaves the fleet divided (`late_clear_divides`).
-/
namespace ElevatorFleet
open Std Tasks

namespace Network

/-- The controller is replaced by one that has just started. -/
def Move.Restarts (peer : PeerId) (mv : Move) : Prop := ∃ numFloors timeout, mv = .restart peer numFloors timeout

/-- A controller that restarts serves `n` floors. -/
def Move.Serves (n : UInt8) : Move → Prop
  | .restart _ numFloors _ => numFloors = n
  | _ => True

instance (n : UInt8) : DecidablePred (Move.Serves n)
  | .restart _ numFloors _ => inferInstanceAs (Decidable (numFloors = n))
  | .pass _ | .act _ _ | .send _ | .deliver _ _ => .isTrue trivial

/-- From outside nobody is told that the call is unconfirmed or confirmed, and snapshots
    come through the network alone. -/
def Move.Unpressed (call : Call) : Move → Prop
  | .act _ (.report r) => r.belief.call = call → r.belief.status ≠ .unconfirmed ∧ r.belief.status ≠ .confirmed
  | .act _ (.receive _) => False
  | _ => True

instance (call : Call) : DecidablePred (Move.Unpressed call)
  | .act _ (.report r) => inferInstanceAs
      (Decidable (r.belief.call = call → r.belief.status ≠ .unconfirmed ∧ r.belief.status ≠ .confirmed))
  | .act _ (.receive _) => .isFalse id
  | .act _ (.signal _) | .act _ .poll | .act _ (.car _) | .act _ (.boardAlive _) => .isTrue trivial
  | .act _ (.replicaAlive _) | .act _ (.viewAlive _) => .isTrue trivial
  | .pass _ | .restart _ _ _ | .send _ | .deliver _ _ => .isTrue trivial

/-- No controller holds the call to be unconfirmed. -/
def Calm (w : Network) (call : Call) : Prop := ∀ peer, w.status? peer call ≠ some .unconfirmed

/-- No controller holds the call to be unconfirmed, and no snapshot on the way does: none
    that was sent before and arrives in the course of the moves. -/
structure Quiet (w : Network) (moves : List Move) (call : Call) : Prop where
  calm : w.Calm call
  flight : ∀ index peer m, .deliver index peer ∈ moves → w.sent[index]? = some m →
    m.registry.status call ≠ .unconfirmed

/-- In the course of the moves the snapshot at `index` reaches the controller. -/
def Gets (w : Network) (moves : List Move) (index : Nat) (peer : PeerId) : Prop :=
  ∃ past later, moves = past ++ .deliver index peer :: later ∧ index < (w.run past).sent.length

/-- At some moment in the course of the moves the controller holds the call to be absent. -/
def Rests (w : Network) (moves : List Move) (call : Call) (peer : PeerId) : Prop :=
  ∃ past, past <+: moves ∧ (w.run past).status? peer call = some .absent

/-- How a call dies out in the course of the moves. -/
structure Clearance (w : Network) (moves : List Move) (call : Call) : Prop where
  /-- Nobody becomes unconfirmed for it. -/
  calm : ∀ past, past <+: moves → (w.run past).Calm call
  /-- Where it is absent it stays so until the controller restarts. -/
  lasting : ∀ past later peer, past ++ later <+: moves → (∀ mv ∈ later, ¬ mv.Restarts peer) →
    (w.run past).status? peer call = some .absent → (w.run (past ++ later)).status? peer call = some .absent
  /-- A controller that gets a snapshot of another one in which it is absent holds it to
      be absent from then on. -/
  obeyed : ∀ past index peer m, past ++ [.deliver index peer] <+: moves → (w.run past).sent[index]? = some m →
    m.source ≠ peer → m.registry.status call = .absent → (w.car? peer).isSome →
    (w.run (past ++ [.deliver index peer])).status? peer call = some .absent
  /-- Who sends a snapshot in which it is absent holds it to be absent. -/
  truthful : ∀ past index m, past <+: moves → w.sent.length ≤ index → (w.run past).sent[index]? = some m →
    m.registry.status call = .absent → w.Rests past call m.source
  /-- Once everybody else has got a snapshot in which it is absent, and its sender holds it
      to be absent at any moment, it is absent everywhere for good. -/
  settles : ∀ past later index m, past ++ later = moves → (∀ mv ∈ moves, ∀ peer, ¬ mv.Restarts peer) →
    (w.run past).sent[index]? = some m → m.registry.status call = .absent → w.Rests past call m.source →
    (∀ peer, (w.car? peer).isSome → peer ≠ m.source → w.Gets past index peer) →
    ∀ peer, (w.car? peer).isSome → (w.run (past ++ later)).status? peer call = some .absent

variable {n : UInt8} {call : Call} {w : Network} {mv : Move} {moves : List Move}

/-! ### One move -/

theorem serving_new (peers : PeerSet) (n : UInt8) (timeout : Duration) : (new peers n timeout).Serving n := by
  intro peer car found
  rw [car?_new] at found
  split at found
  · cases found
    exact .new timeout
  · cases found

theorem Serving.step (serving : w.Serving n) (serves : mv.Serves n) : (w.step mv).Serving n := by
  intro peer car found
  rcases car_step found with old | ⟨before,e,had,_,rfl⟩ | ⟨floors,timeout,rfl,rfl⟩
  · exact serving peer car old
  · exact (serving peer before had).react w.fleet.now e
  · have same : floors = n := serves
    exact same ▸ .new timeout

theorem Serving.run (serving : w.Serving n) (serves : ∀ mv ∈ moves, mv.Serves n) : (w.run moves).Serving n := by
  induction moves generalizing w with
  | nil => exact serving
  | cons mv rest ih =>
    exact ih (serving.step (serves mv List.mem_cons_self)) fun mv' member => serves mv' (List.mem_cons_of_mem _ member)

/-- A controller that is unconfirmed was so before, unless the move tells it of a press. -/
theorem unconfirmed_earlier (manned : w.Manned) (noPress : ¬ w.Tells mv call .unconfirmed) {peer : PeerId}
    (held : (w.step mv).status? peer call = some .unconfirmed) : w.status? peer call = some .unconfirmed := by
  obtain ⟨car,found,isUnconfirmed⟩ := status?_eq_some.mp held
  rcases cycle_step manned found call with ⟨floors,timeout,_,rfl⟩ | ⟨before,had,cause⟩
  · cases (CallBoard.status_new peer call).symm.trans isUnconfirmed
  by_contra changed
  have earlier : (before.board.cycle call).status ≠ .unconfirmed :=
    fun same => changed (status?_eq_some.mpr ⟨before,had,same⟩)
  rw [← CallBoard.cycle_status] at isUnconfirmed
  rcases cause with same | ⟨e,source,told,makes,tells,heard⟩ | ⟨alive,reviewed⟩
  · exact earlier (same ▸ isUnconfirmed)
  · rw [heard] at isUnconfirmed
    refine Cycle.calm_hear earlier ?_ isUnconfirmed
    rintro rfl
    exact noPress ⟨peer,e,source,makes,tells⟩
  · rw [reviewed,Cycle.review_calm earlier] at isUnconfirmed
    exact earlier isUnconfirmed

theorem Calm.step (calm : w.Calm call) (manned : w.Manned) (noPress : ¬ w.Tells mv call .unconfirmed) :
    (w.step mv).Calm call :=
  fun peer held => calm peer (unconfirmed_earlier manned noPress held)

theorem absent_stays (manned : w.Manned) (noPress : ¬ w.Tells mv call .unconfirmed) {peer : PeerId}
    (lasts : ¬ mv.Restarts peer) (held : w.status? peer call = some .absent) :
    (w.step mv).status? peer call = some .absent := by
  obtain ⟨old,hadOld,isAbsent⟩ := status?_eq_some.mp held
  obtain ⟨car,found⟩ := car_survives hadOld mv
  refine status?_eq_some.mpr ⟨car,found,?_⟩
  rw [← CallBoard.cycle_status] at isAbsent ⊢
  rcases cycle_step manned found call with ⟨floors,timeout,restarts,_⟩ | ⟨before,had,cause⟩
  · exact absurd ⟨floors,timeout,restarts⟩ lasts
  · cases hadOld.symm.trans had
    rcases cause with same | ⟨e,source,told,makes,tells,heard⟩ | ⟨alive,reviewed⟩
    · rw [same]
      exact isAbsent
    · have quiet : told ≠ .unconfirmed := by
        rintro rfl
        exact noPress ⟨peer,e,source,makes,tells⟩
      rw [heard,Cycle.absent_hear isAbsent quiet]
      exact isAbsent
    · rw [reviewed,Cycle.review_calm (by rw [isAbsent]; decide)]
      exact isAbsent

/-- Nobody is told of a press: not from outside, not by a snapshot on the way, and so not
    by the ones that are sent now either. -/
theorem Quiet.noPress {rest : List Move} (quiet : w.Quiet (mv :: rest) call) (unpressed : mv.Unpressed call) :
    ¬ w.Tells mv call .unconfirmed := by
  rintro ⟨peer,e,source,makes,tells⟩
  cases mv with
  | pass ms => cases makes
  | act p event =>
    cases makes
    cases tells with
    | report => exact (unpressed rfl).1 rfl
    | receive => exact unpressed
  | restart p numFloors timeout => cases makes
  | send p => cases makes
  | deliver index p =>
    rw [event?,Option.map_eq_some_iff] at makes
    obtain ⟨m,sent,same⟩ := makes
    cases same
    cases tells with
    | receive _ _ holds => exact quiet.flight index peer m List.mem_cons_self sent holds

theorem Quiet.step {rest : List Move} (quiet : w.Quiet (mv :: rest) call) (manned : w.Manned)
    (unpressed : mv.Unpressed call) : (w.step mv).Quiet rest call := by
  refine ⟨quiet.calm.step manned (quiet.noPress unpressed),?_⟩
  intro index peer m later sent
  rcases sent_step_at sent with old | ⟨_,sender,car,rfl,found,outbound⟩
  · exact quiet.flight index peer m (List.mem_cons_of_mem _ later) old
  · obtain ⟨floors,reached⟩ := manned sender car found
    rcases (outbound_told reached outbound call).2 with unknown | same
    · rw [unknown]
      decide
    · rw [same]
      exact fun isUnconfirmed => quiet.calm sender (status?_eq_some.mpr ⟨car,found,isUnconfirmed⟩)

/-! ### Runs -/

/-- Moves that tell nobody of a press. -/
structure Dying (n : UInt8) (w : Network) (moves : List Move) (call : Call) : Prop where
  serving : w.Serving n
  quiet : w.Quiet moves call
  serves : ∀ mv ∈ moves, mv.Serves n
  unpressed : ∀ mv ∈ moves, mv.Unpressed call

theorem Dying.step {rest : List Move} (dying : w.Dying n (mv :: rest) call) : (w.step mv).Dying n rest call where
  serving := dying.serving.step (dying.serves mv List.mem_cons_self)
  quiet := dying.quiet.step dying.serving.manned (dying.unpressed mv List.mem_cons_self)
  serves mv' member := dying.serves mv' (List.mem_cons_of_mem _ member)
  unpressed mv' member := dying.unpressed mv' (List.mem_cons_of_mem _ member)

theorem Dying.run {past later : List Move} (dying : w.Dying n (past ++ later) call) :
    (w.run past).Dying n later call := by
  induction past generalizing w with
  | nil => exact dying
  | cons mv rest ih => exact ih dying.step

theorem Dying.part {part : List Move} (dying : w.Dying n moves call) (inside : part <+: moves) :
    w.Dying n part call := by
  obtain ⟨rest,rfl⟩ := inside
  refine ⟨dying.serving,⟨dying.quiet.calm,fun index peer m member => ?_⟩,fun mv member => ?_,fun mv member => ?_⟩
  · exact dying.quiet.flight index peer m (List.mem_append_left _ member)
  · exact dying.serves mv (List.mem_append_left _ member)
  · exact dying.unpressed mv (List.mem_append_left _ member)

theorem Dying.absent_run (dying : w.Dying n moves call) {peer : PeerId} (lasts : ∀ mv ∈ moves, ¬ mv.Restarts peer)
    (held : w.status? peer call = some .absent) : (w.run moves).status? peer call = some .absent := by
  induction moves generalizing w with
  | nil => exact held
  | cons mv rest ih =>
    have first := dying.unpressed mv List.mem_cons_self
    have next := absent_stays dying.serving.manned (dying.quiet.noPress first) (lasts mv List.mem_cons_self) held
    exact ih dying.step (fun mv' member => lasts mv' (List.mem_cons_of_mem _ member)) next

theorem Dying.obeyed {index : Nat} {peer : PeerId} {rest : List Move}
    (dying : w.Dying n (.deliver index peer :: rest) call) (served : call.floor < n) {m : Broadcast}
    (sent : w.sent[index]? = some m) (other : m.source ≠ peer) (told : m.registry.status call = .absent)
    (here : (w.car? peer).isSome) : (w.step (.deliver index peer)).status? peer call = some .absent := by
  obtain ⟨car,found⟩ := Option.isSome_iff_exists.mp here
  obtain ⟨after,foundAfter,cycles⟩ := dying.serving.deliver served sent found
  have calm : (car.board.cycle call).status ≠ .unconfirmed :=
    fun same => dying.quiet.calm peer (status?_eq_some.mpr ⟨car,found,same⟩)
  refine status?_eq_some.mpr ⟨after,foundAfter,?_⟩
  rw [← CallBoard.cycle_status,cycles,if_pos other,told]
  exact Cycle.cleared_hear calm m.source

theorem sender_rests (manned : w.Manned) {index : Nat} {m : Broadcast} (late : w.sent.length ≤ index)
    (sent : (w.run moves).sent[index]? = some m) (told : m.registry.status call = .absent) :
    w.Rests moves call m.source := by
  induction moves using List.reverseRecOn with
  | nil => exact absurd (List.getElem?_eq_some_iff.mp sent).1 (Nat.not_lt_of_le late)
  | append_singleton past mv ih =>
    rw [run_snoc] at sent
    rcases sent_step_at sent with old | ⟨_,peer,car,_,found,outbound⟩
    · obtain ⟨early,inside,held⟩ := ih old
      exact ⟨early,inside.trans (List.prefix_append _ _),held⟩
    · obtain ⟨floors,reached⟩ := manned.run past peer car found
      obtain ⟨rfl,unknown | same⟩ := outbound_told reached outbound call
      · cases unknown.symm.trans told
      · exact ⟨past,List.prefix_append _ _,status?_eq_some.mpr ⟨car,found,same.symm.trans told⟩⟩

/-- Whatever happens to memberships and snapshots, and whoever restarts, a call that is
    unconfirmed nowhere and is not pressed dies out. -/
theorem clearance (serving : w.Serving n) (served : call.floor < n) (quiet : w.Quiet moves call)
    (serves : ∀ mv ∈ moves, mv.Serves n) (unpressed : ∀ mv ∈ moves, mv.Unpressed call) : w.Clearance moves call := by
  have dying : w.Dying n moves call := ⟨serving,quiet,serves,unpressed⟩
  have lasting : ∀ past later peer, past ++ later <+: moves → (∀ mv ∈ later, ¬ mv.Restarts peer) →
      (w.run past).status? peer call = some .absent → (w.run (past ++ later)).status? peer call = some .absent := by
    intro past later peer inside lasts held
    rw [run_append]
    exact (dying.part inside).run.absent_run lasts held
  have obeyed : ∀ past index peer m, past ++ [.deliver index peer] <+: moves → (w.run past).sent[index]? = some m →
      m.source ≠ peer → m.registry.status call = .absent → (w.car? peer).isSome →
      (w.run (past ++ [.deliver index peer])).status? peer call = some .absent := by
    intro past index peer m inside sent other told here
    rw [run_snoc]
    exact (dying.part inside).run.obeyed served sent other told (by rw [isSome_car_run]; exact here)
  refine ⟨?_,lasting,obeyed,?_,?_⟩
  · rintro past ⟨rest,rfl⟩
    exact dying.run.quiet.calm
  · intro past index m inside late sent told
    exact sender_rests serving.manned late sent told
  · rintro past later index m rfl lasts sent told rests everybody peer here
    -- From the moment at which a controller holds the call to be absent it does so to the end.
    have onwards {early rest : List Move} (same : early ++ rest = past ++ later)
        (held : (w.run early).status? peer call = some .absent) :
        (w.run (past ++ later)).status? peer call = some .absent := by
      rw [← same] at lasts ⊢
      refine lasting early rest peer (same ▸ List.prefix_rfl) (fun mv member => ?_) held
      exact lasts mv (List.mem_append_right _ member) peer
    by_cases own : peer = m.source
    · obtain ⟨early,⟨rest,rfl⟩,held⟩ := rests
      exact onwards (List.append_assoc early rest later).symm (own ▸ held)
    · obtain ⟨early,rest,rfl,inside⟩ := everybody peer here own
      have sentThen : (w.run early).sent[index]? = some m := by
        have entry := List.getElem?_eq_getElem inside
        have kept := sent_keeps entry (.deliver index peer :: rest)
        rw [← run_append,sent] at kept
        rw [entry,kept]
      have split : early ++ [.deliver index peer] ++ (rest ++ later) = early ++ .deliver index peer :: rest ++ later := by
        simp
      exact onwards split (obeyed early index peer m ⟨rest ++ later,split⟩ sentThen (Ne.symm own) told here)

/-! ### Fleets of two and three -/

theorem calm_of_members {peers : PeerSet} {timeout : Duration}
    (calm : ∀ peer ∈ peers.toList, ((new peers n timeout).run moves).status? peer call ≠ some .unconfirmed) :
    ((new peers n timeout).run moves).Calm call := by
  intro peer held
  obtain ⟨car,found,_⟩ := status?_eq_some.mp held
  exact calm peer (ExtTreeSet.mem_toList.mpr (mem_of_car? found)) held

/-- The second controller confirms a call of its own cab, tells the first one, and serves
    the call. -/
def confirmedAndServed : List Move :=
  [.act ⟨1⟩ (.car default),.act ⟨2⟩ (.car default),.press ⟨2⟩ (.cab 0 ⟨2⟩),.send ⟨2⟩,.deliver 0 ⟨1⟩,
    .clear ⟨2⟩ (.cab 0 ⟨2⟩)]

/-- It tells the first one that it has served the call, and the first snapshot arrives
    once more. -/
def servedThenRepeated : List Move := [.send ⟨2⟩,.deliver 1 ⟨1⟩,.deliver 0 ⟨1⟩]

theorem confirmedAndServed_clearance :
    (pair.run confirmedAndServed).status? ⟨1⟩ (.cab 0 ⟨2⟩) = some .confirmed ∧
      (pair.run confirmedAndServed).Clearance servedThenRepeated (.cab 0 ⟨2⟩) := by
  refine ⟨by decide +kernel,?_⟩
  have serving : (pair.run confirmedAndServed).Serving 4 := (serving_new _ 4 _).run (by decide)
  refine clearance serving (by decide) ⟨calm_of_members (by decide +kernel),?_⟩ (by decide) (by decide)
  intro index peer m arrives sent
  have held : (pair.run confirmedAndServed).sent.map (fun m => m.registry.status (.cab 0 ⟨2⟩)) = [.confirmed] := by
    decide +kernel
  have member := List.mem_map_of_mem (f := fun m => m.registry.status (.cab 0 ⟨2⟩)) (List.mem_of_getElem? sent)
  rw [held,List.mem_singleton] at member
  rw [member]
  decide

/-- Three controllers that serve four floors. -/
def trio : Network := new (.of [⟨1⟩,⟨2⟩,⟨3⟩]) 4 1000

/-- The controllers get to know each other. -/
def trioMeets : List Move :=
  [.act ⟨1⟩ (.car default),.act ⟨2⟩ (.car default),.act ⟨3⟩ (.car default),
    .act ⟨1⟩ (.boardAlive (.of [⟨1⟩,⟨2⟩,⟨3⟩])),.act ⟨2⟩ (.boardAlive (.of [⟨1⟩,⟨2⟩,⟨3⟩])),
    .act ⟨3⟩ (.boardAlive (.of [⟨1⟩,⟨2⟩,⟨3⟩]))]

/-- The first controller is pressed. The two others confirm the call, the first one has not
    heard of that yet, and the third one serves the call. -/
def servedEarly : List Move :=
  [.press ⟨1⟩ (.hall 1 .up),.send ⟨1⟩,.deliver 0 ⟨2⟩,.deliver 0 ⟨3⟩,.send ⟨2⟩,.deliver 1 ⟨3⟩,.send ⟨3⟩,.deliver 2 ⟨2⟩,
    .clear ⟨3⟩ (.hall 1 .up)]

/-- Everybody sends a snapshot, and those of the first two arrive everywhere: the third
    controller confirms the call again, and so does the first one. -/
def confirmedAgain : List Move :=
  [.send ⟨1⟩,.send ⟨2⟩,.send ⟨3⟩,.deliver 3 ⟨2⟩,.deliver 3 ⟨3⟩,.deliver 4 ⟨1⟩,.deliver 4 ⟨3⟩]

theorem lateClear_sent : ∃ m, (trio.run (trioMeets ++ servedEarly ++ confirmedAgain)).sent[5]? = some m ∧
    m.source = ⟨3⟩ ∧ m.registry.status (.hall 1 .up) = .absent := by
  have told : (trio.run (trioMeets ++ servedEarly ++ confirmedAgain)).sent[5]?.map
      (fun m => (m.source,m.registry.status (.hall 1 .up))) = some (⟨3⟩,.absent) := by decide +kernel
  obtain ⟨m,sent,same⟩ := Option.map_eq_some_iff.mp told
  exact ⟨m,sent,Prod.mk.inj same⟩

theorem lateClear_quiet : (trio.run (trioMeets ++ servedEarly ++ confirmedAgain)).Quiet
    [.deliver 5 ⟨1⟩,.deliver 5 ⟨2⟩] (.hall 1 .up) := by
  obtain ⟨m,sent,_,isAbsent⟩ := lateClear_sent
  refine ⟨calm_of_members (by decide +kernel),fun index peer m' arrives sent' => ?_⟩
  have same : index = 5 := by
    rcases List.mem_cons.mp arrives with first | second
    · cases first; rfl
    · cases List.mem_singleton.mp second; rfl
  rw [same,sent] at sent'
  rw [← Option.some.inj sent',isAbsent]
  decide

/-- A snapshot clears a call for everybody but its sender: one that is still on the way
    when everybody has confirmed the call again leaves the fleet divided. -/
theorem late_clear_divides :
    ¬ ∀ (peers : PeerSet) (n : UInt8) (timeout : Duration) (before past later : List Move) (call : Call)
        (index : Nat) (m : Broadcast), (∀ mv ∈ before, mv.Honest ∧ mv.Serves n) → call.floor < n →
        ((new peers n timeout).run before).Quiet (past ++ later) call →
        (∀ mv ∈ past ++ later, mv.Serves n ∧ mv.Unpressed call) →
        (∀ mv ∈ past ++ later, ∀ peer, ¬ mv.Restarts peer) →
        (((new peers n timeout).run before).run past).sent[index]? = some m → m.registry.status call = .absent →
        (∀ peer ∈ peers, peer ≠ m.source → ((new peers n timeout).run before).Gets past index peer) →
        ∀ peer ∈ peers, (((new peers n timeout).run before).run (past ++ later)).status? peer call = some .absent := by
  intro claim
  obtain ⟨m,sent,source,isAbsent⟩ := lateClear_sent
  have inside (past : List Move) :
      5 < ((trio.run (trioMeets ++ servedEarly ++ confirmedAgain)).run past).sent.length :=
    (List.getElem?_eq_some_iff.mp (sent_keeps sent past)).1
  have arrives : ∀ peer ∈ PeerSet.of [⟨1⟩,⟨2⟩,⟨3⟩], peer ≠ m.source →
      (trio.run (trioMeets ++ servedEarly ++ confirmedAgain)).Gets [.deliver 5 ⟨1⟩,.deliver 5 ⟨2⟩] 5 peer := by
    intro peer member other
    rw [source] at other
    rcases List.mem_cons.mp (PeerSet.mem_of.mp member) with rfl | member
    · exact ⟨[],[.deliver 5 ⟨2⟩],rfl,inside []⟩
    rcases List.mem_cons.mp member with rfl | member
    · exact ⟨[.deliver 5 ⟨1⟩],[],rfl,inside [.deliver 5 ⟨1⟩]⟩
    · exact absurd (List.mem_singleton.mp member) other
  have settled := claim (.of [⟨1⟩,⟨2⟩,⟨3⟩]) 4 1000 (trioMeets ++ servedEarly ++ confirmedAgain)
    [.deliver 5 ⟨1⟩,.deliver 5 ⟨2⟩] [] (.hall 1 .up) 5 m (by decide) (by decide) lateClear_quiet (by decide)
    (by rintro mv member peer ⟨_,_,rfl⟩; simp at member) (sent_keeps sent _) isAbsent arrives ⟨3⟩ (by decide)
  have held : ((trio.run (trioMeets ++ servedEarly ++ confirmedAgain)).run
      [.deliver 5 ⟨1⟩,.deliver 5 ⟨2⟩]).status? ⟨3⟩ (.hall 1 .up) = some .confirmed := by decide +kernel
  cases held.symm.trans settled

end Network
end ElevatorFleet
