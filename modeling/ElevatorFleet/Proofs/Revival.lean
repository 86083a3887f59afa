import ElevatorFleet.Proofs.Clearance
import ElevatorFleet.Proofs.Connected
import ElevatorFleet.Proofs.Hearsay

/-!
# Calls that come back

The clear of a confirmed call at one controller does not reach the peers that still wait
for witnesses, and to the controller that cleared it the snapshot of such a peer is as good
as a new press (`fleet_undoes_clear`). Apart from real presses nothing else brings the call
back, as long as every snapshot that arrives is up to date: whoever tells the controller of the
call has held it to be unconfirmed ever since the clear, or has been told so, while it held the
call to be absent or unknown, by a controller of which the same is true (`clear_lasts`).
-/
namespace ElevatorFleet
open Std Tasks

namespace Network

/-- A snapshot that arrives is the one that its sender would send now. -/
def Current (w : Network) : Move → Prop
  | .deliver index _ => ∀ m ∈ w.sent[index]?, (w.car? m.source).bind Controller.outbound = some m
  | _ => True

instance (w : Network) : DecidablePred w.Current
  | .deliver index _ => inferInstanceAs
      (Decidable (∀ m ∈ w.sent[index]?, (w.car? m.source).bind Controller.outbound = some m))
  | .pass _ | .act _ _ | .restart _ _ _ | .send _ => .isTrue trivial

/-- All snapshots are up to date when they arrive. -/
def Prompt (w : Network) : List Move → Prop
  | [] => True
  | mv :: rest => w.Current mv ∧ (w.step mv).Prompt rest

instance decidablePrompt (w : Network) : (moves : List Move) → Decidable (w.Prompt moves)
  | [] => .isTrue trivial
  | mv :: rest =>
    have := decidablePrompt (w.step mv) rest
    inferInstanceAs (Decidable (w.Current mv ∧ (w.step mv).Prompt rest))

/-- The controller waits for witnesses of a call for which the button was not pressed in the course of the
    moves. It has held the call to be unconfirmed from before them on; or it held the call to be absent or
    unknown, one of these waiters has told it otherwise, and it has been waiting since. -/
inductive Waiter (w : Network) (call : Call) : List Move → PeerId → Prop where
  | since {past : List Move} {peer : PeerId} (keeps : w.Keeps past peer call .unconfirmed) : Waiter w call past peer
  | told {first between : List Move} {index : Nat} {peer : PeerId} {m : Broadcast} (waiter : Waiter w call first m.source)
      (idle : (w.run first).status? peer call = some .absent ∨ (w.run first).status? peer call = some .unknown)
      (adopts : (w.run first).Adopts index peer m call .unconfirmed)
      (keeps : ((w.run first).step (.deliver index peer)).Keeps between peer call .unconfirmed) :
      Waiter w call (first ++ .deliver index peer :: between) peer

/-- The controller holds the call to be absent up to a moment at which the snapshot of such a waiter makes it
    give that up. -/
def Revives (w : Network) (moves : List Move) (peer : PeerId) (call : Call) : Prop :=
  ∃ past index rest m, moves = past ++ .deliver index peer :: rest ∧ (w.run past).sent[index]? = some m ∧
    m.source ≠ peer ∧ m.registry.status call = .unconfirmed ∧ w.Waiter call past m.source ∧
    w.Keeps past peer call .absent ∧ (w.run (past ++ [.deliver index peer])).status? peer call ≠ some .absent

variable {call : Call} {w : Network} {mv : Move} {moves past : List Move} {peer : PeerId} {index : Nat} {m : Broadcast}

theorem Prompt.append {past later : List Move} (prompt : w.Prompt (past ++ later)) :
    w.Prompt past ∧ (w.run past).Prompt later := by
  induction past generalizing w with
  | nil => exact ⟨trivial,prompt⟩
  | cons mv rest ih =>
    obtain ⟨first,others⟩ := prompt
    obtain ⟨inside,last⟩ := ih others
    exact ⟨⟨first,inside⟩,last⟩

theorem Revives.later (revives : w.Revives past peer call) (more : List Move) : w.Revives (past ++ more) peer call := by
  obtain ⟨early,index,rest,m,rfl,cause⟩ := revives
  exact ⟨early,index,rest ++ more,m,by simp,cause⟩

theorem Waiter.snoc (waiter : w.Waiter call past peer)
    (held : (w.run (past ++ [mv])).status? peer call = some .unconfirmed) : w.Waiter call (past ++ [mv]) peer := by
  cases waiter with
  | since keeps => exact .since (keeps.snoc held)
  | @told first between _ _ _ waiter idle adopts keeps =>
    rw [List.append_assoc,List.cons_append] at held ⊢
    exact .told waiter idle adopts (keeps.snoc (by rwa [run_append] at held))

/-- There are such waiters only if some controller waits when the moves begin. -/
theorem Calm.no_waiter (calm : w.Calm call) : ¬ w.Waiter call past peer := by
  intro waiter
  induction waiter with
  | since keeps => exact calm _ (keeps [] List.nil_prefix)
  | told _ _ _ _ ih => exact ih

/-- Who sends a snapshot that is up to date and raises the call holds it so now. -/
theorem sender_holds (manned : w.Manned) (current : w.Current (.deliver index peer)) (sent : w.sent[index]? = some m)
    (raises : m.registry.status call = .unconfirmed) : w.status? m.source call = some .unconfirmed := by
  obtain ⟨car,found,outbound⟩ := Option.bind_eq_some_iff.mp (current m sent)
  obtain ⟨n,reached⟩ := manned m.source car found
  refine status?_eq_some.mpr ⟨car,found,?_⟩
  rcases (outbound_told reached outbound call).2 with unknown | same
  · cases unknown.symm.trans raises
  · exact same.symm.trans raises

/-- An unconfirmed report makes only such controllers wait as hold the call to be absent or unknown. -/
theorem Adopts.idle (manned : w.Manned) (adopts : w.Adopts index peer m call .unconfirmed) :
    w.status? peer call = some .absent ∨ w.status? peer call = some .unknown := by
  obtain ⟨car,found,held⟩ := status?_eq_some.mp adopts.after
  have makes : w.event? (.deliver index peer) = some (peer,.receive m) := by rw [event?,adopts.sent]; rfl
  rcases cycle_step manned found call with ⟨_,_,restarts,_⟩ | ⟨old,had,cause⟩
  · cases restarts
  have before : w.status? peer call = some (old.board.status call) := status?_eq_some.mpr ⟨old,had,rfl⟩
  cases holds : old.board.status call with
  | unknown => exact .inr (holds ▸ before)
  | absent => exact .inl (holds ▸ before)
  | unconfirmed => exact absurd (holds ▸ before) adopts.before
  | confirmed =>
    -- A confirmed call is not taken back by a snapshot that raises it.
    have settled : (old.board.cycle call).status = .confirmed := holds
    rw [← CallBoard.cycle_status] at held
    rcases cause with same | ⟨e,source,told,made,tells,heard⟩ | ⟨alive,reviewed⟩
    · rw [same,settled] at held
      cases held
    · cases makes.symm.trans made
      cases tells with
      | receive _ _ raises =>
        have rank : (old.board.cycle call).status.rank ≤
            ((old.board.cycle call).hear call peer old.board.alive m.source told).status.rank :=
          Cycle.rank_hear (by rw [← raises,adopts.told]; decide)
        rw [← heard,held,settled] at rank
        exact absurd rank (by decide)
    · rw [reviewed,Cycle.review_calm (by rw [settled]; decide),settled] at held
      cases held

/-- A controller that gives up an absent call is told of a press, of its own or by the snapshot of another
    controller. -/
theorem absent_lost (manned : w.Manned) (honest : mv.Honest) (lasts : ¬ mv.Restarts peer)
    (held : w.status? peer call = some .absent) (lost : (w.step mv).status? peer call ≠ some .absent) :
    mv = .press peer call ∨ ∃ index m, mv = .deliver index peer ∧ w.sent[index]? = some m ∧ m.source ≠ peer ∧
      m.registry.status call = .unconfirmed := by
  have tells : w.Tells mv call .unconfirmed := by
    by_contra quiet
    exact lost (absent_stays manned quiet lasts held)
  obtain ⟨p,e,source,makes,tells⟩ := tells
  have same : p = peer := by
    by_contra other
    rw [status?,car?_event makes,if_neg other] at lost
    exact lost held
  subst same
  exact origin_of_tells honest makes tells

/-- Unless the button is pressed or a waiter revives the call, an absent call stays absent, and whoever waits
    for witnesses is a waiter from before the moves or has been told by one. -/
theorem waits_all_along (manned : w.Manned) (cleared : w.status? peer call = some .absent)
    (honest : ∀ mv ∈ moves, mv.Honest) (lasts : ∀ mv ∈ moves, ¬ mv.Restarts peer) (prompt : w.Prompt moves)
    (noPress : ¬ ∃ p, (w.car? p).isSome ∧ Move.press p call ∈ moves) (dead : ¬ w.Revives moves peer call) :
    w.Keeps moves peer call .absent ∧
      ∀ other, (w.run moves).status? other call = some .unconfirmed → w.Waiter call moves other := by
  induction moves using List.reverseRecOn with
  | nil => exact ⟨.nil cleared,fun other held => .since (.nil held)⟩
  | append_singleton past mv ih =>
    have last : mv ∈ past ++ [mv] := List.mem_append_right _ List.mem_cons_self
    obtain ⟨promptPast,current,_⟩ := prompt.append
    obtain ⟨absent,waiting⟩ := ih (fun mv' member => honest mv' (List.mem_append_left _ member))
      (fun mv' member => lasts mv' (List.mem_append_left _ member)) promptPast
      (fun ⟨p,here,member⟩ => noPress ⟨p,here,List.mem_append_left _ member⟩) (fun revives => dead (revives.later _))
    have mannedPast := manned.run past
    refine ⟨?_,fun other held => ?_⟩
    · by_cases stays : (w.run (past ++ [mv])).status? peer call = some .absent
      · exact absent.snoc stays
      have lost := stays
      rw [run_snoc] at lost
      rcases absent_lost mannedPast (honest mv last) (lasts mv last) absent.last lost with
        rfl | ⟨index,m,rfl,sent,other,raises⟩
      · exact absurd ⟨peer,isSome_of_status absent.last,last⟩ noPress
      · have waiter := waiting m.source (sender_holds mannedPast current sent raises)
        exact absurd ⟨past,index,[],m,rfl,sent,other,raises,waiter,absent,stays⟩ dead
    · by_cases before : (w.run past).status? other call = some .unconfirmed
      · exact (waiting other before).snoc held
      have now := held
      rw [run_snoc] at now
      rcases comes_to_hold mannedPast (honest mv last) (by decide) (by decide) before now with rfl | ⟨index,m,rfl,adopts⟩
      · exact absurd ⟨other,isSome_of_status held,last⟩ noPress
      · have waiter := waiting m.source (sender_holds mannedPast current adopts.sent adopts.told)
        exact .told waiter (adopts.idle mannedPast) adopts (.nil now)

theorem clear_clears (manned : w.Manned) {peer : PeerId} (held : w.status? peer call = some .confirmed) :
    (w.step (.clear peer call)).status? peer call = some .absent := by
  obtain ⟨car,found,isConfirmed⟩ := status?_eq_some.mp held
  obtain ⟨after,foundAfter,cycles⟩ := manned.report found peer call .absent
  have calm : (car.board.cycle call).status ≠ .unconfirmed := by
    rw [CallBoard.cycle_status,isConfirmed]
    decide
  refine status?_eq_some.mpr ⟨after,foundAfter,?_⟩
  rw [← CallBoard.cycle_status,cycles]
  exact Cycle.cleared_hear calm peer

/-- A controller that has cleared a confirmed call holds it to be absent until the button is pressed again at a
    controller of the fleet, or a waiter from before the clear, or one that it has told, makes the controller
    give that up. If nobody waits for witnesses after the clear, only a press does. -/
theorem clear_lasts (manned : w.Manned) {peer : PeerId} (held : w.status? peer call = some .confirmed)
    {later : List Move} (honest : ∀ mv ∈ later, mv.Honest) (lasts : ∀ mv ∈ later, ¬ mv.Restarts peer)
    (prompt : (w.step (.clear peer call)).Prompt later) :
    let cleared := w.step (.clear peer call)
    (cleared.Keeps later peer call .absent ∨ (∃ p, (w.car? p).isSome ∧ Move.press p call ∈ later) ∨
      cleared.Revives later peer call) ∧
    (cleared.Calm call → cleared.Keeps later peer call .absent ∨ ∃ p, (w.car? p).isSome ∧ Move.press p call ∈ later) := by
  intro cleared
  have outcome : cleared.Keeps later peer call .absent ∨ (∃ p, (w.car? p).isSome ∧ Move.press p call ∈ later) ∨
      cleared.Revives later peer call := by
    by_cases pressed : ∃ p, (w.car? p).isSome ∧ Move.press p call ∈ later
    · exact .inr (.inl pressed)
    by_cases revives : cleared.Revives later peer call
    · exact .inr (.inr revives)
    refine .inl (waits_all_along (manned.step _) (clear_clears manned held) honest lasts prompt ?_ revives).1
    rintro ⟨p,here,member⟩
    rw [isSome_car_step] at here
    exact pressed ⟨p,here,member⟩
  refine ⟨outcome,fun calm => ?_⟩
  rcases outcome with keeps | pressed | ⟨_,_,_,_,_,_,_,_,waiter,_⟩
  · exact .inl keeps
  · exact .inr pressed
  · exact absurd waiter calm.no_waiter

/-- The first controller is pressed, and both confirm the call. -/
def confirmedByBoth : List Move := [.press ⟨1⟩ (.hall 1 .up),.send ⟨1⟩,.deliver 0 ⟨2⟩,.send ⟨2⟩,.deliver 1 ⟨1⟩]

/-- Each tells the other one what it holds. -/
def newsOfClear : List Move := [.send ⟨1⟩,.deliver 2 ⟨2⟩,.send ⟨2⟩,.deliver 3 ⟨1⟩]

theorem confirmedByBoth_clear_lasts :
    (introduced.run confirmedByBoth).status? ⟨2⟩ (.hall 1 .up) = some .confirmed ∧
      ((introduced.run confirmedByBoth).step (.clear ⟨2⟩ (.hall 1 .up))).Keeps newsOfClear ⟨2⟩ (.hall 1 .up) .absent := by
  have manned : (introduced.run confirmedByBoth).Manned := (((fresh_new _ _ _).manned).run _).run _
  have held : (introduced.run confirmedByBoth).status? ⟨2⟩ (.hall 1 .up) = some .confirmed := by decide +kernel
  have lasts : ∀ mv ∈ newsOfClear, ¬ mv.Restarts ⟨2⟩ := by
    rintro mv member ⟨numFloors,timeout,rfl⟩
    simp [newsOfClear] at member
  have calm : ((introduced.run confirmedByBoth).step (.clear ⟨2⟩ (.hall 1 .up))).Calm (.hall 1 .up) := by
    intro peer waits
    obtain ⟨car,found,_⟩ := status?_eq_some.mp waits
    rw [← run_snoc,introduced,← run_append] at found
    rcases car?_pair found with rfl | rfl
    · exact absurd waits (by decide +kernel)
    · exact absurd waits (by decide +kernel)
  refine ⟨held,((clear_lasts manned held (by decide) lasts (by decide +kernel)).2 calm).resolve_right ?_⟩
  rintro ⟨p,_,member⟩
  simp [newsOfClear,Move.press] at member

/-- The first controller is pressed and tells the second one, which confirms the call. -/
def confirmedByOne : List Move := [.press ⟨1⟩ (.hall 1 .up),.send ⟨1⟩,.deliver 0 ⟨2⟩]

/-- The first controller sends its snapshot again. -/
def toldAgain : List Move := [.send ⟨1⟩,.deliver 1 ⟨2⟩]

/-- A call that a controller has cleared can come back without a press: a peer that still
    waits for witnesses brings it back. -/
theorem fleet_undoes_clear :
    ¬ ∀ (n : UInt8) (members : PeerSet) (start : Network) (past later : List Move) (peer : PeerId) (call : Call),
        start.Acquainted n members → start.sent = [] → call.floor < n →
        (∀ mv ∈ past ++ .clear peer call :: later, mv.Honest ∧ mv.Constant) →
        start.Prompt (past ++ .clear peer call :: later) →
        (start.run past).status? peer call = some .confirmed → (∀ p, .press p call ∉ later) →
        (start.run (past ++ .clear peer call :: later)).status? peer call ≠ some .confirmed := by
  intro claim
  refine claim 4 (.of [⟨1⟩,⟨2⟩]) introduced confirmedByOne toldAgain ⟨2⟩ (.hall 1 .up)
    introduced_uninformed.toAcquainted introduced_uninformed.sent (by decide) (by decide) (by decide +kernel)
    (by decide +kernel) ?_ (by decide +kernel)
  simp [toldAgain,Move.press]

end Network
end ElevatorFleet
