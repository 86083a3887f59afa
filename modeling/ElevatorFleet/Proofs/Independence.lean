import ElevatorFleet.Proofs.Releases

/-!
# Calls on their own

All calls of a board share its maps and its membership, and yet what becomes of one call does
not depend on any other: without the reports about other calls, a run leads to the same cycle
of the call and gives the same replies about it (`calls_independent`).
-/
namespace ElevatorFleet
open Std Tasks

/-- The event is a membership or a report about the call. -/
def Tasks.Requests.Event.concerns (call : Call) : Requests.Event → Bool
  | .report r => r.belief.call = call
  | .membership _ => true

namespace CallBoard
variable {b c : CallBoard} {call : Call} {e : Requests.Event}

/-- What a board replies about a call to an event. -/
def reply (b : CallBoard) (call : Call) (e : Requests.Event) : List Belief :=
  (Requests.decide b e).2.filter fun belief => belief.call = call

/-- What a board replies about a call to each of the events that concern it. -/
def replies (b : CallBoard) (call : Call) (events : List Requests.Event) : List (List Belief) :=
  ((b.trace events).filter fun t => t.2.concerns call).map fun t => t.1.reply call t.2

theorem replies_cons (b : CallBoard) (call : Call) (e : Requests.Event) (rest : List Requests.Event) :
    b.replies call (e :: rest) =
      if e.concerns call = true then b.reply call e :: (b.next e).replies call rest else (b.next e).replies call rest := by
  by_cases concerns : e.concerns call = true
  · simp [replies,trace,concerns]
  · simp [replies,trace,concerns]

/-- Two boards of one controller hold a call alike and believe the same peers alive. -/
structure Alike (call : Call) (b c : CallBoard) : Prop where
  self : b.self = c.self
  alive : b.alive = c.alive
  cycle : b.cycle call = c.cycle call

theorem reply_report (b : CallBoard) {r : Report} (about : r.belief.call = call) :
    b.reply call (.report r) = [⟨call,((b.cycle call).hear call b.self b.alive r.source r.belief.status).status⟩] := by
  have cycles := cycle_take b r call
  rw [if_pos about] at cycles
  subst about
  rw [← cycles]
  exact List.filter_cons_of_pos (decide_eq_true rfl)

/-- A membership releases a call once or not at all. -/
theorem filter_released (b : CallBoard) (alive : PeerSet) (call : Call) :
    (b.released alive).filter (· = call) = if (b.cycle call).Due call alive then [call] else [] := by
  have distinct : (b.released alive).Nodup := (nodup_pending b).filter _
  rw [List.filter_eq]
  split
  · rename_i due
    rw [List.count_eq_one_of_mem distinct ((mem_released b alive call).mpr due)]
    rfl
  · rename_i notDue
    rw [List.count_eq_zero_of_not_mem fun member => notDue ((mem_released b alive call).mp member)]
    rfl

theorem reply_membership (b : CallBoard) (call : Call) (alive : PeerSet) :
    b.reply call (.membership alive) =
      if alive ≠ b.alive ∧ (b.cycle call).Due call alive then [⟨call,.confirmed⟩] else [] := by
  show (b.setAlive alive).2.filter (fun belief => belief.call = call) = _
  rw [beliefs_setAlive]
  by_cases same : alive = b.alive
  · simp [same]
  · rw [if_neg same,List.filter_map]
    refine (congrArg _ (filter_released b alive call)).trans ?_
    by_cases due : (b.cycle call).Due call alive
    · simp [same,due]
    · simp [due]

/-- Boards that hold a call alike reply alike about it. -/
theorem Alike.reply (alike : Alike call b c) (concerns : e.concerns call = true) : b.reply call e = c.reply call e := by
  cases e with
  | report r =>
    have about : r.belief.call = call := of_decide_eq_true concerns
    rw [reply_report b about,reply_report c about,alike.cycle,alike.self,alike.alive]
  | membership alive => rw [reply_membership,reply_membership,alike.cycle,alike.alive]

theorem Alike.next (alike : Alike call b c) (e : Requests.Event) : Alike call (b.next e) (c.next e) := by
  refine ⟨?_,?_,?_⟩
  · rw [self_next,self_next,alike.self]
  · rw [alive_next,alive_next,alike.alive]
  · cases e with
    | report r => rw [next_report,next_report,cycle_take,cycle_take,alike.cycle,alike.self,alike.alive]
    | membership alive =>
      rw [next_membership,next_membership,cycle_setAlive,cycle_setAlive,alike.cycle,alike.alive]

/-- A report about another call leaves boards alike. -/
theorem Alike.aside (alike : Alike call b c) (other : e.concerns call = false) : Alike call (b.next e) c := by
  cases e with
  | report r =>
    have apart : r.belief.call ≠ call := of_decide_eq_false other
    refine ⟨(self_take b r).trans alike.self,(alive_take b r).trans alike.alive,?_⟩
    rw [next_report,cycle_take,if_neg apart]
    exact alike.cycle
  | membership alive => cases other

/-- Whether the reports about other calls are left out does not show in a call. -/
theorem Alike.after (alike : Alike call b c) (events : List Requests.Event) :
    Alike call (b.after events) (c.after (events.filter (·.concerns call))) ∧
      b.replies call events = c.replies call (events.filter (·.concerns call)) := by
  induction events generalizing b c with
  | nil => exact ⟨alike,rfl⟩
  | cons e rest ih =>
    by_cases concerns : e.concerns call = true
    · obtain ⟨boards,told⟩ := ih (alike.next e)
      rw [List.filter_cons_of_pos concerns,replies_cons,if_pos concerns,replies_cons,if_pos concerns,told,
        alike.reply concerns]
      exact ⟨boards,rfl⟩
    · obtain ⟨boards,told⟩ := ih (alike.aside (Bool.eq_false_iff.mpr concerns))
      rw [List.filter_cons_of_neg concerns,replies_cons,if_neg concerns]
      exact ⟨boards,told⟩

/-- A run of a new board, and the same run without the reports about other calls, end with the same
    status and witnesses of a call, and in both each membership confirms it or not and each report
    about it gets the same reply. -/
theorem calls_independent (self : PeerId) (events : List Requests.Event) (call : Call) :
    let whole := (new self).after events
    let alone := (new self).after (events.filter (·.concerns call))
    whole.status call = alone.status call ∧ whole.ledger.witnesses? call = alone.ledger.witnesses? call ∧
      (new self).replies call events = (new self).replies call (events.filter (·.concerns call)) := by
  have same : Alike call (new self) (new self) := ⟨rfl,rfl,rfl⟩
  obtain ⟨alike,told⟩ := same.after events
  exact ⟨congrArg Cycle.status alike.cycle,congrArg Cycle.witnesses alike.cycle,told⟩

/-- Amid presses of other calls, the first membership confirms nothing and the last one the hall call. -/
example : (new ⟨1⟩).replies (.hall 1 .up) [.membership (.of [⟨1⟩,⟨2⟩,⟨3⟩]),.report (.of ⟨2⟩ (.hall 1 .up) .unconfirmed),
      .report (.of ⟨3⟩ (.hall 2 .up) .unconfirmed),.report (.of ⟨2⟩ (.cab 1 ⟨2⟩) .unconfirmed),
      .membership (.of [⟨1⟩,⟨2⟩])] =
    [[],[⟨.hall 1 .up,.unconfirmed⟩],[⟨.hall 1 .up,.confirmed⟩]] := by
  decide +kernel

end CallBoard
end ElevatorFleet
