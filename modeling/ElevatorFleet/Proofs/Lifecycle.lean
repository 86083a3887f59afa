import ElevatorFleet.Proofs.CallBoard

/-!
# The lifecycle of a call

A call goes round in one direction: absent, unconfirmed, confirmed and absent again, with
unknown before the first round. Each turn has its cause (`Passes`): only a clear ends a round
and only an unconfirmed report starts one. So over a whole run no number of confirmations and
memberships brings an absent call back (`lifecycle`).
-/
namespace ElevatorFleet
open Std Tasks

namespace CallBoard
variable {b : CallBoard} {call : Call} {e : Requests.Event} {events : List Requests.Event}

/-- How an event may take a call from one status to the next. -/
inductive Passes (call : Call) : Requests.Event → Status → Status → Prop where
  | stays (e : Requests.Event) (s : Status) : Passes call e s s
  | learns (source : PeerId) (told : Status) {s : Status} : s ≠ .unknown →
      Passes call (.report (.of source call told)) .unknown s
  | raises (source : PeerId) {s : Status} : s.Raised →
      Passes call (.report (.of source call .unconfirmed)) .absent s
  | confirms (e : Requests.Event) : Passes call e .unconfirmed .confirmed
  | clears (source : PeerId) : Passes call (.report (.of source call .absent)) .confirmed .absent

theorem passes_hear (call : Call) (own : PeerId) (alive : PeerSet) (k : Cycle) (source : PeerId) (told : Status) :
    Passes call (.report (.of source call told)) k.status (k.hear call own alive source told).status := by
  cases told with
  | unknown => exact .stays _ _
  | absent =>
    cases held : k.status with
    | unknown =>
      simp only [Cycle.hear,held]
      exact .learns source .absent (by decide)
    | confirmed =>
      simp only [Cycle.hear,held]
      exact .clears source
    | absent | unconfirmed =>
      simp only [Cycle.hear,held]
      exact .stays _ _
  | unconfirmed =>
    have raised := Cycle.raised_hear call own alive k source
    cases held : k.status with
    | unknown =>
      refine .learns source .unconfirmed fun unknown => ?_
      rw [unknown] at raised
      exact absurd raised (by decide)
    | absent => exact .raises source raised
    | unconfirmed =>
      rcases raised with waits | confirmed
      · rw [waits]
        exact .stays _ _
      · rw [confirmed]
        exact .confirms _
    | confirmed =>
      simp only [Cycle.hear,held,↓reduceIte]
      exact .stays _ _
  | confirmed =>
    cases held : k.status with
    | unknown =>
      simp only [Cycle.hear,held]
      exact .learns source .confirmed (by decide)
    | unconfirmed =>
      simp only [Cycle.hear,held]
      exact .confirms _
    | absent | confirmed =>
      simp only [Cycle.hear,held]
      exact .stays _ _

theorem passes_next (b : CallBoard) (call : Call) (e : Requests.Event) :
    Passes call e (b.status call) ((b.next e).status call) := by
  rw [← cycle_status,← cycle_status]
  cases e with
  | report r =>
    obtain ⟨source,⟨other,told⟩⟩ := r
    rw [next_report,cycle_take]
    by_cases about : other = call
    · subst about
      rw [if_pos rfl]
      exact passes_hear other b.self b.alive (b.cycle other) source told
    · rw [if_neg about]
      exact .stays _ _
  | membership alive =>
    rw [next_membership,cycle_setAlive]
    split
    · exact .stays _ _
    · rw [Cycle.review]
      split
      · rename_i due
        rw [due.1]
        exact .confirms _
      · exact .stays _ _

theorem Passes.settled {s : Status} (passes : Passes call e .confirmed s) : s.isSettled = true := by
  cases passes with
  | stays => rfl
  | clears => rfl

/-! ### Over a run -/

theorem known_after (known : b.status call ≠ .unknown) (events : List Requests.Event) :
    (b.after events).status call ≠ .unknown := by
  induction events generalizing b with
  | nil => exact known
  | cons e rest ih =>
    -- No pass ends in unknown but the one that stays there.
    refine ih fun unknown => known ?_
    have passes := passes_next b call e
    rw [unknown] at passes
    cases held : b.status call with
    | unknown => rfl
    | absent =>
      rw [held] at passes
      cases passes with
      | raises source raised => exact absurd raised (by decide)
    | unconfirmed | confirmed =>
      rw [held] at passes
      cases passes

theorem absent_after (isAbsent : b.status call = .absent)
    (quiet : ∀ source, .report (.of source call .unconfirmed) ∉ events) : (b.after events).status call = .absent := by
  induction events generalizing b with
  | nil => exact isAbsent
  | cons e rest ih =>
    have passes := passes_next b call e
    rw [isAbsent] at passes
    refine ih ?_ fun source member => quiet source (List.mem_cons_of_mem _ member)
    -- Leaving absent takes a press.
    generalize (b.next e).status call = after at passes
    cases passes with
    | stays => rfl
    | raises source _ => exact absurd List.mem_cons_self (quiet source)

/-- In every run, each event leaves a call in its status or takes it one turn further, and once the
    call is known it stays so. Between a moment at which it is absent and a later one at which
    it is confirmed, some peer or the controller itself has reported it as unconfirmed. -/
theorem lifecycle (self : PeerId) (past later : List Requests.Event) (call : Call) :
    (∀ e, Passes call e (((new self).after past).status call) ((((new self).after past).next e).status call)) ∧
    (((new self).after past).status call ≠ .unknown → ((new self).after (past ++ later)).status call ≠ .unknown) ∧
    (((new self).after past).status call = .absent → ((new self).after (past ++ later)).status call = .confirmed →
      ∃ source, .report (.of source call .unconfirmed) ∈ later) := by
  refine ⟨fun e => passes_next _ call e,fun known => ?_,fun isAbsent isConfirmed => ?_⟩
  · rw [after_append]
    exact known_after known later
  · by_cases pressed : ∃ source, .report (.of source call .unconfirmed) ∈ later
    · exact pressed
    · have stays := absent_after isAbsent fun source member => pressed ⟨source,member⟩
      rw [← after_append] at stays
      cases stays.symm.trans isConfirmed

/-- Confirmations and memberships in any number leave a cleared call absent. -/
example : ((new ⟨1⟩).after [.report (.of ⟨1⟩ (.cab 2 ⟨1⟩) .unconfirmed),.report (.of ⟨1⟩ (.cab 2 ⟨1⟩) .absent),
      .report (.of ⟨2⟩ (.cab 2 ⟨1⟩) .confirmed),.membership (.of [⟨1⟩,⟨2⟩]),.membership ∅]).status (.cab 2 ⟨1⟩) = .absent := by
  decide +kernel

end CallBoard
end ElevatorFleet
