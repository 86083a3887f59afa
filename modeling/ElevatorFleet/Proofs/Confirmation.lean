import Mathlib.Data.List.Induction
import Mathlib.Data.Set.Card
import ElevatorFleet.Proofs.CallBoard

/-!
# How a call board confirms

The witnesses that a board counts for a call are itself and the sources of the unconfirmed
reports since the one that opened the cycle; nothing of an earlier cycle, and nothing about
another call, is left in the ledger. So what a board confirms next depends on its last cycle
alone (`confirmed_exactly`), and no cycle stays in the ledger once the call has a quorum
(`ledger_in_order`).
-/
namespace ElevatorFleet
open Std Tasks

namespace Cycle
variable {call : Call} {own source : PeerId} {alive : PeerSet} {k : Cycle} {told : Status}

/-! ### The cases of a report -/

theorem hear_of_confirmed (isConfirmed : k.status = .confirmed) (source : PeerId) (noClear : told ≠ .absent) :
    k.hear call own alive source told = k := by
  cases told with
  | unknown => rfl
  | absent => exact absurd rfl noClear
  | unconfirmed => rw [hear,if_pos isConfirmed]
  | confirmed => simp [hear,isConfirmed]

theorem hear_closed (source : PeerId) (noClear : told ≠ .absent) : closed.hear call own alive source told = closed :=
  hear_of_confirmed rfl source noClear

theorem hear_unconfirmed (open_ : k.status ≠ .confirmed) (source : PeerId) :
    k.hear call own alive source .unconfirmed =
      if call.AgreedBy (k.joined source own) alive then closed else ⟨.unconfirmed,some (k.joined source own)⟩ := by
  rw [hear,if_neg open_]

theorem hear_confirmed (noClear : k.status ≠ .absent) (source : PeerId) :
    k.hear call own alive source .confirmed = if k.status = .confirmed then k else closed := by
  cases held : k.status with
  | absent => exact absurd held noClear
  | unknown | unconfirmed | confirmed => simp [hear,held]

/-- As long as a cycle stays open, an unconfirmed report adds its source and the controller to
    the witnesses, and no other report changes them. -/
theorem witnesses_hear (waits : (k.hear call own alive source told).status = .unconfirmed) :
    (k.hear call own alive source told).witnesses.getD ∅ =
      if told = .unconfirmed then k.joined source own else k.witnesses.getD ∅ := by
  cases told with
  | unknown => rfl
  | absent => rw [hear]; split <;> rfl
  | unconfirmed =>
    by_cases isConfirmed : k.status = .confirmed
    · rw [hear_of_confirmed isConfirmed source (by decide)] at waits
      cases isConfirmed.symm.trans waits
    · rw [hear_unconfirmed isConfirmed] at waits ⊢
      split at waits
      · cases waits
      · rename_i notAgreed
        rw [if_neg notAgreed]
        rfl
  | confirmed =>
    rw [hear] at waits ⊢
    split at waits
    · cases waits
    · cases waits
    · rfl
    · rfl

/-- A cycle becomes confirmed by a report that completes a quorum, or by the word of a peer
    unless the call is absent. -/
theorem confirmed_hear_iff (open_ : k.status ≠ .confirmed) :
    (k.hear call own alive source told).status = .confirmed ↔
      (told = .unconfirmed ∧ call.AgreedBy (k.joined source own) alive) ∨
        (told = .confirmed ∧ (k.status = .unconfirmed ∨ k.status = .unknown)) := by
  cases told with
  | unknown => simp [hear,open_]
  | absent => cases held : k.status <;> simp_all [hear]
  | unconfirmed =>
    rw [hear_unconfirmed open_]
    split
    · rename_i agreed
      simp [closed,agreed]
    · rename_i notAgreed
      simp [notAgreed]
  | confirmed => cases held : k.status <;> simp_all [hear,closed]

theorem review_of_waits (waits : (k.review call alive).status = .unconfirmed) : k.review call alive = k := by
  rw [review] at waits ⊢
  split at waits
  · cases waits
  · rename_i notDue
    exact if_neg notDue

/-- A sound cycle has its witnesses exactly while it is open. -/
theorem Sound.due_iff {before : PeerSet} (sound : k.Sound call own before) :
    k.Due call alive ↔ k.status = .unconfirmed ∧ call.AgreedBy (k.witnesses.getD ∅) alive := by
  refine and_congr_right fun waits => ?_
  obtain ⟨peers,entry⟩ := Option.isSome_iff_exists.mp (sound.isOpen.mpr waits)
  simp [entry]

theorem Sound.not_due (sound : k.Sound call own alive) : ¬ k.Due call alive := by
  rintro ⟨_,peers,entry,agreed⟩
  exact sound.waiting peers entry agreed

end Cycle

theorem Ledger.openCycles_eq (l : Ledger) : l.openCycles = {call | (l.witnesses? call).isSome}.ncard := by
  have distinct : l.entries.keys.Nodup :=
    l.entries.distinct_keys.imp fun apart same => apart (LawfulEqCmp.compare_eq_iff_eq.mpr same)
  have keys : {call | (l.witnesses? call).isSome} = (l.entries.keys.toFinset : Set Call) := by
    ext call
    simp [Ledger.witnesses?]
  rw [keys,Set.ncard_coe_finset,List.toFinset_card_of_nodup distinct,ExtTreeMap.length_keys]
  rfl

namespace CallBoard
variable {self : PeerId} {b start : CallBoard} {call : Call} {e : Requests.Event} {events : List Requests.Event}

theorem Sound.cycle_setAlive (sound : b.Sound) (alive : PeerSet) (call : Call) :
    (b.setAlive alive).1.cycle call = (b.cycle call).review call alive := by
  rw [CallBoard.cycle_setAlive]
  split
  · rename_i same
    subst same
    rw [Cycle.review,if_neg (sound call).not_due]
  · rfl

/-! ### The witnesses of a cycle -/

/-- After `past` the call was not unconfirmed, the report of `source` made it so, and it
    has stayed so throughout `rest`. -/
structure OpenSince (start : CallBoard) (call : Call) (past : List Requests.Event) (source : PeerId)
    (rest : List Requests.Event) : Prop where
  before : (start.after past).status call ≠ .unconfirmed
  since : ∀ sofar, sofar <+: rest →
    (start.after (past ++ .report (.of source call .unconfirmed) :: sofar)).status call = .unconfirmed

/-- Only an unconfirmed report opens a cycle. -/
theorem opened_next (shut : b.status call ≠ .unconfirmed) (waits : (b.next e).status call = .unconfirmed) :
    ∃ source, e = .report (.of source call .unconfirmed) := by
  rcases status_next b call e with old | ⟨r,rfl,belief⟩ | confirms
  · exact absurd (old.symm.trans waits) shut
  · rw [waits] at belief
    exact ⟨r.source,by rw [Report.of,← belief]⟩
  · cases waits.symm.trans confirms.after

/-- While a cycle is open, the ledger keeps whom the board has counted. -/
theorem witnesses_next (waits : (b.next e).status call = .unconfirmed) :
    (b.next e).ledger.witnesses call = b.tally call e := by
  rw [witnesses_eq]
  cases e with
  | report r =>
    have cycles := cycle_take b r call
    rw [← next_report] at cycles
    by_cases about : r.belief.call = call
    · rw [if_pos about] at cycles
      rw [← cycle_status,cycles] at waits
      rw [cycles,Cycle.witnesses_hear waits,tally]
      simp only [Belief.eq_iff,about,true_and]
      rfl
    · rw [if_neg about] at cycles
      rw [cycles,tally,if_neg (fun same => about (Belief.eq_iff.mp same).1)]
      rfl
  | membership alive =>
    have cycles := cycle_setAlive b alive call
    rw [← next_membership] at cycles
    split at cycles
    · rw [cycles]
      rfl
    · rw [← cycle_status,cycles] at waits
      rw [cycles,Cycle.review_of_waits waits]
      rfl

theorem Sound.witnesses?_next (sound : b.Sound) (waits : (b.next e).status call = .unconfirmed) :
    (b.next e).ledger.witnesses? call = some (b.tally call e) := by
  have entry := ((sound.next e) call).isOpen.mpr waits
  obtain ⟨peers,entry⟩ := Option.isSome_iff_exists.mp entry
  rw [cycle_witnesses] at entry
  rw [← witnesses_next waits,Ledger.witnesses,entry]
  rfl

theorem Sound.witnesses_shut (sound : b.Sound) (shut : b.status call ≠ .unconfirmed) (p : PeerId) :
    p ∉ b.ledger.witnesses call := by
  rw [witnesses_eq]
  exact (sound call).no_witness shut p

theorem mem_tally_iff {p : PeerId} : p ∈ b.tally call e ↔ p ∈ b.ledger.witnesses call ∨
    e = .report (.of p call .unconfirmed) ∨ (p = b.self ∧ ∃ source, e = .report (.of source call .unconfirmed)) := by
  rw [mem_tally]
  refine or_congr_right ⟨?_,?_⟩
  · rintro ⟨⟨source,belief⟩,rfl,rfl,same | same⟩
    · exact .inr ⟨same,source,rfl⟩
    · exact .inl (same ▸ rfl)
  · rintro (rfl | ⟨same,source,rfl⟩)
    · exact ⟨_,rfl,rfl,.inr rfl⟩
    · exact ⟨_,rfl,rfl,.inl same⟩

/-- In an open cycle an event adds at most its source. -/
theorem mem_tally_goes_on {c : List Requests.Event} {p : PeerId} (members : p ∈ b.ledger.witnesses call ↔
      p = b.self ∨ .report (.of p call .unconfirmed) ∈ c) :
    p ∈ b.tally call e ↔ p = b.self ∨ .report (.of p call .unconfirmed) ∈ c ++ [e] := by
  rw [mem_tally_iff,members,List.mem_append,List.mem_singleton,@eq_comm _ e]
  constructor
  · rintro ((own | before) | new | ⟨own,_⟩)
    · exact .inl own
    · exact .inr (.inl before)
    · exact .inr (.inr new)
    · exact .inl own
  · rintro (own | before | new)
    · exact .inl (.inl own)
    · exact .inl (.inr before)
    · exact .inr (.inl new)

theorem mem_tally_opens {source p : PeerId} (nobody : p ∉ b.ledger.witnesses call) :
    p ∈ b.tally call (.report (.of source call .unconfirmed)) ↔
      p = b.self ∨ .report (.of p call .unconfirmed) ∈ [Requests.Event.report (.of source call .unconfirmed)] := by
  rw [mem_tally_iff,List.mem_singleton]
  constructor
  · rintro (old | new | ⟨own,_⟩)
    · exact absurd old nobody
    · exact .inr new.symm
    · exact .inl own
  · rintro (own | new)
    · exact .inr (.inr ⟨own,source,rfl⟩)
    · exact .inr (.inl new.symm)

section
variable {past rest : List Requests.Event} {source : PeerId}

theorem OpenSince.opens (shut : (start.after past).status call ≠ .unconfirmed)
    (waits : ((start.after past).next (.report (.of source call .unconfirmed))).status call = .unconfirmed) :
    start.OpenSince call past source [] := by
  refine ⟨shut,fun sofar inside => ?_⟩
  rw [List.prefix_nil.mp inside,after_snoc]
  exact waits

theorem OpenSince.goes_on (opened : start.OpenSince call past source rest)
    (waits : (start.after (past ++ .report (.of source call .unconfirmed) :: (rest ++ [e]))).status call =
      .unconfirmed) : start.OpenSince call past source (rest ++ [e]) := by
  refine ⟨opened.before,fun sofar inside => ?_⟩
  rcases List.prefix_concat_iff.mp inside with rfl | earlier
  · exact waits
  · exact opened.since sofar earlier

end

/-- The witnesses of an open cycle are the board itself and the sources of the unconfirmed
    reports since it was opened. -/
theorem Sound.open_since (sound : start.Sound) (shut : start.status call ≠ .unconfirmed)
    (waits : (start.after events).status call = .unconfirmed) :
    ∃ past source rest, events = past ++ .report (.of source call .unconfirmed) :: rest ∧
      start.OpenSince call past source rest ∧
      ∃ peers, (start.after events).ledger.witnesses? call = some peers ∧ ∀ p, p ∈ peers ↔
        p = start.self ∨ .report (.of p call .unconfirmed) ∈ .report (.of source call .unconfirmed) :: rest := by
  induction events using List.reverseRecOn with
  | nil => exact absurd waits shut
  | append_singleton past e ih =>
    have counted : (start.after (past ++ [e])).ledger.witnesses? call = some ((start.after past).tally call e) := by
      rw [after_snoc] at waits ⊢
      exact (sound.after past).witnesses?_next waits
    have own : (start.after past).self = start.self := self_after start past
    by_cases waited : (start.after past).status call = .unconfirmed
    · obtain ⟨early,source,rest,rfl,opened,peers,entry,members⟩ := ih waited
      have same : early ++ .report (.of source call .unconfirmed) :: rest ++ [e] =
          early ++ .report (.of source call .unconfirmed) :: (rest ++ [e]) := by simp
      refine ⟨early,source,rest ++ [e],same,opened.goes_on (same ▸ waits),_,counted,fun p => ?_⟩
      rw [← own]
      refine mem_tally_goes_on (c := .report (.of source call .unconfirmed) :: rest) ?_
      rw [Ledger.witnesses,entry,own]
      exact members p
    · -- Nobody is left in the ledger from before, so that the cycle starts with this event.
      rw [after_snoc] at waits
      obtain ⟨source,rfl⟩ := opened_next waited waits
      refine ⟨past,source,[],rfl,.opens waited waits,_,counted,fun p => ?_⟩
      rw [← own]
      exact mem_tally_opens ((sound.after past).witnesses_shut waited p)

/-! ### When a call is confirmed -/

/-- What makes a board confirm a call that it does not hold to be confirmed. -/
inductive Confirms (b : CallBoard) (call : Call) : Requests.Event → Prop where
  /-- With the source and the board itself the witnesses of the cycle are a quorum. -/
  | witnessed (source : PeerId) : b.status call ≠ .confirmed →
      call.AgreedBy (((b.ledger.witnesses call).insert source).insert b.self) b.alive →
      Confirms b call (.report (.of source call .unconfirmed))
  /-- A peer has confirmed the call, which was not cleared. -/
  | trusted (source : PeerId) : b.status call = .unconfirmed ∨ b.status call = .unknown →
      Confirms b call (.report (.of source call .confirmed))
  /-- The witnesses of the cycle are a quorum under the new membership. -/
  | released (alive : PeerSet) : b.status call = .unconfirmed → call.AgreedBy (b.ledger.witnesses call) alive →
      Confirms b call (.membership alive)

theorem confirms_report_iff (b : CallBoard) (call : Call) (r : Report) :
    b.status call ≠ .confirmed ∧ (b.next (.report r)).status call = .confirmed ↔ b.Confirms call (.report r) := by
  obtain ⟨source,⟨other,told⟩⟩ := r
  have cycles := cycle_take b ⟨source,⟨other,told⟩⟩ call
  rw [← next_report] at cycles
  constructor
  · rintro ⟨open_,after⟩
    rw [← cycle_status,cycles] at after
    by_cases about : other = call
    · subst about
      rw [if_pos rfl] at after
      rcases (Cycle.confirmed_hear_iff open_).mp after with ⟨rfl,agreed⟩ | ⟨rfl,raised⟩
      · exact .witnessed source open_ agreed
      · exact .trusted source raised
    · rw [if_neg about] at after
      exact absurd after open_
  · intro confirms
    have about : other = call := by cases confirms <;> rfl
    have open_ : (b.cycle call).status ≠ .confirmed := by
      cases confirms with
      | witnessed _ open_ _ => exact open_
      | trusted _ raised => rcases raised with held | held <;> rw [cycle_status,held] <;> decide
    refine ⟨open_,?_⟩
    rw [← cycle_status,cycles,if_pos about,Cycle.confirmed_hear_iff open_]
    cases confirms with
    | witnessed _ _ agreed => exact .inl ⟨rfl,agreed⟩
    | trusted _ raised => exact .inr ⟨rfl,raised⟩

theorem Sound.confirms_membership_iff (sound : b.Sound) (call : Call) (alive : PeerSet) :
    b.status call ≠ .confirmed ∧ (b.next (.membership alive)).status call = .confirmed ↔
      b.Confirms call (.membership alive) := by
  have cycles := sound.cycle_setAlive alive call
  have due : (b.cycle call).Due call alive ↔ _ := (sound call).due_iff
  rw [← next_membership,Cycle.review] at cycles
  constructor
  · rintro ⟨open_,after⟩
    rw [← cycle_status,cycles] at after
    split at after
    · rename_i isDue
      obtain ⟨waits,agreed⟩ := due.mp isDue
      exact .released alive waits agreed
    · exact absurd after open_
  · rintro (_ | _ | ⟨_,waits,agreed⟩)
    refine ⟨by rw [waits]; decide,?_⟩
    rw [← cycle_status,cycles,if_pos (due.mpr ⟨waits,agreed⟩)]
    rfl

/-- After any history, the witnesses of a call in an unconfirmed cycle are the controller itself and
    the sources of the unconfirmed reports since the one that opened the cycle, and a call in
    no such cycle has none. The next event confirms the call exactly if it completes a quorum of
    these witnesses, or tells of a confirmation before a clear. -/
theorem confirmed_exactly (self : PeerId) (events : List Requests.Event) (call : Call) :
    (((new self).after events).status call = .unconfirmed →
      ∃ past source rest, events = past ++ .report (.of source call .unconfirmed) :: rest ∧
        (new self).OpenSince call past source rest ∧
        ∃ peers, ((new self).after events).ledger.witnesses? call = some peers ∧ ∀ p, p ∈ peers ↔
          p = self ∨ .report (.of p call .unconfirmed) ∈ .report (.of source call .unconfirmed) :: rest) ∧
    (((new self).after events).status call ≠ .unconfirmed → ((new self).after events).ledger.witnesses? call = none) ∧
    ∀ e, ((new self).after events).status call ≠ .confirmed ∧
        (((new self).after events).next e).status call = .confirmed ↔ ((new self).after events).Confirms call e := by
  have fresh : (new self).Sound := Reached.new.sound
  have sound : ((new self).after events).Sound := fresh.after events
  refine ⟨fresh.open_since ?_,fun settled => (sound call).shut settled,fun e => ?_⟩
  · rw [status_new]
    decide
  · cases e with
    | report r => exact confirms_report_iff _ call r
    | membership alive => exact sound.confirms_membership_iff call alive

/-- The witness of the second controller is over with the cycle that it confirmed. -/
example : (((new ⟨1⟩).after [.membership (.of [⟨1⟩,⟨2⟩]),.report (.of ⟨2⟩ (.hall 1 .up) .unconfirmed),
      .report (.of ⟨1⟩ (.hall 1 .up) .absent),.report (.of ⟨1⟩ (.hall 1 .up) .unconfirmed)]).ledger.witnesses?
        (.hall 1 .up)).map ExtTreeSet.toList = some [⟨1⟩] := by
  decide +kernel

/-! ### What is in the ledger -/

/-- The ledger of a board holds the cycles of its unconfirmed calls and nothing else, the board
    is a witness in each, and none of them has a quorum. -/
structure InOrder (self : PeerId) (b : CallBoard) : Prop where
  isOpen : ∀ call, (b.ledger.witnesses? call).isSome ↔ b.status call = .unconfirmed
  counted : b.ledger.openCycles = {call | b.status call = .unconfirmed}.ncard
  witnessed : ∀ call peers, b.ledger.witnesses? call = some peers → self ∈ peers
  waiting : ∀ call, b.ledger.hasQuorum call b.alive = false
  known : ∀ call : Call, b.statuses[call]? ≠ some Status.unknown

/-- After any history a board waits for no quorum that it has, and keeps no witnesses of a cycle
    that is over. -/
theorem ledger_in_order (self : PeerId) (events : List Requests.Event) : ((new self).after events).InOrder self := by
  have sound : ((new self).after events).Sound := Reached.new.sound.after events
  have own : ((new self).after events).self = self := self_after (new self) events
  have isOpen := fun call => (sound call).isOpen
  refine ⟨isOpen,?_,fun call peers entry => ?_,fun call => ?_,(known_new self).after events⟩
  · rw [Ledger.openCycles_eq]
    exact congrArg Set.ncard (Set.ext isOpen)
  · rw [← own]
    exact (sound call).witnessed peers entry
  · rw [Bool.eq_false_iff,ne_eq,Ledger.hasQuorum_iff]
    rintro ⟨peers,entry,agreed⟩
    exact (sound call).waiting peers entry agreed

end CallBoard
end ElevatorFleet
