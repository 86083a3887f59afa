import ElevatorFleet.Proofs.Confirmation

/-!
# Reports in any order

Reports and memberships reach a board over queues of their own, and snapshots arrive in any
order and more than once. As long as no report clears a call, none of this matters: reports
commute and each counts once, so that a board ends up the same after any two lists with the
same reports (`after_eq_of_mem_iff`), and a membership that only shrinks may arrive anywhere
among them (`shrinking_commutes`). Of a call that is confirmed by then, it does not show
whether a witness completed the quorum under the old membership, one under the new, or the
change itself.
-/
namespace ElevatorFleet
open Std Tasks

section
variable {call : Call} {peers alive : PeerSet}

theorem Call.AgreedBy.insert (agreed : call.AgreedBy peers alive) (p : PeerId) :
    call.AgreedBy (peers.insert p) alive :=
  ⟨Nat.le_trans agreed.1 ExtTreeSet.size_le_size_insert,
    fun q member => PeerSet.mem_insert.mpr (.inr (agreed.2 q member))⟩

theorem Call.AgreedBy.shrink {fewer : PeerSet} (agreed : call.AgreedBy peers alive)
    (shrinks : ∀ p ∈ fewer, p ∈ alive) : call.AgreedBy peers fewer :=
  ⟨agreed.1,fun p member => agreed.2 p (shrinks p member)⟩

end

namespace Cycle
variable {call : Call} {own : PeerId} {alive : PeerSet} {k : Cycle} {told : Status}

theorem agreedBy_joined (agreed : call.AgreedBy (k.witnesses.getD ∅) alive) (source own : PeerId) :
    call.AgreedBy (k.joined source own) alive :=
  (agreed.insert source).insert own

theorem joined_comm (k : Cycle) (s t own : PeerId) :
    (⟨.unconfirmed,some (k.joined s own)⟩ : Cycle).joined t own =
      (⟨.unconfirmed,some (k.joined t own)⟩ : Cycle).joined s own := by
  apply ExtTreeSet.ext_mem
  intro p
  simp only [mem_joined,Option.getD_some,or_left_comm,or_self_left]

/-! ### Two reports -/

/-- Two witnesses, one after the other, confirm a call just if they complete a quorum together. -/
theorem hear_two (open_ : k.status ≠ .confirmed) (s t : PeerId) :
    (k.hear call own alive s .unconfirmed).hear call own alive t .unconfirmed =
      if call.AgreedBy ((⟨.unconfirmed,some (k.joined s own)⟩ : Cycle).joined t own) alive then closed
      else ⟨.unconfirmed,some ((⟨.unconfirmed,some (k.joined s own)⟩ : Cycle).joined t own)⟩ := by
  rw [hear_unconfirmed open_]
  by_cases agreed : call.AgreedBy (k.joined s own) alive
  · have both : call.AgreedBy ((⟨.unconfirmed,some (k.joined s own)⟩ : Cycle).joined t own) alive :=
      agreedBy_joined agreed t own
    rw [if_pos agreed,if_pos both,hear_closed t (by decide)]
  · rw [if_neg agreed,hear_unconfirmed (by simp)]

theorem hear_unconfirmed_confirmed (noClear : k.status ≠ .absent) (s t : PeerId) :
    (k.hear call own alive s .unconfirmed).hear call own alive t .confirmed =
      (k.hear call own alive t .confirmed).hear call own alive s .unconfirmed := by
  by_cases isConfirmed : k.status = .confirmed
  · rw [hear_of_confirmed isConfirmed s (by decide),hear_of_confirmed isConfirmed t (by decide),
      hear_of_confirmed isConfirmed s (by decide)]
  · rw [hear_confirmed noClear,if_neg isConfirmed,hear_closed s (by decide),hear_unconfirmed isConfirmed]
    split
    · exact hear_closed t (by decide)
    · rfl

/-- Two reports that clear nothing may come in either order. -/
theorem hear_comm {first second : Status} (clearless : first ≠ .absent ∧ second ≠ .absent)
    (believed : first = .confirmed ∨ second = .confirmed → k.status ≠ .absent) (s t : PeerId) :
    (k.hear call own alive s first).hear call own alive t second =
      (k.hear call own alive t second).hear call own alive s first := by
  by_cases isConfirmed : k.status = .confirmed
  · rw [hear_of_confirmed isConfirmed s clearless.1,hear_of_confirmed isConfirmed t clearless.2,
      hear_of_confirmed isConfirmed s clearless.1]
  · cases first with
    | unknown => rfl
    | absent => exact absurd rfl clearless.1
    | unconfirmed =>
      cases second with
      | unknown => rfl
      | absent => exact absurd rfl clearless.2
      | unconfirmed => rw [hear_two isConfirmed,hear_two isConfirmed,joined_comm]
      | confirmed => exact hear_unconfirmed_confirmed (believed (.inr rfl)) s t
    | confirmed =>
      cases second with
      | unknown => rfl
      | absent => exact absurd rfl clearless.2
      | unconfirmed => exact (hear_unconfirmed_confirmed (believed (.inl rfl)) t s).symm
      | confirmed => rfl

theorem notAbsent_hear (noClear : told ≠ .absent) (held : k.status ≠ .absent) (source : PeerId) :
    (k.hear call own alive source told).status ≠ .absent := by
  rcases status_hear call own alive k source told with old | new | ⟨_,_,_,confirms⟩
  · rw [old]
    exact held
  · rw [new]
    exact noClear
  · rw [confirms]
    decide

/-! ### A report and a membership -/

/-- A report that clears nothing and a membership that shrinks may come in either order. -/
theorem review_hear {fewer : PeerSet} (shrinks : ∀ p ∈ fewer, p ∈ alive) (noClear : told ≠ .absent)
    (source : PeerId) : (k.hear call own alive source told).review call fewer =
      (k.review call fewer).hear call own fewer source told := by
  have calm_closed : closed.review call fewer = closed := review_calm (by decide)
  by_cases isConfirmed : k.status = .confirmed
  · have calm : k.review call fewer = k := review_calm (by rw [isConfirmed]; decide)
    rw [hear_of_confirmed isConfirmed source noClear,calm,hear_of_confirmed isConfirmed source noClear]
  cases told with
  | unknown => rfl
  | absent => exact absurd rfl noClear
  | confirmed =>
    by_cases isAbsent : k.status = .absent
    · have calm : k.review call fewer = k := review_calm (by rw [isAbsent]; decide)
      rw [absent_hear isAbsent (by decide),calm,absent_hear isAbsent (by decide)]
    · rw [hear_confirmed isAbsent,if_neg isConfirmed,calm_closed,review]
      split
      · exact (hear_closed source noClear).symm
      · rw [hear_confirmed isAbsent,if_neg isConfirmed]
  | unconfirmed =>
    rw [hear_unconfirmed isConfirmed]
    by_cases agreed : call.AgreedBy (k.joined source own) fewer
    · -- Whatever comes first, the call is confirmed in the end.
      have left : (if call.AgreedBy (k.joined source own) alive then closed
          else ⟨.unconfirmed,some (k.joined source own)⟩).review call fewer = closed := by
        split
        · exact calm_closed
        · exact if_pos ⟨rfl,_,rfl,agreed⟩
      rw [left,review]
      split
      · exact (hear_closed source noClear).symm
      · rw [hear_unconfirmed isConfirmed,if_pos agreed]
    · -- No quorum under the smaller membership, so none under the larger one and none before.
      have notYet : ¬ call.AgreedBy (k.joined source own) alive := fun before => agreed (before.shrink shrinks)
      have notDue : ¬ k.Due call fewer := by
        rintro ⟨_,peers,entry,before⟩
        refine agreed (agreedBy_joined ?_ source own)
        rwa [entry]
      have waits : ¬ (⟨.unconfirmed,some (k.joined source own)⟩ : Cycle).Due call fewer := by
        rintro ⟨_,_,⟨⟩,now⟩
        exact agreed now
      rw [if_neg notYet,review,if_neg waits,review,if_neg notDue,hear_unconfirmed isConfirmed,if_neg agreed]

end Cycle

namespace CallBoard
variable {self : PeerId} {b : CallBoard} {r s : Report} {reports xs ys : List Report} {alive : PeerSet}

/-- The report clears nothing, and confirms no call that has been cleared. -/
def Onward (b : CallBoard) (r : Report) : Prop :=
  r.belief.status ≠ .absent ∧ (r.belief.status = .confirmed → b.status r.belief.call ≠ .absent)

instance (b : CallBoard) (r : Report) : Decidable (b.Onward r) :=
  inferInstanceAs (Decidable (_ ∧ (_ → _)))

theorem Onward.take (onward : b.Onward r) (noClear : s.belief.status ≠ .absent) : (b.take s).Onward r := by
  refine ⟨onward.1,fun isConfirmed => ?_⟩
  rw [← cycle_status,cycle_take]
  split
  · exact Cycle.notAbsent_hear noClear (onward.2 isConfirmed) s.source
  · exact onward.2 isConfirmed

theorem take_comm (known : b.Known) (first : b.Onward r) (second : b.Onward s) :
    (b.take r).take s = (b.take s).take r := by
  refine eq_of_cycles ((known.take r).take s) ((known.take s).take r) (by simp only [self_take])
    (by simp only [alive_take]) fun call => ?_
  simp only [cycle_take,self_take,alive_take]
  by_cases about : r.belief.call = call
  · by_cases also : s.belief.call = call
    · rw [if_pos about,if_pos also,if_pos about,if_pos also]
      refine Cycle.hear_comm ⟨first.1,second.1⟩ ?_ r.source s.source
      rintro (isConfirmed | isConfirmed)
      · exact about ▸ first.2 isConfirmed
      · exact also ▸ second.2 isConfirmed
    · simp [about,also]
  · simp [about]

/-- A report that comes twice in a row counts once. -/
theorem take_take (known : b.Known) (r : Report) : (b.take r).take r = b.take r := by
  refine eq_of_cycles ((known.take r).take r) (known.take r) (self_take _ r) (alive_take _ r) fun call => ?_
  simp only [cycle_take,self_take,alive_take]
  by_cases about : r.belief.call = call
  · simp only [about,↓reduceIte]
    exact Cycle.hear_hear _ _ _ _ _ _
  · simp [about]

/-! ### Lists of reports -/

theorem after_report (b : CallBoard) (r : Report) (rest : List Report) :
    b.after ((r :: rest).map .report) = (b.take r).after (rest.map .report) := rfl

theorem onward_rest (onward : ∀ s ∈ r :: reports, b.Onward s) :
    b.Onward r ∧ ∀ s ∈ reports, (b.take r).Onward s := by
  have first : b.Onward r := onward r List.mem_cons_self
  exact ⟨first,fun s member => (onward s (List.mem_cons_of_mem _ member)).take first.1⟩

/-- A report that comes first may as well come last. -/
theorem take_after (known : b.Known) (first : b.Onward r) (onward : ∀ s ∈ reports, b.Onward s) :
    (b.take r).after (reports.map .report) = (b.after (reports.map .report)).take r := by
  induction reports generalizing b with
  | nil => rfl
  | cons s rest ih =>
    obtain ⟨next,later⟩ := onward_rest onward
    rw [after_report,after_report,take_comm known first next]
    exact ih (known.take s) (first.take next.1) later

/-- A report that a board has taken changes nothing when it comes again. -/
theorem take_absorbed (known : b.Known) (onward : ∀ s ∈ reports, b.Onward s) (member : r ∈ reports) :
    (b.after (reports.map .report)).take r = b.after (reports.map .report) := by
  induction reports generalizing b with
  | nil => cases member
  | cons s rest ih =>
    obtain ⟨next,later⟩ := onward_rest onward
    rw [after_report]
    rcases List.mem_cons.mp member with rfl | inside
    · rw [← take_after (known.take r) (next.take next.1) later,take_take known r]
    · exact ih (known.take s) later inside

theorem after_absorbed (known : b.Known) (onward : ∀ s ∈ xs, b.Onward s) (inside : ∀ r ∈ ys, r ∈ xs) :
    (b.after (xs.map .report)).after (ys.map .report) = b.after (xs.map .report) := by
  induction ys with
  | nil => rfl
  | cons r rest ih =>
    rw [after_report,take_absorbed known onward (inside r List.mem_cons_self)]
    exact ih fun s member => inside s (List.mem_cons_of_mem _ member)

theorem after_comm (known : b.Known) (first : ∀ r ∈ xs, b.Onward r) (second : ∀ r ∈ ys, b.Onward r) :
    (b.after (xs.map .report)).after (ys.map .report) = (b.after (ys.map .report)).after (xs.map .report) := by
  induction xs generalizing b with
  | nil => rfl
  | cons r rest ih =>
    obtain ⟨next,later⟩ := onward_rest first
    rw [after_report,after_report,ih (known.take r) later (fun s member => (second s member).take next.1),
      take_after known next second]

/-- Two lists with the same reports, in any order and with any repetitions, lead to the same
    board, unless they clear a call or confirm one that has been cleared. -/
theorem after_eq_of_mem_iff (reached : b.Reached self) (onward : ∀ r ∈ xs, b.Onward r)
    (same : ∀ r, r ∈ xs ↔ r ∈ ys) : b.after (xs.map .report) = b.after (ys.map .report) := by
  have known := reached.known
  have onward' : ∀ r ∈ ys, b.Onward r := fun r member => onward r ((same r).mpr member)
  calc b.after (xs.map .report)
      = (b.after (xs.map .report)).after (ys.map .report) :=
        (after_absorbed known onward fun r member => (same r).mpr member).symm
    _ = (b.after (ys.map .report)).after (xs.map .report) := after_comm known onward onward'
    _ = b.after (ys.map .report) := after_absorbed known onward' fun r member => (same r).mp member

/-- The board of the first of three controllers that know each other, before any call. -/
def threeAlive : CallBoard := (new ⟨1⟩).next (.membership (.of [⟨1⟩,⟨2⟩,⟨3⟩]))

theorem threeAlive_reached : threeAlive.Reached ⟨1⟩ := .next _ .new

/-- The two others witness a call, and so does a controller that is not alive. -/
def answers : List Report :=
  [.of ⟨2⟩ (.hall 1 .up) .unconfirmed,.of ⟨3⟩ (.hall 1 .up) .unconfirmed,.of ⟨4⟩ (.hall 1 .up) .unconfirmed]

/-- The same in another order and with repetitions. -/
def answersAgain : List Report :=
  [.of ⟨4⟩ (.hall 1 .up) .unconfirmed,.of ⟨3⟩ (.hall 1 .up) .unconfirmed,.of ⟨4⟩ (.hall 1 .up) .unconfirmed,
    .of ⟨2⟩ (.hall 1 .up) .unconfirmed,.of ⟨3⟩ (.hall 1 .up) .unconfirmed]

theorem threeAlive_either_way :
    (∀ r ∈ answers, threeAlive.Onward r) ∧ (∀ r, r ∈ answers ↔ r ∈ answersAgain) ∧
      threeAlive.after (answers.map .report) = threeAlive.after (answersAgain.map .report) := by
  have onward : ∀ r ∈ answers, threeAlive.Onward r := by decide +kernel
  have there : ∀ r ∈ answers, r ∈ answersAgain := by decide
  have back : ∀ r ∈ answersAgain, r ∈ answers := by decide
  have same : ∀ r, r ∈ answers ↔ r ∈ answersAgain := fun r => ⟨there r,back r⟩
  exact ⟨onward,same,after_eq_of_mem_iff threeAlive_reached onward same⟩

/-! ### A membership among reports -/

theorem setAlive_take (sound : b.Sound) (known : b.Known) (shrinks : ∀ p ∈ alive, p ∈ b.alive)
    (noClear : r.belief.status ≠ .absent) :
    (b.take r).next (.membership alive) = (b.next (.membership alive)).take r := by
  have soundTaken : (b.take r).Sound := sound.next (.report r)
  refine eq_of_cycles ((known.take r).next _) ((known.next _).take r) ?_ ?_ fun call => ?_
  · rw [self_next,self_take,self_take,self_next]
  · rw [alive_take,alive_next,alive_next]
  · rw [cycle_take,next_membership,next_membership,soundTaken.cycle_setAlive,sound.cycle_setAlive,cycle_take,
      self_setAlive,alive_setAlive]
    split
    · exact Cycle.review_hear shrinks noClear r.source
    · rfl

theorem membership_after (sound : b.Sound) (known : b.Known) (shrinks : ∀ p ∈ alive, p ∈ b.alive)
    (clearless : ∀ r ∈ reports, r.belief.status ≠ .absent) :
    (b.after (reports.map .report)).next (.membership alive) =
      (b.next (.membership alive)).after (reports.map .report) := by
  induction reports generalizing b with
  | nil => rfl
  | cons r rest ih =>
    have shrinksTaken : ∀ p ∈ alive, p ∈ (b.take r).alive := by
      rw [alive_take]
      exact shrinks
    rw [after_report,after_report,← setAlive_take sound known shrinks (clearless r List.mem_cons_self)]
    exact ih (sound.next (.report r)) (known.take r) shrinksTaken
      fun s member => clearless s (List.mem_cons_of_mem _ member)

/-- The reports as they come, with a membership after the first `i` of them. -/
def interposed (reports : List Report) (alive : PeerSet) (i : Nat) : List Requests.Event :=
  (reports.take i).map .report ++ .membership alive :: (reports.drop i).map .report

theorem after_interposed (sound : b.Sound) (known : b.Known) (shrinks : ∀ p ∈ alive, p ∈ b.alive)
    (clearless : ∀ r ∈ reports, r.belief.status ≠ .absent) (i : Nat) :
    b.after (interposed reports alive i) = (b.next (.membership alive)).after (reports.map .report) := by
  have early : ∀ r ∈ reports.take i, r.belief.status ≠ .absent :=
    fun r member => clearless r (List.mem_of_mem_take member)
  calc b.after (interposed reports alive i)
      = ((b.after ((reports.take i).map .report)).next (.membership alive)).after ((reports.drop i).map .report) :=
        after_append _ _ _
    _ = ((b.next (.membership alive)).after ((reports.take i).map .report)).after ((reports.drop i).map .report) := by
        rw [membership_after sound known shrinks early]
    _ = (b.next (.membership alive)).after (reports.map .report) := by
        rw [← after_append,← List.map_append,List.take_append_drop]

/-- Among reports that clear nothing, it does not matter when the membership shrinks. -/
theorem shrinking_commutes (reached : b.Reached self) (shrinks : ∀ p ∈ alive, p ∈ b.alive)
    (clearless : ∀ r ∈ reports, r.belief.status ≠ .absent) (i j : Nat) :
    b.after (interposed reports alive i) = b.after (interposed reports alive j) := by
  rw [after_interposed reached.sound reached.known shrinks clearless,
    after_interposed reached.sound reached.known shrinks clearless]

/-- The first and the second controller. -/
def twoLeft : PeerSet := .of [⟨1⟩,⟨2⟩]

/-- The death of the third controller is known before any answer, so that the first answer
    confirms the call, or after the first answer, and then confirms it, or too late for that. -/
theorem threeAlive_shrinks :
    (∀ p ∈ twoLeft, p ∈ threeAlive.alive) ∧ (∀ r ∈ answers, r.belief.status ≠ .absent) ∧
      threeAlive.after (interposed answers twoLeft 0) = threeAlive.after (interposed answers twoLeft 1) ∧
      threeAlive.after (interposed answers twoLeft 1) = threeAlive.after (interposed answers twoLeft 2) := by
  have shrinks : ∀ p ∈ twoLeft, p ∈ threeAlive.alive := by
    intro p member
    rw [threeAlive,alive_next]
    rw [twoLeft,PeerSet.mem_of] at member
    exact PeerSet.mem_of.mpr (List.mem_of_mem_dropLast member)
  have clearless : ∀ r ∈ answers, r.belief.status ≠ .absent := by decide
  exact ⟨shrinks,clearless,shrinking_commutes threeAlive_reached shrinks clearless 0 1,
    shrinking_commutes threeAlive_reached shrinks clearless 1 2⟩

end CallBoard
end ElevatorFleet
