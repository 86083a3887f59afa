import ElevatorFleet.Proofs.Commutation
import ElevatorFleet.Proofs.Decisions

/-!
# What a membership releases

A new membership goes through the unconfirmed calls one by one and confirms each that has a
quorum when its turn comes (`sweep`). The calls come in the order of a map, which nothing
depends on: a confirmation closes one cycle and leaves every other as it was, so the calls
that are due are the same throughout (`sweep_eq`), and two orders lead to the same board
(`setAliveBy_perm`). A membership that only grows releases nothing, since no cycle of a board
is ever left with a quorum.
-/
namespace ElevatorFleet
open Std Tasks

namespace CallBoard
variable {self : PeerId} {b : CallBoard} {call other : Call} {calls : List Call} {alive : PeerSet}
  {entries : List (Call × Status)}

/-- The unconfirmed calls among some entries, in their order. -/
def unconfirmedAmong (entries : List (Call × Status)) : List Call :=
  entries.filterMap fun (call,status) => if status = .unconfirmed then some call else none

/-- Goes through some calls in their order and confirms each that has a quorum when its turn comes. -/
def sweep (b : CallBoard) : List Call → CallBoard × List Belief
  | [] => (b,[])
  | call :: rest =>
    if b.ledger.hasQuorum call b.alive then
      let (after,confirmed) := (b.confirm call).sweep rest
      (after,⟨call,.confirmed⟩ :: confirmed)
    else b.sweep rest

/-- Replaces the membership where the entries of the statuses come in the order given. -/
def setAliveBy (entries : List (Call × Status)) (b : CallBoard) (alive : PeerSet) : CallBoard × List Belief :=
  if alive = b.alive then (b,[]) else { b with alive := alive }.sweep (unconfirmedAmong entries)

/-! ### One confirmation after the other -/

theorem hasQuorum_confirm (apart : call ≠ other) (b : CallBoard) (alive : PeerSet) :
    (b.confirm call).ledger.hasQuorum other alive = b.ledger.hasQuorum other alive := by
  have kept : (b.confirm call).ledger.witnesses? other = b.ledger.witnesses? other := by
    simp [confirm,Ledger.witnesses?_reset,apart]
  rw [Ledger.hasQuorum,Ledger.hasQuorum,kept]

/-- No confirmation gives or takes another call its quorum, so a sweep confirms the calls that had
    one at the start. -/
theorem sweep_eq (distinct : calls.Nodup) (b : CallBoard) :
    b.sweep calls = ((calls.filter (b.ledger.hasQuorum · b.alive)).foldl confirm b,
      (calls.filter (b.ledger.hasQuorum · b.alive)).map fun call => ⟨call,.confirmed⟩) := by
  induction calls generalizing b with
  | nil => rfl
  | cons call rest ih =>
    obtain ⟨fresh,distinct⟩ := List.nodup_cons.mp distinct
    have later : rest.filter ((b.confirm call).ledger.hasQuorum · (b.confirm call).alive) =
        rest.filter (b.ledger.hasQuorum · b.alive) := by
      refine List.filter_congr fun other member => hasQuorum_confirm ?_ b b.alive
      rintro rfl
      exact fresh member
    rw [sweep]
    split
    · rename_i quorum
      rw [ih distinct (b.confirm call),later,List.filter_cons,if_pos quorum]
      rfl
    · rename_i lacking
      rw [ih distinct b,List.filter_cons,if_neg lacking]

theorem setAliveBy_toList (b : CallBoard) (alive : PeerSet) :
    b.setAliveBy b.statuses.toList alive = b.setAlive alive := by
  rw [setAliveBy,setAlive]
  split
  · rfl
  · exact sweep_eq (nodup_pending b) { b with alive := alive }

/-- Two boards on which the same calls were confirmed are equal. -/
theorem foldl_confirm_congr {more : List Call} (known : b.Known) (same : ∀ call, call ∈ calls ↔ call ∈ more) :
    calls.foldl confirm b = more.foldl confirm b := by
  have keeps : ∀ calls : List Call, (calls.foldl confirm b).Known := fun calls =>
    List.foldlRecOn calls confirm known fun _ held call _ => held.confirm call
  refine eq_of_cycles (keeps calls) (keeps more) ?_ ?_ fun call => ?_
  · rw [(foldl_confirm calls b default).2.1,(foldl_confirm more b default).2.1]
  · rw [(foldl_confirm calls b default).2.2,(foldl_confirm more b default).2.2]
  · rw [(foldl_confirm calls b call).1,(foldl_confirm more b call).1]
    simp only [same]

/-- The order of the entries shows in the order of the answer and nowhere else. -/
theorem setAliveBy_perm (known : b.Known) (order : entries.Perm b.statuses.toList) (alive : PeerSet) :
    (b.setAliveBy entries alive).1 = (b.setAlive alive).1 ∧
      (b.setAliveBy entries alive).2.Perm (b.setAlive alive).2 := by
  have pending : (unconfirmedAmong entries).Perm b.pending := order.filterMap _
  rw [← setAliveBy_toList,setAliveBy,setAliveBy]
  split
  · exact ⟨rfl,.refl _⟩
  · have distinct : (unconfirmedAmong b.statuses.toList).Nodup := nodup_pending b
    rw [sweep_eq (pending.nodup_iff.mpr distinct),sweep_eq distinct]
    have due := pending.filter (b.ledger.hasQuorum · alive)
    exact ⟨foldl_confirm_congr (b := { b with alive := alive }) known fun call => due.mem_iff,due.map _⟩

/-! ### The calls that are released -/

/-- What a board that learns of the membership `alive` confirms by that, and what it holds after. -/
structure Releases (before : CallBoard) (alive : PeerSet) (after : CallBoard) (confirmed : List Belief) : Prop where
  distinct : confirmed.Nodup
  listed : ∀ belief, belief ∈ confirmed ↔ belief.status = .confirmed ∧ before.status belief.call = .unconfirmed ∧
    (∀ p ∈ alive, p ∈ before.ledger.witnesses belief.call) ∧
    belief.call.quorum ≤ (before.ledger.witnesses belief.call).size
  released : ∀ call, ⟨call,.confirmed⟩ ∈ confirmed →
    after.status call = .confirmed ∧ after.ledger.witnesses? call = none
  kept : ∀ call, ⟨call,.confirmed⟩ ∉ confirmed →
    after.status call = before.status call ∧ after.ledger.witnesses? call = before.ledger.witnesses? call
  self : after.self = before.self
  alive : after.alive = alive

theorem Sound.mem_setAlive (sound : b.Sound) {belief : Belief} :
    belief ∈ (b.setAlive alive).2 ↔ belief.status = .confirmed ∧ (b.cycle belief.call).Due belief.call alive := by
  obtain ⟨call,status⟩ := belief
  rw [beliefs_setAlive]
  split
  · rename_i same
    subst same
    simp [(sound call).not_due]
  · simp only [List.mem_map,Belief.mk.injEq,mem_released]
    constructor
    · rintro ⟨_,due,rfl,rfl⟩
      exact ⟨rfl,due⟩
    · rintro ⟨rfl,due⟩
      exact ⟨call,due,rfl,rfl⟩

theorem nodup_setAlive (b : CallBoard) (alive : PeerSet) : (b.setAlive alive).2.Nodup := by
  rw [beliefs_setAlive]
  split
  · exact List.nodup_nil
  · refine List.Nodup.map ?_ ((nodup_pending b).filter _)
    intro first second same
    exact congrArg Belief.call same

theorem Sound.releases (sound : b.Sound) (alive : PeerSet) :
    b.Releases alive (b.setAlive alive).1 (b.setAlive alive).2 := by
  refine ⟨nodup_setAlive b alive,fun belief => ?_,fun call member => ?_,fun call missing => ?_,
    self_setAlive b alive,alive_setAlive b alive⟩
  · rw [sound.mem_setAlive,(sound belief.call).due_iff]
    exact and_congr_right' (and_congr_right' and_comm)
  · have cycles := sound.cycle_setAlive alive call
    rw [Cycle.review,if_pos (sound.mem_setAlive.mp member).2] at cycles
    exact ⟨congrArg Cycle.status cycles,congrArg Cycle.witnesses cycles⟩
  · have cycles := sound.cycle_setAlive alive call
    rw [Cycle.review,if_neg fun due => missing (sound.mem_setAlive.mpr ⟨rfl,due⟩)] at cycles
    exact ⟨congrArg Cycle.status cycles,congrArg Cycle.witnesses cycles⟩

/-- A larger membership gives no call the quorum that it lacks under the smaller one. -/
theorem Sound.setAlive_grown (sound : b.Sound) (grows : ∀ p ∈ b.alive, p ∈ alive) :
    b.setAlive alive = ({ b with alive := alive },[]) := by
  have none : b.released alive = [] := by
    refine List.eq_nil_iff_forall_not_mem.mpr fun call member => ?_
    obtain ⟨_,peers,entry,agreed⟩ := (mem_released b alive call).mp member
    exact (sound call).waiting peers entry (agreed.shrink grows)
  rw [setAlive]
  split
  · rename_i same
    rw [same]
  · rw [none]
    rfl

/-- A new membership confirms exactly the unconfirmed calls whose witnesses include everybody alive and
    are as many as the call needs, whatever order the calls come in; one that only grows confirms none. -/
theorem releases_exactly (reached : b.Reached self) (alive : PeerSet) :
    b.Releases alive (b.setAlive alive).1 (b.setAlive alive).2 ∧
      (∀ entries, entries.Perm b.statuses.toList →
        (b.setAliveBy entries alive).1 = (b.setAlive alive).1 ∧
          (b.setAliveBy entries alive).2.Perm (b.setAlive alive).2) ∧
      ((∀ p ∈ b.alive, p ∈ alive) → b.setAlive alive = ({ b with alive := alive },[])) :=
  ⟨reached.sound.releases alive,fun _ order => setAliveBy_perm reached.known order alive,reached.sound.setAlive_grown⟩

/-- Three controllers are alive; of three calls the first lacks the third controller, the second the
    second one, and the third is a cab call of the second that lacks the third. -/
def lacking : CallBoard :=
  threeAlive.after [.report (.of ⟨2⟩ (.hall 1 .up) .unconfirmed),.report (.of ⟨3⟩ (.hall 2 .down) .unconfirmed),
    .report (.of ⟨2⟩ (.cab 3 ⟨2⟩) .unconfirmed)]

theorem lacking_reached : lacking.Reached ⟨1⟩ := threeAlive_reached.after _

/-- The death of the third controller releases the two calls that it kept waiting. -/
theorem lacking_releases :
    lacking.Releases twoLeft (lacking.setAlive twoLeft).1 [⟨.hall 1 .up,.confirmed⟩,⟨.cab 3 ⟨2⟩,.confirmed⟩] ∧
      (lacking.setAliveBy lacking.statuses.toList.reverse twoLeft).1 = (lacking.setAlive twoLeft).1 ∧
      (lacking.setAliveBy lacking.statuses.toList.reverse twoLeft).2 =
        [⟨.cab 3 ⟨2⟩,.confirmed⟩,⟨.hall 1 .up,.confirmed⟩] ∧
      lacking.setAlive (.of [⟨1⟩,⟨2⟩,⟨3⟩,⟨4⟩]) = ({ lacking with alive := .of [⟨1⟩,⟨2⟩,⟨3⟩,⟨4⟩] },[]) := by
  obtain ⟨releases,orders,_⟩ := releases_exactly lacking_reached twoLeft
  have confirmed : (lacking.setAlive twoLeft).2 = [⟨.hall 1 .up,.confirmed⟩,⟨.cab 3 ⟨2⟩,.confirmed⟩] := by decide +kernel
  have grows : ∀ p ∈ lacking.alive, p ∈ PeerSet.of [⟨1⟩,⟨2⟩,⟨3⟩,⟨4⟩] := by
    rw [← PeerSet.within_iff]
    decide +kernel
  exact ⟨confirmed ▸ releases,(orders _ (List.reverse_perm _)).1,by decide +kernel,
    (releases_exactly lacking_reached _).2.2 grows⟩

end CallBoard
end ElevatorFleet
