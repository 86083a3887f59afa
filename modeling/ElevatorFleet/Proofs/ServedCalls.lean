import ElevatorFleet.Proofs.Hearsay

/-!
# Calls that are taken back

A confirmed call is taken back by a clear, made at the controller itself or told by a
snapshot. A snapshot does not tell for which press of the button it holds the call to be
absent, so a controller can also take back a call that nobody has served: one that was
out of touch since the call was served the last time drops the next press of the button
at everybody whom it reaches again. That is the only way. Since any moment of the run
there was a clear, or the controller that takes the call back is told to by a snapshot whose
absence is from before that moment, at first or at second hand (`cause_of_drop`); and no
call is ever taken back that was not cleared at all.
-/
namespace ElevatorFleet
open Std Tasks

namespace Network

/-- What happens in a fleet whose controllers learn who is alive by their own polls
    alone, and do not restart. -/
def Move.Wired : Move → Prop
  | .act peer (.report r) => r.source = peer ∧ (r.belief.status = .unconfirmed ∨ r.belief.status = .absent)
  | .act _ (.receive _) | .act _ (.boardAlive _) | .act _ (.replicaAlive _) | .act _ (.viewAlive _) => False
  | .restart _ _ _ => False
  | _ => True

instance : DecidablePred Move.Wired
  | .act peer (.report r) =>
    inferInstanceAs (Decidable (r.source = peer ∧ (r.belief.status = .unconfirmed ∨ r.belief.status = .absent)))
  | .act _ (.receive _) | .act _ (.boardAlive _) | .act _ (.replicaAlive _) | .act _ (.viewAlive _) => .isFalse id
  | .restart _ _ _ => .isFalse id
  | .act _ (.signal _) | .act _ .poll | .act _ (.car _) => .isTrue trivial
  | .pass _ | .send _ | .deliver _ _ => .isTrue trivial

/-- Some controller holds the call to be confirmed. -/
def AnyConfirmed (w : Network) (call : Call) : Prop := ∃ peer, w.status? peer call = some .confirmed

/-- The absence in the snapshot is from before the moves. The snapshot was sent before them; or its sender has
    held the call to be absent from before them on; or another such snapshot has told the sender so, and
    the sender has kept to that. -/
inductive Outdated (w : Network) (call : Call) : List Move → Broadcast → Prop where
  | old {moves : List Move} {m : Broadcast} (sent : m ∈ w.sent) : Outdated w call moves m
  | idle {past rest : List Move} {m : Broadcast} (keeps : w.Keeps past m.source call .absent)
      (sends : ((w.run past).car? m.source).bind Controller.outbound = some m) :
      Outdated w call (past ++ .send m.source :: rest) m
  | relayed {first between rest : List Move} {index : Nat} {source m : Broadcast} (outdated : Outdated w call first source)
      (adopts : (w.run first).Adopts index m.source source call .absent)
      (keeps : ((w.run first).step (.deliver index m.source)).Keeps between m.source call .absent)
      (sends : ((w.run (first ++ .deliver index m.source :: between)).car? m.source).bind Controller.outbound = some m) :
      Outdated w call (first ++ .deliver index m.source :: between ++ .send m.source :: rest) m

/-- The controller has held the call to be absent from before the moves on, or since an outdated snapshot told
    it so. -/
def Behind (w : Network) (call : Call) (moves : List Move) (peer : PeerId) : Prop :=
  w.Keeps moves peer call .absent ∨ ∃ first index between m, moves = first ++ .deliver index peer :: between ∧
    w.Outdated call first m ∧ (w.run first).Adopts index peer m call .absent ∧
    ((w.run first).step (.deliver index peer)).Keeps between peer call .absent

variable {w start : Network} {call : Call} {past moves : List Move} {mv : Move} {peer : PeerId} {m : Broadcast}

theorem Outdated.later (outdated : w.Outdated call past m) (more : List Move) : w.Outdated call (past ++ more) m := by
  cases outdated with
  | old sent => exact .old sent
  | idle keeps sends =>
    rw [List.append_assoc]
    exact .idle keeps sends
  | relayed outdated adopts keeps sends =>
    rw [List.append_assoc]
    exact .relayed outdated adopts keeps sends

theorem Behind.snoc (behind : w.Behind call past peer) (held : (w.run (past ++ [mv])).status? peer call = some .absent) :
    w.Behind call (past ++ [mv]) peer := by
  rcases behind with keeps | ⟨first,index,between,m,rfl,outdated,adopts,keeps⟩
  · exact .inl (keeps.snoc held)
  · refine .inr ⟨first,index,between ++ [mv],m,by simp,outdated,adopts,keeps.snoc ?_⟩
    rwa [List.append_assoc,run_append] at held

/-- What a controller sends that is behind is outdated. -/
theorem Behind.sends (behind : w.Behind call past m.source)
    (sends : ((w.run past).car? m.source).bind Controller.outbound = some m) :
    w.Outdated call (past ++ [.send m.source]) m := by
  rcases behind with keeps | ⟨first,index,between,source,rfl,outdated,adopts,keeps⟩
  · exact .idle keeps sends
  · exact .relayed outdated adopts keeps sends

/-- Without a clear in the fleet, whoever holds the call to be absent is behind, and whatever says so is
    outdated. -/
theorem behind_run (manned : w.Manned) (honest : ∀ mv ∈ moves, mv.Honest)
    (noClear : ¬ ∃ p, (w.car? p).isSome ∧ Move.clear p call ∈ moves) :
    (∀ peer, (w.run moves).status? peer call = some .absent → w.Behind call moves peer) ∧
      ∀ m ∈ (w.run moves).sent, m.registry.status call = .absent → w.Outdated call moves m := by
  induction moves using List.reverseRecOn with
  | nil => exact ⟨fun peer held => .inl (.nil held),fun m sent _ => .old sent⟩
  | append_singleton past mv ih =>
    obtain ⟨cars,snapshots⟩ := ih (fun mv' member => honest mv' (List.mem_append_left _ member))
      fun ⟨p,here,member⟩ => noClear ⟨p,here,List.mem_append_left _ member⟩
    have last : mv.Honest := honest mv (List.mem_append_right _ List.mem_cons_self)
    refine ⟨fun peer held => ?_,fun m sent absent => ?_⟩
    · by_cases before : (w.run past).status? peer call = some .absent
      · exact (cars peer before).snoc held
      · have now := held
        rw [run_snoc] at now
        rcases comes_to_hold (manned.run past) last (by decide) (by decide) before now with rfl | ⟨index,m,rfl,adopts⟩
        · exact absurd ⟨peer,isSome_of_status held,List.mem_append_right _ List.mem_cons_self⟩ noClear
        · have outdated := snapshots m (List.mem_of_getElem? adopts.sent) adopts.told
          exact .inr ⟨past,index,[],m,rfl,outdated,adopts,.nil now⟩
    · rw [run_snoc] at sent
      rcases sent_step sent with old | ⟨peer,car,rfl,found,outbound⟩
      · exact (snapshots m old absent).later _
      · obtain ⟨n,reached⟩ := manned.run past peer car found
        obtain ⟨source,unknown | same⟩ := outbound_told reached outbound call
        · cases unknown.symm.trans absent
        · have held : (w.run past).status? peer call = some .absent :=
            status?_eq_some.mpr ⟨car,found,same.symm.trans absent⟩
          subst source
          exact (cars _ held).sends (by rw [found]; exact outbound)

/-- Unless the call has been cleared since the moves began, a controller that takes it back does so on the word
    of an outdated snapshot. -/
theorem cause_of_drop (manned : w.Manned) {later : List Move} (honest : ∀ mv' ∈ later ++ [mv], mv'.Honest)
    (before : (w.run later).status? peer call = some .confirmed)
    (after : (w.run (later ++ [mv])).status? peer call = some .absent) :
    (∃ p, (w.car? p).isSome ∧ Move.clear p call ∈ later ++ [mv]) ∨
      ∃ index m, mv = .deliver index peer ∧ (w.run later).Adopts index peer m call .absent ∧ w.Outdated call later m := by
  by_cases cleared : ∃ p, (w.car? p).isSome ∧ Move.clear p call ∈ later ++ [mv]
  · exact .inl cleared
  have snapshots := (behind_run manned (fun mv' member => honest mv' (List.mem_append_left _ member))
    fun ⟨p,here,member⟩ => cleared ⟨p,here,List.mem_append_left [mv] member⟩).2
  have last : mv.Honest := honest mv (List.mem_append_right _ List.mem_cons_self)
  have unlike : (w.run later).status? peer call ≠ some .absent := by
    rw [before]
    decide
  have now := after
  rw [run_snoc] at now
  rcases comes_to_hold (manned.run later) last (by decide) (by decide) unlike now with rfl | ⟨index,m,rfl,adopts⟩
  · exact .inl ⟨peer,isSome_of_status after,List.mem_append_right _ List.mem_cons_self⟩
  · exact .inr ⟨index,m,rfl,adopts,snapshots m (List.mem_of_getElem? adopts.sent) adopts.told⟩

/-- At the very beginning no controller and no snapshot holds a call to be absent. -/
theorem Fresh.not_outdated (fresh : start.Fresh) : ¬ start.Outdated call moves m := by
  intro outdated
  induction outdated with
  | old sent =>
    rw [fresh.sent] at sent
    cases sent
  | @idle _ _ m keeps _ =>
    obtain ⟨car,found,absent⟩ := status?_eq_some.mp (keeps [] List.nil_prefix)
    obtain ⟨n,timeout,rfl⟩ := fresh.cars _ car found
    cases (CallBoard.status_new m.source call).symm.trans absent
  | relayed _ _ _ _ ih => exact ih

/-- When a controller takes a confirmed call back, the call has been cleared in the run.
    Moreover, since any earlier moment, such as the last one at which no controller held
    it to be confirmed, it has been cleared at a controller, or the controller is told to take it back by
    another one's snapshot, and the absence in that snapshot is from before that moment. -/
theorem cleared_or_misled (fresh : start.Fresh) {quiet later : List Move} {mv : Move}
    (honest : ∀ mv' ∈ quiet ++ later ++ [mv], mv'.Honest) {peer : PeerId} {call : Call}
    (before : (start.run (quiet ++ later)).status? peer call = some .confirmed)
    (after : (start.run (quiet ++ later ++ [mv])).status? peer call = some .absent) :
    (∃ p, (start.car? p).isSome ∧ Move.clear p call ∈ quiet ++ later ++ [mv]) ∧
      ((∃ p, (start.car? p).isSome ∧ Move.clear p call ∈ later ++ [mv]) ∨
        ∃ index m, mv = .deliver index peer ∧ (start.run (quiet ++ later)).Adopts index peer m call .absent ∧
          (start.run quiet).Outdated call later m) := by
  constructor
  · refine (cause_of_drop fresh.manned honest before after).resolve_right ?_
    rintro ⟨index,m,_,_,outdated⟩
    exact fresh.not_outdated outdated
  · rw [List.append_assoc] at honest after
    rw [run_append] at before after ⊢
    have since := cause_of_drop (fresh.manned.run quiet) (fun mv' member => honest mv' (List.mem_append_right _ member))
      before after
    simpa only [isSome_car_run] using since

/-- The second controller serves a cab call on its own and tells the first one. -/
def servedAlone : List Move :=
  [.act ⟨1⟩ (.car default),.act ⟨2⟩ (.car default),.press ⟨2⟩ (.cab 0 ⟨2⟩),.clear ⟨2⟩ (.cab 0 ⟨2⟩),
    .send ⟨2⟩,.deliver 0 ⟨1⟩]

/-- The button is pressed again, and the first controller sends a snapshot before it
    hears of that. -/
def pressedAgain : List Move := [.press ⟨2⟩ (.cab 0 ⟨2⟩),.send ⟨1⟩]

theorem pressedAgain_misled :
    (pair.run (servedAlone ++ pressedAgain)).status? ⟨2⟩ (.cab 0 ⟨2⟩) = some .confirmed ∧
    (pair.run (servedAlone ++ pressedAgain ++ [.deliver 1 ⟨2⟩])).status? ⟨2⟩ (.cab 0 ⟨2⟩) = some .absent ∧
    (∃ p, (pair.car? p).isSome ∧ Move.clear p (.cab 0 ⟨2⟩) ∈ servedAlone ++ pressedAgain ++ [.deliver 1 ⟨2⟩]) ∧
    ∃ m, (pair.run (servedAlone ++ pressedAgain)).Adopts 1 ⟨2⟩ m (.cab 0 ⟨2⟩) .absent ∧
      (pair.run servedAlone).Outdated (.cab 0 ⟨2⟩) pressedAgain m := by
  have before : (pair.run (servedAlone ++ pressedAgain)).status? ⟨2⟩ (.cab 0 ⟨2⟩) = some .confirmed := by decide +kernel
  have after : (pair.run (servedAlone ++ pressedAgain ++ [.deliver 1 ⟨2⟩])).status? ⟨2⟩ (.cab 0 ⟨2⟩) = some .absent := by
    decide +kernel
  obtain ⟨ever,⟨p,_,member⟩ | ⟨index,m,same,adopts,outdated⟩⟩ := cleared_or_misled (fresh_new _ _ _) (by decide) before after
  · simp [pressedAgain,Move.clear,Move.press,Report.of] at member
  · cases same
    exact ⟨before,after,ever,m,adopts,outdated⟩

theorem none_of_pair {moves : List Move} {call : Call} (first : (pair.run moves).status? ⟨1⟩ call ≠ some .confirmed)
    (second : (pair.run moves).status? ⟨2⟩ call ≠ some .confirmed) : ¬ (pair.run moves).AnyConfirmed call := by
  rintro ⟨peer,held⟩
  obtain ⟨car,found,_⟩ := status?_eq_some.mp held
  rcases car?_pair found with rfl | rfl
  · exact first held
  · exact second held

/-- A fleet can drop a confirmed call that nobody has served: a controller that had the
    last press of the button served, and has not heard of the next one, makes another
    take the call back. -/
theorem fleet_drops_unserved :
    ¬ ∀ (peers : PeerSet) (n : UInt8) (timeout : Duration) (call : Call) (quiet later : List Move) (mv : Move)
        (peer : PeerId), (∀ mv' ∈ quiet ++ later ++ [mv], mv'.Wired) → call.floor < n →
        ¬ ((new peers n timeout).run quiet).AnyConfirmed call →
        (∀ past, past <+: later → past ≠ [] → ((new peers n timeout).run (quiet ++ past)).AnyConfirmed call) →
        ((new peers n timeout).run (quiet ++ later)).status? peer call = some .confirmed →
        ((new peers n timeout).run (quiet ++ later ++ [mv])).status? peer call = some .absent →
        ∃ p, Move.clear p call ∈ later ++ [mv] := by
  intro claim
  have first : (pair.run servedAlone).status? ⟨1⟩ (.cab 0 ⟨2⟩) = some .absent := by decide +kernel
  have second : (pair.run servedAlone).status? ⟨2⟩ (.cab 0 ⟨2⟩) = some .absent := by decide +kernel
  have since : ∀ past, past <+: pressedAgain → past ≠ [] →
      (pair.run (servedAlone ++ past)).AnyConfirmed (.cab 0 ⟨2⟩) := by
    intro past inside some_
    refine ⟨⟨2⟩,?_⟩
    rcases List.prefix_cons_iff.mp inside with none_ | ⟨tail,rfl,tailInside⟩
    · exact absurd none_ some_
    · rcases List.prefix_cons_iff.mp tailInside with rfl | ⟨last,rfl,lastInside⟩
      · decide +kernel
      · rw [List.prefix_nil.mp lastInside]
        decide +kernel
  obtain ⟨p,member⟩ := claim (.of [⟨1⟩,⟨2⟩]) 4 1000 (.cab 0 ⟨2⟩) servedAlone pressedAgain (.deliver 1 ⟨2⟩) ⟨2⟩ (by decide)
    (by decide) (none_of_pair (by rw [first]; decide) (by rw [second]; decide)) since (by decide +kernel)
    (by decide +kernel)
  simp [pressedAgain,Move.clear,Move.press,Report.of] at member

end Network
end ElevatorFleet
