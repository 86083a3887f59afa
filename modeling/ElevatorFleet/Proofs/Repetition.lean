import ElevatorFleet.Proofs.Commutation
import ElevatorFleet.Proofs.Snapshot

/-!
# Snapshots that come twice

The network may deliver a snapshot more than once. The second time the registry is another
one, so the comparison finds other differences, and those that stay are reported again; but a
cycle that has heard a status of a peer does not change when it hears it again, and what the
board holds is on record in the registry and in the view already (`settle_held`). So the second
time changes nothing (`duplicates_harmless`).
-/
namespace ElevatorFleet
open Std Tasks

namespace Controller
variable {self : PeerId} {n : UInt8} {c : Controller} {m : Broadcast} {r : Report} {call : Call} {now : Instant}

/-! ### What the view shows of the board -/

/-- The view shows of every served call that is settled at the board whether it is confirmed, in a row
    of its own if it is a cab call. -/
structure Shown (n : UInt8) (c : Controller) : Prop where
  shaped : c.view.Shaped n
  called : ∀ call, call.floor < n → (c.board.status call).isSettled = true →
    c.view.isCalled call = decide (c.board.status call = .confirmed)
  rows : ∀ floor owner, floor < n → (c.board.status (.cab floor owner)).isSettled = true → owner ∈ c.view.cab

theorem shown_new (self : PeerId) (n : UInt8) (timeout : Duration) : (new self n timeout).Shown n := by
  have unsettled (call : Call) : ¬ ((CallBoard.new self).status call).isSettled = true := by
    rw [CallBoard.status_new]
    decide
  exact ⟨Dispatch.View.shaped_new n,fun call _ settled => absurd settled (unsettled call),
    fun floor owner _ settled => absurd settled (unsettled _)⟩

theorem Shown.handle (shown : c.Shown n) (r : Report) : (c.handle r).1.Shown n := by
  have shaped : (c.handle r).1.view.Shaped n := shown.shaped.record _
  refine ⟨shaped,fun call served settled => ?_,fun floor owner served settled => ?_⟩
  · refine (Dispatch.View.isCalled_record_served shown.shaped served _).trans ?_
    by_cases about : r.belief.call = call
    · subst about
      rw [if_pos ⟨settled,rfl⟩]
      rfl
    · have kept : (c.handle r).1.board.status call = c.board.status call := CallBoard.status_take_other about
      rw [kept] at settled ⊢
      rw [if_neg fun both => about both.2,shown.called call served settled]
  · refine (Dispatch.View.mem_cab_record c.view _ owner).mpr ?_
    by_cases about : r.belief.call = .cab floor owner
    · have accepted : c.view.accepts ⟨r.belief.call,(c.board.take r).status r.belief.call⟩ = true := by
        refine shown.shaped.accepts_iff.mpr ?_
        rw [about]
        exact ⟨settled,served⟩
      exact .inl ⟨accepted,floor,about⟩
    · have kept : (c.handle r).1.board.status (.cab floor owner) = c.board.status (.cab floor owner) :=
        CallBoard.status_take_other about
      rw [kept] at settled
      exact .inr (shown.rows floor owner served settled)

theorem Shown.handleAll (shown : c.Shown n) (reports : List Report) : (c.handleAll reports).Shown n := by
  induction reports generalizing c with
  | nil => exact shown
  | cons r rest ih => exact ih (shown.handle r)

/-- Recording the confirmation of several calls calls for those that are served, and opens their rows. -/
theorem shown_foldl_confirm {v : Dispatch.View} (shaped : v.Shaped n) (calls : List Call) :
    let w := (calls.map fun call => (⟨call,.confirmed⟩ : Belief)).foldl Dispatch.View.record v
    w.Shaped n ∧ (∀ call, call.floor < n → w.isCalled call = if call ∈ calls then true else v.isCalled call) ∧
      ∀ floor owner, floor < n → .cab floor owner ∈ calls ∨ owner ∈ v.cab → owner ∈ w.cab := by
  induction calls generalizing v with
  | nil => exact ⟨shaped,by simp,by simp⟩
  | cons head rest ih =>
    obtain ⟨shape,called,rows⟩ := ih (shaped.record ⟨head,.confirmed⟩)
    refine ⟨shape,fun call served => ?_,fun floor owner served listed => rows floor owner served ?_⟩
    · refine (called call served).trans ?_
      rw [Dispatch.View.isCalled_record_served shaped served]
      by_cases same : head = call
      · simp [same,Status.isSettled]
      · simp [same,Ne.symm same]
    · rw [Dispatch.View.mem_cab_record]
      rcases listed with listed | old
      · rcases List.mem_cons.mp listed with same | later
        · have accepted : v.accepts ⟨head,.confirmed⟩ = true := shaped.accepts_iff.mpr ⟨rfl,same ▸ served⟩
          exact .inr (.inl ⟨accepted,floor,same.symm⟩)
        · exact .inl later
      · exact .inr (.inr old)

theorem Shown.setBoardAlive (shown : c.Shown n) (alive : PeerSet) : (c.setBoardAlive alive).Shown n := by
  show ((c.board.setAlive alive).2.foldl settle { c with board := (c.board.setAlive alive).1 }).Shown n
  rw [foldl_settle,CallBoard.beliefs_setAlive]
  by_cases same : alive = c.board.alive
  · rw [if_pos same,CallBoard.setAlive,if_pos same]
    exact ⟨shown.shaped,shown.called,shown.rows⟩
  · rw [if_neg same]
    obtain ⟨shaped,called,rows⟩ := shown_foldl_confirm shown.shaped (c.board.released alive)
    have status (call : Call) : (c.board.setAlive alive).1.status call =
        if call ∈ c.board.released alive then .confirmed else c.board.status call := by
      have review := congrArg Cycle.status (CallBoard.cycle_setAlive c.board alive call)
      rw [if_neg same,Cycle.review] at review
      refine review.trans ?_
      simp only [CallBoard.mem_released]
      split <;> rfl
    refine ⟨shaped,fun call served settled => ?_,fun floor owner served settled => rows floor owner served ?_⟩
    · refine (called call served).trans ?_
      simp only [status] at settled ⊢
      split
      · rfl
      · rename_i kept
        rw [if_neg kept] at settled
        exact shown.called call served settled
    · by_cases released : .cab floor owner ∈ c.board.released alive
      · exact .inl released
      · simp only [status,if_neg released] at settled
        exact .inr (shown.rows floor owner served settled)

/-- The state of a car and who is alive do not touch what is shown of calls. -/
theorem Shown.setCar (shown : c.Shown n) (report : CarReport) {d : Controller} (board : d.board = c.board)
    (view : d.view = c.view.setCar report) : d.Shown n := by
  refine ⟨view ▸ shown.shaped.setCar report,fun call served settled => ?_,fun floor owner served settled => ?_⟩
  · rw [board] at settled ⊢
    rw [view,Dispatch.View.isCalled_setCar]
    exact shown.called call served settled
  · rw [board] at settled
    rw [view]
    exact ExtTreeMap.mem_insert.mpr (.inr (shown.rows floor owner served settled))

theorem Shown.receive (shown : c.Shown n) (m : Broadcast) (now : Instant) : (c.receive m now).Shown n := by
  by_cases own : m.source = c.replica.self
  · rw [receive_own own]
    exact shown
  · rw [receive_other own]
    have opened : (c.opened m now).Shown n := shown.setCar ⟨m.source,m.car⟩ rfl rfl
    exact opened.handleAll (c.reports m)

theorem Shown.react (shown : c.Shown n) (now : Instant) (e : Event) : (c.react now e).Shown n := by
  cases e with
  | report r => exact shown.handle r
  | receive m => exact shown.receive m now
  | signal s => exact ⟨shown.shaped,shown.called,shown.rows⟩
  | poll =>
    rw [Controller.react]
    have polled : ({ c with presence := (c.presence.poll now).1 } : Controller).Shown n :=
      ⟨shown.shaped,shown.called,shown.rows⟩
    cases news : (c.presence.poll now).2 with
    | none => rw [poll_none news]; exact polled
    | some alive =>
      have learned := polled.setBoardAlive alive
      rw [poll_some news,setAlive_eq]
      exact ⟨⟨learned.shaped.floors,learned.shaped.hall,learned.shaped.cab⟩,learned.called,learned.rows⟩
  | car state =>
    rw [Controller.react,Controller.setCar]
    split
    · exact shown.setCar ⟨c.replica.self,state⟩ rfl rfl
    · exact shown
  | boardAlive alive => exact shown.setBoardAlive alive
  | replicaAlive alive => exact ⟨shown.shaped,shown.called,shown.rows⟩
  | viewAlive alive => exact ⟨⟨shown.shaped.floors,shown.shaped.hall,shown.shaped.cab⟩,shown.called,shown.rows⟩

theorem Evolved.shown (evolved : c.Evolved self n) : c.Shown n := by
  induction evolved with
  | new timeout => exact shown_new self n timeout
  | react now e _ ih => exact ih.react now e
  | read m _ ih => exact ⟨ih.shaped,ih.called,ih.rows⟩

/-! ### What is on record -/

/-- Recording what the board holds changes nothing. -/
theorem settle_held (mirrors : c.Mirrors n) (shown : c.Shown n) (call : Call) :
    c.settle ⟨call,c.board.status call⟩ = c := by
  have registry : c.replica.registry.apply ⟨call,c.board.status call⟩ = c.replica.registry :=
    Registry.apply_told mirrors.shaped fun _ served => mirrors.cell call served
  have view : c.view.record ⟨call,c.board.status call⟩ = c.view := by
    refine Dispatch.View.record_shown shown.shaped fun accepted => ?_
    have both := shown.shaped.accepts_iff.mp accepted
    refine ⟨shown.called call both.2 both.1,fun floor owner about => ?_⟩
    have cab : call = .cab floor owner := about
    subst cab
    exact shown.rows floor owner both.2 both.1
  rw [settle,Replica.record,registry,view]

/-- A report that the board takes without a change leaves no trace. -/
theorem handle_held (mirrors : c.Mirrors n) (shown : c.Shown n) (same : c.board.take r = c.board) :
    c.handle r = (c,⟨r.belief.call,c.board.status r.belief.call⟩) := by
  have settled := settle_held mirrors shown r.belief.call
  simp only [Controller.handle,CallBoard.process,same,settled]

theorem handleAll_held (mirrors : c.Mirrors n) (shown : c.Shown n) {reports : List Report}
    (same : ∀ r ∈ reports, c.board.take r = c.board) : c.handleAll reports = c := by
  induction reports with
  | nil => rfl
  | cons r rest ih =>
    have first := handle_held mirrors shown (same r List.mem_cons_self)
    refine Eq.trans ?_ (ih fun s member => same s (List.mem_cons_of_mem _ member))
    rw [Controller.handleAll,List.foldl_cons,first]
    rfl

theorem handle_handle (evolved : c.Evolved self n) (r : Report) : (c.handle r).1.handle r = c.handle r := by
  have again : (c.handle r).1.board.take r = (c.handle r).1.board := CallBoard.take_take evolved.board.known r
  rw [handle_held (evolved.mirrors.handle r) (evolved.shown.handle r) again]
  rfl

/-! ### Taking a snapshot again -/

/-- Reads a snapshot and takes all of its reports. -/
def heed (c : Controller) (m : Broadcast) : Controller :=
  (c.read m).handleAll ((c.replica.absorb m).2.elim [] Absorbed.reports)

theorem heed_own (own : m.source = c.replica.self) : c.heed m = c := by
  rw [heed,read_own own,Replica.absorb,if_pos own]
  rfl

theorem heed_other (other : m.source ≠ c.replica.self) : c.heed m = (c.read m).handleAll (c.reports m) := by
  rw [heed,absorb_other other]
  rfl

/-- The controller has heard all that a snapshot tells: the board holds every call as if it had just
    been told the sender's status, and everybody in the snapshot has a row. -/
structure Heard (n : UInt8) (m : Broadcast) (c : Controller) : Prop where
  told : ∀ call, call.floor < n →
    (c.board.cycle call).hear call c.board.self c.board.alive m.source (m.registry.status call) = c.board.cycle call
  sender : m.source ∈ c.replica.registry.cab
  owners : ∀ owner ∈ m.registry.cab, owner ∈ c.replica.registry.cab

/-- After all reports of a snapshot nothing in it is news. -/
theorem Covers.heard {b : CallBoard} {reports : List Report} (covers : Covers b n m reports)
    (board : c.board = b.after (reports.map .report)) (sender : m.source ∈ c.replica.registry.cab)
    (owners : ∀ owner ∈ m.registry.cab, owner ∈ c.replica.registry.cab) : c.Heard n m := by
  refine ⟨fun call served => ?_,sender,owners⟩
  rw [board,covers.cycle,if_pos served,CallBoard.self_after,CallBoard.alive_after_reports]
  exact Cycle.hear_hear _ _ _ _ _ _

theorem Heard.read (heard : c.Heard n m) : c.read m = c := by
  by_cases own : m.source = c.replica.self
  · exact read_own own
  · have registry : (c.replica.registry.diff m.source m.registry).1 = c.replica.registry :=
      Registry.enroll_known heard.sender heard.owners
    rw [read_other own,registry]

theorem Heard.take (heard : c.Heard n m) (mirrors : c.Mirrors n) (known : c.board.Known) (reported : r ∈ c.reports m) :
    c.board.take r = c.board := by
  obtain ⟨_,source,served,status,_⟩ := (mem_reports mirrors).mp reported
  refine CallBoard.eq_of_cycles (known.take r) known (CallBoard.self_take _ r) (CallBoard.alive_take _ r) fun call => ?_
  rw [CallBoard.cycle_take]
  split
  · rename_i about
    subst about
    rw [source,status]
    exact heard.told _ served
  · rfl

theorem Heard.handleAll (heard : c.Heard n m) (mirrors : c.Mirrors n) (shown : c.Shown n) (known : c.board.Known) :
    c.handleAll (c.reports m) = c :=
  handleAll_held mirrors shown fun _ reported => heard.take mirrors known reported

theorem heard_heed (mirrors : c.Mirrors n) (other : m.source ≠ c.replica.self) : (c.heed m).Heard n m := by
  have foreign : m.source ≠ c.board.self := mirrors.self ▸ other
  have rows (owner : PeerId) (listed : owner = m.source ∨ owner ∈ m.registry.cab) :
      owner ∈ (c.heed m).replica.registry.cab := by
    rw [heed_other other]
    refine cab_handleAll_grows ?_ _
    rw [read_other other]
    exact (Registry.mem_cab_enroll _ _ _ owner).mpr (listed.elim .inl (.inr ∘ .inl))
  refine (covers_reports mirrors foreign).heard ?_ (rows _ (.inl rfl)) fun owner member => rows owner (.inr member)
  rw [heed_other other,board_handleAll]
  rfl

theorem heard_receive (mirrors : c.Mirrors n) (other : m.source ≠ c.replica.self) (now : Instant) :
    (c.receive m now).Heard n m := by
  have foreign : m.source ≠ c.board.self := mirrors.self ▸ other
  have rows (owner : PeerId) := mem_cab_receive mirrors other now owner
  refine (covers_reports mirrors foreign).heard ?_ ((rows _).mpr (.inl rfl))
    fun owner member => (rows owner).mpr (.inr (.inl member))
  exact board_react c now (.receive m)

theorem Mirrors.heed (mirrors : c.Mirrors n) (m : Broadcast) : (c.heed m).Mirrors n :=
  (mirrors.read m).handleAll _

theorem Shown.heed (shown : c.Shown n) (m : Broadcast) : (c.heed m).Shown n := by
  have read : (c.read m).Shown n := ⟨shown.shaped,shown.called,shown.rows⟩
  exact read.handleAll _

theorem board_heed (c : Controller) (m : Broadcast) : ∃ events, (c.heed m).board = c.board.after events :=
  ⟨_,board_handleAll (c.read m) _⟩

theorem heed_heed (evolved : c.Evolved self n) (m : Broadcast) : (c.heed m).heed m = c.heed m := by
  have mirrors := evolved.mirrors
  obtain ⟨events,board⟩ := board_heed c m
  by_cases own : m.source = c.replica.self
  · rw [heed_own own,heed_own own]
  · have other : m.source ≠ (c.heed m).replica.self := by
      rwa [(mirrors.heed m).self,board,CallBoard.self_after,← mirrors.self]
    have known : (c.heed m).board.Known := by
      rw [board]
      exact evolved.board.known.after events
    have heard := heard_heed mirrors own
    rw [heed_other other,heard.read]
    exact heard.handleAll (mirrors.heed m) (evolved.shown.heed m) known

/-- Reports touch no car, and close no row of the view. -/
theorem cars_handleAll (c : Controller) (reports : List Report) :
    (c.handleAll reports).view.states = c.view.states ∧
      ∀ owner ∈ c.view.cab, owner ∈ (c.handleAll reports).view.cab := by
  induction reports generalizing c with
  | nil => exact ⟨rfl,fun _ member => member⟩
  | cons r rest ih =>
    obtain ⟨states,rows⟩ := ih (c.handle r).1
    refine ⟨states.trans (Dispatch.View.states_record c.view _),fun owner member => rows owner ?_⟩
    exact (Dispatch.View.mem_cab_record c.view _ owner).mpr (.inr member)

/-- The car of a snapshot that was received is known. -/
theorem setCar_receive (other : m.source ≠ c.replica.self) (now : Instant) :
    (c.receive m now).view.setCar ⟨m.source,m.car⟩ = (c.receive m now).view := by
  obtain ⟨states,rows⟩ := cars_handleAll (c.opened m now) (c.reports m)
  rw [receive_other other]
  refine Dispatch.View.setCar_shown ?_ (rows _ ExtTreeMap.mem_insert_self)
  rw [states]
  exact ExtTreeMap.getElem?_insert_self

/-- The second time a snapshot is a sign of life and nothing else. -/
theorem receive_receive (evolved : c.Evolved self n) (m : Broadcast) (now later : Instant) :
    (c.receive m now).receive m later =
      { c.receive m now with presence := ((c.receive m now).receive m later).presence } := by
  have once : (c.receive m now).Evolved self n := .react now (.receive m) evolved
  by_cases own : m.source = c.replica.self
  · rw [receive_own own,receive_own own]
  · have other : m.source ≠ (c.receive m now).replica.self := by
      rwa [once.mirrors.self,once.board.self,← evolved.board.self,← evolved.mirrors.self]
    have heard := heard_receive evolved.mirrors own now
    have registry : ((c.receive m now).replica.registry.diff m.source m.registry).1 = (c.receive m now).replica.registry :=
      Registry.enroll_known heard.sender heard.owners
    -- Of what the second reading does first, only the sign of life is left.
    have opened : (c.receive m now).opened m later =
        { c.receive m now with presence := (c.receive m now).presence.observe ⟨m.source,true⟩ later } := by
      rw [Controller.opened,registry,setCar_receive own now]
    have mirrors : ((c.receive m now).opened m later).Mirrors n := by
      rw [opened]
      exact ⟨once.mirrors.self,once.mirrors.shaped,once.mirrors.cell⟩
    have shown : ((c.receive m now).opened m later).Shown n := by
      rw [opened]
      exact ⟨once.shown.shaped,once.shown.called,once.shown.rows⟩
    have kept := handleAll_held mirrors shown fun r (reported : r ∈ (c.receive m now).reports m) => by
      rw [opened]
      exact heard.take once.mirrors once.board.known reported
    rw [receive_other other,kept,opened]

/-- However its history was, a controller that reads the same snapshot twice in a row and takes all its
    reports each time is as after the first time; together with the sign of life and the state of the car
    that a snapshot brings, the two readings differ in the sign of life alone. A report that comes twice in a
    row counts once, and is answered with the same status. -/
theorem duplicates_harmless (evolved : c.Evolved self n) :
    (∀ m, (c.heed m).heed m = c.heed m) ∧
      (∀ m now later, (c.receive m now).receive m later =
        { c.receive m now with presence := ((c.receive m now).receive m later).presence }) ∧
      ∀ r, (c.handle r).1.handle r = c.handle r :=
  ⟨heed_heed evolved,receive_receive evolved,handle_handle evolved⟩

/-- The second reading of the snapshot still reports the two calls that are confirmed by now and that
    its sender holds unconfirmed. -/
theorem ragged_twice :
    (pressed.heed ragged).heed ragged = pressed.heed ragged ∧
      (pressed.reports ragged).length = 4 ∧ ((pressed.heed ragged).reports ragged).map Report.belief =
        [⟨.hall 1 .up,.unconfirmed⟩,⟨.cab 1 ⟨9⟩,.unconfirmed⟩] ∧
      ((pressed.receive ragged 10).receive ragged 20).view = (pressed.receive ragged 10).view ∧
      ((pressed.handle (.of ⟨2⟩ (.hall 1 .up) .unconfirmed)).1.handle (.of ⟨2⟩ (.hall 1 .up) .unconfirmed)).2 =
        ⟨.hall 1 .up,.confirmed⟩ := by
  obtain ⟨heeded,received,handled⟩ := duplicates_harmless pressed_evolved
  refine ⟨heeded ragged,by decide +kernel,by decide +kernel,?_,?_⟩
  · rw [received]
  · rw [handled]
    decide +kernel

end Controller
end ElevatorFleet
