import ElevatorFleet.Proofs.Backlog
import ElevatorFleet.Proofs.Floors

/-!
# The dialogue

The replication task hands reports to the request task, and the request task tells it what it has
decided. Both queues are bounded, and the request task stands still while the queue of its decisions
is full. That the two never wait for each other rests on the replication task: it takes decisions also
while its backlog waits. So that queue empties first, then the request task goes on, its reports get
fewer, and there is room for the backlog. Each such step leaves less to do (`work_lt`), so there is an
end, and then all that was decided is recorded in the replica, which holds what the board holds
(`never_stalls`).
-/
namespace ElevatorFleet
open Tasks

namespace Tasks.Replication
variable {self : PeerId} {n : UInt8} {e : Event}

/-- What the task does to its replica about an event. -/
def input? : Event → Option Replica.Input
  | .resolved r => some (.record r.belief)
  | .car state => some (.car state)
  | .membership alive => some (.alive alive)
  | .inbound m => some (.absorb m)
  | .room | .tick => none

theorem replica_react (t : Replication) (e : Event) : (t.react e).1.replica = t.replica.after (input? e).toList := by
  cases e with
  | resolved r => rfl
  | car state =>
    rw [react,show t.replica.after (input? (.car state)).toList = t.replica.take (.car state) from rfl,Replica.take]
    split <;> rfl
  | membership alive => rfl
  | inbound m =>
    by_cases own : m.source = t.replica.self
    · simp [react,input?,Replica.after,Replica.take,Replica.absorb,own]
    · simp [react,input?,Replica.after,Replica.take,Replica.absorb,own]
  | room => rw [react]; split <;> rfl
  | tick => rfl

/-- The replica is where the records, the snapshots and the news of the own car have taken it. -/
theorem replica_after (t : Replication) (events : List Event) :
    (t.after events).replica = t.replica.after (events.filterMap input?) := by
  induction events generalizing t with
  | nil => rfl
  | cons e rest ih =>
    have inputs : (e :: rest).filterMap input? = (input? e).toList ++ rest.filterMap input? := by
      cases taken : input? e <;> simp [taken]
    rw [inputs,Replica.after,List.foldl_append]
    refine (ih (t.react e).1).trans ?_
    rw [replica_react]
    rfl

end Tasks.Replication

/-- The records among what is done to a replica. -/
def Replica.records (inputs : List Replica.Input) : List Belief :=
  inputs.filterMap fun input => match input with
    | .record b => some b
    | _ => none

theorem Tasks.Replication.records_input (events : List Event) :
    Replica.records (events.filterMap input?) = (decisions events).map Report.belief := by
  rw [Replica.records,decisions,List.filterMap_filterMap,List.map_filterMap]
  congr 1
  funext e
  cases e <;> rfl

/-- The request task and the replication task with the two queues between them. Whoever else these
    tasks send to takes all at once. -/
structure Dialogue where
  /-- How many reports wait for the request task at most. -/
  reportRoom : Nat
  /-- How many decisions wait for the replication task at most. -/
  decisionRoom : Nat
  board : CallBoard
  /-- What the request task has still to do about its last event, the next first. -/
  telling : List Requests.Action
  replication : Replication
  reports : List Report
  decisions : List Report
  /-- The events that the request task has taken. -/
  heard : List Requests.Event
  /-- The events that the replication task has taken. -/
  noted : List Replication.Event

namespace Dialogue

/-- The dialogue before anything has happened. -/
def new (self : PeerId) (numFloors : UInt8) (reportRoom decisionRoom : Nat) : Dialogue :=
  { reportRoom := reportRoom, decisionRoom := decisionRoom, board := .new self, telling := [],
    replication := .new self numFloors, reports := [], decisions := [], heard := [], noted := [] }

/-- The request task takes an event. -/
def hear (d : Dialogue) (e : Requests.Event) : Dialogue :=
  let (board,telling) := Requests.react d.board e
  { d with board := board, telling := telling, heard := d.heard ++ [e] }

/-- The replication task takes an event and does what is to be done about it. -/
def note (d : Dialogue) (e : Replication.Event) : Dialogue :=
  let (replication,done) := d.replication.react e
  { d with replication := replication, reports := d.reports ++ Replication.handed done, noted := d.noted ++ [e] }

/-- Something comes in from elsewhere: a report, a membership, or for the replication task a membership,
    a state of the own car, a snapshot or a tick. -/
inductive Outer (d : Dialogue) : Dialogue → Prop where
  | report (r : Report) : d.reports.length < d.reportRoom → Outer d { d with reports := d.reports ++ [r] }
  | membership (alive : PeerSet) : d.telling = [] → Outer d (d.hear (.membership alive))
  | news (e : Replication.Event) : e ≠ .room → (∀ r, e ≠ .resolved r) → d.replication.accepts e = true →
      Outer d (d.note e)

/-- What is under way goes on. -/
inductive Inner (d : Dialogue) : Dialogue → Prop where
  | listen {r : Report} {rest : List Report} : d.telling = [] → d.reports = r :: rest →
      Inner d ({ d with reports := rest }.hear (.report r))
  | lamp {button : Button} {floor : Floor} {lit : Bool} {rest : List Requests.Action} :
      d.telling = .lamp button floor lit :: rest → Inner d { d with telling := rest }
  | tell {r : Report} {rest : List Requests.Action} : d.telling = .toReplication r :: rest →
      d.decisions.length < d.decisionRoom → Inner d { d with telling := rest, decisions := d.decisions ++ [r] }
  | order {r : Report} {rest : List Requests.Action} : d.telling = .toOrders r :: rest →
      Inner d { d with telling := rest }
  | record {r : Report} {rest : List Report} : d.decisions = r :: rest →
      Inner d ({ d with decisions := rest }.note (.resolved r))
  | handOver {r : Report} {rest : List Report} : d.replication.backlog = r :: rest →
      d.reports.length < d.reportRoom → Inner d (d.note .room)

/-- The dialogue can come to be in a state from another. -/
inductive Reaches (start : Dialogue) : Dialogue → Prop where
  | here : Reaches start start
  | outer {d next : Dialogue} : Reaches start d → d.Outer next → Reaches start next
  | inner {d next : Dialogue} : Reaches start d → d.Inner next → Reaches start next

/-- So many steps, with nothing coming in meanwhile. -/
inductive Runs : Dialogue → Nat → Dialogue → Prop where
  | none (d : Dialogue) : Runs d 0 d
  | step {d next last : Dialogue} {steps : Nat} : d.Inner next → Runs next steps last → Runs d (steps + 1) last

/-- Nothing is under way. -/
structure Quiet (d : Dialogue) : Prop where
  reports : d.reports = []
  telling : d.telling = []
  decisions : d.decisions = []
  backlog : d.replication.backlog = []

variable {self : PeerId} {n : UInt8} {d next last : Dialogue} {steps : Nat}

/-! ### Progress -/

/-- The decisions go first, and make way for all the rest. -/
theorem inner_of_not_quiet (forReports : 0 < d.reportRoom) (forDecisions : 0 < d.decisionRoom) (busy : ¬ d.Quiet) :
    ∃ next, d.Inner next := by
  cases decided : d.decisions with
  | cons r rest => exact ⟨_,.record decided⟩
  | nil =>
    cases telling : d.telling with
    | cons action rest =>
      cases action with
      | lamp button floor lit => exact ⟨_,.lamp telling⟩
      | toReplication r => exact ⟨_,.tell telling (by simpa [decided] using forDecisions)⟩
      | toOrders r => exact ⟨_,.order telling⟩
    | nil =>
      cases reported : d.reports with
      | cons r rest => exact ⟨_,.listen telling reported⟩
      | nil =>
        cases waiting : d.replication.backlog with
        | cons r rest => exact ⟨_,.handOver waiting (by simpa [reported] using forReports)⟩
        | nil => exact absurd ⟨reported,telling,decided,waiting⟩ busy

/-! ### Termination -/

/-- How many steps are left at most. A decision that is not told yet will be recorded as well, a
    report that is heard takes four more, and one in the backlog has yet to be handed over. -/
def work (d : Dialogue) : Nat :=
  6 * d.replication.backlog.length + 5 * d.reports.length +
    (d.telling.length + (Requests.resolved d.telling).length) + d.decisions.length

theorem telling_report (b : CallBoard) (r : Report) : (Requests.react b (.report r)).2.length +
    (Requests.resolved (Requests.react b (.report r)).2).length ≤ 4 := by
  simp only [Requests.react,Requests.decide,Requests.publish,List.flatMap_cons,List.flatMap_nil,List.append_nil]
  split <;> simp [Requests.resolved]

theorem work_lt (inner : d.Inner next) : next.work < d.work := by
  cases inner with
  | @listen r rest telling reported =>
    have few := telling_report d.board r
    simp only [work,hear,telling,reported,List.length_cons]
    omega
  | lamp telling | order telling => simp [work,telling,Requests.resolved]
  | tell telling room =>
    simp only [work,telling,Requests.resolved,List.filterMap_cons,List.length_append,List.length_cons,List.length_nil]
    omega
  | record decided =>
    simp only [work,note,Replication.react,Replication.handed,decided,List.filterMap_nil,List.append_nil,
      List.length_cons]
    omega
  | handOver waiting room =>
    simp only [work,note,Replication.react,waiting,Replication.handed,List.filterMap_cons,List.filterMap_nil,
      List.length_append,List.length_cons,List.length_nil]
    omega

theorem Runs.le_work (runs : d.Runs steps last) : steps + last.work ≤ d.work := by
  induction runs with
  | none d => omega
  | step inner _ ih =>
    have less := work_lt inner
    omega

/-- Whatever is done first, there is an end. -/
theorem exists_runs (d : Dialogue) : ∃ steps last, d.Runs steps last ∧ ∀ next, ¬ last.Inner next := by
  induction left : d.work using Nat.strongRecOn generalizing d with
  | ind amount ih =>
    by_cases goes : ∃ next, d.Inner next
    · obtain ⟨next,inner⟩ := goes
      obtain ⟨steps,last,runs,ends⟩ := ih next.work (left ▸ work_lt inner) next rfl
      exact ⟨steps + 1,last,.step inner runs,ends⟩
    · exact ⟨0,d,.none d,fun next inner => goes ⟨next,inner⟩⟩

/-! ### What is decided, told and recorded -/

/-- Both tasks are where their events have taken them, no queue holds more than it has room for, and each
    decision is recorded, or waits, or is about to be told. -/
structure Sound (owner : PeerId) (n : UInt8) (d : Dialogue) : Prop where
  board : d.board = (Requests.run (.new owner) d.heard).1
  replication : d.replication = (Replication.new owner n).after d.noted
  decided : Requests.resolved (Requests.run (.new owner) d.heard).2 =
    Replication.decisions d.noted ++ d.decisions ++ Requests.resolved d.telling
  reportsFit : d.reports.length ≤ d.reportRoom
  decisionsFit : d.decisions.length ≤ d.decisionRoom

theorem sound_new (self : PeerId) (n : UInt8) (reportRoom decisionRoom : Nat) :
    (new self n reportRoom decisionRoom).Sound self n := ⟨rfl,rfl,rfl,Nat.zero_le _,Nat.zero_le _⟩

theorem Sound.hear (sound : d.Sound self n) (waits : d.telling = []) (e : Requests.Event) :
    (d.hear e).Sound self n := by
  have snoc := CallBoard.run_snoc (.new self) d.heard e
  rw [← sound.board] at snoc
  refine ⟨(congrArg Prod.fst snoc).symm,sound.replication,?_,sound.reportsFit,sound.decisionsFit⟩
  have before := sound.decided
  rw [waits] at before
  show Requests.resolved (Requests.run (.new self) (d.heard ++ [e])).2 = _
  rw [snoc,Requests.resolved,List.filterMap_append]
  exact congrArg (· ++ _) (before.trans (List.append_nil _))

/-- The replication task takes an event, which is a decision if one leaves the queue. -/
theorem Sound.note (sound : d.Sound self n) {e : Replication.Event} {rest : List Report}
    (leaves : d.decisions = Replication.decisions [e] ++ rest)
    (fit : d.reports.length + (Replication.handed (d.replication.react e).2).length ≤ d.reportRoom) :
    (Dialogue.note { d with decisions := rest } e).Sound self n := by
  refine ⟨sound.board,?_,?_,?_,?_⟩
  · show _ = (Replication.new self n).after (d.noted ++ [e])
    rw [Replication.after_snoc,← sound.replication]
    rfl
  · show _ = Replication.decisions (d.noted ++ [e]) ++ rest ++ Requests.resolved d.telling
    rw [Replication.decisions_append,List.append_assoc (Replication.decisions d.noted),← leaves]
    exact sound.decided
  · show (d.reports ++ _).length ≤ _
    rw [List.length_append]
    exact fit
  · have fits := sound.decisionsFit
    rw [leaves,List.length_append] at fits
    exact Nat.le_trans (Nat.le_add_left _ _) fits

theorem Sound.outer (sound : d.Sound self n) (outer : d.Outer next) : next.Sound self n := by
  cases outer with
  | report r room => exact { sound with reportsFit := by simpa using Nat.succ_le_of_lt room }
  | membership alive waits => exact sound.hear waits _
  | news e noRoom noDecision accepts =>
    have silent : Replication.decisions [e] = [] := by
      cases e with
      | resolved r => exact absurd rfl (noDecision r)
      | _ => rfl
    refine sound.note (by rw [silent,List.nil_append]) ?_
    rw [Replication.handed_react _ noRoom]
    exact sound.reportsFit

theorem Sound.inner (sound : d.Sound self n) (inner : d.Inner next) : next.Sound self n := by
  cases inner with
  | @listen r rest waits reported =>
    have fewer : rest.length ≤ d.reportRoom := by
      have fits := sound.reportsFit
      rw [reported,List.length_cons] at fits
      omega
    exact Sound.hear (d := { d with reports := rest }) { sound with reportsFit := fewer } waits _
  | lamp telling =>
    refine { sound with decided := ?_ }
    rw [sound.decided,telling]
    rfl
  | tell telling room =>
    refine { sound with decided := ?_, decisionsFit := by simpa using Nat.succ_le_of_lt room }
    rw [sound.decided,telling]
    simp [Requests.resolved]
  | order telling =>
    refine { sound with decided := ?_ }
    rw [sound.decided,telling]
    rfl
  | record decided => exact sound.note decided sound.reportsFit
  | handOver waiting room =>
    refine sound.note (List.nil_append _).symm ?_
    rw [Replication.react,waiting]
    exact Nat.succ_le_of_lt room

/-- What the replication task has recorded by the time it has taken every decision: the decisions in their
    order, so that its registry has the board's status of every served call. -/
theorem Sound.recorded (sound : d.Sound self n) (told : Replication.decisions d.noted =
    Requests.resolved (Requests.run (.new self) d.heard).2) :
    d.replication.replica = (Replica.new self n).after (d.noted.filterMap Replication.input?) ∧
    Replica.records (d.noted.filterMap Replication.input?) =
      (Requests.resolved (Requests.run (.new self) d.heard).2).map Report.belief ∧
    ∀ call, call.floor < n → d.replication.replica.registry.status call = d.board.status call := by
  refine ⟨?_,?_,fun call served => ?_⟩
  · rw [sound.replication,Replication.replica_after]
    rfl
  · rw [Replication.records_input,told]
  · obtain ⟨board,_,publishes⟩ := CallBoard.run_publishes (.new self) d.heard
    have shaped : ((Registry.new n).register self).Shaped n.toNat :=
      Registry.shaped_register (Registry.shaped_new n) self
    have blank : ((Registry.new n).register self).status call = (CallBoard.new self).status call := by
      rw [CallBoard.status_new,Registry.status_register,Registry.status_new]
    rw [sound.replication,sound.board,board,Replication.status_after (t := .new self n) shaped served,told,
      ← publishes.lastWord call,← blank]
    rfl

theorem Inner.rooms (inner : d.Inner next) : next.reportRoom = d.reportRoom ∧ next.decisionRoom = d.decisionRoom := by
  cases inner <;> exact ⟨rfl,rfl⟩

theorem Outer.rooms (outer : d.Outer next) : next.reportRoom = d.reportRoom ∧ next.decisionRoom = d.decisionRoom := by
  cases outer <;> exact ⟨rfl,rfl⟩

theorem Runs.reaches {start : Dialogue} (runs : d.Runs steps last) (reached : start.Reaches d) :
    start.Reaches last := by
  induction runs with
  | none d => exact reached
  | step inner _ ih => exact ih (.inner reached inner)

theorem Reaches.sound {reportRoom decisionRoom : Nat} (reached : (new self n reportRoom decisionRoom).Reaches d) :
    d.Sound self n ∧ d.reportRoom = reportRoom ∧ d.decisionRoom = decisionRoom := by
  induction reached with
  | here => exact ⟨sound_new self n reportRoom decisionRoom,rfl,rfl⟩
  | outer _ outer ih => exact ⟨ih.1.outer outer,outer.rooms.1.trans ih.2.1,outer.rooms.2.trans ih.2.2⟩
  | inner _ inner ih => exact ⟨ih.1.inner inner,inner.rooms.1.trans ih.2.1,inner.rooms.2.trans ih.2.2⟩

/-- Queues that hold one message each are enough, however large a snapshot is: in every state something can
    go on unless nothing is under way, all comes to an end if nothing more comes in, and in the
    end the replication task has recorded in its replica what the request task has decided, in the same order,
    and holds every served call as the board does. -/
theorem never_stalls (self : PeerId) (n : UInt8) (reportRoom decisionRoom : Nat) (forReports : 0 < reportRoom)
    (forDecisions : 0 < decisionRoom) (reached : (new self n reportRoom decisionRoom).Reaches d) :
    d.reports.length ≤ reportRoom ∧ d.decisions.length ≤ decisionRoom ∧
    (¬ d.Quiet → ∃ next, d.Inner next) ∧
    (∀ steps last, d.Runs steps last → steps ≤ d.work ∧ ((∀ next, ¬ last.Inner next) →
      last.Quiet ∧ last.board = (Requests.run (.new self) last.heard).1 ∧
        last.replication = (Replication.new self n).after last.noted ∧
        Replication.decisions last.noted = Requests.resolved (Requests.run (.new self) last.heard).2 ∧
        last.replication.replica = (Replica.new self n).after (last.noted.filterMap Replication.input?) ∧
        Replica.records (last.noted.filterMap Replication.input?) =
          (Requests.resolved (Requests.run (.new self) last.heard).2).map Report.belief ∧
        ∀ call, call.floor < n → last.replication.replica.registry.status call = last.board.status call)) ∧
    ∃ steps last, d.Runs steps last ∧ ∀ next, ¬ last.Inner next := by
  have goes : ∀ {e}, (new self n reportRoom decisionRoom).Reaches e → ¬ e.Quiet → ∃ next, e.Inner next := by
    intro e there
    obtain ⟨_,rfl,rfl⟩ := there.sound
    exact inner_of_not_quiet forReports forDecisions
  obtain ⟨fits,forReports,forDecisions⟩ := reached.sound
  refine ⟨forReports ▸ fits.reportsFit,forDecisions ▸ fits.decisionsFit,goes reached,
    fun steps last runs => ⟨?_,fun ends => ?_⟩,exists_runs d⟩
  · exact Nat.le_trans (Nat.le_add_right _ _) runs.le_work
  · have there := runs.reaches reached
    have quiet : last.Quiet := by
      by_contra busy
      obtain ⟨next,inner⟩ := goes there busy
      exact ends next inner
    obtain ⟨sound,_,_⟩ := there.sound
    have told : Replication.decisions last.noted = Requests.resolved (Requests.run (.new self) last.heard).2 := by
      rw [sound.decided,quiet.decisions,quiet.telling]
      simp [Requests.resolved]
    exact ⟨quiet,sound.board,sound.replication,told,sound.recorded told⟩

/-- Both queues are full, the request task has a decision to tell, and a report waits in the backlog. -/
theorem jammed_goes_on : ∃ d, (new ⟨1⟩ 2 1 1).Reaches d ∧ d.reports.length = 1 ∧ d.decisions.length = 1 ∧
    d.telling.length = 2 ∧ d.replication.backlog.length = 1 ∧ (∃ next, d.Inner next) ∧
    ∃ steps last, d.Runs steps last ∧ last.Quiet ∧
      ∀ call, call.floor < 2 → last.replication.replica.registry.status call = last.board.status call := by
  let snapshot : Replication.Event := .inbound Replication.twice
  have first := (.here : (new ⟨1⟩ 2 1 1).Reaches _)
    |>.outer (.news snapshot (by decide) (by simp) (by decide))
    |>.inner (.handOver rfl (by decide))
    |>.inner (.listen rfl rfl)
    |>.inner (.handOver rfl (by decide +kernel))
  have second := first.outer (.news snapshot (by decide) (by simp) (by decide +kernel))
    |>.inner (.lamp rfl) |>.inner (.tell rfl (by decide +kernel)) |>.inner (.order rfl)
    |>.inner (.listen rfl rfl)
    |>.inner (.handOver rfl (by decide +kernel))
    |>.inner (.lamp rfl)
  obtain ⟨_,_,goes,ends,steps,last,runs,rests⟩ := never_stalls ⟨1⟩ 2 1 1 (by decide) (by decide) second
  obtain ⟨quiet,_,_,_,_,_,current⟩ := (ends steps last runs).2 rests
  refine ⟨_,second,by decide +kernel,by decide +kernel,by decide +kernel,by decide +kernel,goes ?_,
    steps,last,runs,quiet,current⟩
  exact fun quiet => absurd (congrArg List.length quiet.backlog) (by decide +kernel)

end Dialogue
end ElevatorFleet
