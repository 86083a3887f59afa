import ElevatorFleet.Host
import ElevatorFleet.Proofs.Dialogue

/-!
# The dialogue on a host

On a host, the request task and the replication task are in a dialogue (`shows`): every move of the
host is a step of it or does not concern it. The other way round, the host can take every step with
which the dialogue goes on by itself, as long as the replication task is not in the middle of something
else and the order task makes room (`Shows.inner`). So something can be done about whatever is under
way between the two (`goes_on`), and when nothing is, the registry that the host broadcasts is
current (`registry_current`).
-/
namespace ElevatorFleet
open Tasks

namespace Host
variable {h k : Host} {d next : Dialogue}

/-- What a host shows of the dialogue of its tasks. Its replication task hands reports over from its backlog
    only. -/
structure Shows (h : Host) (d : Dialogue) : Prop where
  reportRoom : d.reportRoom = h.capacity
  decisionRoom : d.decisionRoom = h.capacity
  board : d.board = h.board
  telling : d.telling = h.pending.requests
  replication : d.replication = h.replication
  reports : d.reports = h.queues.updates
  decisions : d.decisions = h.queues.resolved
  handed : Replication.handed h.pending.replication = []

theorem join_eq_some {α : Type} {queue : List α} {message : α} {put : List α → Queues} :
    h.join queue message put = some k ↔
      queue.length < h.capacity ∧ { h with queues := put (queue ++ [message]) } = k := by
  simp [join]

theorem Shows.hear (shows : h.Shows d) (e : Requests.Event) : (h.onRequests e).Shows (d.hear e) := by
  refine { shows with board := ?_, telling := ?_ }
  · show (Requests.react d.board e).1 = (Requests.react h.board e).1
    rw [shows.board]
  · show (Requests.react d.board e).2 = (Requests.react h.board e).2
    rw [shows.board]

theorem Shows.note (shows : h.Shows d) {e : Replication.Event} (other : e ≠ .room) :
    (h.onReplication e).Shows (d.note e) := by
  refine { shows with replication := ?_, reports := ?_, handed := Replication.handed_react _ other }
  · show (d.replication.react e).1 = (h.replication.react e).1
    rw [shows.replication]
  · show d.reports ++ Replication.handed (d.replication.react e).2 = h.queues.updates
    rw [Replication.handed_react _ other,List.append_nil,shows.reports]

/-- What one task of a host does is a step of the dialogue or does not concern it. -/
def Follows (d : Dialogue) (k : Host) : Prop := ∃ next, (next = d ∨ d.Inner next ∨ d.Outer next) ∧ k.Shows next

theorem Shows.stays (shows : k.Shows d) : Follows d k := ⟨d,.inl rfl,shows⟩

theorem Shows.actRequests (shows : h.Shows d) (moves : h.actRequests = some k) : Follows d k := by
  rw [Host.actRequests] at moves
  cases telling : h.pending.requests with
  | nil => simp [telling] at moves
  | cons action rest =>
    have told := shows.telling.trans telling
    simp only [telling] at moves
    cases action with
    | lamp button floor lit =>
      cases moves
      exact ⟨_,.inr (.inl (.lamp told)),{ shows with telling := rfl }⟩
    | toReplication r =>
      obtain ⟨room,rfl⟩ := join_eq_some.mp moves
      refine ⟨_,.inr (.inl (.tell told ?_)),{ shows with telling := rfl, decisions := ?_ }⟩
      · rw [shows.decisions,shows.decisionRoom]
        exact room
      · rw [shows.decisions]
    | toOrders r =>
      obtain ⟨room,rfl⟩ := join_eq_some.mp moves
      exact ⟨_,.inr (.inl (.order told)),{ shows with telling := rfl }⟩

theorem Shows.actReplication (shows : h.Shows d) (moves : h.actReplication = some k) : Follows d k := by
  rw [Host.actReplication] at moves
  cases pending : h.pending.replication with
  | nil => simp [pending] at moves
  | cons action rest =>
    have silent := shows.handed
    rw [pending] at silent
    simp only [pending] at moves
    cases action with
    | toRequests r => simp [Replication.handed] at silent
    | toLiveness s | toOrders c | send m =>
      obtain ⟨_,rfl⟩ := join_eq_some.mp moves
      exact Shows.stays { shows with handed := silent }

theorem Shows.actConsole (shows : h.Shows d) (moves : h.actConsole = some k) : Follows d k := by
  rw [Host.actConsole] at moves
  cases pending : h.pending.console with
  | nil => simp [pending] at moves
  | cons action rest =>
    simp only [pending] at moves
    cases action with
    | toRequests r =>
      obtain ⟨room,rfl⟩ := join_eq_some.mp moves
      refine ⟨_,.inr (.inr (.report r ?_)),{ shows with reports := ?_ }⟩
      · rw [shows.reports,shows.reportRoom]
        exact room
      · rw [shows.reports]
    | toReplication s | toLiveness s =>
      obtain ⟨_,rfl⟩ := join_eq_some.mp moves
      exact Shows.stays { shows with }

theorem Shows.act (shows : h.Shows d) {task : TaskName} (moves : h.act task = some k) : Follows d k := by
  cases task with
  | requests => exact shows.actRequests moves
  | replication => exact shows.actReplication moves
  | console => exact shows.actConsole moves
  | orders => cases moves
  | transport =>
    rw [Host.act,Host.actTransport] at moves
    split at moves
    · cases moves
    · obtain ⟨_,rfl⟩ := join_eq_some.mp moves
      exact Shows.stays { shows with }
  | liveness =>
    rw [Host.act,Host.actLiveness] at moves
    split at moves
    · cases moves
    · split at moves
      all_goals
        obtain ⟨_,rfl⟩ := join_eq_some.mp moves
        exact Shows.stays { shows with }

theorem Shows.news (shows : h.Shows d) (e : Replication.Event) (noRoom : e ≠ .room)
    (noDecision : ∀ r, e ≠ .resolved r) (accepts : h.replication.accepts e = true) : Follows d (h.onReplication e) := by
  rw [← shows.replication] at accepts
  exact ⟨_,.inr (.inr (.news e noRoom noDecision accepts)),shows.note noRoom⟩

theorem Shows.take (shows : h.Shows d) {queue : QueueName} (waits : h.isWaiting queue.reader = true)
    (moves : h.takeFrom queue = some k) : Follows d k := by
  cases queue with
  | updates =>
    have idle : d.telling = [] := shows.telling.trans (List.isEmpty_iff.mp waits)
    rw [takeFrom] at moves
    split at moves
    case h_1 => cases moves
    case h_2 r rest queued =>
      cases moves
      refine ⟨_,.inr (.inl (.listen idle (shows.reports.trans queued))),Shows.hear ?_ _⟩
      exact { shows with reports := rfl }
  | requestMembers =>
    have idle : d.telling = [] := shows.telling.trans (List.isEmpty_iff.mp waits)
    rw [takeFrom] at moves
    split at moves
    case h_1 => cases moves
    case h_2 alive rest queued =>
      cases moves
      refine ⟨_,.inr (.inr (.membership alive idle)),Shows.hear ?_ _⟩
      exact { shows with }
  | resolved =>
    rw [takeFrom] at moves
    split at moves
    case h_1 => cases moves
    case h_2 r rest queued =>
      cases moves
      refine ⟨_,.inr (.inl (.record (shows.decisions.trans queued))),Shows.note ?_ (by simp)⟩
      exact { shows with decisions := rfl }
  | carStates =>
    rw [takeFrom] at moves
    split at moves
    case h_1 => cases moves
    case h_2 state rest queued =>
      cases moves
      refine Shows.news ?_ (.car state) (by simp) (by simp) rfl
      exact { shows with }
  | replicationMembers =>
    rw [takeFrom] at moves
    split at moves
    case h_1 => cases moves
    case h_2 alive rest queued =>
      cases moves
      refine Shows.news ?_ (.membership alive) (by simp) (by simp) rfl
      exact { shows with }
  | inbound =>
    rw [takeFrom] at moves
    split at moves
    case h_1 => cases moves
    case h_2 m rest queued =>
      obtain ⟨empty,taken⟩ := Option.ite_none_right_eq_some.mp moves
      cases taken
      refine Shows.news ?_ (.inbound m) (by simp) (by simp) empty
      exact { shows with }
  | signals | settled | orderMembers | carReports =>
    rw [takeFrom] at moves
    split at moves
    case h_1 => cases moves
    case h_2 message rest queued =>
      cases moves
      exact Shows.stays { shows with }
  | outbound =>
    rw [takeFrom] at moves
    split at moves
    case h_1 => cases moves
    case h_2 m rest queued =>
      cases moves
      rw [onTransport]
      split <;> exact Shows.stays { shows with }

theorem Shows.hand (shows : h.Shows d) {r : Report} {rest : List Report} (waiting : h.replication.backlog = r :: rest) :
    Shows { h with
      queues := { h.queues with updates := h.queues.updates ++ [r] },
      replication := { h.replication with backlog := rest } } (d.note .room) := by
  have reacts : d.replication.react .room = ({ h.replication with backlog := rest },[.toRequests r]) := by
    rw [shows.replication,Replication.react,waiting]
  refine { shows with replication := congrArg Prod.fst reacts, reports := ?_ }
  show d.reports ++ Replication.handed (d.replication.react .room).2 = _
  rw [reacts,shows.reports]
  rfl

theorem Shows.handOver (shows : h.Shows d) (moves : h.handOver = some k) : Follows d k := by
  rw [Host.handOver] at moves
  split at moves
  case h_1 => cases moves
  case h_2 r rest backlog =>
    obtain ⟨room,rfl⟩ := join_eq_some.mp moves
    rw [← shows.reports,← shows.reportRoom] at room
    exact ⟨_,.inr (.inl (.handOver (by rw [shows.replication,backlog]) room)),shows.hand backlog⟩

theorem Shows.move (shows : h.Shows d) {m : Move} (moves : h.move? m = some k) : Follows d k := by
  cases m with
  | act task => exact shows.act moves
  | take queue =>
    obtain ⟨waits,takes⟩ := Option.ite_none_right_eq_some.mp moves
    exact shows.take waits takes
  | handOver => exact shows.handOver (Option.ite_none_right_eq_some.mp moves).2
  | broadcastTick =>
    obtain ⟨_,rfl⟩ : _ ∧ _ = k := by simpa [move?] using moves
    exact shows.news .tick (by simp) (by simp) rfl
  | pollTick | datagram bytes | line text =>
    obtain ⟨_,rfl⟩ : _ ∧ _ = k := by simpa [move?] using moves
    exact Shows.stays { shows with }
  | refreshTick =>
    obtain ⟨_,rfl⟩ : _ ∧ _ = k := by simpa [move?] using moves
    rw [refresh]
    split <;> exact Shows.stays { shows with }
  | assigned a =>
    obtain ⟨_,rfl⟩ : _ ∧ _ = k := by simpa [move?] using moves
    cases a <;> exact Shows.stays { shows with }
  | elapse ms =>
    cases moves
    exact Shows.stays { shows with }

/-- While the order task makes room and the replication task waits for an event, the host can go on with the
    dialogue in every way in which it can go on. -/
theorem Shows.inner (shows : h.Shows d) (waits : h.isWaiting .replication = true)
    (room : h.queues.settled.length < h.capacity) (inner : d.Inner next) :
    ∃ m k, h.move? m = some k ∧ k.Shows next := by
  cases inner with
  | @listen r rest idle reported =>
    rw [shows.telling] at idle
    rw [shows.reports] at reported
    have moves : h.move? (.take .updates) =
        some (onRequests { h with queues := { h.queues with updates := rest } } (.report r)) := by
      simp [move?,isWaiting,QueueName.reader,idle,takeFrom,reported]
    refine ⟨_,_,moves,Shows.hear ?_ _⟩
    exact { shows with reports := rfl }
  | @lamp button floor lit rest told =>
    rw [shows.telling] at told
    have moves : h.move? (.act .requests) = some { h with
        panel := h.panel.set button floor lit, pending := { h.pending with requests := rest } } := by
      simp [move?,Host.act,Host.actRequests,told]
    exact ⟨_,_,moves,{ shows with telling := rfl }⟩
  | @tell r rest told free =>
    rw [shows.telling] at told
    rw [shows.decisions,shows.decisionRoom] at free
    have moves : h.move? (.act .requests) = some { h with
        queues := { h.queues with resolved := h.queues.resolved ++ [r] },
        pending := { h.pending with requests := rest } } := by
      simp [move?,Host.act,Host.actRequests,told,join,free]
    exact ⟨_,_,moves,{ shows with telling := rfl, decisions := by rw [shows.decisions] }⟩
  | @order r rest told =>
    rw [shows.telling] at told
    have moves : h.move? (.act .requests) = some { h with
        queues := { h.queues with settled := h.queues.settled ++ [r] },
        pending := { h.pending with requests := rest } } := by
      simp [move?,Host.act,Host.actRequests,told,join,room]
    exact ⟨_,_,moves,{ shows with telling := rfl }⟩
  | @record r rest decided =>
    rw [shows.decisions] at decided
    have moves : h.move? (.take .resolved) =
        some (onReplication { h with queues := { h.queues with resolved := rest } } (.resolved r)) := by
      simp [move?,QueueName.reader,waits,takeFrom,decided]
    refine ⟨_,_,moves,Shows.note ?_ (by simp)⟩
    exact { shows with decisions := rfl }
  | @handOver r rest waiting free =>
    rw [shows.replication] at waiting
    rw [shows.reports,shows.reportRoom] at free
    have moves : h.move? .handOver = some { h with
        queues := { h.queues with updates := h.queues.updates ++ [r] },
        replication := { h.replication with backlog := rest } } := by
      simp [move?,waits,Host.handOver,waiting,join,free]
    exact ⟨_,_,moves,shows.hand waiting⟩

/-- Nothing is under way between the request task and the replication task. -/
structure AtRest (h : Host) : Prop where
  updates : h.queues.updates = []
  requests : h.pending.requests = []
  resolved : h.queues.resolved = []
  backlog : h.replication.backlog = []

variable {self : PeerId} {n : UInt8} {timeout : Duration} {capacity : Nat} {transport : Transport}
  {hasAssigner : Bool} {now : Instant}

/-- Whatever a host does, its tasks are in a dialogue with as much room as its queues have. -/
theorem shows (reached : (new self n timeout capacity transport hasAssigner now).Reaches h) :
    ∃ d, (Dialogue.new self n capacity capacity).Reaches d ∧ h.Shows d := by
  induction reached with
  | here => exact ⟨_,.here,⟨rfl,rfl,rfl,rfl,rfl,rfl,rfl,rfl⟩⟩
  | next _ moves ih =>
    obtain ⟨d,there,shows⟩ := ih
    obtain ⟨next,rfl | inner | outer,follows⟩ := shows.move moves
    · exact ⟨_,there,follows⟩
    · exact ⟨_,.inner there inner,follows⟩
    · exact ⟨_,.outer there outer,follows⟩

/-- Something can be done about what is under way between the two tasks, unless the replication task
    is in the middle of something else or the order task does not keep up. -/
theorem goes_on (reached : (new self n timeout capacity transport hasAssigner now).Reaches h) (roomy : 0 < capacity)
    (waits : h.isWaiting .replication = true) (room : h.queues.settled.length < h.capacity) (busy : ¬ h.AtRest) :
    ∃ m k d next, h.move? m = some k ∧ h.Shows d ∧ d.Inner next ∧ k.Shows next := by
  obtain ⟨d,there,shows⟩ := Host.shows reached
  obtain ⟨_,forReports,forDecisions⟩ := there.sound
  have active : ¬ d.Quiet := by
    rintro ⟨reports,telling,decisions,backlog⟩
    exact busy ⟨shows.reports ▸ reports,shows.telling ▸ telling,shows.decisions ▸ decisions,
      shows.replication ▸ backlog⟩
  obtain ⟨next,inner⟩ := Dialogue.inner_of_not_quiet (forReports ▸ roomy) (forDecisions ▸ roomy) active
  obtain ⟨m,k,moves,follows⟩ := shows.inner waits room inner
  exact ⟨m,k,d,next,moves,shows,inner,follows⟩

/-- When nothing is under way, the registry that a host broadcasts has the board's status of every served
    call. -/
theorem registry_current (reached : (new self n timeout capacity transport hasAssigner now).Reaches h)
    (rests : h.AtRest) {call : Call} (served : call.floor < n) :
    h.replication.replica.registry.status call = h.board.status call := by
  obtain ⟨d,there,shows⟩ := Host.shows reached
  obtain ⟨sound,_,_⟩ := there.sound
  have taken : Replication.decisions d.noted = Requests.resolved (Requests.run (.new self) d.heard).2 := by
    rw [sound.decided,shows.decisions,rests.resolved,shows.telling,rests.requests]
    simp [Requests.resolved]
  rw [← shows.replication,← shows.board]
  exact (sound.recorded taken).2.2 call served

end Host
end ElevatorFleet
