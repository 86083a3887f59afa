import Mathlib.Data.Set.Insert
import ElevatorFleet.Proofs.HostDialogue

/-!
# Who waits for whom

A task whose next message does not fit into its queue waits for the reader of the queue, and does nothing
until there is room (`act_eq_none_iff`). Tasks of a host that all wait for one another therefore never go on
(`CyclicWait.lasts`). The backlog keeps the replication task from ever waiting for the request task, but nothing
keeps it from waiting for the transport task or the liveness task, and these two feed it in return: tasks that
wait for one another always include the replication task and one of the two (`CyclicWait.standstill`).
-/
namespace ElevatorFleet
open Tasks

/-- The queue that a notice goes into. -/
def Tasks.Liveness.Notice.queue (n : Liveness.Notice) : QueueName :=
  match n.subscriber with
  | "requests" => .requestMembers
  | "replication" => .replicationMembers
  | _ => .orderMembers

/-- The queue that an action of the request task goes into; a lamp is set at once. -/
def Tasks.Requests.Action.queue? : Requests.Action → Option QueueName
  | .lamp _ _ _ => none
  | .toReplication _ => some .resolved
  | .toOrders _ => some .settled

/-- The queue that an action of the replication task goes into. -/
def Tasks.Replication.Action.queue : Replication.Action → QueueName
  | .toRequests _ => .updates
  | .toLiveness _ => .signals
  | .toOrders _ => .carReports
  | .send _ => .outbound

/-- The queue that an action of the console task goes into. -/
def Tasks.Console.Action.queue : Console.Action → QueueName
  | .toRequests _ => .updates
  | .toReplication _ => .carStates
  | .toLiveness _ => .signals

namespace Host
variable {h k : Host} {task other : TaskName} {m : Move} {queue : QueueName} {tasks : Set TaskName}

/-- The queue that a task in the middle of its actions has a message for. -/
def nextQueue? (h : Host) : TaskName → Option QueueName
  | .transport => h.pending.transport.head?.map fun _ => .inbound
  | .liveness => h.pending.liveness.head?.map Liveness.Notice.queue
  | .requests => h.pending.requests.head?.bind Requests.Action.queue?
  | .replication => h.pending.replication.head?.map Replication.Action.queue
  | .orders => none
  | .console => h.pending.console.head?.map Console.Action.queue

/-- A task has a message for a full queue that `other` reads. -/
def WaitsFor (h : Host) (task other : TaskName) : Prop :=
  ∃ queue, h.nextQueue? task = some queue ∧ h.capacity ≤ h.queues.size queue ∧ queue.reader = other

instance (task other : TaskName) : Decidable (h.WaitsFor task other) :=
  decidable_of_iff
    ((h.nextQueue? task).any fun queue => decide (h.capacity ≤ h.queues.size queue ∧ queue.reader = other))
    (by simp [WaitsFor,Option.any_eq_true])

/-- Tasks that wait for one another. -/
structure CyclicWait (h : Host) (tasks : Set TaskName) : Prop where
  nonempty : tasks.Nonempty
  waits : ∀ task ∈ tasks, ∃ other ∈ tasks, h.WaitsFor task other

/-! ### Waiting -/

theorem nextQueue?_of_waiting (waits : h.isWaiting task = true) : h.nextQueue? task = none := by
  cases task with
  | orders => rfl
  | transport | liveness | requests | replication | console =>
    have idle := List.isEmpty_iff.mp waits
    simp [nextQueue?,idle]

theorem join_eq_none {α : Type} {queue : List α} {message : α} {put : List α → Queues} :
    h.join queue message put = none ↔ h.capacity ≤ queue.length := by
  simp [join]

/-- What happens when a task does the next of its actions. -/
structure Acts (h : Host) (task : TaskName) (k : Host) : Prop where
  capacity : k.capacity = h.capacity
  others : ∀ other, other ≠ task → k.nextQueue? other = h.nextQueue? other
  room : ∀ queue, h.nextQueue? task = some queue → h.queues.size queue < h.capacity
  grows : ∀ queue, h.queues.size queue ≤ k.queues.size queue

theorem Acts.of_join {α : Type} {messages : List α} {message : α} {put : List α → Queues} {pending : Pending}
    (moves : { h with pending := pending }.join messages message put = some k)
    (next : h.nextQueue? task = some queue) (size : h.queues.size queue = messages.length)
    (others : ∀ other, other ≠ task → { h with pending := pending }.nextQueue? other = h.nextQueue? other)
    (grows : ∀ queue, h.queues.size queue ≤ (put (messages ++ [message])).size queue) : h.Acts task k := by
  obtain ⟨room,rfl⟩ := join_eq_some.mp moves
  refine ⟨rfl,others,?_,grows⟩
  intro queue same
  cases next.symm.trans same
  rw [size]
  exact room

theorem acts_transport (moves : h.actTransport = some k) : h.Acts .transport k := by
  rw [actTransport] at moves
  split at moves
  case h_1 => cases moves
  case h_2 m rest pending =>
    have next : h.nextQueue? .transport = some .inbound := by simp [nextQueue?,pending]
    refine .of_join moves next rfl ?_ ?_
    · intro other apart
      cases other <;> first | rfl | exact absurd rfl apart
    · intro queue
      cases queue <;> simp [Queues.size]

theorem acts_liveness (moves : h.actLiveness = some k) : h.Acts .liveness k := by
  rw [actLiveness] at moves
  split at moves
  case h_1 => cases moves
  case h_2 n rest pending =>
    have next : h.nextQueue? .liveness = some n.queue := by simp [nextQueue?,pending]
    rw [Liveness.Notice.queue] at next
    split at moves
    all_goals
      rename_i named
      simp only [named] at next
      refine .of_join moves next rfl ?_ ?_
      · intro other apart
        cases other <;> first | rfl | exact absurd rfl apart
      · intro queue
        cases queue <;> simp [Queues.size]

theorem acts_requests (moves : h.actRequests = some k) : h.Acts .requests k := by
  rw [actRequests] at moves
  split at moves
  case h_1 => cases moves
  case h_2 action rest pending =>
    have next : h.nextQueue? .requests = action.queue? := by simp [nextQueue?,pending]
    cases action with
    | lamp button floor lit =>
      cases moves
      refine ⟨rfl,?_,?_,fun queue => Nat.le_refl _⟩
      · intro other apart
        cases other <;> first | rfl | exact absurd rfl apart
      · intro queue same
        cases next.symm.trans same
    | toReplication r | toOrders r =>
      refine .of_join moves next rfl ?_ ?_
      · intro other apart
        cases other <;> first | rfl | exact absurd rfl apart
      · intro queue
        cases queue <;> simp [Queues.size]

theorem acts_replication (moves : h.actReplication = some k) : h.Acts .replication k := by
  rw [actReplication] at moves
  split at moves
  case h_1 => cases moves
  case h_2 action rest pending =>
    have next : h.nextQueue? .replication = some action.queue := by simp [nextQueue?,pending]
    cases action with
    | toRequests r | toLiveness s | toOrders c | send m =>
      refine .of_join moves next rfl ?_ ?_
      · intro other apart
        cases other <;> first | rfl | exact absurd rfl apart
      · intro queue
        cases queue <;> simp [Queues.size]

theorem acts_console (moves : h.actConsole = some k) : h.Acts .console k := by
  rw [actConsole] at moves
  split at moves
  case h_1 => cases moves
  case h_2 action rest pending =>
    have next : h.nextQueue? .console = some action.queue := by simp [nextQueue?,pending]
    cases action with
    | toRequests r | toReplication state | toLiveness s =>
      refine .of_join moves next rfl ?_ ?_
      · intro other apart
        cases other <;> first | rfl | exact absurd rfl apart
      · intro queue
        cases queue <;> simp [Queues.size]

theorem acts (moves : h.act task = some k) : h.Acts task k := by
  cases task with
  | transport => exact acts_transport moves
  | liveness => exact acts_liveness moves
  | requests => exact acts_requests moves
  | replication => exact acts_replication moves
  | orders => cases moves
  | console => exact acts_console moves

theorem waitsFor_of_join {α : Type} {messages : List α} {message : α} {put : List α → Queues} {pending : Pending}
    (stuck : { h with pending := pending }.join messages message put = none) (next : h.nextQueue? task = some queue)
    (size : h.queues.size queue = messages.length) : ∃ other, h.WaitsFor task other := by
  have full := join_eq_none.mp stuck
  exact ⟨queue.reader,queue,next,size ▸ full,rfl⟩

/-- A task that is in the middle of its actions cannot do the next one exactly while it waits for another
    task. The order task waits for the assigner instead. -/
theorem act_eq_none_iff (busy : h.isWaiting task = false) (apart : task ≠ .orders) :
    h.act task = none ↔ ∃ other, h.WaitsFor task other := by
  constructor
  · intro stuck
    cases task with
    | orders => exact absurd rfl apart
    | transport =>
      obtain ⟨m,rest,pending⟩ := List.exists_cons_of_ne_nil (List.isEmpty_eq_false_iff.mp busy)
      have next : h.nextQueue? .transport = some .inbound := by simp [nextQueue?,pending]
      simp only [act,actTransport,pending] at stuck
      exact waitsFor_of_join stuck next rfl
    | liveness =>
      obtain ⟨n,rest,pending⟩ := List.exists_cons_of_ne_nil (List.isEmpty_eq_false_iff.mp busy)
      have next : h.nextQueue? .liveness = some n.queue := by simp [nextQueue?,pending]
      rw [Liveness.Notice.queue] at next
      simp only [act,actLiveness,pending] at stuck
      split at stuck
      all_goals
        rename_i named
        simp only [named] at next
        exact waitsFor_of_join stuck next rfl
    | requests =>
      obtain ⟨action,rest,pending⟩ := List.exists_cons_of_ne_nil (List.isEmpty_eq_false_iff.mp busy)
      have next : h.nextQueue? .requests = action.queue? := by simp [nextQueue?,pending]
      cases action with
      | lamp button floor lit => simp [act,actRequests,pending] at stuck
      | toReplication r | toOrders r =>
        simp only [act,actRequests,pending] at stuck
        exact waitsFor_of_join stuck next rfl
    | replication =>
      obtain ⟨action,rest,pending⟩ := List.exists_cons_of_ne_nil (List.isEmpty_eq_false_iff.mp busy)
      have next : h.nextQueue? .replication = some action.queue := by simp [nextQueue?,pending]
      cases action with
      | toRequests r | toLiveness s | toOrders c | send m =>
        simp only [act,actReplication,pending] at stuck
        exact waitsFor_of_join stuck next rfl
    | console =>
      obtain ⟨action,rest,pending⟩ := List.exists_cons_of_ne_nil (List.isEmpty_eq_false_iff.mp busy)
      have next : h.nextQueue? .console = some action.queue := by simp [nextQueue?,pending]
      cases action with
      | toRequests r | toReplication state | toLiveness s =>
        simp only [act,actConsole,pending] at stuck
        exact waitsFor_of_join stuck next rfl
  · rintro ⟨other,queue,next,full,_⟩
    cases moves : h.act task with
    | none => rfl
    | some k => exact absurd ((acts moves).room queue next) (Nat.not_lt.mpr full)

/-- The task that makes a move. -/
def Move.task? : Move → Option TaskName
  | .act task => some task
  | .take queue => some queue.reader
  | .handOver | .broadcastTick => some .replication
  | .pollTick => some .liveness
  | .refreshTick | .assigned _ => some .orders
  | .datagram _ => some .transport
  | .line _ => some .console
  | .elapse _ => none

/-- A task that waits for another makes no move. -/
theorem WaitsFor.idle (waits : h.WaitsFor task other) (moves : h.move? m = some k) : m.task? ≠ some task := by
  obtain ⟨queue,next,full,_⟩ := waits
  have busy : h.isWaiting task ≠ true := by
    intro idle
    rw [nextQueue?_of_waiting idle] at next
    cases next
  intro same
  cases m with
  | act actor =>
    cases same
    exact absurd ((acts moves).room queue next) (Nat.not_lt.mpr full)
  | take from_ | handOver | broadcastTick | pollTick | datagram bytes | line text =>
    cases same
    exact busy (Option.ite_none_right_eq_some.mp moves).1
  | refreshTick | assigned a =>
    cases same
    cases next
  | elapse ms => cases same

/-- What a move leaves as it was. -/
structure Spares (h : Host) (m : Move) (k : Host) : Prop where
  capacity : k.capacity = h.capacity
  others : ∀ other, m.task? ≠ some other → k.nextQueue? other = h.nextQueue? other
  queues : ∀ queue, m.task? ≠ some queue.reader → h.queues.size queue ≤ k.queues.size queue

theorem spares_takeFrom (moves : h.takeFrom queue = some k) : h.Spares (.take queue) k := by
  cases queue with
  | updates | requestMembers | signals | carStates | resolved | replicationMembers | settled | orderMembers | carReports =>
    rw [takeFrom] at moves
    split at moves
    case h_1 => cases moves
    case h_2 message rest queued =>
      cases moves
      refine ⟨rfl,?_,?_⟩
      · intro other apart
        cases other <;> first | rfl | exact absurd rfl apart
      · intro queue apart
        cases queue <;> first | exact Nat.le_refl _ | exact absurd rfl apart
  | inbound =>
    rw [takeFrom] at moves
    split at moves
    case h_1 => cases moves
    case h_2 m rest queued =>
      obtain ⟨_,taken⟩ := Option.ite_none_right_eq_some.mp moves
      cases taken
      refine ⟨rfl,?_,?_⟩
      · intro other apart
        cases other <;> first | rfl | exact absurd rfl apart
      · intro queue apart
        cases queue <;> first | exact Nat.le_refl _ | exact absurd rfl apart
  | outbound =>
    rw [takeFrom] at moves
    split at moves
    case h_1 => cases moves
    case h_2 m rest queued =>
      cases moves
      rw [onTransport]
      split
      all_goals
        refine ⟨rfl,fun other _ => by cases other <;> rfl,?_⟩
        intro queue apart
        cases queue <;> first | exact Nat.le_refl _ | exact absurd rfl apart

theorem spares (moves : h.move? m = some k) : h.Spares m k := by
  cases m with
  | act actor =>
    have acts := acts moves
    refine ⟨acts.capacity,fun other apart => acts.others other ?_,fun queue _ => acts.grows queue⟩
    exact fun same => apart (congrArg some same.symm)
  | take queue => exact spares_takeFrom (Option.ite_none_right_eq_some.mp moves).2
  | handOver =>
    have hands := (Option.ite_none_right_eq_some.mp moves).2
    rw [handOver] at hands
    split at hands
    case h_1 => cases hands
    case h_2 r rest backlog =>
      obtain ⟨_,rfl⟩ := join_eq_some.mp hands
      refine ⟨rfl,fun other _ => by cases other <;> rfl,?_⟩
      intro queue _
      cases queue <;> simp [Queues.size]
  | broadcastTick | pollTick | datagram bytes | line text =>
    obtain ⟨_,taken⟩ := Option.ite_none_right_eq_some.mp moves
    cases taken
    refine ⟨rfl,?_,fun queue _ => Nat.le_refl _⟩
    intro other apart
    cases other <;> first | rfl | exact absurd rfl apart
  | refreshTick =>
    obtain ⟨_,taken⟩ := Option.ite_none_right_eq_some.mp moves
    cases taken
    rw [refresh]
    split
    all_goals exact ⟨rfl,fun other _ => by cases other <;> rfl,fun queue _ => Nat.le_refl _⟩
  | assigned a =>
    obtain ⟨_,rfl⟩ : _ ∧ _ = k := by simpa [move?] using moves
    cases a with
    | none => exact ⟨rfl,fun other _ => by cases other <;> rfl,fun queue _ => Nat.le_refl _⟩
    | some a => exact ⟨rfl,fun other _ => by cases other <;> rfl,fun queue _ => Nat.le_refl _⟩
  | elapse ms =>
    cases moves
    exact ⟨rfl,fun other _ => by cases other <;> rfl,fun queue _ => Nat.le_refl _⟩

/-- Tasks that wait for one another go on waiting, whatever the others do. -/
theorem CyclicWait.move (cyclic : h.CyclicWait tasks) (moves : h.move? m = some k) : k.CyclicWait tasks := by
  have spares := spares moves
  refine ⟨cyclic.nonempty,fun task member => ?_⟩
  obtain ⟨other,inside,waits⟩ := cyclic.waits task member
  refine ⟨other,inside,?_⟩
  have still := waits.idle moves
  obtain ⟨_,_,next⟩ := cyclic.waits other inside
  have reader := next.idle moves
  obtain ⟨queue,message,full,same⟩ := waits
  subst same
  refine ⟨queue,(spares.others task still).trans message,?_,rfl⟩
  calc k.capacity = h.capacity := spares.capacity
    _ ≤ h.queues.size queue := full
    _ ≤ k.queues.size queue := spares.queues queue reader

theorem CyclicWait.lasts (cyclic : h.CyclicWait tasks) (later : h.Reaches k) : k.CyclicWait tasks := by
  induction later with
  | here => exact cyclic
  | next _ moves ih => exact ih.move moves

/-! ### Who waits for whom -/

/-- The tasks that a task can have to wait for, by the queues that it sends into. -/
def neighbors : TaskName → List TaskName
  | .transport => [.replication]
  | .liveness => [.requests,.replication,.orders]
  | .requests => [.replication,.orders]
  | .replication => [.liveness,.orders,.transport]
  | .orders => []
  | .console => [.requests,.replication,.liveness]

theorem WaitsFor.neighbor (handed : Replication.handed h.pending.replication = []) (waits : h.WaitsFor task other) :
    other ∈ neighbors task := by
  obtain ⟨queue,next,_,rfl⟩ := waits
  cases task with
  | orders => cases next
  | transport =>
    obtain ⟨_,_,rfl⟩ := Option.map_eq_some_iff.mp next
    decide
  | liveness =>
    obtain ⟨n,_,rfl⟩ := Option.map_eq_some_iff.mp next
    rw [Liveness.Notice.queue]
    split <;> decide
  | requests =>
    obtain ⟨action,_,into⟩ := Option.bind_eq_some_iff.mp next
    cases action <;> cases into <;> decide
  | console =>
    obtain ⟨action,_,rfl⟩ := Option.map_eq_some_iff.mp next
    cases action <;> simp [Console.Action.queue,QueueName.reader,neighbors]
  | replication =>
    obtain ⟨action,first,rfl⟩ := Option.map_eq_some_iff.mp next
    obtain ⟨rest,pending⟩ := List.head?_eq_some_iff.mp first
    cases action with
    | toRequests r =>
      -- Reports leave the backlog only where there is room for them.
      rw [pending] at handed
      cases handed
    | toLiveness s | toOrders c | send m => simp [Replication.Action.queue,QueueName.reader,neighbors]

theorem CyclicWait.neighbor (cyclic : h.CyclicWait tasks) (handed : Replication.handed h.pending.replication = [])
    (member : task ∈ tasks) : ∃ other ∈ neighbors task, other ∈ tasks ∧ h.WaitsFor task other := by
  obtain ⟨other,inside,waits⟩ := cyclic.waits task member
  exact ⟨other,waits.neighbor handed,inside,waits⟩

/-- Nobody waits for the order task for long, since it has nobody to wait for. -/
theorem CyclicWait.no_orders (cyclic : h.CyclicWait tasks) : .orders ∉ tasks := by
  intro member
  obtain ⟨_,_,_,next,_⟩ := cyclic.waits .orders member
  cases next

theorem CyclicWait.requests (cyclic : h.CyclicWait tasks) (handed : Replication.handed h.pending.replication = [])
    (member : .requests ∈ tasks) : .replication ∈ tasks ∧ h.WaitsFor .requests .replication := by
  obtain ⟨other,near,inside,waits⟩ := cyclic.neighbor handed member
  simp only [neighbors,List.mem_cons,List.not_mem_nil,or_false] at near
  rcases near with rfl | rfl
  · exact ⟨inside,waits⟩
  · exact absurd inside cyclic.no_orders

theorem CyclicWait.transport (cyclic : h.CyclicWait tasks) (handed : Replication.handed h.pending.replication = [])
    (member : .transport ∈ tasks) : .replication ∈ tasks ∧ h.WaitsFor .transport .replication := by
  obtain ⟨other,near,inside,waits⟩ := cyclic.neighbor handed member
  cases List.mem_singleton.mp near
  exact ⟨inside,waits⟩

theorem CyclicWait.liveness (cyclic : h.CyclicWait tasks) (handed : Replication.handed h.pending.replication = [])
    (member : .liveness ∈ tasks) : .replication ∈ tasks ∧
      (h.WaitsFor .liveness .replication ∨
        .requests ∈ tasks ∧ h.WaitsFor .liveness .requests ∧ h.WaitsFor .requests .replication) := by
  obtain ⟨other,near,inside,waits⟩ := cyclic.neighbor handed member
  simp only [neighbors,List.mem_cons,List.not_mem_nil,or_false] at near
  rcases near with rfl | rfl | rfl
  · obtain ⟨there,onward⟩ := cyclic.requests handed inside
    exact ⟨there,.inr ⟨inside,waits,onward⟩⟩
  · exact ⟨inside,.inl waits⟩
  · exact absurd inside cyclic.no_orders

/-- Tasks that wait for one another include the replication task. -/
theorem CyclicWait.replication (cyclic : h.CyclicWait tasks) (handed : Replication.handed h.pending.replication = []) :
    .replication ∈ tasks := by
  obtain ⟨task,member⟩ := cyclic.nonempty
  cases task with
  | replication => exact member
  | orders => exact absurd member cyclic.no_orders
  | transport => exact (cyclic.transport handed member).1
  | liveness => exact (cyclic.liveness handed member).1
  | requests => exact (cyclic.requests handed member).1
  | console =>
    obtain ⟨other,near,inside,_⟩ := cyclic.neighbor handed member
    simp only [neighbors,List.mem_cons,List.not_mem_nil,or_false] at near
    rcases near with rfl | rfl | rfl
    · exact (cyclic.requests handed inside).1
    · exact inside
    · exact (cyclic.liveness handed inside).1

/-- The ways in which the tasks of a host can wait for one another. -/
inductive Standstill (h : Host) (tasks : Set TaskName) : Prop where
  | transport (sends : .transport ∈ tasks ∧ h.WaitsFor .replication .transport)
      (fed : h.WaitsFor .transport .replication)
  | liveness (tells : .liveness ∈ tasks ∧ h.WaitsFor .replication .liveness)
      (told : h.WaitsFor .liveness .replication)
  | requests (tells : .liveness ∈ tasks ∧ h.WaitsFor .replication .liveness)
      (passed : .requests ∈ tasks ∧ h.WaitsFor .liveness .requests) (told : h.WaitsFor .requests .replication)

theorem CyclicWait.standstill (cyclic : h.CyclicWait tasks) (handed : Replication.handed h.pending.replication = []) :
    h.Standstill tasks := by
  obtain ⟨other,near,inside,waits⟩ := cyclic.neighbor handed (cyclic.replication handed)
  simp only [neighbors,List.mem_cons,List.not_mem_nil,or_false] at near
  rcases near with rfl | rfl | rfl
  · rcases (cyclic.liveness handed inside).2 with told | ⟨there,passed,told⟩
    · exact .liveness ⟨inside,waits⟩ told
    · exact .requests ⟨inside,waits⟩ ⟨there,passed⟩ told
  · exact absurd inside cyclic.no_orders
  · exact .transport ⟨inside,waits⟩ (cyclic.transport handed inside).2

theorem cyclicWait_pair (there : h.WaitsFor task other) (back : h.WaitsFor other task) :
    h.CyclicWait {task,other} := by
  refine ⟨⟨task,.inl rfl⟩,?_⟩
  rintro _ (rfl | rfl)
  · exact ⟨other,.inr rfl,there⟩
  · exact ⟨task,.inl rfl,back⟩

end Host
end ElevatorFleet
