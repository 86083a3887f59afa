import ElevatorFleet.Proofs.Backlog

/-!
# The replication task under way

A session of the replication task settles after each event: it hands over what there is room for, and reads the
snapshots that wait as long as its backlog is empty. While others read what it writes, this is a course of the
task (`Run.course`). It takes what it is sent, snapshots and all else each in their order; the snapshots that it
has not taken wait in the inbox, and the reports that nobody has read yet are the last ones of those handed over.
-/
namespace ElevatorFleet.Tasks.Replication

/-- What has been done, apart from handing reports over. -/
def others (done : List Action) : List Action :=
  done.filter fun action => match action with
    | .toRequests _ => false
    | _ => true

/-- The snapshots among the events. -/
def snapshots (events : List Event) : List Broadcast :=
  events.filterMap fun e => match e with
    | .inbound m => some m
    | _ => none

/-- The events that are neither a snapshot nor room for a report. -/
def asides (events : List Event) : List Event :=
  events.filter fun e => match e with
    | .inbound _ | .room => false
    | _ => true

/-- Of what was fed all has been taken but the snapshots that wait, snapshots and all else each in their
    order. -/
structure Taken (events fed : List Event) (waiting : List Broadcast) : Prop where
  apart : asides events = asides fed
  read : snapshots events ++ waiting = snapshots fed

variable {start t : Replication} {capacity read : Nat} {events fed : List Event} {waiting : List Broadcast}
  {done : List Action}

theorem handed_append (done more : List Action) : handed (done ++ more) = handed done ++ handed more :=
  List.filterMap_append

theorem others_append (done more : List Action) : others (done ++ more) = others done ++ others more :=
  List.filter_append done more

theorem handed_others (done : List Action) : handed (others done) = [] := by
  induction done with
  | nil => rfl
  | cons action rest ih => cases action <;> exact ih

theorem others_others (done : List Action) : others (others done) = others done := by
  simp [others]

theorem asides_append (events more : List Event) : asides (events ++ more) = asides events ++ asides more :=
  List.filter_append events more

theorem snapshots_append (events more : List Event) :
    snapshots (events ++ more) = snapshots events ++ snapshots more := List.filterMap_append

theorem handed_map (reports : List Report) : handed (reports.map .toRequests) = reports := by
  induction reports with
  | nil => rfl
  | cons r rest ih => exact congrArg (r :: ·) ih

theorem others_map (reports : List Report) : others (reports.map .toRequests) = [] := by
  simp [others]

theorem Taken.room (taken : Taken events fed waiting) : Taken (events ++ [.room]) fed waiting := by
  refine ⟨?_,?_⟩
  · rw [asides_append,taken.apart]
    exact List.append_nil _
  · rw [snapshots_append,← taken.read]
    exact congrArg (· ++ waiting) (List.append_nil _)

theorem Taken.inbound {m : Broadcast} (taken : Taken events fed (m :: waiting)) :
    Taken (events ++ [.inbound m]) fed waiting := by
  refine ⟨?_,?_⟩
  · rw [asides_append,taken.apart]
    exact List.append_nil _
  · rw [snapshots_append,← taken.read,List.append_assoc]
    rfl

theorem Taken.arrives (taken : Taken events fed waiting) (m : Broadcast) :
    Taken events (fed ++ [.inbound m]) (waiting ++ [m]) := by
  refine ⟨?_,?_⟩
  · rw [asides_append,taken.apart]
    exact (List.append_nil _).symm
  · rw [snapshots_append,← taken.read,List.append_assoc]
    rfl

theorem Taken.aside (taken : Taken events fed waiting) {e : Event} (other : snapshots [e] = []) :
    Taken (events ++ [e]) (fed ++ [e]) waiting := by
  refine ⟨?_,?_⟩
  · rw [asides_append,asides_append,taken.apart]
  · rw [snapshots_append,snapshots_append,other,List.append_nil,List.append_nil,taken.read]

theorem Course.readOn (course : Course capacity start t events done read) {more : Nat}
    (inside : read + more ≤ (handed done).length) : Course capacity start t events done (read + more) := by
  induction more with
  | zero => exact course
  | succ more ih => exact .read (ih (Nat.le_of_succ_le inside)) inside

namespace Session
variable {s : Session} {room : Nat}

/-- The queues that the task writes to. -/
def Writes (queue : Queue) : Prop := queue = .requests ∨ queue = .liveness ∨ queue = .orders ∨ queue = .outbound

/-- What the session has done follows the task: it is a course of it, in which all has been taken that was fed,
    but for the snapshots that wait, and of what has been handed over the last reports are unread. -/
structure Follows (room : Nat) (start : Replication) (fed : List Event) (waiting : List Broadcast) (s : Session)
    (done : List Action) : Prop where
  listened : ∀ queue, Writes queue → s.isOpen queue = true
  capacity : s.state.capacity = room
  positive : 0 < room
  unread : s.state.held = false → s.state.unread = []
  course : ∃ events all, Course room start s.state.task events all (handed done).length ∧
    handed all = handed done ++ s.state.unread ∧ others all = others done ∧
    (s.isRunning = true → Taken events fed waiting)

/-! ### One event -/

theorem take_of_ended (ended : s.isRunning = false) (e : Event) : s.take e = (s,[]) := by
  have advanced := Tasks.Session.advance_of_ended ended (fun action : Action => some action.target)
    (fun queue => QueueClosed.mk queue.name) { s.state with task := (s.state.task.react e).1 } (s.state.task.react e).2
  simp [take,advanced]

theorem take_of_running (listened : ∀ queue, Writes queue → s.isOpen queue = true) (running : s.isRunning = true)
    (e : Event) : s.take e =
      ({ s with state := { s.state with
          task := (s.state.task.react e).1
          unread := s.state.unread ++ if s.state.held then handed (s.state.task.react e).2 else [] } },
        if s.state.held then others (s.state.task.react e).2 else (s.state.task.react e).2) := by
  have writes : ∀ action ∈ (s.state.task.react e).2, ∀ queue ∈ some action.target, s.isOpen queue = true := by
    intro action _ queue target
    cases target
    refine listened _ ?_
    cases action <;> simp [Writes,Action.target]
  have advanced : s.advance (fun action : Action => some action.target) (fun queue => QueueClosed.mk queue.name)
      { s.state with task := (s.state.task.react e).1 } (s.state.task.react e).2 =
        ({ s with state := { s.state with task := (s.state.task.react e).1 } },(s.state.task.react e).2) :=
    Tasks.Session.advance_of_running running _ _ writes
  simp only [take,advanced]
  cases s.state.held with
  | false => simp
  | true =>
    refine Prod.ext rfl (List.filter_congr fun action _ => ?_)
    cases action <;> rfl

theorem Follows.take {e : Event} {fed' : List Event} {waiting' : List Broadcast}
    (follows : Follows room start fed waiting s done) (accepts : s.isRunning = true → s.state.task.accepts e = true)
    (free : s.state.held = true → e = .room → s.state.unread.length < room)
    (takes : ∀ events, Taken events fed waiting → Taken (events ++ [e]) fed' waiting') :
    Follows room start fed' waiting' (s.take e).1 (done ++ (s.take e).2) := by
  obtain ⟨listened,capacity,positive,unread,events,all,course,reports,rest,taken⟩ := follows
  cases running : s.isRunning with
  | false =>
    rw [take_of_ended running,List.append_nil]
    exact ⟨listened,capacity,positive,unread,events,all,course,reports,rest,fun goes => by simp [running] at goes⟩
  | true =>
    have total : (handed all).length = (handed done).length + s.state.unread.length := by
      rw [reports,List.length_append]
    rw [take_of_running listened running]
    -- A report is read as it is handed over, unless the queue is held: then it is unread, and needs room.
    cases held : s.state.held with
    | false =>
      have nothing := unread held
      rw [nothing,List.append_nil] at reports
      have next := Course.take e course (accepts running) fun _ => by
        rw [reports]
        exact Nat.lt_add_of_pos_right positive
      simp only [Bool.false_eq_true,if_false,List.append_nil]
      refine ⟨listened,capacity,positive,fun _ => nothing,_,all ++ (s.state.task.react e).2,?_,?_,?_,
        fun _ => takes events (taken running)⟩
      · rw [handed_append,List.length_append]
        exact next.readOn (Nat.le_of_eq (by rw [handed_append,List.length_append,reports]))
      · rw [nothing,List.append_nil,handed_append,handed_append,reports]
      · rw [others_append,others_append,rest]
    | true =>
      have next := Course.take e course (accepts running) fun same => by
        rw [total]
        exact Nat.add_lt_add_left (free held same) _
      simp only [if_true]
      refine ⟨listened,capacity,positive,fun free => by simp [held] at free,_,all ++ (s.state.task.react e).2,?_,?_,?_,
        fun _ => takes events (taken running)⟩
      · rw [handed_append,handed_others,List.append_nil]
        exact next
      · rw [handed_append,handed_append,handed_others,List.append_nil,reports,List.append_assoc]
      · rw [others_append,others_append,others_others,rest]

/-! ### Settling -/

variable {past : List Action} {sofar : Session × List Action}

theorem Follows.takeNext {e : Event} {fed' : List Event} {waiting' : List Broadcast}
    (follows : Follows room start fed waiting sofar.1 (past ++ sofar.2))
    (accepts : sofar.1.isRunning = true → sofar.1.state.task.accepts e = true)
    (free : sofar.1.state.held = true → e = .room → sofar.1.state.unread.length < room)
    (takes : ∀ events, Taken events fed waiting → Taken (events ++ [e]) fed' waiting') :
    Follows room start fed' waiting' (takeNext sofar e).1 (past ++ (takeNext sofar e).2) := by
  have next := follows.take accepts free takes
  rw [List.append_assoc] at next
  exact next

/-- A report that is handed over leaves the backlog, and stays in the queue while that is held. -/
theorem takeNext_room (listened : ∀ queue, Writes queue → sofar.1.isOpen queue = true)
    (running : sofar.1.isRunning = true) {r : Report} {rest : List Report}
    (backlog : sofar.1.state.task.backlog = r :: rest) :
    let next := (takeNext sofar .room).1.state
    next.task.backlog = rest ∧ next.inbox = sofar.1.state.inbox ∧ next.held = sofar.1.state.held ∧
      next.unread.length ≤ sofar.1.state.unread.length + 1 := by
  have handsOver : sofar.1.state.task.react .room =
      ({ sofar.1.state.task with backlog := rest },[.toRequests r]) := by rw [react,backlog]
  rw [Session.takeNext,take_of_running listened running,handsOver]
  refine ⟨rfl,rfl,rfl,?_⟩
  show (sofar.1.state.unread ++ if sofar.1.state.held then handed [.toRequests r] else []).length ≤ _
  split <;> simp [handed]

/-- As many reports are handed over as wait and as there is room for. -/
theorem Follows.hands {count : Nat} (follows : Follows room start fed waiting sofar.1 (past ++ sofar.2))
    (waits : sofar.1.isRunning = true → count ≤ sofar.1.state.task.backlog.length)
    (free : sofar.1.state.held = true → count ≤ room - sofar.1.state.unread.length) :
    let final := (List.replicate count Event.room).foldl Session.takeNext sofar
    Follows room start fed waiting final.1 (past ++ final.2) ∧ final.1.state.inbox = sofar.1.state.inbox := by
  induction count generalizing sofar with
  | zero => exact ⟨follows,rfl⟩
  | succ count ih =>
    rw [List.replicate_succ,List.foldl_cons]
    cases running : sofar.1.isRunning with
    | false =>
      have same : Session.takeNext sofar .room = sofar := by
        rw [Session.takeNext,take_of_ended running]
        simp
      rw [same]
      exact ih follows (fun goes => by simp [running] at goes) fun held => Nat.le_of_succ_le (free held)
    | true =>
      have enough := waits running
      obtain ⟨r,rest,backlog⟩ := List.exists_cons_of_length_pos (Nat.lt_of_lt_of_le (Nat.succ_pos count) enough)
      have accepted : sofar.1.state.task.accepts .room = true := by rw [accepts,backlog]; rfl
      have next := follows.takeNext (fun _ => accepted) (fun held _ => by have := free held; omega)
        fun events taken => taken.room
      obtain ⟨left,inbox,holds,unread⟩ := takeNext_room follows.listened running backlog
      have fewer : count ≤ rest.length := by simpa [backlog] using enough
      obtain ⟨ends,same⟩ := ih next (fun _ => by rw [left]; exact fewer) fun held => by
        have := free (holds ▸ held)
        omega
      exact ⟨ends,same.trans inbox⟩

theorem Follows.handOver (follows : Follows room start fed waiting sofar.1 (past ++ sofar.2)) :
    Follows room start fed waiting (handOver sofar).1 (past ++ (handOver sofar).2) ∧
      (handOver sofar).1.state.inbox = sofar.1.state.inbox := by
  refine follows.hands (fun _ => ?_) fun held => ?_
  · rw [roomFor]
    split
    · exact Nat.min_le_left _ _
    · exact Nat.le_refl _
  · have room := follows.capacity
    rw [roomFor,held,follows.listened .requests (.inl rfl),Bool.and_self,if_pos rfl,room]
    exact Nat.min_le_right _ _

/-- Snapshots are taken one after the other, and the rest goes on waiting. -/
theorem Follows.readInbox (follows : Follows room start fed waiting sofar.1 (past ++ sofar.2)) :
    let final := readInbox sofar waiting
    Follows room start fed final.1.state.inbox final.1 (past ++ final.2) := by
  induction waiting generalizing sofar with
  | nil => exact ⟨follows.listened,follows.capacity,follows.positive,follows.unread,follows.course⟩
  | cons m rest ih =>
    rw [Session.readInbox]
    split
    case isTrue ready =>
      have dry : sofar.1.state.task.accepts (.inbound m) = true := (Bool.and_eq_true_iff.mp ready).2
      have next := follows.takeNext (fun _ => dry) (fun _ same => nomatch same) fun events taken => taken.inbound
      exact ih next.handOver.1
    case isFalse => exact ⟨follows.listened,follows.capacity,follows.positive,follows.unread,follows.course⟩

theorem Follows.finish (follows : Follows room start fed waiting s done) :
    Follows room start fed waiting s.finish done := by
  rw [Tasks.Session.finish]
  split
  · obtain ⟨events,all,course,reports,rest,_⟩ := follows.course
    exact ⟨follows.listened,follows.capacity,follows.positive,follows.unread,events,all,course,reports,rest,
      fun goes => absurd goes Bool.false_ne_true⟩
  · exact follows

theorem Follows.settle (sofar : Session × List Action)
    (follows : Follows room start fed sofar.1.state.inbox sofar.1 (past ++ sofar.2)) :
    let final := settle sofar
    Follows room start fed final.1.state.inbox final.1 (past ++ final.2) := by
  obtain ⟨handed,inbox⟩ := follows.handOver
  rw [← inbox] at handed
  have read := handed.readInbox
  have inboxes (s : Session) : s.finish.state.inbox = s.state.inbox := by rw [Tasks.Session.state_finish]
  simp only [Session.settle]
  split
  · rw [inboxes]
    exact read.finish
  · exact read

theorem inbox_take (listened : ∀ queue, Writes queue → s.isOpen queue = true) (e : Event) :
    (s.take e).1.state.inbox = s.state.inbox := by
  cases running : s.isRunning with
  | false => rw [take_of_ended running]
  | true => rw [take_of_running listened running]

/-- The task takes all but snapshots at once. -/
theorem Follows.aside {e : Event} (sofar : Session × List Action)
    (follows : Follows room start fed sofar.1.state.inbox sofar.1 (past ++ sofar.2))
    (ready : ∀ t : Replication, t.accepts e = true) (other : snapshots [e] = []) (free : e ≠ .room) :
    let final := Session.settle (Session.takeNext sofar e)
    Follows room start (fed ++ [e]) final.1.state.inbox final.1 (past ++ final.2) := by
  have next := follows.takeNext (fun _ => ready _) (fun _ same => absurd same free)
    fun events taken => taken.aside other
  have inbox : (Session.takeNext sofar e).1.state.inbox = sofar.1.state.inbox := inbox_take follows.listened e
  rw [← inbox] at next
  exact next.settle _

/-! ### Runs -/

theorem takeNext_nil (s : Session) (e : Event) : takeNext (s,[]) e = s.take e := by
  simp [Session.takeNext]

theorem Follows.feed {e : Event} (sent : (source? e).isSome = true)
    (follows : Follows room start fed s.state.inbox s done) :
    Follows room start (fed ++ if (source? e).all s.isOpen then [e] else []) (s.feed e).1.state.inbox (s.feed e).1
      (done ++ (s.feed e).2) := by
  have now : Follows room start fed s.state.inbox s (done ++ []) := (List.append_nil done).symm ▸ follows
  unfold Session.feed
  by_cases here : (source? e).all s.isOpen = true
  · rw [if_pos here,if_pos here]
    cases e with
    | inbound m =>
      obtain ⟨events,all,course,reports,rest,taken⟩ := now.course
      let arrived : Session := { s with state := { s.state with inbox := s.state.inbox ++ [m] } }
      have next : Follows room start (fed ++ [.inbound m]) arrived.state.inbox arrived (done ++ []) :=
        ⟨now.listened,now.capacity,now.positive,now.unread,events,all,course,reports,rest,
          fun running => (taken running).arrives m⟩
      exact next.settle (arrived,[])
    | resolved r =>
      simp only [← takeNext_nil]
      exact now.aside (s,[]) (fun _ => rfl) rfl nofun
    | car state =>
      simp only [← takeNext_nil]
      exact now.aside (s,[]) (fun _ => rfl) rfl nofun
    | membership alive =>
      simp only [← takeNext_nil]
      exact now.aside (s,[]) (fun _ => rfl) rfl nofun
    | room => cases sent
    | tick => cases sent
  · rw [if_neg here,if_neg here,List.append_nil fed]
    exact now

theorem Follows.ticks (sofar : Session × List Action) (times : List Duration)
    (follows : Follows room start fed sofar.1.state.inbox sofar.1 (past ++ sofar.2)) :
    let final := (times.map fun _ => Event.tick).foldl (fun sofar e => Session.settle (Session.takeNext sofar e)) sofar
    Follows room start (fed ++ times.map fun _ => .tick) final.1.state.inbox final.1 (past ++ final.2) := by
  induction times generalizing sofar fed with
  | nil => exact (List.append_nil fed).symm ▸ follows
  | cons time rest ih =>
    have next := ih _ (follows.aside (e := .tick) sofar (fun _ => rfl) rfl nofun)
    rw [List.append_assoc] at next
    exact next

/-- The runs of a replication task while others read what it writes, with all that has come through a queue
    that was there, the ticks of the timer, and what has been done. -/
inductive Run (self : PeerId) (n : UInt8) (interval : Duration) (room : Nat) :
    Session → List Event → List Action → Prop where
  | start : Run self n interval room (.new self n interval room) [] []
  | feed {s : Session} {fed : List Event} {done : List Action} {e : Event} : (source? e).isSome = true →
      Run self n interval room s fed done →
      Run self n interval room (s.feed e).1 (fed ++ if (source? e).all s.isOpen then [e] else [])
        (done ++ (s.feed e).2)
  | pass {s : Session} {fed : List Event} {done : List Action} (ms : Duration) :
      Run self n interval room s fed done →
      Run self n interval room (s.pass ms).1
        (fed ++ (ticksWithin s.state.interval s.state.elapsed ms).map fun _ => .tick) (done ++ (s.pass ms).2)
  | hold {s : Session} {fed : List Event} {done : List Action} :
      Run self n interval room s fed done → Run self n interval room s.hold fed done
  | release {s : Session} {fed : List Event} {done : List Action} :
      Run self n interval room s fed done → Run self n interval room s.release.1 fed (done ++ s.release.2)
  | shut {s : Session} {fed : List Event} {done : List Action} {queue : Queue} : ¬ Writes queue →
      Run self n interval room s fed done →
      Run self n interval room (s.shut queue).1 fed (done ++ (s.shut queue).2)

theorem Run.follows {self : PeerId} {n : UInt8} {interval : Duration} (positive : 0 < room)
    (run : Run self n interval room s fed done) :
    Follows room (.new self n) fed s.state.inbox s done := by
  induction run with
  | start => exact ⟨fun _ _ => rfl,rfl,positive,fun _ => rfl,[],[],.start,rfl,rfl,fun _ => ⟨rfl,rfl⟩⟩
  | feed sent _ ih => exact ih.feed sent
  | @pass s fed done ms _ ih =>
    have now : Follows room (.new self n) fed s.state.inbox s (done ++ []) := (List.append_nil done).symm ▸ ih
    have later := now.ticks (s,[]) (ticksWithin s.state.interval s.state.elapsed ms)
    exact ⟨later.listened,later.capacity,later.positive,later.unread,later.course⟩
  | hold _ ih => exact ⟨ih.listened,ih.capacity,ih.positive,nofun,ih.course⟩
  | @release s fed done _ ih =>
    obtain ⟨events,all,course,reports,rest,taken⟩ := ih.course
    -- The reports that were unread are read before the task goes on.
    let listening : Session := { s with state := { s.state with held := false, unread := [] } }
    have handedOver : handed (done ++ s.state.unread.map .toRequests) = handed all := by
      rw [handed_append,handed_map,reports]
    have next : Follows room (.new self n) fed listening.state.inbox listening
        (done ++ s.state.unread.map .toRequests) := by
      refine ⟨ih.listened,ih.capacity,positive,fun _ => rfl,events,all,?_,?_,?_,taken⟩
      · rw [handedOver,reports,List.length_append]
        exact course.readOn (Nat.le_of_eq (by rw [reports,List.length_append]))
      · rw [handedOver]
        exact (List.append_nil _).symm
      · rw [others_append,others_map,List.append_nil,rest]
    exact next.settle (listening,s.state.unread.map .toRequests)
  | @shut s fed done queue read _ ih =>
    obtain ⟨events,all,course,reports,rest,taken⟩ := ih.course
    have next : Follows room (.new self n) fed (s.close queue).state.inbox (s.close queue) (done ++ []) := by
      rw [List.append_nil]
      refine ⟨fun other writes => ?_,ih.capacity,positive,ih.unread,events,all,course,reports,rest,taken⟩
      have apart : other ≠ queue := fun same => read (same ▸ writes)
      exact (Tasks.Session.isOpen_close apart).trans (ih.listened other writes)
    have apart : queue ≠ .requests := fun same => read (.inl same)
    rw [Session.shut,if_neg apart]
    exact next.settle (s.close queue,[])

/-- What a replication task does under way is a course of the task, whose queue of reports is as long as its
    reader leaves it. All but the last reports that it has handed over have been read, and all else is done. As
    long as it runs, it has taken all that was fed, each kind in its order, but for the snapshots in the inbox. -/
theorem Run.course {self : PeerId} {n : UInt8} {interval : Duration} (positive : 0 < room)
    (run : Run self n interval room s fed done) :
    ∃ events all, Course room (.new self n) s.state.task events all (handed done).length ∧
      handed all = handed done ++ s.state.unread ∧ others all = others done ∧
      (s.isRunning = true → asides events = asides fed ∧ snapshots events ++ s.state.inbox = snapshots fed) := by
  obtain ⟨events,all,course,reports,rest,taken⟩ := (run.follows positive).course
  exact ⟨events,all,course,reports,rest,fun running => ⟨(taken running).apart,(taken running).read⟩⟩

theorem Run.feeds {self : PeerId} {n : UInt8} {interval : Duration} (sofar : Session × List Action)
    (messages : List Broadcast) (run : Run self n interval room sofar.1 fed (past ++ sofar.2)) :
    let final := messages.foldl (fun (s,done) m =>
      ((s.feed (.inbound m)).1,done ++ (s.feed (.inbound m)).2)) sofar
    ∃ more, Run self n interval room final.1 (fed ++ more) (past ++ final.2) := by
  induction messages generalizing sofar fed with
  | nil => exact ⟨[],(List.append_nil fed).symm ▸ run⟩
  | cons m rest ih =>
    have next := run.feed (e := .inbound m) rfl
    rw [List.append_assoc] at next
    obtain ⟨more,ends⟩ := ih ((sofar.1.feed (.inbound m)).1,sofar.2 ++ (sofar.1.feed (.inbound m)).2) next
    rw [List.append_assoc] at ends
    exact ⟨_,ends⟩

/-- Several snapshots are fed one by one. -/
theorem Run.feedInbound {self : PeerId} {n : UInt8} {interval : Duration} (run : Run self n interval room s fed done)
    (messages : List Broadcast) :
    ∃ more, Run self n interval room (s.feedInbound messages).1 (fed ++ more) (done ++ (s.feedInbound messages).2) :=
  Run.feeds (s,[]) messages ((List.append_nil done).symm ▸ run)

end Session
end ElevatorFleet.Tasks.Replication
