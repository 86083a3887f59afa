import ElevatorFleet.Proofs.Backlog
import ElevatorFleet.Proofs.Liveness
import ElevatorFleet.Tasks.Transport

/-!
# Tasks under way

A session takes what comes through the queues that are still there, and ends with the queues that it reads. As
long as others read what it writes, it does about what it takes just what its task does: the board of a request
task is where a run takes it (`Requests.Session.Course.follows`), a liveness task sends what it sends about the
same events at their times (`Liveness.Session.Course.informed`), and a transport task hands on what the datagrams
hold (`Transport.Session.Course.follows`).
-/
namespace ElevatorFleet.Tasks

/-! ### The request task -/

namespace Requests.Session
variable {first : CallBoard} {s : Session} {events : List Event} {done : List Action}

/-- The event, if the task takes it when it is sent. -/
def taken (s : Session) (e : Event) : List Event := if s.isRunning && s.isOpen (source e) then [e] else []

/-- The runs of a request task while the other tasks read what it tells them, with the events that it has taken
    and what it has done. -/
inductive Course (first : CallBoard) : Session → List Event → List Action → Prop where
  | start : Course first (.start first) [] []
  | feed {s : Session} {events : List Event} {done : List Action} (e : Event) : Course first s events done →
      Course first (s.feed e).1 (events ++ s.taken e) (done ++ (s.feed e).2)
  | shut {s : Session} {events : List Event} {done : List Action} {queue : Queue} :
      queue = .updates ∨ queue = .alive → Course first s events done → Course first (s.shut queue) events done

/-- The replication task and the order task read what they are told. -/
structure Listened (s : Session) : Prop where
  replication : s.isOpen .replication = true
  orders : s.isOpen .orders = true

/-- An event takes the board where it takes it in a run. -/
theorem feed_eq (listened : s.Listened) (e : Event) :
    s.feed e = ({ s with state := (run s.state (s.taken e)).1 },(run s.state (s.taken e)).2) := by
  have listens : ∀ a ∈ (react s.state e).2, ∀ queue ∈ a.target?, s.isOpen queue = true := by
    intro a _ queue target
    cases a with
    | lamp => cases target
    | toReplication r => cases target; exact listened.replication
    | toOrders r => cases target; exact listened.orders
  by_cases here : s.isOpen (source e) = true
  · rw [feed,if_pos here]
    cases running : s.isRunning with
    | false =>
      have nothing : s.taken e = [] := by simp [taken,running]
      rw [nothing]
      exact Tasks.Session.advance_of_ended running _ _ _ _
    | true =>
      have one : s.taken e = [e] := by simp [taken,running,here]
      rw [one]
      exact Tasks.Session.advance_of_running running _ _ listens
  · have nothing : s.taken e = [] := by simp [taken,here]
    rw [feed,if_neg here,nothing]
    rfl

theorem Course.listened (course : Course first s events done) : s.Listened := by
  induction course with
  | start => exact ⟨rfl,rfl⟩
  | feed e _ ih => rw [feed_eq ih]; exact ⟨ih.replication,ih.orders⟩
  | @shut s _ _ queue read _ ih =>
    obtain ⟨_,others⟩ : _ ∧ ∀ other, other ≠ queue → (s.shut queue).isOpen other = s.isOpen other :=
      Tasks.Session.close_keeps s queue _
    refine ⟨(others _ ?_).trans ih.replication,(others _ ?_).trans ih.orders⟩
    · rintro rfl; simp at read
    · rintro rfl; simp at read

/-- The events that it has taken take the board of a request task where it is, and it has done all that this
    takes. -/
theorem Course.follows (course : Course first s events done) : run first events = (s.state,done) := by
  induction course with
  | start => rfl
  | @feed s events done e before ih =>
    have later := CallBoard.foldl_react (s.taken e) (s.state,done)
    rw [feed_eq before.listened,run,List.foldl_append]
    rw [run] at ih
    rw [ih]
    exact later
  | @shut s _ _ queue _ _ ih =>
    have state : (s.shut queue).state = s.state := (Tasks.Session.close_keeps s queue _).1
    rw [ih,state]

end Requests.Session

/-! ### The liveness task -/

theorem le_of_mem_ticksWithin {interval now ms time : Nat} (ticks : time ∈ ticksWithin interval now ms) :
    now ≤ time ∧ time ≤ now + ms := by
  obtain ⟨k,inside,rfl⟩ := List.mem_map.mp ticks
  have room := List.mem_range.mp inside
  have next : now < (now / interval + 1) * interval := by
    rw [Nat.mul_comm]
    refine Nat.lt_mul_div_succ now (Nat.pos_of_ne_zero ?_)
    rintro rfl
    simp at room
  have last : (now / interval + 1 + k) * interval ≤ (now + ms) / interval * interval :=
    Nat.mul_le_mul_right interval (by omega)
  refine ⟨next.le.trans (Nat.mul_le_mul_right interval (by omega)),last.trans (Nat.div_mul_le_self _ _)⟩

theorem pairwise_ticksWithin (interval now ms : Nat) : (ticksWithin interval now ms).Pairwise (· ≤ ·) := by
  refine List.pairwise_map.mpr (List.pairwise_lt_range.imp fun {a b} less => ?_)
  exact Nat.mul_le_mul_right interval (by omega)

namespace Liveness.Session
variable {first : State} {s : Session} {events : List (Instant × Event)} {done : List Notice}

def now (s : Session) : Instant := s.state.epoch + s.state.elapsed

/-- The event with its instant, if the task is still there to take it. -/
def taken (s : Session) (e : Event) : List (Instant × Event) := if s.isRunning then [(s.now,e)] else []

/-- The runs of a liveness task while every subscriber reads what it is told, with the events that it has taken
    and what it has sent. -/
inductive Course (first : State) : Session → List (Instant × Event) → List Notice → Prop where
  | start : Course first (.start first) [] []
  | take {s : Session} {events : List (Instant × Event)} {done : List Notice} (e : Event) :
      Course first s events done → Course first (s.take e).1 (events ++ s.taken e) (done ++ (s.take e).2)
  | wait {s : Session} {events : List (Instant × Event)} {done : List Notice} {elapsed : Duration} :
      s.state.elapsed ≤ elapsed → Course first s events done → Course first (s.setElapsed elapsed) events done
  | shut {s : Session} {events : List (Instant × Event)} {done : List Notice} :
      Course first s events done → Course first (s.shut .signals) events done

/-- What is known of a liveness task that all its subscribers listen to. -/
structure Informed (first : State) (s : Session) (events : List (Instant × Event)) (done : List Notice) : Prop where
  listened : ∀ name, s.isOpen (.subscriber name) = true
  subscribers : s.state.subscribers = first.subscribers
  presence : s.state.presence = after first.presence events
  done : done = sent first.subscribers first.presence events
  /-- Nothing has happened later than now, and nothing earlier than what came before it. -/
  past : ∀ event ∈ events, event.1 ≤ s.now
  ordered : (events.map Prod.fst).Pairwise (· ≤ ·)

theorem take_eq (listened : ∀ name, s.isOpen (.subscriber name) = true) (e : Event) :
    s.take e = ({ s with state := { s.state with presence := after s.state.presence (s.taken e) } },
      sent s.state.subscribers s.state.presence (s.taken e)) := by
  rw [take]
  cases running : s.isRunning with
  | false =>
    have nothing : s.taken e = [] := by simp [taken,running]
    rw [nothing]
    exact Tasks.Session.advance_of_ended running _ _ _ _
  | true =>
    have one : s.taken e = [(s.now,e)] := by simp [taken,running]
    rw [one,sent,sent,List.append_nil]
    refine Tasks.Session.advance_of_running running _ _ fun notice _ queue target => ?_
    cases target
    exact listened notice.subscriber

theorem sent_append (subscribers : List String) (p : Presence) (run more : List (Instant × Event)) :
    sent subscribers p (run ++ more) = sent subscribers p run ++ sent subscribers (after p run) more := by
  rw [sent_eq,sent_eq,sent_eq,published_append,List.flatMap_append]

theorem Informed.take (informed : Informed first s events done) (e : Event) :
    Informed first (s.take e).1 (events ++ s.taken e) (done ++ (s.take e).2) := by
  obtain ⟨listened,subscribers,presence,rfl,past,ordered⟩ := informed
  rw [take_eq listened e]
  have present : ∀ event ∈ s.taken e, event.1 = s.now := by
    intro event member
    rw [taken] at member
    split at member
    · rw [List.mem_singleton.mp member]
    · cases member
  have earlier : ∀ event ∈ events ++ s.taken e, event.1 ≤ s.now := by
    intro event member
    rcases List.mem_append.mp member with before | last
    · exact past event before
    · exact (present event last).le
  refine ⟨listened,subscribers,?_,?_,earlier,?_⟩
  · rw [presence]
    exact List.foldl_append.symm
  · rw [sent_append,subscribers,presence]
  · rw [List.map_append]
    refine List.pairwise_append.mpr ⟨ordered,?_,?_⟩
    · rw [taken]
      split <;> simp
    · intro a inside b last
      obtain ⟨event,member,rfl⟩ := List.mem_map.mp inside
      obtain ⟨latest,here,rfl⟩ := List.mem_map.mp last
      exact (present latest here).symm ▸ past event member

/-- A liveness task has sent, event by event, what the run of the same events sends. -/
theorem Course.informed (course : Course first s events done) : Informed first s events done := by
  induction course with
  | start => exact ⟨fun _ => rfl,rfl,rfl,rfl,nofun,.nil⟩
  | take e _ ih => exact ih.take e
  | wait later _ ih =>
    refine ⟨ih.listened,ih.subscribers,ih.presence,ih.done,fun event member => ?_,ih.ordered⟩
    exact (ih.past event member).trans (Nat.add_le_add_left later _)
  | @shut s _ _ _ ih =>
    obtain ⟨state,others⟩ : (s.shut .signals).state = s.state ∧ _ := Tasks.Session.close_keeps s .signals _
    refine ⟨fun name => (others (.subscriber name) nofun).trans (ih.listened name),state ▸ ih.subscribers,
      state ▸ ih.presence,ih.done,?_,ih.ordered⟩
    rw [now,state]
    exact ih.past

/-- A signal is taken or comes too late. -/
theorem Course.feed (course : Course first s events done) (signal : Signal) :
    ∃ later, Course first (s.feed signal).1 (events ++ later) (done ++ (s.feed signal).2) := by
  rw [Session.feed]
  split
  · exact ⟨_,course.take (.signal signal)⟩
  · exact ⟨[],by simpa using course⟩

theorem Course.ticks {sent : List (Duration × Notice)} {times : List Duration}
    (course : Course first s events (done ++ sent.map Prod.snd)) (ordered : times.Pairwise (· ≤ ·))
    (ahead : ∀ time ∈ times, s.state.elapsed ≤ time) :
    let final := times.foldl (fun (s,sent) time => (((s.setElapsed time).take .tick).1,
      sent ++ ((s.setElapsed time).take .tick).2.map fun notice => (time,notice))) (s,sent)
    (∃ later, Course first final.1 (events ++ later) (done ++ final.2.map Prod.snd)) ∧
      ∀ last, s.state.elapsed ≤ last → (∀ time ∈ times, time ≤ last) → final.1.state.elapsed ≤ last := by
  induction times generalizing s events sent with
  | nil => exact ⟨⟨[],by simpa using course⟩,fun last bound _ => bound⟩
  | cons time rest ih =>
    obtain ⟨least,tail⟩ := List.pairwise_cons.mp ordered
    have moved := course.wait (ahead time List.mem_cons_self)
    have ticked := moved.take .tick
    have clock : ((s.setElapsed time).take .tick).1.state.elapsed = time := by
      rw [take_eq moved.informed.listened]
      rfl
    have told : (((s.setElapsed time).take .tick).2.map fun notice => (time,notice)).map Prod.snd =
        ((s.setElapsed time).take .tick).2 := by simp [Function.comp_def]
    rw [List.append_assoc,← told,← List.map_append] at ticked
    obtain ⟨⟨later,ends⟩,bounded⟩ := ih ticked tail (by rw [clock]; exact least)
    rw [clock] at bounded
    refine ⟨⟨_ ++ later,List.append_assoc _ _ later ▸ ends⟩,fun last _ within => ?_⟩
    exact bounded last (within time List.mem_cons_self) fun t member => within t (List.mem_cons_of_mem _ member)

/-- While time passes the timer ticks, and nothing else happens. -/
theorem Course.pass (course : Course first s events done) (ms : Duration) :
    ∃ later, Course first (s.pass ms).1 (events ++ later) (done ++ (s.pass ms).2.map Prod.snd) := by
  have silent : Course first s events (done ++ ([] : List (Duration × Notice)).map Prod.snd) := by simpa using course
  obtain ⟨⟨later,ends⟩,bounded⟩ := silent.ticks (pairwise_ticksWithin s.state.interval s.state.elapsed ms)
    fun time ticks => (le_of_mem_ticksWithin ticks).1
  have inTime := bounded (s.state.elapsed + ms) (Nat.le_add_right _ _) fun time ticks => (le_of_mem_ticksWithin ticks).2
  exact ⟨later,.wait inTime ends⟩

end Liveness.Session

/-! ### The transport task -/

namespace Transport.Session
variable {first : Transport} {s : Session} {datagrams : List Bytes} {done : List Broadcast}

/-- The runs of a transport task while the replication task reads what it hands on, with the datagrams that it
    has taken and the broadcasts that it has handed on. -/
inductive Course (first : Transport) : Session → List Bytes → List Broadcast → Prop where
  | start : Course first (.start first) [] []
  | take {s : Session} {datagrams : List Bytes} {done : List Broadcast} (datagram : Bytes) :
      Course first s datagrams done →
      Course first (s.take datagram).1 (if s.isRunning then datagrams ++ [datagram] else datagrams)
        (done ++ (s.take datagram).2)
  | shut {s : Session} {datagrams : List Bytes} {done : List Broadcast} :
      Course first s datagrams done → Course first (s.shut .outbound) datagrams done

/-- What is known of a transport task whose broadcasts are read. -/
structure Informed (first : Transport) (s : Session) (datagrams : List Bytes) (done : List Broadcast) : Prop where
  listened : s.isOpen .inbound = true
  state : s.state = first
  done : done = datagrams.filterMap receive

theorem Course.informed (course : Course first s datagrams done) : Informed first s datagrams done := by
  induction course with
  | start => exact ⟨rfl,rfl,rfl⟩
  | @take s datagrams done datagram _ ih =>
    rw [Session.take]
    cases running : s.isRunning with
    | false =>
      rw [Tasks.Session.advance_of_ended running,List.append_nil]
      exact ih
    | true =>
      rw [Tasks.Session.advance_of_running running _ _ fun _ _ queue target => by cases target; exact ih.listened]
      refine ⟨ih.listened,ih.state,?_⟩
      rw [if_pos rfl,List.filterMap_append,ih.done]
      cases broadcast : receive datagram <;> simp [broadcast]
  | @shut s _ _ _ ih =>
    obtain ⟨state,others⟩ : (s.shut .outbound).state = s.state ∧ _ := Tasks.Session.close_keeps s .outbound _
    exact ⟨(others .inbound nofun).trans ih.listened,state.trans ih.state,ih.done⟩

/-- A transport task hands on, in their order, the broadcasts among the datagrams that come in while it is
    there, and as long as it is there and is given broadcasts, it sends them as it did at the beginning. -/
theorem Course.follows (course : Course first s datagrams done) : done = datagrams.filterMap receive ∧
    ∀ m unlucky, s.isRunning = true → s.isOpen .outbound = true → s.feed m unlucky = first.send m unlucky := by
  obtain ⟨_,state,told⟩ := course.informed
  refine ⟨told,fun m unlucky running given => ?_⟩
  rw [feed,running,given,← state]
  rfl

end Transport.Session
end ElevatorFleet.Tasks
