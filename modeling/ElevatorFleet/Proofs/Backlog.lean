import Mathlib.Data.List.Induction
import ElevatorFleet.Proofs.Decisions

/-!
# The backlog

The replication task reads a snapshot when its backlog is empty, and hands the reports in it over when
there is room for them, while it takes whatever else comes in. On this way no report is lost, none is
handed over twice, and none overtakes another (`snapshots_delivered`); the sign of life and the state of the car
in each snapshot go out at once.
-/
namespace ElevatorFleet.Tasks.Replication
variable {self : PeerId} {n : UInt8} {start t : Replication} {capacity read : Nat} {e : Event} {events : List Event}
  {done : List Action}

/-- What has been put into the queue of the request task. -/
def handed (done : List Action) : List Report :=
  done.filterMap fun action => match action with
    | .toRequests r => some r
    | _ => none

/-- What has been sent to the liveness task. -/
def signals (done : List Action) : List Signal :=
  done.filterMap fun action => match action with
    | .toLiveness s => some s
    | _ => none

/-- What has been sent to the order task. -/
def carReports (done : List Action) : List CarReport :=
  done.filterMap fun action => match action with
    | .toOrders c => some c
    | _ => none

/-- The snapshots of other controllers among the events. -/
def foreign (self : PeerId) (events : List Event) : List Broadcast :=
  events.filterMap fun e => match e with
    | .inbound m => if m.source = self then none else some m
    | _ => none

/-- What the replica makes of an event, if it is a snapshot. -/
def absorbed (t : Replication) : Event → Option Absorbed
  | .inbound m => (t.replica.absorb m).2
  | _ => none

/-- What the replica makes of the snapshots among the events, each compared with the registry of its
    time. -/
def harvest (t : Replication) : List Event → List Absorbed
  | [] => []
  | e :: rest => (t.absorbed e).toList ++ (t.react e).1.harvest rest

/-- The task has taken `events`, each when it was ready for it, and `done` about them what it does. Of the
    reports that it has put into the queue of the request task, which holds `capacity`, the first
    `read` have been read. -/
inductive Course (capacity : Nat) (start : Replication) :
    Replication → List Event → List Action → Nat → Prop where
  | start : Course capacity start start [] [] 0
  | take {t : Replication} {events : List Event} {done : List Action} {read : Nat} (e : Event) :
      Course capacity start t events done read → t.accepts e = true →
      (e = .room → (handed done).length < read + capacity) →
      Course capacity start (t.react e).1 (events ++ [e]) (done ++ (t.react e).2) read
  | read {t : Replication} {events : List Event} {done : List Action} {read : Nat} :
      Course capacity start t events done read → read < (handed done).length →
      Course capacity start t events done (read + 1)

/-! ### One event -/

theorem self_react (t : Replication) (e : Event) : (t.react e).1.replica.self = t.replica.self := by
  cases e with
  | inbound m =>
    by_cases own : m.source = t.replica.self
    · simp [react,Replica.absorb,own]
    · simp [react,Replica.absorb,own]
  | car state => rw [react]; split <;> rfl
  | room => rw [react]; split <;> rfl
  | resolved r => rfl
  | membership alive => rfl
  | tick => rfl

/-- The reports of a snapshot join the backlog at its end, and leave it from its front. -/
theorem backlog_react (t : Replication) (e : Event) : handed (t.react e).2 ++ (t.react e).1.backlog =
    t.backlog ++ (t.absorbed e).toList.flatMap Absorbed.reports := by
  cases e with
  | inbound m =>
    by_cases own : m.source = t.replica.self
    · simp [react,absorbed,Replica.absorb,own,handed]
    · simp [react,absorbed,Replica.absorb,own,handed]
  | car state => rw [react]; split <;> simp [handed,absorbed]
  | room =>
    rw [react]
    cases waiting : t.backlog with
    | nil => simp [handed,absorbed,waiting]
    | cons r rest => simp [handed,absorbed]
  | tick => cases sends : t.replica.outbound <;> simp [react,handed,absorbed,sends]
  | resolved r => simp [react,handed,absorbed]
  | membership alive => simp [react,handed,absorbed]

theorem handed_react (t : Replication) (other : e ≠ .room) : handed (t.react e).2 = [] := by
  cases e with
  | inbound m =>
    by_cases own : m.source = t.replica.self
    · simp [react,Replica.absorb,own,handed]
    · simp [react,Replica.absorb,own,handed]
  | car state => rw [react]; split <;> rfl
  | tick => cases sends : t.replica.outbound <;> simp [react,handed,sends]
  | room => exact absurd rfl other
  | resolved r => rfl
  | membership alive => rfl

/-- Each snapshot of another controller gives one sign of life. -/
theorem signals_react (own : t.replica.self = self) (e : Event) :
    signals (t.react e).2 = (foreign self [e]).map fun m => ⟨m.source,true⟩ := by
  subst own
  cases e with
  | inbound m =>
    by_cases own : m.source = t.replica.self
    · simp [react,Replica.absorb,own,signals,foreign]
    · simp [react,Replica.absorb,own,signals,foreign]
  | car state => rw [react]; split <;> rfl
  | room => rw [react]; split <;> rfl
  | tick => cases sends : t.replica.outbound <;> simp [react,signals,foreign,sends]
  | resolved r => rfl
  | membership alive => rfl

/-- And the state of one car; all else that is told of cars is about the own one. -/
theorem carReports_react (own : t.replica.self = self) (e : Event) :
    (carReports (t.react e).2).filter (fun c => c.peer ≠ self) =
      (foreign self [e]).map fun m => ⟨m.source,m.car⟩ := by
  subst own
  cases e with
  | inbound m =>
    by_cases own : m.source = t.replica.self
    · simp [react,Replica.absorb,own,carReports,foreign]
    · simp [react,Replica.absorb,own,carReports,foreign]
  | car state => rw [react]; split <;> simp [carReports,foreign]
  | room => rw [react]; split <;> rfl
  | tick => cases sends : t.replica.outbound <;> simp [react,carReports,foreign,sends]
  | resolved r => rfl
  | membership alive => rfl

/-! ### The course of a task -/

theorem harvest_snoc (t : Replication) (events : List Event) (e : Event) :
    t.harvest (events ++ [e]) = t.harvest events ++ ((t.after events).absorbed e).toList := by
  induction events generalizing t with
  | nil => exact List.append_nil _
  | cons first rest ih =>
    rw [List.cons_append,harvest,harvest,ih,List.append_assoc]
    rfl

theorem after_snoc (t : Replication) (events : List Event) (e : Event) :
    t.after (events ++ [e]) = ((t.after events).react e).1 := List.foldl_append

theorem self_after (t : Replication) (events : List Event) : (t.after events).replica.self = t.replica.self := by
  induction events using List.reverseRecOn with
  | nil => rfl
  | append_singleton past e ih => rw [after_snoc,self_react,ih]

/-- The snapshots among the events have been delivered: of their reports, in the order in which
    they came, those that are not handed over are the backlog, and the rest goes with each snapshot of
    another controller at once. -/
structure Delivered (start t : Replication) (events : List Event) (done : List Action) : Prop where
  state : t = start.after events
  reports : handed done ++ t.backlog = start.backlog ++ (start.harvest events).flatMap Absorbed.reports
  /-- A snapshot is taken with an empty backlog. -/
  taken : ∀ past m rest, events = past ++ .inbound m :: rest → (start.after past).backlog = []
  signals : signals done = (foreign start.replica.self events).map fun m => ⟨m.source,true⟩
  cars : (carReports done).filter (fun c => c.peer ≠ start.replica.self) =
    (foreign start.replica.self events).map fun m => ⟨m.source,m.car⟩

theorem Delivered.take (delivered : start.Delivered t events done) (e : Event) (accepts : t.accepts e = true) :
    start.Delivered (t.react e).1 (events ++ [e]) (done ++ (t.react e).2) := by
  obtain ⟨rfl,reports,taken,signs,cars⟩ := delivered
  have own := self_after start events
  refine ⟨(after_snoc start events e).symm,?_,?_,?_,?_⟩
  · have later := backlog_react (start.after events) e
    rw [harvest_snoc,List.flatMap_append,← List.append_assoc,← reports,List.append_assoc,← later,handed,
      List.filterMap_append,List.append_assoc]
    rfl
  · intro past m rest split
    rcases List.eq_nil_or_concat rest with rfl | ⟨before,last,rfl⟩
    · obtain ⟨rfl,same⟩ := List.append_inj' split rfl
      obtain rfl : e = .inbound m := by simpa using same
      simpa [Replication.accepts] using accepts
    · refine taken past m before ?_
      rw [List.concat_eq_append,← List.cons_append,← List.append_assoc] at split
      exact (List.append_inj' split rfl).1
  · have later := signals_react own e
    rw [Replication.signals,List.filterMap_append,foreign,List.filterMap_append,List.map_append]
    exact congrArg₂ (· ++ ·) signs later
  · have later := carReports_react own e
    rw [carReports,List.filterMap_append,List.filter_append,foreign,List.filterMap_append,List.map_append]
    exact congrArg₂ (· ++ ·) cars later

/-- No report of a snapshot is lost, handed over twice or overtaken by another, in whatever order the
    task takes what is ready, and however little the queue of the request task holds. -/
theorem snapshots_delivered (self : PeerId) (n : UInt8) (course : Course capacity (new self n) t events done read) :
    (new self n).Delivered t events done := by
  induction course with
  | start =>
    refine ⟨rfl,rfl,?_,rfl,rfl⟩
    intro past m rest split
    simp at split
  | take e _ accepts _ ih => exact ih.take e accepts
  | read _ _ ih => exact ih

/-- A snapshot that holds two calls confirmed. -/
def twice : Broadcast := ⟨⟨2⟩,⟨[.confirmed,.confirmed],[.unknown,.unknown],∅⟩,default⟩

/-- It is read two times by a controller that hands over one report at a time, and decides about the first
    in between. -/
def interleaved : List Event :=
  [.inbound twice,.room,.car default,.resolved (.of ⟨1⟩ (.hall 0 .up) .confirmed),.room,.inbound twice]

/-- Of the second reading only the report of the other call is left. -/
theorem interleaved_delivered : ∃ t done, Course 1 (new ⟨1⟩ 2) t interleaved done 1 ∧
    (new ⟨1⟩ 2).Delivered t interleaved done ∧
    handed done = [.of ⟨2⟩ (.hall 0 .up) .confirmed,.of ⟨2⟩ (.hall 1 .up) .confirmed] ∧
    t.backlog = [.of ⟨2⟩ (.hall 1 .up) .confirmed] ∧ signals done = [⟨⟨2⟩,true⟩,⟨⟨2⟩,true⟩] := by
  have first := (.start : Course 1 (new ⟨1⟩ 2) _ _ _ _)
    |>.take (.inbound twice) (by decide) (by simp)
    |>.take .room (by decide +kernel) (fun _ => by decide)
  have course := first.take (.car default) (by decide) (by simp)
    |>.take (.resolved (.of ⟨1⟩ (.hall 0 .up) .confirmed)) (by decide) (by simp)
    |>.read (by decide +kernel)
    |>.take .room (by decide +kernel) (fun _ => by decide +kernel)
    |>.take (.inbound twice) (by decide +kernel) (by simp)
  exact ⟨_,_,course,snapshots_delivered ⟨1⟩ 2 course,by decide +kernel,by decide +kernel,by decide +kernel⟩

end ElevatorFleet.Tasks.Replication
