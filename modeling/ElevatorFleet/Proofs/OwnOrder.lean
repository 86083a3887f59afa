import ElevatorFleet.Tasks.Orders

/-!
# The order of the own car

An order task does not remember what it has told its car; it compares every new assignment with the one before.
An assignment may leave the car out, or bring it back with the order that it had, and an assigner may fail in
between. Still, what the car was told last is its order in the last assignment, whenever that has one for it
(`own_order_current`).
-/
namespace ElevatorFleet.Tasks.Orders
open Std

/-- The orders that the task has given. -/
def given (done : List Action) : List Dispatch.Order :=
  done.filterMap fun action => match action with
    | .order o => some o
    | _ => none

theorem given_append (done later : List Action) : given (done ++ later) = given done ++ given later :=
  List.filterMap_append

/-- An order is sent if it is there and is not the one of the assignment before. -/
theorem adopt_eq_some {t : Orders} {a : Dispatch.Assignment} {order : Dispatch.Order} :
    (t.adopt a).2 = some order ↔ a[t.self]? = some order ∧ t.last[t.self]? ≠ some order := by
  simp only [adopt]
  split
  · rename_i same
    rw [← same]
    simp
  · rename_i changed
    constructor
    · intro row
      exact ⟨row,fun before => changed (row.trans before.symm)⟩
    · exact And.left

theorem adopt_eq_none {t : Orders} {a : Dispatch.Assignment} (same : a[t.self]? = t.last[t.self]?) :
    (t.adopt a).2 = none := if_pos same

theorem self_take (t : Orders) (e : Event) : (t.take e).self = t.self := by
  cases e <;> rfl

theorem last_take (t : Orders) (e : Event) : (t.take e).last = t.last := by
  cases e <;> rfl

namespace Session
variable {self : PeerId} {n : UInt8} {s : Session} {made : List Dispatch.Assignment} {sent : List Dispatch.Order}

/-- The assignment that the task gets at a tick: it is under way, the view is complete, and the assigner that
    it has does not fail. -/
def assigned? (s : Session) : Option Dispatch.Assignment :=
  if s.isRunning then s.state.assign?.bind fun assign => s.state.task.view.input?.bind assign else none

/-- The runs of an order task while its car listens, with the assignments made and the orders sent so far. The
    assigner, if there is one, may answer otherwise at every tick. -/
inductive Course (self : PeerId) (n : UInt8) : Session → List Dispatch.Assignment → List Dispatch.Order → Prop where
  | start (interval : Duration) (assign? : Option (Dispatch.Input → Option Dispatch.Assignment)) :
      Course self n (.start ⟨.new self n,assign?,interval,0⟩) [] []
  | feed {s : Session} {made : List Dispatch.Assignment} {sent : List Dispatch.Order} (e : Event) :
      Course self n s made sent → Course self n (s.feed e) made sent
  | assigner {s : Session} {made : List Dispatch.Assignment} {sent : List Dispatch.Order}
      (assign : Dispatch.Input → Option Dispatch.Assignment) :
      Course self n s made sent → Course self n (s.setAssigner assign) made sent
  | shut {s : Session} {made : List Dispatch.Assignment} {sent : List Dispatch.Order} {queue : Queue} :
      queue ≠ .orders → Course self n s made sent → Course self n (s.shut queue) made sent
  | wait {s : Session} {made : List Dispatch.Assignment} {sent : List Dispatch.Order} (elapsed : Duration) :
      Course self n s made sent → Course self n { s with state := { s.state with elapsed := elapsed } } made sent
  | tick {s : Session} {made : List Dispatch.Assignment} {sent : List Dispatch.Order} :
      Course self n s made sent → Course self n s.tick.1 (made ++ s.assigned?.toList) (sent ++ given s.tick.2)

/-! ### One tick -/

/-- While the car listens, nothing keeps a running task from its actions. -/
theorem advance_eq (running : s.isRunning = true) (listens : s.isOpen .orders = true) (next : State)
    (actions : List Action) :
    s.advance Action.target? (fun queue => QueueClosed.mk queue.name) next actions = ({ s with state := next },actions) := by
  refine Tasks.Session.advance_of_running running _ _ fun action _ queue target => ?_
  cases action with
  | ask i => cases target
  | order o => cases target; exact listens

theorem tick_of_none (listens : s.isOpen .orders = true) (nothing : s.assigned? = none) :
    s.tick.1 = s ∧ given s.tick.2 = [] := by
  cases has : s.state.assign? with
  | none => simp [tick,has,given]
  | some assign =>
    by_cases running : s.isRunning = true
    · rw [assigned?,if_pos running,has,Option.bind_some] at nothing
      have refreshed : s.state.task.refresh assign = (s.state.task,none) := by rw [refresh,nothing]
      rw [tick,has]
      simp only [refreshed,advance_eq running listens,true_and]
      cases s.state.task.view.input? with
      | none => rfl
      | some i => rfl
    · simp [tick,has,Tasks.Session.advance,running,given]

theorem tick_of_some (listens : s.isOpen .orders = true) {a : Dispatch.Assignment} (assigned : s.assigned? = some a) :
    s.tick.1 = { s with state := { s.state with task := (s.state.task.adopt a).1 } } ∧
      given s.tick.2 = (s.state.task.adopt a).2.toList := by
  rw [assigned?,Option.ite_none_right_eq_some] at assigned
  obtain ⟨running,answers⟩ := assigned
  obtain ⟨assign,has,answer⟩ := Option.bind_eq_some_iff.mp answers
  have refreshed : s.state.task.refresh assign = s.state.task.adopt a := by rw [refresh,answer]
  have asks : given (s.state.task.view.input?.map Action.ask).toList = [] := by
    cases s.state.task.view.input? with
    | none => rfl
    | some i => rfl
  rw [tick,has]
  simp only [refreshed,advance_eq running listens,true_and]
  rw [given_append,asks,List.nil_append]
  cases (s.state.task.adopt a).2 with
  | none => rfl
  | some order => rfl

/-! ### A whole run -/

/-- What holds all along a run. -/
structure Informed (own : PeerId) (s : Session) (made : List Dispatch.Assignment) (sent : List Dispatch.Order) :
    Prop where
  self : s.state.task.self = own
  listens : s.isOpen .orders = true
  last : s.state.task.last = made.getLastD .empty
  order : ∀ order, s.state.task.last[own]? = some order → sent.getLast? = some order

theorem Informed.tick (informed : Informed self s made sent) :
    Informed self s.tick.1 (made ++ s.assigned?.toList) (sent ++ given s.tick.2) := by
  cases answer : s.assigned? with
  | none =>
    obtain ⟨same,silent⟩ := tick_of_none informed.listens answer
    rw [same,silent,Option.toList_none,List.append_nil,List.append_nil]
    exact informed
  | some a =>
    obtain ⟨next,told⟩ := tick_of_some informed.listens answer
    rw [next,told,Option.toList_some]
    refine ⟨informed.self,informed.listens,List.getLastD_concat.symm,fun order row => ?_⟩
    -- Either the order is sent now, or the assignment before had it and the car has been told already.
    by_cases before : s.state.task.last[self]? = some order
    · have silent : (s.state.task.adopt a).2 = none := by
        refine adopt_eq_none ?_
        rw [informed.self,before]
        exact row
      rw [silent,Option.toList_none,List.append_nil]
      exact informed.order order before
    · have sends : (s.state.task.adopt a).2 = some order := by
        refine adopt_eq_some.mpr ?_
        rw [informed.self]
        exact ⟨row,before⟩
      rw [sends,Option.toList_some,List.getLast?_concat]

theorem Informed.feed (informed : Informed self s made sent) (e : Event) : Informed self (s.feed e) made sent := by
  rw [Session.feed]
  split
  · refine ⟨(self_take _ e).trans informed.self,informed.listens,(last_take _ e).trans informed.last,?_⟩
    intro order row
    rw [show (s.state.task.take e).last = _ from last_take _ e] at row
    exact informed.order order row
  · exact informed

theorem Informed.shut (informed : Informed self s made sent) {queue : Queue} (other : queue ≠ .orders) :
    Informed self (s.shut queue) made sent := by
  obtain ⟨state,others⟩ : (s.shut queue).state = s.state ∧ _ := Tasks.Session.close_keeps s queue _
  exact ⟨state ▸ informed.self,(others .orders other.symm).trans informed.listens,state ▸ informed.last,
    state ▸ informed.order⟩

theorem Course.informed (course : Course self n s made sent) : Informed self s made sent := by
  induction course with
  | start interval assign? =>
    refine ⟨rfl,rfl,rfl,fun order row => ?_⟩
    exact absurd row (by simp [Tasks.Session.start,Orders.new,Dispatch.Assignment.empty])
  | feed e _ ih => exact ih.feed e
  | assigner assign _ ih => exact ⟨ih.self,ih.listens,ih.last,ih.order⟩
  | shut other _ ih => exact ih.shut other
  | wait elapsed _ ih => exact ⟨ih.self,ih.listens,ih.last,ih.order⟩
  | tick _ ih => exact ih.tick

theorem Course.ticks {done : List Action} (times : List Nat) (course : Course self n s made (sent ++ given done)) :
    let final := times.foldl (fun (s,done) _ => (s.tick.1,done ++ s.tick.2)) (s,done)
    ∃ later, Course self n final.1 (made ++ later) (sent ++ given final.2) := by
  induction times generalizing s made done with
  | nil => exact ⟨[],(List.append_nil made).symm ▸ course⟩
  | cons time rest ih =>
    have next := course.tick
    rw [List.append_assoc,← given_append] at next
    obtain ⟨later,ends⟩ := ih next
    rw [List.append_assoc] at ends
    exact ⟨_,ends⟩

/-- While time passes the timer ticks, and nothing else happens. -/
theorem Course.pass (course : Course self n s made sent) (ms : Duration) :
    ∃ later, Course self n (s.pass ms).1 (made ++ later) (sent ++ given (s.pass ms).2) := by
  have silent : Course self n s made (sent ++ given []) := (List.append_nil sent).symm ▸ course
  obtain ⟨later,ends⟩ := silent.ticks (ticksWithin s.state.interval s.state.elapsed ms)
  exact ⟨later,.wait _ ends⟩

/-- In every run, whenever the last assignment made has an order for the own car, it is the order sent last. A
    tick sends an order exactly if it gets an assignment with an order for the car that the assignment before
    did not have for it. A tick without an assignment sends nothing and changes nothing. Time that passes
    brings ticks and nothing else. -/
theorem own_order_current (course : Course self n s made sent) :
    let last := made.getLastD .empty
    s.state.task.last = last ∧
    (∀ order, last[self]? = some order → sent.getLast? = some order) ∧
    (∀ order, order ∈ given s.tick.2 ↔
      ∃ a, s.assigned? = some a ∧ a[self]? = some order ∧ last[self]? ≠ some order) ∧
    (given s.tick.2).length ≤ 1 ∧
    (s.assigned? = none → s.tick.1 = s ∧ given s.tick.2 = []) ∧
    ∀ ms, ∃ later, Course self n (s.pass ms).1 (made ++ later) (sent ++ given (s.pass ms).2) := by
  intro last
  have informed := course.informed
  refine ⟨informed.last,?current,fun order => ?sends,?once,tick_of_none informed.listens,course.pass⟩
  case current =>
    intro order row
    exact informed.order order (informed.last ▸ row)
  case sends =>
    cases answer : s.assigned? with
    | none => simp [(tick_of_none informed.listens answer).2]
    | some a =>
      rw [(tick_of_some informed.listens answer).2,Option.mem_toList,adopt_eq_some,informed.self,
        informed.last]
      constructor
      · exact fun news => ⟨a,rfl,news⟩
      · rintro ⟨_,same,news⟩
        cases same
        exact news
  case once =>
    cases answer : s.assigned? with
    | none => simp [(tick_of_none informed.listens answer).2]
    | some a =>
      rw [(tick_of_some informed.listens answer).2]
      exact Option.length_toList_le

/-- A car is told its order, left out of an assignment after the assigner has failed once, and told the same
    order when it is back. -/
theorem returned_car_told : ∃ s made sent, Course ⟨1⟩ 2 s made sent ∧ made.length = 3 ∧ sent.length = 2 ∧
    sent.getLast? = some [⟨false,false,false⟩,⟨true,false,false⟩] := by
  have start : Course ⟨1⟩ 2 _ [] [] := .start 2000 (some fun i => some i.shareAll)
  have alone := (start.feed (.car ⟨⟨1⟩,default⟩)).feed (.membership (PeerSet.of [⟨1⟩]))
  have told := (alone.feed (.settled (.of ⟨2⟩ (.hall 1 .up) .confirmed))).tick
  have failed := (told.assigner fun _ => none).tick
  have left := (failed.assigner fun _ => some .empty).tick
  have back := (left.assigner fun i => some i.shareAll).tick
  exact ⟨_,_,_,back,by decide +kernel,by decide +kernel,(own_order_current back).2.1 _ (by decide +kernel)⟩

end Session
end ElevatorFleet.Tasks.Orders
