import ElevatorFleet.Tasks.Orders
import ElevatorFleet.Tasks.Replication
import ElevatorFleet.Proofs.Lifecycle
import ElevatorFleet.Proofs.Registry
import ElevatorFleet.Proofs.View

/-!
# Decisions and their copies

The request task tells the replication task and the order task the same: the status of the call
of every report that it has taken, and each call that a membership confirms (`Publishes`). Whoever
keeps a copy by these words alone, whatever else reaches it in between, holds what the board
holds: the registry the status of every served call, and the dispatch view whether it is
confirmed (`copies_mirror`). The view never hears of unconfirmed calls; this is no loss, since
a confirmed call does not become unconfirmed.
-/
namespace ElevatorFleet
open Std

namespace Tasks

/-- What a request task has sent to the replication task. -/
def Requests.resolved (done : List Action) : List Report :=
  done.filterMap fun action => match action with
    | .toReplication r => some r
    | _ => none

/-- What a request task has sent to the order task. -/
def Requests.settled (done : List Action) : List Report :=
  done.filterMap fun action => match action with
    | .toOrders r => some r
    | _ => none

/-- The decisions among the events of a replication task. -/
def Replication.decisions (events : List Event) : List Report :=
  events.filterMap fun e => match e with
    | .resolved r => some r
    | _ => none

/-- The replication task after several events. -/
def Replication.after (t : Replication) (events : List Event) : Replication := events.foldl (fun t e => (t.react e).1) t

/-- The decisions among the events of an order task. -/
def Orders.decisions (events : List Event) : List Report :=
  events.filterMap fun e => match e with
    | .settled r => some r
    | _ => none

/-- The order task after several events. -/
def Orders.after (t : Orders) (events : List Event) : Orders := events.foldl take t

end Tasks
open Tasks

namespace Call

/-- The status last told of a call. -/
def lastWord (call : Call) (s : Status) (r : Report) : Status :=
  if r.belief.status ≠ .unknown ∧ r.belief.call = call then r.belief.status else s

/-- The call is confirmed by what was last told of it, if only settled statuses count. -/
def lastSettled (call : Call) (on : Bool) (r : Report) : Bool :=
  if r.belief.status.isSettled = true ∧ r.belief.call = call then decide (r.belief.status = .confirmed) else on

end Call

namespace CallBoard
variable {b : CallBoard} {call : Call} {e : Requests.Event} {events : List Requests.Event} {told : List Report}

/-- What is told of an event: the status of the call of a report, or the calls that a membership
    confirms, each once and in any order. -/
inductive Tells (b : CallBoard) : Requests.Event → List Report → Prop where
  | report (r : Report) : Tells b (.report r) [.of b.self r.belief.call ((b.next (.report r)).status r.belief.call)]
  | membership (alive : PeerSet) {calls : List Call} : calls.Nodup →
      (∀ call, call ∈ calls ↔ b.status call ≠ .confirmed ∧ (b.next (.membership alive)).status call = .confirmed) →
      Tells b (.membership alive) (calls.map fun call => .of b.self call .confirmed)

/-- What is told in the course of several events. -/
inductive Publishes : CallBoard → List Requests.Event → List Report → Prop where
  | nil (b : CallBoard) : Publishes b [] []
  | cons {b : CallBoard} {e : Requests.Event} {rest : List Requests.Event} {told later : List Report} :
      Tells b e told → Publishes (b.next e) rest later → Publishes b (e :: rest) (told ++ later)

/-! ### What the request task tells -/

theorem nodup_pending (b : CallBoard) : b.pending.Nodup := by
  have distinct := b.statuses.distinct_keys_toList
  refine List.Pairwise.filterMap _ ?_ distinct
  rintro ⟨first,s⟩ ⟨second,t⟩ apart call one other two same
  obtain ⟨_,rfl⟩ : s = .unconfirmed ∧ first = call := by simpa using one
  obtain ⟨_,rfl⟩ : t = .unconfirmed ∧ second = other := by simpa using two
  exact apart (LawfulEqCmp.compare_eq_iff_eq.mpr same)

theorem mem_confirmed (b : CallBoard) (alive : PeerSet) (call : Call) :
    call ∈ (if alive = b.alive then [] else b.released alive) ↔
      b.status call ≠ .confirmed ∧ (b.next (.membership alive)).status call = .confirmed := by
  have cycles := congrArg Cycle.status (cycle_setAlive b alive call)
  rw [← next_membership] at cycles
  by_cases same : alive = b.alive
  · rw [if_pos same] at cycles
    rw [if_pos same]
    constructor
    · exact fun member => absurd member List.not_mem_nil
    · rintro ⟨before,after⟩
      exact absurd (cycles.symm.trans after) before
  · rw [if_neg same,Cycle.review] at cycles
    rw [if_neg same,mem_released]
    by_cases due : (b.cycle call).Due call alive
    · rw [if_pos due] at cycles
      refine iff_of_true due ⟨?_,cycles⟩
      rw [show b.status call = .unconfirmed from due.1]
      decide
    · rw [if_neg due] at cycles
      refine iff_of_false due ?_
      rintro ⟨before,after⟩
      exact before (cycles.symm.trans after)

theorem tells_decide (b : CallBoard) (e : Requests.Event) : b.Tells e ((Requests.decide b e).2.map (.mk b.self)) := by
  cases e with
  | report r => exact .report r
  | membership alive =>
    have beliefs : (b.setAlive alive).2.map (.mk b.self) =
        (if alive = b.alive then [] else b.released alive).map fun call => Report.of b.self call .confirmed := by
      rw [beliefs_setAlive]
      split
      · rfl
      · rw [List.map_map]
        rfl
    rw [Requests.decide,beliefs]
    refine .membership alive ?_ (mem_confirmed b alive)
    split
    · exact List.nodup_nil
    · exact (nodup_pending b).filter _

theorem resolved_publish (self : PeerId) (beliefs : List Belief) :
    Requests.resolved (beliefs.flatMap (Requests.publish self)) = beliefs.map (.mk self) ∧
      Requests.settled (beliefs.flatMap (Requests.publish self)) = beliefs.map (.mk self) := by
  induction beliefs with
  | nil => exact ⟨rfl,rfl⟩
  | cons belief rest ih =>
    obtain ⟨resolved,settled⟩ := ih
    rw [List.flatMap_cons,List.map_cons,← resolved]
    constructor
    · rw [Requests.resolved,List.filterMap_append,Requests.publish]
      split <;> rfl
    · rw [resolved,← settled,Requests.settled,List.filterMap_append,Requests.publish]
      split <;> rfl

theorem foldl_react (events : List Requests.Event) (s : CallBoard × List Requests.Action) :
    events.foldl (fun s e => ((Requests.react s.1 e).1,s.2 ++ (Requests.react s.1 e).2)) s =
      ((Requests.run s.1 events).1,s.2 ++ (Requests.run s.1 events).2) := by
  induction events generalizing s with
  | nil => simp [Requests.run]
  | cons e rest ih =>
    have run : Requests.run s.1 (e :: rest) = _ := ih ((Requests.react s.1 e).1,(Requests.react s.1 e).2)
    rw [List.foldl_cons,ih,run,List.append_assoc]

theorem run_cons (b : CallBoard) (e : Requests.Event) (rest : List Requests.Event) :
    Requests.run b (e :: rest) =
      ((Requests.run (b.next e) rest).1,(Requests.react b e).2 ++ (Requests.run (b.next e) rest).2) :=
  foldl_react rest (b.next e,(Requests.react b e).2)

theorem run_snoc (b : CallBoard) (events : List Requests.Event) (e : Requests.Event) :
    Requests.run b (events ++ [e]) = ((Requests.react (Requests.run b events).1 e).1,
      (Requests.run b events).2 ++ (Requests.react (Requests.run b events).1 e).2) := List.foldl_append

theorem run_publishes (b : CallBoard) (events : List Requests.Event) :
    (Requests.run b events).1 = b.after events ∧
      Requests.settled (Requests.run b events).2 = Requests.resolved (Requests.run b events).2 ∧
      b.Publishes events (Requests.resolved (Requests.run b events).2) := by
  induction events generalizing b with
  | nil => exact ⟨rfl,rfl,.nil b⟩
  | cons e rest ih =>
    obtain ⟨board,same,publishes⟩ := ih (b.next e)
    obtain ⟨resolved,settled⟩ := resolved_publish b.self (Requests.decide b e).2
    have reacts : (Requests.react b e).2 = (Requests.decide b e).2.flatMap (Requests.publish b.self) := rfl
    have first : Requests.resolved (Requests.run b (e :: rest)).2 =
        (Requests.decide b e).2.map (.mk b.self) ++ Requests.resolved (Requests.run (b.next e) rest).2 := by
      rw [run_cons,reacts,Requests.resolved,List.filterMap_append]
      exact congrArg (· ++ _) resolved
    have second : Requests.settled (Requests.run b (e :: rest)).2 =
        (Requests.decide b e).2.map (.mk b.self) ++ Requests.settled (Requests.run (b.next e) rest).2 := by
      rw [run_cons,reacts,Requests.settled,List.filterMap_append]
      exact congrArg (· ++ _) settled
    refine ⟨?_,?_,?_⟩
    · rw [run_cons]
      exact board
    · rw [first,second,same]
    · rw [first]
      exact .cons (tells_decide b e) publishes

/-! ### The last word about a call -/

/-- Of several confirmations, only one about the call itself counts. -/
theorem foldl_confirmations {α : Type} {word : α → Report → α} {yes : α} {self : PeerId}
    (about : ∀ s other, word s (.of self other .confirmed) = if other = call then yes else s) (calls : List Call)
    (s : α) : (calls.map fun call => Report.of self call .confirmed).foldl word s = if call ∈ calls then yes else s := by
  induction calls generalizing s with
  | nil => rfl
  | cons other rest ih =>
    rw [List.map_cons,List.foldl_cons,ih,about]
    by_cases same : other = call
    · simp [same]
    · simp [same,Ne.symm same]

/-- A membership confirms calls and does nothing else. -/
theorem status_membership {alive : PeerSet} {calls : List Call}
    (confirmed : ∀ call, call ∈ calls ↔
      b.status call ≠ .confirmed ∧ (b.next (.membership alive)).status call = .confirmed) (call : Call) :
    (b.next (.membership alive)).status call = if call ∈ calls then .confirmed else b.status call := by
  by_cases member : call ∈ calls
  · rw [if_pos member]
    exact ((confirmed call).mp member).2
  · rw [if_neg member]
    rcases status_next b call (.membership alive) with old | ⟨r,same,_⟩ | confirms
    · exact old
    · cases same
    · exact absurd ((confirmed call).mpr ⟨confirms.before,confirms.after⟩) member

theorem Tells.lastWord (tells : b.Tells e told) (call : Call) :
    told.foldl call.lastWord (b.status call) = (b.next e).status call := by
  cases tells with
  | report r =>
    rw [List.foldl_cons,List.foldl_nil,Call.lastWord,Report.of]
    by_cases about : r.belief.call = call
    · subst about
      by_cases known : (b.next (.report r)).status r.belief.call = .unknown
      · rw [if_neg fun both => both.1 known,known]
        exact unknown_next known
      · rw [if_pos ⟨known,rfl⟩]
    · rw [if_neg fun both => about both.2]
      exact (status_take_other about).symm
  | membership alive distinct confirmed =>
    have about : ∀ s other, call.lastWord s (.of b.self other .confirmed) = if other = call then .confirmed else s := by
      intro s other
      simp [Call.lastWord,Report.of]
    rw [status_membership confirmed,foldl_confirmations about]

theorem Tells.lastSettled (tells : b.Tells e told) (call : Call) :
    told.foldl call.lastSettled (decide (b.status call = .confirmed)) =
      decide ((b.next e).status call = .confirmed) := by
  cases tells with
  | report r =>
    rw [List.foldl_cons,List.foldl_nil,Call.lastSettled,Report.of]
    by_cases about : r.belief.call = call
    · subst about
      have passes := passes_next b r.belief.call (.report r)
      by_cases settled : ((b.next (.report r)).status r.belief.call).isSettled
      · rw [if_pos ⟨settled,rfl⟩]
      · rw [if_neg fun both => settled both.1]
        -- What is not settled was not confirmed before, and is not now.
        have before : b.status r.belief.call ≠ .confirmed := by
          intro held
          rw [held] at passes
          exact settled passes.settled
        have after : (b.next (.report r)).status r.belief.call ≠ .confirmed := by
          intro held
          rw [held] at settled
          exact settled rfl
        rw [decide_eq_false before,decide_eq_false after]
    · rw [if_neg fun both => about both.2]
      rw [show (b.next (.report r)).status call = b.status call from status_take_other about]
  | membership alive distinct confirmed =>
    have about : ∀ s other, call.lastSettled s (.of b.self other .confirmed) = if other = call then true else s := by
      intro s other
      simp [Call.lastSettled,Report.of,Status.isSettled]
    rw [status_membership confirmed,foldl_confirmations about]
    split <;> simp

/-- What follows the board from event to event by what it tells follows it throughout. -/
theorem Publishes.follow {α : Type} {word : α → Report → α} (view : CallBoard → α)
    (step : ∀ {b e told}, Tells b e told → told.foldl word (view b) = view (b.next e))
    (publishes : b.Publishes events told) : told.foldl word (view b) = view (b.after events) := by
  induction publishes with
  | nil b => rfl
  | cons tells _ ih =>
    rw [List.foldl_append,step tells]
    exact ih

theorem Publishes.lastWord (publishes : b.Publishes events told) (call : Call) :
    told.foldl call.lastWord (b.status call) = (b.after events).status call :=
  publishes.follow (fun b => b.status call) fun tells => tells.lastWord call

theorem Publishes.lastSettled (publishes : b.Publishes events told) (call : Call) :
    told.foldl call.lastSettled (decide (b.status call = .confirmed)) =
      decide ((b.after events).status call = .confirmed) :=
  publishes.follow (fun b => decide (b.status call = .confirmed)) fun tells => tells.lastSettled call

end CallBoard

/-! ### The copies -/

namespace Tasks.Replication
variable {n : UInt8} {t : Replication} {call : Call}

theorem decisions_append (past rest : List Event) : decisions (past ++ rest) = decisions past ++ decisions rest :=
  List.filterMap_append

theorem decisions_cons (e : Event) (rest : List Event) : decisions (e :: rest) = decisions [e] ++ decisions rest :=
  decisions_append [e] rest

theorem shaped_react (shaped : t.replica.registry.Shaped n.toNat) (e : Event) :
    (t.react e).1.replica.registry.Shaped n.toNat := by
  cases e with
  | resolved r => exact Registry.shaped_apply shaped r.belief
  | inbound m =>
    by_cases own : m.source = t.replica.self
    · simp only [react,Replica.absorb,if_pos own]
      exact shaped
    · simp only [react,Replica.absorb,if_neg own]
      exact Registry.shaped_diff shaped m.source m.registry
  | car state => rw [react]; split <;> exact shaped
  | room => rw [react]; split <;> exact shaped
  | membership alive => exact shaped
  | tick => exact shaped

/-- Only a decision changes what a registry holds of a served call. -/
theorem status_react (shaped : t.replica.registry.Shaped n.toNat) (served : call.floor < n) (e : Event) :
    (t.react e).1.replica.registry.status call =
      (decisions [e]).foldl call.lastWord (t.replica.registry.status call) := by
  cases e with
  | resolved r =>
    refine (Registry.status_apply shaped r.belief call).trans ?_
    show _ = call.lastWord (t.replica.registry.status call) r
    rw [Call.lastWord]
    by_cases about : r.belief.call = call
    · subst about
      simp [served]
    · simp [about]
  | inbound m =>
    by_cases own : m.source = t.replica.self
    · simp only [react,Replica.absorb,if_pos own]
      rfl
    · simp only [react,Replica.absorb,if_neg own]
      exact Registry.status_diff t.replica.registry m.source m.registry call
  | car state => rw [react]; split <;> rfl
  | room => rw [react]; split <;> rfl
  | membership alive => rfl
  | tick => rfl

theorem status_after (shaped : t.replica.registry.Shaped n.toNat) (served : call.floor < n) (inputs : List Event) :
    (t.after inputs).replica.registry.status call =
      (decisions inputs).foldl call.lastWord (t.replica.registry.status call) := by
  induction inputs generalizing t with
  | nil => rfl
  | cons e rest ih =>
    rw [decisions_cons,List.foldl_append,← status_react shaped served e]
    exact ih (shaped_react shaped e)

end Tasks.Replication

namespace Tasks.Orders
variable {n : UInt8} {t : Orders} {call : Call}

theorem decisions_cons (e : Event) (rest : List Event) : decisions (e :: rest) = decisions [e] ++ decisions rest :=
  List.filterMap_append (l := [e])

theorem shaped_take (shaped : t.view.Shaped n) (e : Event) : (t.take e).view.Shaped n := by
  cases e with
  | settled r => exact shaped.record r.belief
  | car r => exact shaped.setCar r
  | membership alive => exact ⟨shaped.floors,shaped.hall,shaped.cab⟩

/-- Only a settled decision changes what a view calls for on a served floor. -/
theorem isCalled_take (shaped : t.view.Shaped n) (served : call.floor < n) (e : Event) :
    (t.take e).view.isCalled call = (decisions [e]).foldl call.lastSettled (t.view.isCalled call) := by
  cases e with
  | settled r => exact Dispatch.View.isCalled_record_served shaped served r.belief
  | car r => exact Dispatch.View.isCalled_setCar t.view r call
  | membership alive =>
    cases call with
    | hall floor direction => cases direction <;> rfl
    | cab floor owner => rfl

theorem isCalled_after (shaped : t.view.Shaped n) (served : call.floor < n) (inputs : List Event) :
    (t.after inputs).view.isCalled call = (decisions inputs).foldl call.lastSettled (t.view.isCalled call) := by
  induction inputs generalizing t with
  | nil => rfl
  | cons e rest ih =>
    rw [decisions_cons,List.foldl_append,← isCalled_take shaped served e]
    exact ih (shaped_take shaped e)

end Tasks.Orders

namespace CallBoard

/-- Whenever the request task waits for its next event, it has sent the same to both tasks: one
    decision for each report and one for each call that a membership has confirmed. A
    replication task that takes the decisions, with anything else in between, holds the board's
    status of every served call, and an order task that does so shows which of them are confirmed. This
    does not depend on the order of the calls that one membership confirms. -/
theorem copies_mirror (self : PeerId) (n : UInt8) (events : List Requests.Event) :
    Requests.settled (Requests.run (.new self) events).2 = Requests.resolved (Requests.run (.new self) events).2 ∧
    (new self).Publishes events (Requests.resolved (Requests.run (.new self) events).2) ∧
    ∀ told, (new self).Publishes events told → ∀ call, call.floor < n →
      (∀ inputs, Replication.decisions inputs = told →
        ((Replication.new self n).after inputs).replica.registry.status call =
          (Requests.run (.new self) events).1.status call) ∧
      (∀ inputs, Orders.decisions inputs = told →
        (((Orders.new self n).after inputs).view.isCalled call = true ↔
          (Requests.run (.new self) events).1.status call = .confirmed)) := by
  obtain ⟨board,same,publishes⟩ := run_publishes (new self) events
  refine ⟨same,publishes,fun told sent call served => ⟨fun inputs taken => ?_,fun inputs taken => ?_⟩⟩
  · have shaped : ((Registry.new n).register self).Shaped n.toNat := Registry.shaped_register (Registry.shaped_new n) self
    have blank : ((Registry.new n).register self).status call = (new self).status call := by
      rw [status_new,Registry.status_register,Registry.status_new]
    have holds := Replication.status_after (t := .new self n) shaped served inputs
    rw [holds,taken,board,← sent.lastWord call,← blank]
    rfl
  · -- The view follows the settled words only; by `Publishes.lastSettled` these suffice.
    have dark : decide ((new self).status call = .confirmed) = (Dispatch.View.new n).isCalled call := by
      rw [status_new,Dispatch.View.isCalled_new]
      rfl
    have shows := Orders.isCalled_after (t := .new self n) (Dispatch.View.shaped_new n) served inputs
    have settled := sent.lastSettled call
    rw [dark] at settled
    rw [shows,taken,board,show (Orders.new self n).view = .new n from rfl,settled,decide_eq_true_iff]

end CallBoard
end ElevatorFleet
