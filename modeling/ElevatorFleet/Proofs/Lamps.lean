import ElevatorFleet.LampPanel
import ElevatorFleet.Proofs.Decisions

/-!
# Lamps

The request task sets a lamp for each of its decisions about a call of the own panel, and no other lamps
(`settings_run`). No two of these calls share a lamp, so each lamp shows the last decision about
its call: it is lit while the board holds the call confirmed (`panel_shows`).
-/
namespace ElevatorFleet
open Std Tasks

/-- A lamp, and whether it is turned on. -/
structure LampPanel.Setting where
  button : Button
  floor : Floor
  lit : Bool
deriving DecidableEq

/-- The panel after some settings, the first one first. -/
def LampPanel.after (p : LampPanel) (settings : List Setting) : LampPanel :=
  settings.foldl (fun p s => p.set s.button s.floor s.lit) p

/-- The setting by which `self` shows a decision, if the lamp of the call is on its panel. -/
def Report.setting? (self : PeerId) (r : Report) : Option LampPanel.Setting :=
  if r.belief.call.concerns self then some ⟨r.belief.call.button,r.belief.call.floor,r.belief.status = .confirmed⟩
  else none

/-- What a request task has done at the panel. -/
def Tasks.Requests.settings (done : List Action) : List LampPanel.Setting :=
  done.filterMap fun action => match action with
    | .lamp button floor lit => some ⟨button,floor,lit⟩
    | _ => none

namespace Call
variable {self : PeerId} {call other : Call}

/-- The lamp of the call after a decision has been told. -/
def shown (call : Call) (on : Bool) (r : Report) : Bool :=
  if r.belief.call = call then decide (r.belief.status = .confirmed) else on

/-- Two calls of one panel do not share a lamp. -/
theorem eq_of_lamp (own : call.concerns self) (also : other.concerns self) (button : call.button = other.button)
    (floor : call.floor = other.floor) : call = other := by
  cases call with
  | hall f d =>
    cases other with
    | hall g e => cases d <;> cases e <;> simp_all [Call.button,Call.floor]
    | cab g q => cases d <;> simp [Call.button] at button
  | cab f p =>
    cases other with
    | hall g e => cases e <;> simp [Call.button] at button
    | cab g q => simp_all [concerns,Call.floor]

end Call

/-- A decision turns the lamp of its own call only. -/
theorem LampPanel.lit_after {self : PeerId} {call : Call} (own : call.concerns self) (told : List Report) (p : LampPanel) :
    (p.after (told.filterMap (Report.setting? self))).lit call.button call.floor =
      told.foldl call.shown (p.lit call.button call.floor) := by
  induction told generalizing p with
  | nil => rfl
  | cons r rest ih =>
    rw [List.foldl_cons,Call.shown]
    by_cases concerns : r.belief.call.concerns self
    · have first : r.setting? self = some ⟨r.belief.call.button,r.belief.call.floor,r.belief.status = .confirmed⟩ :=
        if_pos concerns
      rw [List.filterMap_cons_some first]
      refine (ih _).trans (congrArg (rest.foldl call.shown) ?_)
      rw [LampPanel.lit_set]
      by_cases about : r.belief.call = call
      · simp [about]
      · have apart : ¬ (call.button = r.belief.call.button ∧ call.floor = r.belief.call.floor) :=
          fun same => about (Call.eq_of_lamp own concerns same.1 same.2).symm
        rw [if_neg about,if_neg apart]
    · have other : r.belief.call ≠ call := fun same => concerns (same ▸ own)
      have nothing : r.setting? self = none := if_neg concerns
      rw [List.filterMap_cons_none nothing,if_neg other]
      exact ih p

namespace CallBoard
variable {self : PeerId} {b : CallBoard} {e : Requests.Event} {told : List Report}

theorem settings_publish (self : PeerId) (beliefs : List Belief) :
    Requests.settings (beliefs.flatMap (Requests.publish self)) =
      (beliefs.map (.mk self)).filterMap (Report.setting? self) := by
  induction beliefs with
  | nil => rfl
  | cons belief rest ih =>
    rw [List.flatMap_cons,List.map_cons,List.filterMap_cons,← ih,Requests.settings,List.filterMap_append,
      Requests.publish,Report.setting?]
    by_cases concerns : belief.call.concerns self
    · simp only [concerns,if_true]
      rfl
    · simp only [concerns]
      rfl

/-- The task sets the lamps of the calls on its own panel as it decides about them. -/
theorem settings_run (b : CallBoard) (events : List Requests.Event) : Requests.settings (Requests.run b events).2 =
    (Requests.resolved (Requests.run b events).2).filterMap (Report.setting? b.self) := by
  induction events generalizing b with
  | nil => rfl
  | cons e rest ih =>
    obtain ⟨told,_⟩ := resolved_publish b.self (Requests.decide b e).2
    have first : Requests.settings (Requests.react b e).2 =
        (Requests.resolved (Requests.react b e).2).filterMap (Report.setting? b.self) := by
      refine (settings_publish b.self (Requests.decide b e).2).trans ?_
      rw [← told]
      rfl
    have later := ih (b.next e)
    rw [self_next] at later
    calc Requests.settings (Requests.run b (e :: rest)).2
        = Requests.settings (Requests.react b e).2 ++ Requests.settings (Requests.run (b.next e) rest).2 := by
          rw [run_cons]; exact List.filterMap_append
      _ = (Requests.resolved (Requests.react b e).2 ++ Requests.resolved (Requests.run (b.next e) rest).2).filterMap
          (Report.setting? b.self) := by rw [first,later,List.filterMap_append]
      _ = (Requests.resolved (Requests.run b (e :: rest)).2).filterMap (Report.setting? b.self) := by
          rw [run_cons]; exact congrArg _ List.filterMap_append.symm

theorem Tells.shown (tells : b.Tells e told) (call : Call) :
    told.foldl call.shown (decide (b.status call = .confirmed)) = decide ((b.next e).status call = .confirmed) := by
  cases tells with
  | report r =>
    rw [List.foldl_cons,List.foldl_nil,Call.shown,Report.of]
    by_cases about : r.belief.call = call
    · subst about
      exact if_pos rfl
    · rw [if_neg about,show (b.next (.report r)).status call = b.status call from status_take_other about]
  | membership alive distinct confirmed =>
    have about : ∀ s other, call.shown s (.of b.self other .confirmed) = if other = call then true else s := by
      intro s other
      simp [Call.shown,Report.of]
    rw [status_membership confirmed,foldl_confirmations about]
    split <;> simp

/-- Whenever the request task waits for its next event, the lamps it has set are those of its decisions
    about calls on the own panel, in the same order, and so none for the cab call of another controller. On a
    panel that was dark the lamp of each such call is lit exactly if the board holds the call confirmed,
    in whatever order the calls that one membership confirms are shown. -/
theorem panel_shows (self : PeerId) (events : List Requests.Event) :
    let done := (Requests.run (.new self) events).2
    Requests.settings done = (Requests.resolved done).filterMap (Report.setting? self) ∧
    (new self).Publishes events (Requests.resolved done) ∧
    ∀ told, (new self).Publishes events told → ∀ call, call.concerns self →
      ((LampPanel.dark.after (told.filterMap (Report.setting? self))).lit call.button call.floor = true ↔
        (Requests.run (.new self) events).1.status call = .confirmed) := by
  obtain ⟨board,_,publishes⟩ := run_publishes (new self) events
  refine ⟨settings_run (new self) events,publishes,fun told sent call own => ?_⟩
  have follows := sent.follow (fun b => decide (b.status call = .confirmed)) fun tells => tells.shown call
  have dark : decide ((new self).status call = .confirmed) = LampPanel.dark.lit call.button call.floor := by
    rw [status_new]
    rfl
  rw [dark,← LampPanel.lit_after own] at follows
  rw [follows,board,decide_eq_true_iff]

end CallBoard
end ElevatorFleet
