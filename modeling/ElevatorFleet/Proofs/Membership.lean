import ElevatorFleet.Proofs.Snapshot

/-!
# One membership

The board, the replica and the view of a controller learn from its monitor alone who is
alive. A poll hands on nothing but a change, so the parts agree as soon as one set has
been handed on, and from then on for good (`current_after`). They do not start from
the same set: the monitor starts as if it had handed on that nobody is alive, the board and
the replica start with the controller itself. A controller that reports its own failure
before any poll has found somebody alive therefore goes on counting on itself and
keeps broadcasting (`poll_settles`, `early_failure_is_missed`).
-/
namespace ElevatorFleet.Controller
open Std

/-- What comes in at a controller whose parts learn of a membership by its polls only.
    What the replica makes of a snapshot comes in on its own. -/
inductive Input where
  | signal (s : Signal)
  | report (r : Report)
  | absorb (m : Broadcast)
  /-- The state of the own car. -/
  | car (state : CarState)
  /-- The state of another car. -/
  | neighbor (r : CarReport)
  | poll
deriving DecidableEq

/-- The controller after an input at `now`. -/
def take (c : Controller) (now : Instant) : Input → Controller
  | .signal s => c.observe s now
  | .report r => (c.handle r).1
  | .absorb m => c.read m
  | .car state => c.setCar state
  | .neighbor r => { c with view := c.view.setCar r }
  | .poll => c.poll now

/-- The controller after a run of inputs, each with its instant. -/
def after (c : Controller) (run : List (Instant × Input)) : Controller :=
  run.foldl (fun c input => c.take input.1 input.2) c

/-- Some poll of the run finds somebody alive. -/
def FindsSomebody (c : Controller) : List (Instant × Input) → Prop
  | [] => False
  | (now,input) :: rest => (input = .poll ∧ c.presence.aliveAt now ≠ ∅) ∨ (c.take now input).FindsSomebody rest

/-- The last word of the run about the health of `self` is that it has failed. -/
def ReportsFailure (self : PeerId) (run : List (Instant × Input)) : Prop :=
  ∃ past now rest, run = past ++ (now,.signal ⟨self,false⟩) :: rest ∧ ∀ input ∈ rest, input.2 ≠ .signal ⟨self,true⟩

/-- The board and the replica hold this membership. -/
structure Holds (c : Controller) (alive : PeerSet) : Prop where
  board : c.board.alive = alive
  replica : c.replica.alive = alive

/-- The monitor and the replica know who they belong to, and the view holds what was last
    handed on. -/
structure Wired (owner : PeerId) (c : Controller) : Prop where
  monitor : c.presence.self = owner
  replica : c.replica.self = owner
  view : c.view.alive = c.presence.published

/-- No part has learned of another membership. -/
structure Keeps (c d : Controller) : Prop where
  monitor : d.presence.self = c.presence.self
  published : d.presence.published = c.presence.published
  self : d.replica.self = c.replica.self
  board : d.board.alive = c.board.alive
  replica : d.replica.alive = c.replica.alive
  view : d.view.alive = c.view.alive

variable {self : PeerId} {c : Controller} {now : Instant} {alive : PeerSet}

theorem after_append (c : Controller) (run more : List (Instant × Input)) :
    c.after (run ++ more) = (c.after run).after more := List.foldl_append

/-! ### Between two polls -/

theorem Keeps.holds {d : Controller} (keeps : c.Keeps d) (holds : c.Holds alive) : d.Holds alive :=
  ⟨keeps.board.trans holds.board,keeps.replica.trans holds.replica⟩

theorem Keeps.wired {d : Controller} (keeps : c.Keeps d) (wired : c.Wired self) : d.Wired self :=
  ⟨keeps.monitor.trans wired.monitor,keeps.self.trans wired.replica,
    keeps.view.trans (wired.view.trans keeps.published.symm)⟩

theorem keeps_take {input : Input} (quiet : input ≠ .poll) (now : Instant) : c.Keeps (c.take now input) := by
  cases input with
  | signal s => exact ⟨rfl,rfl,rfl,rfl,rfl,rfl⟩
  | report r =>
    exact ⟨rfl,rfl,rfl,CallBoard.alive_take c.board r,rfl,Dispatch.View.alive_record c.view _⟩
  | absorb m =>
    rw [take]
    by_cases own : m.source = c.replica.self
    · rw [read_own own]
      exact ⟨rfl,rfl,rfl,rfl,rfl,rfl⟩
    · rw [read_other own]
      exact ⟨rfl,rfl,rfl,rfl,rfl,rfl⟩
  | car state =>
    rw [take,setCar]
    split
    · exact ⟨rfl,rfl,rfl,rfl,rfl,rfl⟩
    · exact ⟨rfl,rfl,rfl,rfl,rfl,rfl⟩
  | neighbor r => exact ⟨rfl,rfl,rfl,rfl,rfl,rfl⟩
  | poll => exact absurd rfl quiet

/-! ### Polls -/

theorem setBoardAlive_rest (c : Controller) (alive : PeerSet) : (c.setBoardAlive alive).presence = c.presence ∧
    (c.setBoardAlive alive).replica.self = c.replica.self := by
  show ((c.board.setAlive alive).2.foldl settle { c with board := (c.board.setAlive alive).1 }).presence = _ ∧
    ((c.board.setAlive alive).2.foldl settle { c with board := (c.board.setAlive alive).1 }).replica.self = _
  rw [foldl_settle]
  exact ⟨rfl,rfl⟩

theorem poll_steady (steady : c.presence.aliveAt now = c.presence.published) : c.poll now = c := by
  have silent : c.presence.poll now = (c.presence,none) := by
    rw [Presence.poll,if_pos steady]
  rw [poll_none (by rw [silent]),silent]

/-- Any other poll hands on what it finds to every part. -/
theorem poll_changed (changed : c.presence.aliveAt now ≠ c.presence.published) :
    (c.poll now).presence = { c.presence with published := c.presence.aliveAt now } ∧
      (c.poll now).replica.self = c.replica.self ∧ (c.poll now).Holds (c.presence.aliveAt now) ∧
      (c.poll now).view.alive = c.presence.aliveAt now := by
  have news : c.presence.poll now =
      ({ c.presence with published := c.presence.aliveAt now },some (c.presence.aliveAt now)) := by
    rw [Presence.poll,if_neg changed]
  rw [poll_some (by rw [news]),news,setAlive_eq]
  obtain ⟨presence,name⟩ := setBoardAlive_rest
    { c with presence := { c.presence with published := c.presence.aliveAt now } } (c.presence.aliveAt now)
  have board := board_setBoardAlive
    { c with presence := { c.presence with published := c.presence.aliveAt now } } (c.presence.aliveAt now)
  refine ⟨presence,name,⟨?_,rfl⟩,rfl⟩
  exact (congrArg CallBoard.alive board).trans (CallBoard.alive_setAlive c.board _)

/-- Whatever was handed on before, the parts agree after a poll that hands on something. -/
theorem current_of_changed (changed : c.presence.aliveAt now ≠ c.presence.published) :
    (c.poll now).Holds (c.poll now).presence.published := by
  obtain ⟨presence,_,holds,_⟩ := poll_changed changed
  rw [presence]
  exact holds

theorem presence_poll (c : Controller) (now : Instant) :
    (c.poll now).presence = { c.presence with published := c.presence.aliveAt now } := by
  by_cases steady : c.presence.aliveAt now = c.presence.published
  · rw [poll_steady steady,steady]
  · exact (poll_changed steady).1

theorem aliveAt_poll (c : Controller) (now : Instant) :
    (c.poll now).presence.aliveAt now = (c.poll now).presence.published := by
  rw [presence_poll]
  rfl

/-! ### Runs -/

theorem wired_new (self : PeerId) (n : UInt8) (timeout : Duration) : (new self n timeout).Wired self := ⟨rfl,rfl,rfl⟩

theorem Wired.take (wired : c.Wired self) (now : Instant) (input : Input) : (c.take now input).Wired self := by
  by_cases quiet : input = .poll
  · subst quiet
    show (c.poll now).Wired self
    by_cases steady : c.presence.aliveAt now = c.presence.published
    · rw [poll_steady steady]
      exact wired
    · obtain ⟨presence,name,_,view⟩ := poll_changed steady
      refine ⟨?_,name.trans wired.replica,?_⟩
      · rw [presence]
        exact wired.monitor
      · rw [presence]
        exact view
  · exact (keeps_take quiet now).wired wired

theorem Wired.after (wired : c.Wired self) (run : List (Instant × Input)) : (c.after run).Wired self := by
  induction run generalizing c with
  | nil => exact wired
  | cons input rest ih => exact ih (wired.take input.1 input.2)

theorem current_take (current : c.Holds c.presence.published) (now : Instant) (input : Input) :
    (c.take now input).Holds (c.take now input).presence.published := by
  by_cases quiet : input = .poll
  · subst quiet
    show (c.poll now).Holds (c.poll now).presence.published
    by_cases steady : c.presence.aliveAt now = c.presence.published
    · rw [poll_steady steady]
      exact current
    · exact current_of_changed steady
  · have keeps := keeps_take (c := c) quiet now
    rw [keeps.published]
    exact keeps.holds current

theorem current_after (current : c.Holds c.presence.published) (run : List (Instant × Input)) :
    (c.after run).Holds (c.after run).presence.published := by
  induction run generalizing c with
  | nil => exact current
  | cons input rest ih => exact ih (current_take current input.1 input.2)

/-- Before anything has been handed on, the parts hold what they started with until a poll
    finds somebody alive; from then on they hold what was last handed on. -/
theorem holds_after (nothing : c.presence.published = ∅) (holds : c.Holds alive) (run : List (Instant × Input)) :
    (c.FindsSomebody run → (c.after run).Holds (c.after run).presence.published) ∧
      (¬ c.FindsSomebody run → (c.after run).Holds alive ∧ (c.after run).presence.published = ∅) := by
  induction run generalizing c with
  | nil => exact ⟨False.elim,fun _ => ⟨holds,nothing⟩⟩
  | cons head rest ih =>
    obtain ⟨now,input⟩ := head
    by_cases quiet : input = .poll
    · subst quiet
      by_cases nobody : c.presence.aliveAt now = ∅
      · -- To the monitor this is what it has handed on already.
        have idle : c.take now .poll = c := poll_steady (nobody.trans nothing.symm)
        have same : c.after ((now,.poll) :: rest) = c.after rest := congrArg (after · rest) idle
        have finds : c.FindsSomebody ((now,.poll) :: rest) ↔ c.FindsSomebody rest := by
          rw [FindsSomebody,idle]
          simp [nobody]
        rw [same,finds]
        exact ih nothing holds
      · have current : (c.take now .poll).Holds (c.take now .poll).presence.published :=
          current_of_changed (nothing ▸ nobody)
        exact ⟨fun _ => current_after current rest,fun unheard => absurd (.inl ⟨rfl,nobody⟩) unheard⟩
    · have keeps := keeps_take (c := c) quiet now
      have finds : c.FindsSomebody ((now,input) :: rest) ↔ (c.take now input).FindsSomebody rest := by
        rw [FindsSomebody]
        simp [quiet]
      rw [finds]
      exact ih (keeps.published.trans nothing) (keeps.holds holds)

/-! ### Failures -/

theorem failed_take (failed : c.presence.selfFailed = true) {input : Input}
    (silent : input ≠ .signal ⟨c.presence.self,true⟩) (now : Instant) :
    (c.take now input).presence.selfFailed = true := by
  cases input with
  | signal s =>
    show (if s.peer = c.presence.self then !s.alive else c.presence.selfFailed) = true
    split
    · rename_i about
      obtain ⟨peer,alive⟩ := s
      subst about
      cases alive with
      | false => rfl
      | true => exact absurd rfl silent
    · exact failed
  | report r => exact failed
  | absorb m => exact failed
  | car state =>
    rw [take,setCar]
    split
    · exact failed
    · exact failed
  | neighbor r => exact failed
  | poll =>
    show (c.poll now).presence.selfFailed = true
    rw [presence_poll]
    exact failed

theorem failed_after (wired : c.Wired self) (failed : c.presence.selfFailed = true) {run : List (Instant × Input)}
    (silent : ∀ input ∈ run, input.2 ≠ .signal ⟨self,true⟩) : (c.after run).presence.selfFailed = true := by
  induction run generalizing c with
  | nil => exact failed
  | cons head rest ih =>
    have first : head.2 ≠ .signal ⟨c.presence.self,true⟩ := by
      rw [wired.monitor]
      exact silent head List.mem_cons_self
    exact ih (wired.take head.1 head.2) (failed_take failed first head.1)
      fun input later => silent input (List.mem_cons_of_mem _ later)

theorem ReportsFailure.failed (wired : c.Wired self) {run : List (Instant × Input)} (reports : ReportsFailure self run) :
    (c.after run).presence.selfFailed = true := by
  obtain ⟨past,now,rest,rfl,silent⟩ := reports
  have before := wired.after past
  rw [after_append]
  refine failed_after (before.take now (.signal ⟨self,false⟩)) ?_ silent
  show (if self = (c.after past).presence.self then !false else (c.after past).presence.selfFailed) = true
  rw [if_pos before.monitor.symm]
  rfl

theorem not_mem_aliveAt {p : Presence} (failed : p.selfFailed = true) (now : Instant) : p.self ∉ p.aliveAt now := by
  rw [Presence.aliveAt,if_pos failed]
  simp

theorem outbound_eq_none {r : Replica} : r.outbound = none ↔ r.car = none ∨ r.self ∉ r.alive := by
  rw [Replica.outbound]
  cases r.car with
  | none => simp
  | some state => simp

/-- Right after a poll the view holds the peers that are alive. So do the board and the
    replica, if this poll or an earlier one has found somebody alive; if none has, they hold
    the controller itself, although nobody is alive. Accordingly a controller whose last word
    about itself is that it has failed sends nothing if some poll has found somebody alive,
    and otherwise whatever it has to tell. -/
theorem poll_settles (self : PeerId) (n : UInt8) (timeout : Duration) (run : List (Instant × Input)) (now : Instant) :
    let start := new self n timeout
    let found := start.FindsSomebody (run ++ [(now,.poll)])
    let c := start.after (run ++ [(now,.poll)])
    let alive := c.presence.aliveAt now
    c.view.alive = alive ∧ (found → c.Holds alive) ∧ (¬ found → c.Holds (.of [self]) ∧ alive = ∅) ∧
      (ReportsFailure self run → (c.outbound = none ↔ found ∨ c.replica.car = none)) := by
  intro start found c alive
  have wired : c.Wired self := (wired_new self n timeout).after _
  have polled : c = (start.after run).poll now := after_append _ _ _
  have handed : alive = c.presence.published := by
    show c.presence.aliveAt now = _
    rw [polled]
    exact aliveAt_poll _ now
  -- The monitor starts with nobody, the board and the replica with the controller itself.
  have alone : start.Holds (.of [self]) := ⟨rfl,rfl⟩
  obtain ⟨current,unheard⟩ := holds_after rfl alone (run ++ [(now,.poll)])
  rw [← handed] at current unheard
  refine ⟨wired.view.trans handed.symm,current,unheard,fun reports => ?_⟩
  have failed : c.presence.selfFailed = true := by
    rw [polled,presence_poll]
    exact reports.failed (wired_new self n timeout)
  have dead : self ∉ alive := by
    have absent := not_mem_aliveAt failed now
    rw [wired.monitor] at absent
    exact absent
  rw [outbound,outbound_eq_none,wired.replica]
  by_cases heard : found
  · rw [(current heard).replica]
    simp [heard,dead]
  · rw [(unheard heard).1.replica]
    simp [heard]

/-- A controller that learns the state of its car and then fails, before its first poll. -/
def early : List (Instant × Input) := [(0,.car default),(0,.signal ⟨⟨1⟩,false⟩)]

/-- It counts on itself after the poll, although it has dropped itself, and broadcasts. -/
theorem early_failure_is_missed :
    let c := (new ⟨1⟩ 4 1000).after (early ++ [(0,.poll)])
    ReportsFailure ⟨1⟩ early ∧ c.presence.aliveAt 0 = ∅ ∧ c.board.alive = .of [⟨1⟩] ∧ c.replica.alive = .of [⟨1⟩] ∧
      c.outbound ≠ none := by
  refine ⟨⟨[(0,.car default)],0,[],rfl,by simp⟩,?_⟩
  decide +kernel

-- One poll before the failure is enough.
example : ((new ⟨1⟩ 4 1000).after ((0,.poll) :: early ++ [(0,.poll)])).outbound = none := by decide +kernel

end ElevatorFleet.Controller
