/-!
# Tasks and queues

A controller runs as several tasks that send each other messages through queues. A
task takes one event at a time and answers it with actions, in order. It gives up at
the first message that it sends into a queue without a reader.
-/
namespace ElevatorFleet.Tasks

/-- Nobody reads the queue any more. -/
structure QueueClosed where
  queue : String
deriving DecidableEq, Repr

def QueueClosed.message (e : QueueClosed) : String := s!"{e.queue} queue closed"

inductive Standing (ε : Type) where
  | running
  | finished
  | failed (cause : ε)
deriving DecidableEq, Repr

/-- Does actions in order, up to the first that goes into a closed queue; `fault?`
    tells which do. -/
def attempt {α ε : Type} (fault? : α → Option ε) : List α → List α × Standing ε
  | [] => ([],.running)
  | action :: rest =>
    match fault? action with
    | some cause => ([],.failed cause)
    | none =>
      let (done,standing) := attempt fault? rest
      (action :: done,standing)

/-- With every queue open all actions are done. -/
theorem attempt_of_open {α ε : Type} {fault? : α → Option ε} {actions : List α}
    (isOpen : ∀ a ∈ actions, fault? a = none) : attempt fault? actions = (actions,.running) := by
  induction actions with
  | nil => rfl
  | cons a rest ih =>
    simp [attempt,isOpen a List.mem_cons_self,ih fun b mem => isOpen b (List.mem_cons_of_mem a mem)]

/-- A task under way: its state, how it stands, and the queues of which the other end
    is gone. -/
structure Session (σ κ ε : Type) where
  state : σ
  standing : Standing ε
  closed : List κ

namespace Session
variable {σ κ ε α : Type} {s : Session σ κ ε}

def start (state : σ) : Session σ κ ε := ⟨state,.running,[]⟩

def isRunning (s : Session σ κ ε) : Bool :=
  match s.standing with
  | .running => true
  | _ => false

def close (s : Session σ κ ε) (queue : κ) : Session σ κ ε := { s with closed := queue :: s.closed }

def finish (s : Session σ κ ε) : Session σ κ ε :=
  if s.isRunning then { s with standing := .finished } else s

theorem standing_of_isRunning (running : s.isRunning = true) : s.standing = .running := by
  cases stands : s.standing with
  | running => rfl
  | finished | failed _ => simp [isRunning,stands] at running

theorem state_finish : s.finish.state = s.state := by
  rw [finish]; split <;> rfl

variable [DecidableEq κ]

def isOpen (s : Session σ κ ε) (queue : κ) : Bool := !s.closed.contains queue

/-- The task goes on to another state and does its actions; a task that has ended
    does nothing. `target?` is the queue that an action goes into and `fault` the
    cause that the task gives up for when that queue is closed. -/
def advance (s : Session σ κ ε) (target? : α → Option κ) (fault : κ → ε) (next : σ) (actions : List α) :
    Session σ κ ε × List α :=
  if s.isRunning then
    let (done,standing) := attempt (fun action =>
      (target? action).bind fun queue => if s.isOpen queue then none else some (fault queue)) actions
    ({ s with state := next, standing := standing },done)
  else (s,[])

theorem isOpen_close {queue other : κ} (apart : other ≠ queue) : (s.close queue).isOpen other = s.isOpen other := by
  simp [isOpen,close,apart]

theorem isOpen_finish (queue : κ) : s.finish.isOpen queue = s.isOpen queue := by
  rw [finish]; split <;> rfl

/-- A queue goes, and perhaps the task ends with it. Its state and the other queues stay as they are. -/
theorem close_keeps (s : Session σ κ ε) (queue : κ) (goesOn : Bool) :
    let next := if goesOn then s.close queue else (s.close queue).finish
    next.state = s.state ∧ ∀ other, other ≠ queue → next.isOpen other = s.isOpen other := by
  cases goesOn with
  | true => exact ⟨rfl,fun other apart => isOpen_close apart⟩
  | false => exact ⟨state_finish,fun other apart => (isOpen_finish other).trans (isOpen_close apart)⟩

/-- While somebody reads whatever it writes, nothing keeps a running task from its actions. -/
theorem advance_of_running (running : s.isRunning = true) {target? : α → Option κ} (fault : κ → ε) (next : σ)
    {actions : List α} (listens : ∀ a ∈ actions, ∀ queue ∈ target? a, s.isOpen queue = true) :
    s.advance target? fault next actions = ({ s with state := next },actions) := by
  have done : attempt (fun a => (target? a).bind fun queue => if s.isOpen queue then none else some (fault queue))
      actions = (actions,.running) := by
    refine attempt_of_open fun a member => ?_
    cases target : target? a with
    | none => rfl
    | some queue => exact if_pos (listens a member queue target)
  rw [advance,if_pos running,done,← standing_of_isRunning running]

theorem advance_of_ended (ended : s.isRunning = false) (target? : α → Option κ) (fault : κ → ε) (next : σ)
    (actions : List α) : s.advance target? fault next actions = (s,[]) := by
  simp [advance,ended]

end Session

/-- The multiples of `interval` after `now` up to `now + ms`: when a timer ticks that
    has ticked at 0 already. -/
def ticksWithin (interval now ms : Nat) : List Nat :=
  (List.range ((now + ms) / interval - now / interval)).map fun k => (now / interval + 1 + k) * interval

end ElevatorFleet.Tasks
