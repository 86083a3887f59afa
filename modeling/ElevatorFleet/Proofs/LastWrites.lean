import Mathlib.Data.List.Induction
import ElevatorFleet.Proofs.Floors

/-!
# Last writes

A registry is a map in which the last write wins: of all that was done to it, the status of a call depends
on the last record that tells something of the call on a served floor, and on nothing else
(`status_after`). Opening a row shows in no status. A record says of itself that it altered the registry
exactly if it did; a row that it opens comes with a status of its own (`last_write_wins`).
-/
namespace ElevatorFleet

/-- Of the elements that count, the last one is a new one that counts, or else the one before. -/
theorem getLast?_filter_snoc {α : Type} (counts : α → Bool) (past : List α) (a : α) :
    ((past ++ [a]).filter counts).getLast? = if counts a then some a else (past.filter counts).getLast? := by
  cases counted : counts a with
  | true => simp [counted]
  | false => simp [counted]

namespace Registry
variable {n : UInt8} {r : Registry} {call : Call}

/-- What can be done to a registry. -/
inductive Input where
  | apply (b : Belief)
  | register (peer : PeerId)
  | diff (sender : PeerId) (remote : Registry)
deriving DecidableEq

/-- The registry after an input. -/
def take (r : Registry) : Input → Registry
  | .apply b => r.apply b
  | .register peer => r.register peer
  | .diff sender remote => (r.diff sender remote).1

/-- The registry after several inputs. -/
def after (r : Registry) (inputs : List Input) : Registry := inputs.foldl take r

/-- The beliefs that were recorded. -/
def recorded (inputs : List Input) : List Belief :=
  inputs.filterMap fun input => match input with
    | .apply b => some b
    | _ => none

/-- The belief tells something of the call, and the call is on one of the first `n` floors. -/
def tells (n : UInt8) (call : Call) (b : Belief) : Bool :=
  b.call = call && b.status ≠ .unknown && b.call.floor < n

/-- The last record that tells something of the call. -/
def lastRecord (n : UInt8) (call : Call) (inputs : List Input) : Option Belief :=
  ((recorded inputs).filter (tells n call)).getLast?

theorem after_snoc (r : Registry) (past : List Input) (input : Input) :
    r.after (past ++ [input]) = (r.after past).take input := by
  simp [after]

theorem shaped_take (shaped : r.Shaped n.toNat) (input : Input) : (r.take input).Shaped n.toNat := by
  cases input with
  | apply b => exact shaped_apply shaped b
  | register peer => exact shaped_register shaped peer
  | diff sender remote => exact shaped_diff shaped sender remote

theorem shaped_after (n : UInt8) (inputs : List Input) : ((new n).after inputs).Shaped n.toNat := by
  induction inputs using List.reverseRecOn with
  | nil => exact shaped_new n
  | append_singleton past input ih =>
    rw [after_snoc]
    exact shaped_take ih input

theorem recorded_snoc (past : List Input) (input : Input) :
    recorded (past ++ [input]) = recorded past ++ recorded [input] := List.filterMap_append

theorem lastRecord_snoc_apply (past : List Input) (b : Belief) :
    lastRecord n call (past ++ [.apply b]) = if tells n call b then some b else lastRecord n call past := by
  rw [lastRecord,recorded_snoc]
  exact getLast?_filter_snoc (tells n call) (recorded past) b

theorem lastRecord_snoc_other (past : List Input) {input : Input} (other : recorded [input] = []) :
    lastRecord n call (past ++ [input]) = lastRecord n call past := by
  rw [lastRecord,recorded_snoc,other,List.append_nil,lastRecord]

theorem tells_iff {b : Belief} : tells n call b = true ↔ b.status ≠ .unknown ∧ b.call.floor < n ∧ b.call = call := by
  simp only [tells,Bool.and_eq_true,decide_eq_true_eq]
  constructor
  · rintro ⟨⟨about,known⟩,served⟩
    exact ⟨known,served,about⟩
  · rintro ⟨known,served,about⟩
    exact ⟨⟨about,known⟩,served⟩

theorem status_take_apply (shaped : r.Shaped n.toNat) (b : Belief) (call : Call) :
    (r.take (.apply b)).status call = if tells n call b then b.status else r.status call := by
  simp only [tells_iff]
  exact status_apply shaped b call

/-- Of all that was done to a registry, only the last record that tells something of a call counts for it. -/
theorem status_after (n : UInt8) (inputs : List Input) (call : Call) :
    ((new n).after inputs).status call = (lastRecord n call inputs).elim .unknown Belief.status := by
  induction inputs using List.reverseRecOn with
  | nil => exact status_new n call
  | append_singleton past input ih =>
    rw [after_snoc]
    cases input with
    | apply b =>
      rw [status_take_apply (shaped_after n past),lastRecord_snoc_apply,ih]
      split
      · rfl
      · rfl
    | register peer =>
      rw [lastRecord_snoc_other past rfl,← ih]
      exact status_register _ peer call
    | diff sender remote =>
      rw [lastRecord_snoc_other past rfl,← ih]
      exact status_diff _ sender remote call

/-- What a record says of itself is true: it either altered the status of its call, or changed nothing at all. -/
theorem altered_iff (shaped : r.Shaped n.toNat) (b : Belief) : r.altered b = true ↔ r.apply b ≠ r := by
  rw [altered,Bool.and_eq_true,decide_eq_true_eq,accepts_iff shaped]
  constructor
  · -- A row that is opened is blank and the status written is not, so the status tells the two apart.
    rintro ⟨⟨known,served⟩,differs⟩ unchanged
    have status := status_apply shaped b b.call
    rw [unchanged,if_pos ⟨known,served,rfl⟩] at status
    exact differs status
  · intro changed
    by_contra kept
    refine changed (apply_told shaped fun known served => ?_)
    by_contra differs
    exact kept ⟨⟨known,served⟩,differs⟩

/-- After any records, registrations and comparisons a registry holds of every call what the last record
    about it tells, if unknown statuses and calls on floors that are not served are left aside. Every further
    record finds its cell, and says that it altered the registry exactly if the registry is another one. -/
theorem last_write_wins (n : UInt8) (inputs : List Input) :
    let r := (new n).after inputs
    (∀ call, r.status call = (lastRecord n call inputs).elim .unknown Belief.status) ∧
    ∀ b, ∃ altered, r.applied? b = some (r.take (.apply b),altered) ∧ (altered = true ↔ r.take (.apply b) ≠ r) := by
  intro r
  have shaped : r.Shaped n.toNat := shaped_after n inputs
  exact ⟨status_after n inputs,fun b => ⟨r.altered b,applied?_eq shaped b,altered_iff shaped b⟩⟩

/-- A later press outlasts a clear, and neither a word on a floor that is not there nor a stranger's
    snapshot touches it. -/
example : ((new 4).after [.apply ⟨.cab 3 ⟨7⟩,.absent⟩,.apply ⟨.cab 3 ⟨7⟩,.confirmed⟩,.apply ⟨.cab 3 ⟨7⟩,.unknown⟩,
    .apply ⟨.cab 4 ⟨7⟩,.absent⟩,.diff ⟨9⟩ (new 9)]).status (.cab 3 ⟨7⟩) = .confirmed := by
  decide +kernel

end Registry
end ElevatorFleet
