import ElevatorFleet.Proofs.Controller

/-!
# What a snapshot does

A snapshot is compared with the own registry and only the cells that differ are reported. This
loses nothing: whatever the lengths of its rows and in whatever order its reports are taken,
the controller ends up as if every cell on a served floor had been reported, and each call is
merged on its own (`snapshot_merges`).
-/
namespace ElevatorFleet
open Std Tasks

namespace Registry

/-- The cells of a row on the first `n` floors. -/
def rowBeliefs (n : UInt8) (call : Floor → Call) (row : Row) : List Belief :=
  (row.take n.toNat).zipIdx.map fun (s,floor) => ⟨call (UInt8.ofNat floor),s⟩

/-- The cells of a registry on the first `n` floors. -/
def beliefs (r : Registry) (n : UInt8) : List Belief :=
  rowBeliefs n (.hall · .up) r.hallUp ++ rowBeliefs n (.hall · .down) r.hallDown ++
    r.cab.toList.flatMap fun (owner,row) => rowBeliefs n (.cab · owner) row

theorem mem_rowBeliefs {n : UInt8} {call : Floor → Call} {row : Row} {b : Belief} :
    b ∈ rowBeliefs n call row ↔ ∃ floor < n, row[floor.toNat]? = some b.status ∧ b.call = call floor := by
  simp only [rowBeliefs,List.mem_map,Prod.exists,List.mem_zipIdx_iff_getElem?,List.getElem?_take]
  constructor
  · rintro ⟨s,index,cell,rfl⟩
    split at cell
    · rename_i inside
      have back : (UInt8.ofNat index).toNat = index := UInt8.toNat_ofNat_of_lt (Nat.lt_trans inside n.toNat_lt)
      refine ⟨UInt8.ofNat index,?_,?_,rfl⟩
      · rw [UInt8.lt_iff_toNat_lt,back]
        exact inside
      · rw [back]
        exact cell
    · cases cell
  · rintro ⟨floor,served,cell,about⟩
    refine ⟨b.status,floor.toNat,?_,?_⟩
    · rw [if_pos (UInt8.lt_iff_toNat_lt.mp served)]
      exact cell
    · rw [UInt8.ofNat_toNat,← about]

theorem mem_beliefs {r : Registry} {n : UInt8} {b : Belief} :
    b ∈ r.beliefs n ↔ b.call.floor < n ∧ r.cell? b.call = some b.status := by
  obtain ⟨call,s⟩ := b
  simp only [beliefs,List.mem_append,List.mem_flatMap,Prod.exists,mem_rowBeliefs,
    ExtTreeMap.mem_toList_iff_getElem?_eq_some,cell?]
  constructor
  · rintro ((⟨floor,served,cell,rfl⟩ | ⟨floor,served,cell,rfl⟩) | ⟨owner,row,entry,floor,served,cell,rfl⟩)
    · exact ⟨served,cell⟩
    · exact ⟨served,cell⟩
    · refine ⟨served,?_⟩
      rw [row?,entry]
      exact cell
  · rintro ⟨served,cell⟩
    cases call with
    | hall floor direction =>
      cases direction with
      | up => exact .inl (.inl ⟨floor,served,cell,rfl⟩)
      | down => exact .inl (.inr ⟨floor,served,cell,rfl⟩)
    | cab floor owner =>
      obtain ⟨row,entry,cell⟩ := Option.bind_eq_some_iff.mp cell
      exact .inr ⟨owner,row,entry,floor,served,cell,rfl⟩

end Registry

/-- The status in which a board holds a call once `source` has told it another. -/
def CallBoard.merged (b : CallBoard) (call : Call) (source : PeerId) : Status → Status
  | .unknown => b.status call
  | .absent => if b.status call = .unknown ∨ b.status call = .confirmed then .absent else b.status call
  | .confirmed => if b.status call = .unknown ∨ b.status call = .unconfirmed then .confirmed else b.status call
  | .unconfirmed =>
    if b.status call = .confirmed ∨
      call.AgreedBy (((b.ledger.witnesses call).insert source).insert b.self) b.alive
    then .confirmed else .unconfirmed

theorem CallBoard.status_merged (b : CallBoard) (call : Call) (source : PeerId) (told : Status) :
    ((b.cycle call).hear call b.self b.alive source told).status = b.merged call source told := by
  cases told with
  | unknown => rfl
  | absent => cases held : b.status call <;> simp [Cycle.hear,merged,held]
  | confirmed => cases held : b.status call <;> simp [Cycle.hear,merged,held,Cycle.closed]
  | unconfirmed =>
    have joined : (b.cycle call).joined source b.self = ((b.ledger.witnesses call).insert source).insert b.self := rfl
    rw [Cycle.hear,merged,joined]
    by_cases held : b.status call = .confirmed
    · simp [held]
    · by_cases agreed : call.AgreedBy (((b.ledger.witnesses call).insert source).insert b.self) b.alive
      · simp [held,agreed,Cycle.closed]
      · simp [held,agreed]

namespace Controller
variable {self : PeerId} {n : UInt8} {c : Controller} {m : Broadcast} {reports : List Report}

/-- Reads a snapshot and leaves its reports for later. -/
def read (c : Controller) (m : Broadcast) : Controller := { c with replica := (c.replica.absorb m).1 }

/-- The controllers of `self` that come about by any history, also where the reports of a
    snapshot are taken late, in another order, in part or not at all. -/
inductive Evolved (self : PeerId) (n : UInt8) : Controller → Prop where
  | new (timeout : Duration) : Evolved self n (.new self n timeout)
  | react {c : Controller} (now : Instant) (e : Event) : Evolved self n c → Evolved self n (c.react now e)
  | read {c : Controller} (m : Broadcast) : Evolved self n c → Evolved self n (c.read m)

theorem read_own (own : m.source = c.replica.self) : c.read m = c := by
  rw [read,Replica.absorb,if_pos own]

theorem read_other (other : m.source ≠ c.replica.self) : c.read m =
    { c with replica := { c.replica with registry := (c.replica.registry.diff m.source m.registry).1 } } := by
  rw [read,Replica.absorb,if_neg other]

theorem absorb_other (other : m.source ≠ c.replica.self) :
    (c.replica.absorb m).2 = some ⟨⟨m.source,true⟩,⟨m.source,m.car⟩,c.reports m⟩ := by
  rw [Replica.absorb,if_neg other,reports,if_neg other]

theorem Mirrors.read (mirrors : c.Mirrors n) (m : Broadcast) : (c.read m).Mirrors n := by
  by_cases own : m.source = c.replica.self
  · rw [read_own own]
    exact mirrors
  · rw [read_other own]
    refine ⟨mirrors.self,Registry.shaped_diff mirrors.shaped m.source m.registry,fun call served => ?_⟩
    exact (Registry.status_diff c.replica.registry m.source m.registry call).trans (mirrors.cell call served)

theorem Evolved.mirrors (evolved : c.Evolved self n) : c.Mirrors n := by
  induction evolved with
  | new timeout => exact mirrors_new self n timeout
  | react now e _ ih => exact ih.react now e
  | read m _ ih => exact ih.read m

theorem Evolved.board (evolved : c.Evolved self n) : c.board.Reached self := by
  induction evolved with
  | new timeout => exact .new
  | @react c now e _ ih => rw [board_react]; exact ih.after (c.inputs now e)
  | read m _ ih => exact ih

/-! ### Reports that stand for a snapshot -/

theorem Covers.perm {b : CallBoard} (covers : Covers b n m reports) {told : List Report} (order : told.Perm reports) :
    Covers b n m told := by
  constructor
  · exact fun r member => covers.told r (order.mem_iff.mp member)
  · exact fun call served differ => (order.map _).mem_iff.mpr (covers.complete call served differ)

theorem covers_beliefs (b : CallBoard) (n : UInt8) (m : Broadcast) :
    Covers b n m ((m.registry.beliefs n).map (.mk m.source)) := by
  constructor
  · intro r member
    obtain ⟨belief,inside,rfl⟩ := List.mem_map.mp member
    obtain ⟨served,cell⟩ := Registry.mem_beliefs.mp inside
    refine ⟨rfl,served,?_⟩
    rw [Registry.status,cell]
    rfl
  · intro call served differ
    -- A cell that differs tells something, so there is one.
    obtain ⟨row,found,cell⟩ := Registry.cell_of_status (Status.differs_iff.mp differ).1
    refine List.mem_map.mpr ⟨⟨m.source,⟨call,m.registry.status call⟩⟩,List.mem_map.mpr ⟨_,?_,rfl⟩,rfl⟩
    refine Registry.mem_beliefs.mpr ⟨served,?_⟩
    rw [Registry.cell?,found]
    exact cell

theorem Covers.board_eq {b : CallBoard} (known : b.Known) {first second : List Report}
    (one : Covers b n m first) (other : Covers b n m second) :
    b.after (first.map .report) = b.after (second.map .report) := by
  refine CallBoard.eq_of_cycles (known.after _) (known.after _) ?_ ?_ fun call => ?_
  · rw [CallBoard.self_after,CallBoard.self_after]
  · rw [CallBoard.alive_after_reports,CallBoard.alive_after_reports]
  · rw [one.cycle,other.cycle]

/-- After the snapshot every served call is held in the merged status, in the board and in the
    registry, and no other call has changed. -/
structure Merges (n : UInt8) (before : Controller) (m : Broadcast) (after : Controller) : Prop where
  board : ∀ call, after.board.status call =
    if call.floor < n then before.board.merged call m.source (m.registry.status call) else before.board.status call
  registry : ∀ call, after.replica.registry.status call =
    if call.floor < n then before.board.merged call m.source (m.registry.status call)
    else before.replica.registry.status call

theorem Covers.merges {before : Controller} (mirrors : c.Mirrors n) (told : before.Mirrors n)
    (same : c.board = before.board) (covers : Covers before.board n m reports) :
    before.Merges n m (c.handleAll reports) := by
  have after : (c.handleAll reports).Mirrors n := mirrors.handleAll reports
  have board : ∀ call, (c.handleAll reports).board.status call =
      if call.floor < n then before.board.merged call m.source (m.registry.status call)
      else before.board.status call := by
    intro call
    have cycles := congrArg Cycle.status (covers.cycle call)
    rw [board_handleAll,same]
    refine cycles.trans ?_
    split
    · exact CallBoard.status_merged before.board call m.source _
    · rfl
  refine ⟨board,fun call => ?_⟩
  by_cases served : call.floor < n
  · rw [after.cell call served,board call,if_pos served,if_pos served]
  · rw [if_neg served,Registry.status_unserved after.shaped served,Registry.status_unserved told.shaped served]

/-- However its history was, a controller that reads a snapshot of another and takes the reports in
    any order ends up with the board, and with the statuses in its registry, to which one report for
    every cell of the snapshot on a served floor leads, and all served calls are merged one by one. -/
theorem snapshot_merges (evolved : c.Evolved self n) (other : m.source ≠ self) :
    ∃ absorbed, (c.replica.absorb m).2 = some absorbed ∧ ∀ told cells, told.Perm absorbed.reports →
      cells.Perm ((m.registry.beliefs n).map (.mk m.source)) →
        ((c.read m).handleAll told).board = (c.handleAll cells).board ∧
        (∀ call, ((c.read m).handleAll told).replica.registry.status call =
          (c.handleAll cells).replica.registry.status call) ∧
        c.Merges n m ((c.read m).handleAll told) := by
  have mirrors := evolved.mirrors
  have foreign : m.source ≠ c.board.self := by
    rw [evolved.board.self]
    exact other
  have elsewhere : m.source ≠ c.replica.self := by
    rw [mirrors.self]
    exact foreign
  refine ⟨_,absorb_other elsewhere,fun told cells order all => ?_⟩
  -- The cells that differ stand for the snapshot just as well as all of its cells.
  have reported : Covers c.board n m told := (covers_reports mirrors foreign).perm order
  have whole : Covers c.board n m cells := (covers_beliefs c.board n m).perm all
  have merges := reported.merges (mirrors.read m) mirrors rfl
  have merged := whole.merges mirrors mirrors rfl
  refine ⟨?_,fun call => ?_,merges⟩
  · rw [board_handleAll,board_handleAll]
    exact reported.board_eq evolved.board.known whole
  · rw [merges.registry,merged.registry]

/-- The first of two controllers that know each other; somebody has pressed at it. -/
def pressed : Controller :=
  ((new ⟨1⟩ 4 1000).react 0 (.boardAlive (.of [⟨1⟩,⟨2⟩]))).react 0 (.report (.of ⟨1⟩ (.hall 1 .up) .unconfirmed))

theorem pressed_evolved : pressed.Evolved ⟨1⟩ 4 := .react _ _ (.react _ _ (.new _))

/-- A snapshot of the second one with a short row, a long row and the row of a stranger. -/
def ragged : Broadcast :=
  ⟨⟨2⟩,⟨[.confirmed,.unconfirmed],[.unknown,.absent,.unknown,.unknown,.confirmed],
    .ofList [((⟨9⟩ : PeerId),([.unknown,.unconfirmed] : Row))]⟩,default⟩

/-- The press is confirmed, although its report comes last. -/
theorem ragged_merges : ragged.source ≠ ⟨1⟩ ∧ ∃ absorbed, (pressed.replica.absorb ragged).2 = some absorbed ∧
    absorbed.reports.length = 4 ∧ pressed.Merges 4 ragged ((pressed.read ragged).handleAll absorbed.reports.reverse) ∧
    pressed.board.merged (.hall 1 .up) ⟨2⟩ (ragged.registry.status (.hall 1 .up)) = .confirmed := by
  have other : ragged.source ≠ ⟨1⟩ := by decide
  obtain ⟨absorbed,reads,merges⟩ := snapshot_merges pressed_evolved other
  have four : (pressed.replica.absorb ragged).2.map (fun a => a.reports.length) = some 4 := by decide +kernel
  rw [reads] at four
  exact ⟨other,absorbed,reads,Option.some.inj four,(merges _ _ absorbed.reports.reverse_perm (.refl _)).2.2,
    by decide +kernel⟩

end Controller
end ElevatorFleet
