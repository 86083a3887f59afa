import ElevatorFleet.Proofs.LastWrites

/-!
# Comparisons

A comparison is exact: it reports each cell that both registries have and that differs, once, in the order
hall calls up, hall calls down, cab calls by owner (`mem_diff_cell`, `diff_ordered`). It writes nothing
but the blank rows of the peers that it meets for the first time (`cab_enroll`).
-/
namespace ElevatorFleet
open Std

/-- The order of a comparison: the hall calls up before those down, each by floor, and then the cab calls by
    owner and floor. -/
inductive Call.Precedes : Call → Call → Prop where
  | hall {floor later : Floor} (direction : Direction) :
      floor < later → Precedes (.hall floor direction) (.hall later direction)
  | direction (floor later : Floor) : Precedes (.hall floor .up) (.hall later .down)
  | kind (floor later : Floor) (direction : Direction) (owner : PeerId) :
      Precedes (.hall floor direction) (.cab later owner)
  | owner (floor later : Floor) {owner next : PeerId} :
      owner.num < next.num → Precedes (.cab floor owner) (.cab later next)
  | cab {floor later : Floor} (owner : PeerId) : floor < later → Precedes (.cab floor owner) (.cab later owner)

theorem Call.not_precedes_self (call : Call) : ¬ call.Precedes call := by
  intro before
  cases before with
  | hall direction ascends => exact UInt8.lt_irrefl _ ascends
  | owner _ _ ascends => exact UInt8.lt_irrefl _ ascends
  | cab owner ascends => exact UInt8.lt_irrefl _ ascends

namespace Registry
variable {n : UInt8} {r remote : Registry} {sender owner : PeerId}

/-! ### The order of the reports -/

theorem call_of_rowDiff {call : Floor → Call} {own theirs : Row} {u : Report}
    (reported : u ∈ rowDiff sender call own theirs) : ∃ floor, u.belief.call = call floor := by
  obtain ⟨⟨⟨mine,other⟩,floor⟩,_,differ⟩ := List.mem_filterMap.mp reported
  simp only [Option.ite_none_right_eq_some,Option.some.injEq] at differ
  obtain ⟨_,rfl⟩ := differ
  exact ⟨UInt8.ofNat floor,rfl⟩

/-- The cells of two rows are compared floor by floor. -/
theorem rowDiff_ordered (sender : PeerId) {call : Floor → Call} {own : Row} (short : own.length ≤ 256) (theirs : Row)
    (ascends : ∀ {floor later}, floor < later → (call floor).Precedes (call later)) :
    (rowDiff sender call own theirs).Pairwise fun u v => u.belief.call.Precedes v.belief.call := by
  have indices : ((own.zip theirs).zipIdx.map Prod.snd).Pairwise (· < ·) := by
    rw [List.zipIdx_map_snd]
    exact List.pairwise_lt_range' 1
  -- Floors are bytes: only below 256 do they ascend with the cells.
  have bounded : (own.zip theirs).zipIdx.Pairwise fun a b => a.2 < b.2 ∧ b.2 < 256 := by
    refine (List.pairwise_map.mp indices).imp_of_mem fun {a b} _ member before => ⟨before,?_⟩
    have inside := List.snd_lt_of_mem_zipIdx member
    rw [List.length_zip] at inside
    omega
  refine bounded.filterMap _ ?_
  rintro ⟨⟨_,other⟩,floor⟩ ⟨⟨_,other'⟩,later⟩ ⟨before,inside⟩ u reported v reported'
  simp only [Option.ite_none_right_eq_some,Option.some.injEq] at before inside reported reported'
  obtain ⟨_,rfl⟩ := reported
  obtain ⟨_,rfl⟩ := reported'
  refine ascends ?_
  rw [UInt8.lt_iff_toNat_lt,UInt8.toNat_ofNat_of_lt' (Nat.lt_trans before inside),UInt8.toNat_ofNat_of_lt' inside]
  exact before

theorem diff_ordered (shaped : r.Shaped n.toNat) (sender : PeerId) (remote : Registry) :
    (r.diff sender remote).2.Pairwise fun u v => u.belief.call.Precedes v.belief.call := by
  have known := shaped_enroll shaped sender remote
  have byte : n.toNat ≤ 256 := Nat.le_of_lt n.toNat_lt
  have cabShort (owner : PeerId) : ((r.enroll sender remote).cab.getD owner []).length ≤ 256 := by
    rw [ExtTreeMap.getD_eq_getD_getElem?]
    cases found : (r.enroll sender remote).cab[owner]? with
    | none => simp
    | some row => exact known.cab owner row found ▸ byte
  -- Within each row, between the rows of two owners, and between the three parts of the list.
  simp only [diff,List.pairwise_append,List.pairwise_flatMap,List.mem_append]
  refine ⟨⟨?up,?down,?halls⟩,⟨?rows,?owners⟩,?cabs⟩
  case up => exact rowDiff_ordered sender (known.up ▸ byte) remote.hallUp (.hall .up)
  case down => exact rowDiff_ordered sender (known.down ▸ byte) remote.hallDown (.hall .down)
  case halls =>
    intro u reported v reported'
    obtain ⟨floor,about⟩ := call_of_rowDiff reported
    obtain ⟨later,about'⟩ := call_of_rowDiff reported'
    rw [about,about']
    exact .direction floor later
  case rows =>
    rintro ⟨owner,row⟩ _
    exact rowDiff_ordered sender (cabShort owner) row (.cab owner)
  case owners =>
    refine remote.cab.ordered_keys_toList.imp ?_
    rintro ⟨owner,row⟩ ⟨next,row'⟩ ascends u reported v reported'
    obtain ⟨floor,about⟩ := call_of_rowDiff reported
    obtain ⟨later,about'⟩ := call_of_rowDiff reported'
    rw [about,about']
    exact .owner floor later (compare_eq_lt.mp ascends)
  case cabs =>
    rintro u reported v reported'
    obtain ⟨⟨owner,row⟩,_,inRow⟩ := List.mem_flatMap.mp reported'
    obtain ⟨later,about'⟩ := call_of_rowDiff inRow
    rw [about']
    rcases reported with up | down
    · obtain ⟨floor,about⟩ := call_of_rowDiff up
      rw [about]
      exact .kind floor later .up owner
    · obtain ⟨floor,about⟩ := call_of_rowDiff down
      rw [about]
      exact .kind floor later .down owner

/-! ### What a comparison is -/

/-- All that a comparison of a registry of `n` floors with a snapshot of `sender` does. -/
structure Compared (n : UInt8) (r : Registry) (sender : PeerId) (remote known : Registry) (reports : List Report) :
    Prop where
  /-- A report stands for a cell of the snapshot, on a served floor, that differs. -/
  reported : ∀ u, u ∈ reports ↔ u.source = sender ∧ u.belief.call.floor < n ∧
    remote.cell? u.belief.call = some u.belief.status ∧ Status.differs (r.status u.belief.call) u.belief.status = true
  once : (reports.map fun u => u.belief.call).Nodup
  ordered : reports.Pairwise fun u v => u.belief.call.Precedes v.belief.call
  hallUp : known.hallUp = r.hallUp
  hallDown : known.hallDown = r.hallDown
  cab : ∀ owner, known.cab[owner]? =
    r.cab[owner]?.or (if owner = sender ∨ owner ∈ remote.cab then some (List.replicate n.toNat .unknown) else none)
  status : ∀ call, known.status call = r.status call

/-- After any records, registrations and comparisons, and whatever rows the snapshot has, a comparison reports
    exactly the cells that differ, each once and in order, with the status in the snapshot. It adds blank rows
    for the sender and the owners that have none, so no status changes. -/
theorem diff_exactly (n : UInt8) (inputs : List Input) (sender : PeerId) (remote : Registry) :
    let r := (new n).after inputs
    Compared n r sender remote (r.diff sender remote).1 (r.diff sender remote).2 := by
  intro r
  have shaped : r.Shaped n.toNat := shaped_after n inputs
  have ordered := diff_ordered shaped sender remote
  refine ⟨fun u => mem_diff_cell shaped,?once,ordered,(halls_enroll r sender remote).1,
    (halls_enroll r sender remote).2,?cab,status_diff r sender remote⟩
  case once =>
    refine List.pairwise_map.mpr (ordered.imp ?_)
    intro u v before same
    exact Call.not_precedes_self _ (same ▸ before)
  case cab =>
    have floors : r.numFloors = n.toNat := shaped.up
    intro owner
    rw [← floors]
    exact cab_enroll r sender remote owner

/-- A snapshot of ragged rows: a row too long, one too short, the row of a stranger, and one that tells nothing. -/
example : let r := (new 2).after [.apply ⟨.hall 0 .up,.unconfirmed⟩,.apply ⟨.cab 1 ⟨5⟩,.absent⟩]
    ((r.diff ⟨3⟩ ⟨[.unconfirmed,.absent,.confirmed],[.absent],
      .ofList [((⟨9⟩ : PeerId),([.confirmed] : Row)),(⟨5⟩,[.unknown,.confirmed])]⟩).2.map Report.text) =
        ["3 hall(0,up)=unconfirmed","3 hall(1,up)=absent","3 hall(0,down)=absent","3 cab(1,#5)=confirmed",
          "3 cab(0,#9)=confirmed"] := by
  decide +kernel

end Registry
end ElevatorFleet
