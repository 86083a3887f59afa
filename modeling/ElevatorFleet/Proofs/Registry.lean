import ElevatorFleet.Registry

/-!
# Registries of one shape

A registry that has a cell for every floor it serves keeps that shape through every
record and comparison (`Shaped`). In such a registry a record changes the status of its
own call and of no other (`status_apply`), and a comparison changes no status and
reports exactly the served cells in which the sender differs, with the sender's status
(`status_diff`, `mem_diff`).
-/
namespace ElevatorFleet
open Std

namespace Status

theorem differs_iff {own theirs : Status} :
    differs own theirs = true ↔ theirs ≠ .unknown ∧ (own ≠ theirs ∨ own = .unconfirmed) := by
  cases own <;> cases theirs <;> decide

end Status

namespace Registry

/-- Every row has a cell for each of `n` floors. -/
structure Shaped (n : Nat) (r : Registry) : Prop where
  up : r.hallUp.length = n
  down : r.hallDown.length = n
  cab : ∀ (owner : PeerId) (row : Row), r.cab[owner]? = some row → row.length = n

theorem shaped_new (n : UInt8) : (new n).Shaped n.toNat := by
  refine ⟨by simp [new,blankRow],by simp [new,blankRow],?_⟩
  intro owner row entry
  simp [new] at entry

theorem shaped_register {n : Nat} {r : Registry} (shaped : r.Shaped n) (peer : PeerId) :
    (r.register peer).Shaped n := by
  rw [register]
  split
  · exact shaped
  · refine ⟨shaped.up,shaped.down,?_⟩
    intro owner row entry
    rw [ExtTreeMap.getElem?_insert] at entry
    split at entry
    · cases entry
      rw [blankRow,List.length_replicate]
      exact shaped.up
    · exact shaped.cab owner row entry

theorem shaped_registerOwner {n : Nat} {r : Registry} (shaped : r.Shaped n) (call : Call) :
    (r.registerOwner call).Shaped n := by
  cases call with
  | hall floor direction => exact shaped
  | cab floor owner => exact shaped_register shaped owner

theorem shaped_write {n : Nat} {r : Registry} (shaped : r.Shaped n) (call : Call) (s : Status) :
    (r.write call s).Shaped n := by
  cases call with
  | hall floor direction =>
    cases direction with
    | up => exact ⟨by simpa [write] using shaped.up,shaped.down,shaped.cab⟩
    | down => exact ⟨shaped.up,by simpa [write] using shaped.down,shaped.cab⟩
  | cab floor owner =>
    cases found : r.cab[owner]? with
    | none => simpa [write,found] using shaped
    | some row =>
      simp only [write,found]
      refine ⟨shaped.up,shaped.down,?_⟩
      intro other row' entry
      rw [ExtTreeMap.getElem?_insert] at entry
      split at entry
      · cases entry
        rw [List.length_set]
        exact shaped.cab owner row found
      · exact shaped.cab other row' entry

theorem shaped_apply {n : Nat} {r : Registry} (shaped : r.Shaped n) (b : Belief) : (r.apply b).Shaped n := by
  rw [apply]
  split
  · exact shaped_write (shaped_registerOwner shaped b.call) b.call b.status
  · exact shaped

/-! ### Statuses -/

/-- A blank row tells what a missing one does. -/
theorem status_register (r : Registry) (peer : PeerId) (call : Call) :
    (r.register peer).status call = r.status call := by
  rw [register]
  split
  · rfl
  · rename_i unregistered
    cases call with
    | hall floor direction => cases direction <;> rfl
    | cab floor owner =>
      by_cases same : peer = owner
      · subst same
        have missing : r.cab[peer]? = none := by
          apply ExtTreeMap.getElem?_eq_none_of_contains_eq_false
          rw [knows] at unregistered
          exact Bool.eq_false_iff.mpr unregistered
        simp only [status,cell?,row?,ExtTreeMap.getElem?_insert_self,missing,blankRow,Option.bind_some,
          List.getElem?_replicate]
        split <;> rfl
      · simp [status,cell?,row?,ExtTreeMap.getElem?_insert,same]

theorem status_registerOwner (r : Registry) (owned call : Call) :
    (r.registerOwner owned).status call = r.status call := by
  cases owned with
  | hall floor direction => rfl
  | cab floor owner => exact status_register r owner call

theorem row?_registerOwner (r : Registry) (call : Call) : ((r.registerOwner call).row? call).isSome = true := by
  cases call with
  | hall floor direction => cases direction <;> rfl
  | cab floor owner =>
    rw [registerOwner,register]
    split
    · rename_i registered
      rw [knows,ExtTreeMap.contains_eq_isSome_getElem?] at registered
      exact registered
    · simp [row?]

theorem getElem?_set_floor {row : Row} {floor : Floor} (long : floor.toNat < row.length) (s : Status)
    (other : Floor) :
    (row.set floor.toNat s)[other.toNat]? = if floor = other then some s else row[other.toNat]? := by
  rw [List.getElem?_set]
  by_cases same : floor = other
  · subst same
    simp [long]
  · have apart : floor.toNat ≠ other.toNat := fun equal => same (UInt8.toNat_inj.mp equal)
    simp [same,apart]

/-- Writing a served cell changes its status and no other. -/
theorem status_write {n : Nat} {r : Registry} (shaped : r.Shaped n) {call : Call} (hasRow : (r.row? call).isSome = true)
    (served : call.floor.toNat < n) (s : Status) (other : Call) :
    (r.write call s).status other = if call = other then s else r.status other := by
  cases call with
  | hall floor direction =>
    cases direction with
    | up =>
      have long : floor.toNat < r.hallUp.length := by rw [shaped.up]; exact served
      cases other with
      | hall floor' direction' =>
        cases direction' with
        | up =>
          simp only [write,status,cell?,row?,Call.floor,Option.bind_some,getElem?_set_floor long]
          by_cases same : floor = floor' <;> simp [same]
        | down => simp [write,status,cell?,row?]
      | cab floor' owner => simp [write,status,cell?,row?]
    | down =>
      have long : floor.toNat < r.hallDown.length := by rw [shaped.down]; exact served
      cases other with
      | hall floor' direction' =>
        cases direction' with
        | up => simp [write,status,cell?,row?]
        | down =>
          simp only [write,status,cell?,row?,Call.floor,Option.bind_some,getElem?_set_floor long]
          by_cases same : floor = floor' <;> simp [same]
      | cab floor' owner => simp [write,status,cell?,row?]
  | cab floor owner =>
    obtain ⟨row,found⟩ := Option.isSome_iff_exists.mp hasRow
    rw [row?] at found
    have long : floor.toNat < row.length := by rw [shaped.cab owner row found]; exact served
    cases other with
    | hall floor' direction' => cases direction' <;> simp [write,status,cell?,row?,found]
    | cab floor' owner' =>
      by_cases owned : owner = owner'
      · subst owned
        simp only [write,status,cell?,row?,Call.floor,found,Option.bind_some,ExtTreeMap.getElem?_insert_self,
          getElem?_set_floor long]
        by_cases same : floor = floor' <;> simp [same]
      · simp [write,status,cell?,row?,found,ExtTreeMap.getElem?_insert,owned]

theorem floorLimit_eq {n : UInt8} {r : Registry} (shaped : r.Shaped n.toNat) : r.floorLimit = n := by
  rw [floorLimit,numFloors,shaped.up,UInt8.ofNat_toNat]

theorem accepts_iff {n : UInt8} {r : Registry} (shaped : r.Shaped n.toNat) {b : Belief} :
    r.accepts b = true ↔ b.status ≠ .unknown ∧ b.call.floor < n := by
  simp [accepts,floorLimit_eq shaped]

/-- A belief about a served floor becomes the status of its call, unless it is
    unknown; no other status changes. -/
theorem status_apply {n : UInt8} {r : Registry} (shaped : r.Shaped n.toNat) (b : Belief) (call : Call) :
    (r.apply b).status call =
      if b.status ≠ .unknown ∧ b.call.floor < n ∧ b.call = call then b.status else r.status call := by
  rw [apply]
  by_cases accepted : r.accepts b
  · rw [if_pos accepted]
    have told := (accepts_iff shaped).mp accepted
    rw [status_write (shaped_registerOwner shaped b.call) (row?_registerOwner r b.call)
      (UInt8.lt_iff_toNat_lt.mp told.2),status_registerOwner]
    simp [told.1,told.2]
  · rw [if_neg accepted,if_neg fun told => accepted ((accepts_iff shaped).mpr ⟨told.1,told.2.1⟩)]

/-- Recording one status for several calls gives it to those that are served. -/
theorem status_foldl_apply {n : UInt8} {r : Registry} (shaped : r.Shaped n.toNat) {s : Status} (known : s ≠ .unknown)
    (calls : List Call) :
    ((calls.map fun call => (⟨call,s⟩ : Belief)).foldl apply r).Shaped n.toNat ∧
      ∀ call, ((calls.map fun call => (⟨call,s⟩ : Belief)).foldl apply r).status call =
        if call.floor < n ∧ call ∈ calls then s else r.status call := by
  induction calls generalizing r with
  | nil => exact ⟨shaped,by simp⟩
  | cons head rest ih =>
    obtain ⟨shape,statuses⟩ := ih (shaped_apply shaped ⟨head,s⟩)
    refine ⟨shape,fun call => ?_⟩
    rw [List.map_cons,List.foldl_cons,statuses call,status_apply shaped]
    by_cases served : call.floor < n
    · by_cases same : head = call
      · subst same; simp [served,known]
      · simp [served,same,Ne.symm same]
    · have ignored : ¬ (head.floor < n ∧ head = call) := fun both => served (both.2 ▸ both.1)
      simp [served,ignored]

theorem length_row {n : Nat} {r : Registry} (shaped : r.Shaped n) {call : Call} {row : Row}
    (found : r.row? call = some row) : row.length = n := by
  cases call with
  | hall floor direction =>
    cases direction with
    | up => cases found; exact shaped.up
    | down => cases found; exact shaped.down
  | cab floor owner => exact shaped.cab owner row found

theorem status_of_cell {r : Registry} {call : Call} {row : Row} {s : Status} (found : r.row? call = some row)
    (cell : row[call.floor.toNat]? = some s) : r.status call = s := by
  rw [status,cell?,found,Option.bind_some,cell,Option.getD_some]

theorem cell_of_status {r : Registry} {call : Call} (known : r.status call ≠ .unknown) :
    ∃ row, r.row? call = some row ∧ row[call.floor.toNat]? = some (r.status call) := by
  rw [status,cell?] at known ⊢
  cases found : r.row? call with
  | none => simp [found] at known
  | some row =>
    refine ⟨row,rfl,?_⟩
    cases cell : row[call.floor.toNat]? with
    | none => simp [found,cell] at known
    | some s => simp [cell]

theorem status_new (n : UInt8) (call : Call) : (new n).status call = .unknown := by
  by_cases known : (new n).status call = .unknown
  · exact known
  · -- A cell of the new registry is one of a blank row.
    obtain ⟨row,found,cell⟩ := cell_of_status known
    cases call with
    | hall floor direction =>
      cases direction <;> cases found <;> exact List.eq_of_mem_replicate (List.mem_of_getElem? cell)
    | cab floor owner => simp [row?,new] at found

/-- Floors that are not served have no status. -/
theorem status_unserved {n : UInt8} {r : Registry} (shaped : r.Shaped n.toNat) {call : Call}
    (unserved : ¬ call.floor < n) : r.status call = .unknown := by
  by_cases known : r.status call = .unknown
  · exact known
  obtain ⟨row,found,cell⟩ := cell_of_status known
  have inside := (List.getElem?_eq_some_iff.mp cell).1
  rw [length_row shaped found] at inside
  exact absurd (UInt8.lt_iff_toNat_lt.mpr inside) unserved

/-! ### Comparing -/

theorem foldl_register (peers : List PeerId) (r : Registry) :
    (∀ call, (peers.foldl register r).status call = r.status call) ∧
      ∀ n, r.Shaped n → (peers.foldl register r).Shaped n := by
  induction peers generalizing r with
  | nil => simp
  | cons peer rest ih =>
    obtain ⟨statuses,shape⟩ := ih (r.register peer)
    exact ⟨fun call => (statuses call).trans (status_register r peer call),
      fun n shaped => shape n (shaped_register shaped peer)⟩

/-- Registering the peers of a snapshot changes no status. -/
theorem status_enroll (r : Registry) (sender : PeerId) (remote : Registry) (call : Call) :
    (r.enroll sender remote).status call = r.status call :=
  ((foldl_register _ _).1 call).trans (status_register r sender call)

theorem shaped_enroll {n : Nat} {r : Registry} (shaped : r.Shaped n) (sender : PeerId) (remote : Registry) :
    (r.enroll sender remote).Shaped n :=
  (foldl_register _ _).2 n (shaped_register shaped sender)

theorem halls_register (r : Registry) (peer : PeerId) :
    (r.register peer).hallUp = r.hallUp ∧ (r.register peer).hallDown = r.hallDown := by
  rw [register]
  split
  · exact ⟨rfl,rfl⟩
  · exact ⟨rfl,rfl⟩

theorem cab_register (r : Registry) (peer owner : PeerId) :
    (r.register peer).cab[owner]? =
      r.cab[owner]?.or (if owner = peer then some (blankRow r.numFloors) else none) := by
  rw [register,knows,ExtTreeMap.contains_eq_isSome_getElem?]
  by_cases same : owner = peer
  · subst same
    cases found : r.cab[owner]? with
    | none => simp
    | some row => simp [found]
  · rw [if_neg same,Option.or_none]
    split
    · rfl
    · rw [ExtTreeMap.getElem?_insert,if_neg fun equal => same (LawfulEqCmp.compare_eq_iff_eq.mp equal).symm]

theorem halls_foldl_register (peers : List PeerId) (r : Registry) :
    (peers.foldl register r).hallUp = r.hallUp ∧ (peers.foldl register r).hallDown = r.hallDown := by
  induction peers generalizing r with
  | nil => exact ⟨rfl,rfl⟩
  | cons peer rest ih =>
    obtain ⟨up,down⟩ := halls_register r peer
    exact ⟨(ih _).1.trans up,(ih _).2.trans down⟩

theorem cab_foldl_register (peers : List PeerId) (r : Registry) (owner : PeerId) :
    (peers.foldl register r).cab[owner]? =
      r.cab[owner]?.or (if owner ∈ peers then some (blankRow r.numFloors) else none) := by
  induction peers generalizing r with
  | nil => simp
  | cons peer rest ih =>
    have floors : (r.register peer).numFloors = r.numFloors := congrArg List.length (halls_register r peer).1
    rw [List.foldl_cons,ih,cab_register,floors,Option.or_assoc]
    by_cases same : owner = peer
    · simp [same]
    · simp [same]

theorem halls_enroll (r : Registry) (sender : PeerId) (remote : Registry) :
    (r.enroll sender remote).hallUp = r.hallUp ∧ (r.enroll sender remote).hallDown = r.hallDown := by
  obtain ⟨up,down⟩ := halls_foldl_register remote.cab.keys (r.register sender)
  obtain ⟨up',down'⟩ := halls_register r sender
  exact ⟨up.trans up',down.trans down'⟩

/-- A comparison opens blank rows for the sender and for the owners in its registry, and leaves every other
    row as it is. -/
theorem cab_enroll (r : Registry) (sender : PeerId) (remote : Registry) (owner : PeerId) :
    (r.enroll sender remote).cab[owner]? =
      r.cab[owner]?.or (if owner = sender ∨ owner ∈ remote.cab then some (blankRow r.numFloors) else none) := by
  have floors : (r.register sender).numFloors = r.numFloors := congrArg List.length (halls_register r sender).1
  rw [enroll,cab_foldl_register,cab_register,floors,Option.or_assoc]
  by_cases same : owner = sender
  · simp [same]
  · simp [same]

/-- Every owner of a row in the snapshot has a row afterwards. -/
theorem row_enroll (r : Registry) (sender : PeerId) {remote : Registry} {owner : PeerId} {theirs : Row}
    (entry : remote.cab[owner]? = some theirs) : ∃ row, (r.enroll sender remote).cab[owner]? = some row := by
  have listed : owner ∈ remote.cab := ExtTreeMap.isSome_getElem?_iff_mem.mp (Option.isSome_iff_exists.mpr ⟨theirs,entry⟩)
  rw [cab_enroll,if_pos (.inr listed)]
  cases r.cab[owner]? with
  | none => exact ⟨_,rfl⟩
  | some row => exact ⟨row,rfl⟩

/-- The comparison of two rows reports the cells that differ, on the floors of both. -/
theorem mem_rowDiff {sender : PeerId} {call : Floor → Call} {own theirs : Row} (short : own.length ≤ 256) {m : Report} :
    m ∈ rowDiff sender call own theirs ↔ ∃ floor : Floor, ∃ mine other,
      own[floor.toNat]? = some mine ∧ theirs[floor.toNat]? = some other ∧ Status.differs mine other = true ∧
      m = .of sender (call floor) other := by
  simp only [rowDiff,List.mem_filterMap,Prod.exists,List.mem_zipIdx_iff_getElem?,List.getElem?_zip_eq_some]
  constructor
  · rintro ⟨mine,other,floor,⟨ownCell,theirCell⟩,reported⟩
    have bound : floor < 256 := by
      have := (List.getElem?_eq_some_iff.mp ownCell).1
      omega
    have back : (UInt8.ofNat floor).toNat = floor := UInt8.toNat_ofNat_of_lt bound
    split at reported
    · rename_i differ
      cases reported
      exact ⟨UInt8.ofNat floor,mine,other,by rw [back]; exact ownCell,by rw [back]; exact theirCell,differ,rfl⟩
    · cases reported
  · rintro ⟨floor,mine,other,ownCell,theirCell,differ,rfl⟩
    exact ⟨mine,other,floor.toNat,⟨ownCell,theirCell⟩,by simp [differ]⟩

theorem row?_enroll (r : Registry) (sender : PeerId) {remote : Registry} {call : Call} {theirs : Row}
    (found : remote.row? call = some theirs) : ∃ row, (r.enroll sender remote).row? call = some row := by
  cases call with
  | hall floor direction => cases direction <;> exact ⟨_,rfl⟩
  | cab floor owner => exact row_enroll r sender found

/-- A comparison reports the cells that differ, in the rows that both registries have. -/
theorem mem_diff_rows {n : Nat} {r : Registry} (shaped : r.Shaped n) (byte : n ≤ 256) (sender : PeerId)
    (remote : Registry) (m : Report) :
    m ∈ (r.diff sender remote).2 ↔ ∃ own theirs mine other,
      (r.enroll sender remote).row? m.belief.call = some own ∧ remote.row? m.belief.call = some theirs ∧
      own[m.belief.call.floor.toNat]? = some mine ∧ theirs[m.belief.call.floor.toNat]? = some other ∧
      Status.differs mine other = true ∧ m = .of sender m.belief.call other := by
  have known := shaped_enroll shaped sender remote
  have upShort : (r.enroll sender remote).hallUp.length ≤ 256 := by rw [known.up]; exact byte
  have downShort : (r.enroll sender remote).hallDown.length ≤ 256 := by rw [known.down]; exact byte
  have cabShort {owner : PeerId} {row : Row} (found : (r.enroll sender remote).cab[owner]? = some row) :
      row.length ≤ 256 := by rw [known.cab owner row found]; exact byte
  simp only [diff,List.mem_append,List.mem_flatMap,Prod.exists,mem_rowDiff upShort,mem_rowDiff downShort]
  constructor
  · rintro ((⟨floor,mine,other,ownCell,theirCell,differ,rfl⟩ | ⟨floor,mine,other,ownCell,theirCell,differ,rfl⟩) |
      ⟨owner,theirs,entry,reported⟩)
    · exact ⟨_,_,mine,other,rfl,rfl,ownCell,theirCell,differ,rfl⟩
    · exact ⟨_,_,mine,other,rfl,rfl,ownCell,theirCell,differ,rfl⟩
    · rw [ExtTreeMap.mem_toList_iff_getElem?_eq_some] at entry
      obtain ⟨own,found⟩ := row_enroll r sender entry
      rw [ExtTreeMap.getD_eq_getD_getElem?,found,Option.getD_some,mem_rowDiff (cabShort found)] at reported
      obtain ⟨floor,mine,other,ownCell,theirCell,differ,rfl⟩ := reported
      exact ⟨own,theirs,mine,other,found,entry,ownCell,theirCell,differ,rfl⟩
  · rintro ⟨own,theirs,mine,other,ownRow,theirRow,ownCell,theirCell,differ,same⟩
    cases about : m.belief.call with
    | hall floor direction =>
      rw [about] at ownRow theirRow ownCell theirCell same
      cases direction with
      | up =>
        cases ownRow
        cases theirRow
        exact .inl (.inl ⟨floor,mine,other,ownCell,theirCell,differ,same⟩)
      | down =>
        cases ownRow
        cases theirRow
        exact .inl (.inr ⟨floor,mine,other,ownCell,theirCell,differ,same⟩)
    | cab floor owner =>
      rw [about] at ownRow theirRow ownCell theirCell same
      refine .inr ⟨owner,theirs,ExtTreeMap.mem_toList_iff_getElem?_eq_some.mpr theirRow,?_⟩
      have found : (r.enroll sender remote).cab[owner]? = some own := ownRow
      rw [ExtTreeMap.getD_eq_getD_getElem?,found,Option.getD_some,mem_rowDiff (cabShort found)]
      exact ⟨floor,mine,other,ownCell,theirCell,differ,same⟩

/-- A comparison reports exactly the served calls whose status differs, each with the
    status that the sender holds it in. -/
theorem mem_diff {n : UInt8} {r : Registry} (shaped : r.Shaped n.toNat) {sender : PeerId} {remote : Registry}
    {m : Report} :
    m ∈ (r.diff sender remote).2 ↔ m.source = sender ∧ m.belief.call.floor < n ∧
      m.belief.status = remote.status m.belief.call ∧
      Status.differs (r.status m.belief.call) (remote.status m.belief.call) = true := by
  have byte : n.toNat ≤ 256 := Nat.le_of_lt n.toNat_lt
  have known := shaped_enroll shaped sender remote
  rw [mem_diff_rows shaped byte]
  constructor
  · rintro ⟨own,theirs,mine,other,ownRow,theirRow,ownCell,theirCell,differ,same⟩
    have ownStatus := status_of_cell ownRow ownCell
    have theirStatus := status_of_cell theirRow theirCell
    rw [status_enroll] at ownStatus
    refine ⟨by rw [same]; rfl,?_,by rw [theirStatus,same]; rfl,by rw [ownStatus,theirStatus]; exact differ⟩
    have inside := (List.getElem?_eq_some_iff.mp ownCell).1
    rw [length_row known ownRow] at inside
    exact UInt8.lt_iff_toNat_lt.mpr inside
  · rintro ⟨source,served,told,differ⟩
    obtain ⟨theirs,theirRow,theirCell⟩ := cell_of_status (Status.differs_iff.mp differ).1
    obtain ⟨own,ownRow⟩ := row?_enroll r sender theirRow
    have inside : m.belief.call.floor.toNat < own.length := by
      rw [length_row known ownRow]
      exact UInt8.lt_iff_toNat_lt.mp served
    have ownCell := List.getElem?_eq_getElem inside
    have ownStatus := status_of_cell ownRow ownCell
    rw [status_enroll] at ownStatus
    refine ⟨own,theirs,_,_,ownRow,theirRow,ownCell,theirCell,by rw [← ownStatus]; exact differ,?_⟩
    rw [← told,← source]
    rfl

/-- A difference is read from a cell of the sender's registry. -/
theorem mem_diff_cell {n : UInt8} {r : Registry} (shaped : r.Shaped n.toNat) {sender : PeerId} {remote : Registry}
    {m : Report} :
    m ∈ (r.diff sender remote).2 ↔ m.source = sender ∧ m.belief.call.floor < n ∧
      remote.cell? m.belief.call = some m.belief.status ∧
      Status.differs (r.status m.belief.call) m.belief.status = true := by
  rw [mem_diff shaped]
  constructor
  · rintro ⟨source,served,told,differ⟩
    obtain ⟨row,found,cell⟩ := cell_of_status (Status.differs_iff.mp differ).1
    rw [cell?,found,Option.bind_some,told]
    exact ⟨source,served,cell,differ⟩
  · rintro ⟨source,served,cell,differ⟩
    have told : remote.status m.belief.call = m.belief.status := by rw [status,cell,Option.getD_some]
    rw [told]
    exact ⟨source,served,rfl,differ⟩

theorem status_diff (r : Registry) (sender : PeerId) (remote : Registry) (call : Call) :
    (r.diff sender remote).1.status call = r.status call :=
  status_enroll r sender remote call

theorem shaped_diff {n : Nat} {r : Registry} (shaped : r.Shaped n) (sender : PeerId) (remote : Registry) :
    (r.diff sender remote).1.Shaped n :=
  shaped_enroll shaped sender remote

/-! ### Owners -/

theorem mem_cab_register (r : Registry) (peer owner : PeerId) :
    owner ∈ (r.register peer).cab ↔ owner = peer ∨ owner ∈ r.cab := by
  rw [register]
  split
  · rename_i registered
    constructor
    · exact .inr
    · rintro (rfl | old)
      · exact registered
      · exact old
  · rw [ExtTreeMap.mem_insert,LawfulEqCmp.compare_eq_iff_eq,eq_comm]

theorem mem_cab_registerOwner (r : Registry) (call : Call) (owner : PeerId) :
    owner ∈ (r.registerOwner call).cab ↔ (∃ floor, call = .cab floor owner) ∨ owner ∈ r.cab := by
  cases call with
  | hall floor direction => simp [registerOwner]
  | cab floor other =>
    rw [registerOwner,mem_cab_register]
    constructor
    · rintro (rfl | old)
      · exact .inl ⟨floor,rfl⟩
      · exact .inr old
    · rintro (⟨_,same⟩ | old)
      · cases same
        exact .inl rfl
      · exact .inr old

theorem mem_cab_write (r : Registry) (call : Call) (s : Status) (owner : PeerId) :
    owner ∈ (r.write call s).cab ↔ owner ∈ r.cab := by
  cases call with
  | hall floor direction => cases direction <;> exact Iff.rfl
  | cab floor other =>
    cases found : r.cab[other]? with
    | none => simp [write,found]
    | some row =>
      have registered : other ∈ r.cab := ExtTreeMap.isSome_getElem?_iff_mem.mp (by rw [found]; rfl)
      simp only [write,found,ExtTreeMap.mem_insert,LawfulEqCmp.compare_eq_iff_eq]
      constructor
      · rintro (rfl | old)
        · exact registered
        · exact old
      · exact .inr

/-- A record opens a row for the owner of its own call at most. -/
theorem mem_cab_apply (r : Registry) (b : Belief) (owner : PeerId) :
    owner ∈ (r.apply b).cab ↔ (r.accepts b = true ∧ ∃ floor, b.call = .cab floor owner) ∨ owner ∈ r.cab := by
  rw [apply]
  split
  · rename_i accepted
    rw [mem_cab_write,mem_cab_registerOwner]
    simp [accepted]
  · rename_i refused
    simp [refused]

theorem mem_cab_foldl_apply {beliefs : List Belief} {r : Registry} {owner : PeerId} (old : owner ∈ r.cab) :
    owner ∈ (beliefs.foldl apply r).cab := by
  induction beliefs generalizing r with
  | nil => exact old
  | cons b rest ih => exact ih ((mem_cab_apply r b owner).mpr (.inr old))

/-- A comparison opens rows for the sender and for the owners in its registry. -/
theorem mem_cab_enroll (r : Registry) (sender : PeerId) (remote : Registry) (owner : PeerId) :
    owner ∈ (r.enroll sender remote).cab ↔ owner = sender ∨ owner ∈ remote.cab ∨ owner ∈ r.cab := by
  rw [← ExtTreeMap.isSome_getElem?_iff_mem,cab_enroll,Option.isSome_or,Bool.or_eq_true,
    ExtTreeMap.isSome_getElem?_iff_mem,or_comm,← or_assoc]
  by_cases opened : owner = sender ∨ owner ∈ remote.cab
  · simp [opened]
  · simp [opened]

/-- Where everybody in a snapshot has a row, a comparison changes nothing. -/
theorem enroll_known {r : Registry} {sender : PeerId} {remote : Registry} (sent : sender ∈ r.cab)
    (known : ∀ owner ∈ remote.cab, owner ∈ r.cab) : r.enroll sender remote = r := by
  have folded : ∀ peers : List PeerId, (∀ peer ∈ peers, peer ∈ r.cab) → peers.foldl register r = r := by
    intro peers
    induction peers with
    | nil => exact fun _ => rfl
    | cons peer rest ih =>
      intro all
      have first : r.register peer = r := if_pos (all peer List.mem_cons_self)
      rw [List.foldl_cons,first]
      exact ih fun other member => all other (List.mem_cons_of_mem _ member)
  have first : r.register sender = r := if_pos sent
  rw [enroll,first]
  exact folded _ fun owner member => known owner (ExtTreeMap.mem_keys.mp member)

/-- Whoever owns the call of a difference has a row afterwards. -/
theorem owner_of_diff {n : Nat} {r : Registry} (shaped : r.Shaped n) (byte : n ≤ 256) {sender : PeerId}
    {remote : Registry} {m : Report} (reported : m ∈ (r.diff sender remote).2) {floor : Floor} {owner : PeerId}
    (about : m.belief.call = .cab floor owner) : owner ∈ (r.diff sender remote).1.cab := by
  obtain ⟨own,_,_,_,found,_⟩ := (mem_diff_rows shaped byte sender remote m).mp reported
  rw [about] at found
  exact ExtTreeMap.isSome_getElem?_iff_mem.mp (Option.isSome_iff_exists.mpr ⟨own,found⟩)

/-! ### Registries by what they tell -/

theorem cell_of_served {n : UInt8} {r : Registry} (shaped : r.Shaped n.toNat) {call : Call} {row : Row}
    (found : r.row? call = some row) (served : call.floor < n) : row[call.floor.toNat]? = some (r.status call) := by
  have inside : call.floor.toNat < row.length := by
    rw [length_row shaped found]
    exact UInt8.lt_iff_toNat_lt.mp served
  have cell := List.getElem?_eq_getElem inside
  rw [cell,status_of_cell found cell]

/-- Registries of one shape that tell the same of every call and know the same owners are equal. -/
theorem eq_of_status {n : UInt8} {r s : Registry} (shaped : r.Shaped n.toNat) (shaped' : s.Shaped n.toNat)
    (statuses : ∀ call, r.status call = s.status call) (owners : ∀ owner, owner ∈ r.cab ↔ owner ∈ s.cab) : r = s := by
  have rows (call : Floor → Call) (same : ∀ floor, (call floor).floor = floor) {own other : Row}
      (left : ∀ floor, r.row? (call floor) = some own) (right : ∀ floor, s.row? (call floor) = some other) :
      own = other := by
    refine eq_of_floors (length_row shaped (left 0)) (length_row shaped' (right 0)) fun floor served => ?_
    have inside : (call floor).floor < n := (same floor).symm ▸ served
    have cell := cell_of_served shaped (left floor) inside
    have cell' := cell_of_served shaped' (right floor) inside
    rw [same] at cell cell'
    rw [cell,cell',statuses]
  have up : r.hallUp = s.hallUp := rows (.hall · .up) (fun _ => rfl) (fun _ => rfl) (fun _ => rfl)
  have down : r.hallDown = s.hallDown := rows (.hall · .down) (fun _ => rfl) (fun _ => rfl) (fun _ => rfl)
  have cab : r.cab = s.cab := by
    refine ExtTreeMap.ext_getElem? fun owner => ?_
    have both := owners owner
    rw [← ExtTreeMap.isSome_getElem?_iff_mem,← ExtTreeMap.isSome_getElem?_iff_mem] at both
    cases own : r.cab[owner]? with
    | none => cases other : s.cab[owner]? <;> simp_all
    | some row =>
      cases other : s.cab[owner]? with
      | none => simp_all
      | some row' => rw [rows (.cab · owner) (fun _ => rfl) (fun _ => own) (fun _ => other)]
  cases r
  cases s
  simp_all

/-- Recording what a registry tells already changes nothing. -/
theorem apply_told {n : UInt8} {r : Registry} (shaped : r.Shaped n.toNat) {b : Belief}
    (told : b.status ≠ .unknown → b.call.floor < n → r.status b.call = b.status) : r.apply b = r := by
  refine eq_of_status (shaped_apply shaped b) shaped (fun call => ?_) fun owner => ?_
  · rw [status_apply shaped]
    split
    · rename_i accepted
      rw [← accepted.2.2,told accepted.1 accepted.2.1]
    · rfl
  · rw [mem_cab_apply]
    refine or_iff_right_of_imp ?_
    rintro ⟨accepted,floor,about⟩
    have known := (accepts_iff shaped).mp accepted
    obtain ⟨row,found,_⟩ := cell_of_status ((told known.1 known.2).symm ▸ known.1)
    rw [about] at found
    exact ExtTreeMap.isSome_getElem?_iff_mem.mp (Option.isSome_iff_exists.mpr ⟨row,found⟩)

end Registry
end ElevatorFleet
