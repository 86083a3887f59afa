import ElevatorFleet.Dispatch.View

/-!
# What a dispatch view calls for

A view calls for nothing but what it was told: a record touches its own call only, and
only a confirmed belief turns a call on. A view that has a cell for every floor it serves
keeps that shape (`Shaped`), and then a settled belief is shown as it is (`isCalled_record_served`).
-/
namespace ElevatorFleet.Dispatch.View
open Std

theorem toNat_ne {floor other : Floor} (apart : floor ≠ other) : floor.toNat ≠ other.toNat :=
  fun equal => apart (UInt8.toNat_inj.mp equal)

theorem cabRow_insert (v : View) (owner other : PeerId) (row : List Bool) :
    ({ v with cab := v.cab.insert owner row } : View).cabRow other = if owner = other then row else v.cabRow other := by
  simp [cabRow,ExtTreeMap.getD_insert]

/-- Writing a call leaves every other call as it is. -/
theorem isCalled_setCalled_other {call other : Call} (apart : call ≠ other) (v : View) (called : Bool) :
    (v.setCalled call called).isCalled other = v.isCalled other := by
  cases call with
  | hall floor direction =>
    cases other with
    | hall floor' direction' =>
      by_cases same : floor = floor'
      · subst same
        cases direction with
        | up =>
          cases direction' with
          | up => exact absurd rfl apart
          | down =>
            simp only [setCalled,isCalled,Call.floor,List.getElem?_modify_eq]
            cases v.hall[floor.toNat]? <;> rfl
        | down =>
          cases direction' with
          | up =>
            simp only [setCalled,isCalled,Call.floor,List.getElem?_modify_eq]
            cases v.hall[floor.toNat]? <;> rfl
          | down => exact absurd rfl apart
      · have cells := toNat_ne same
        cases direction <;> cases direction' <;> simp [setCalled,isCalled,Call.floor,List.getElem?_modify_ne,cells]
    | cab floor' owner' => cases direction <;> rfl
  | cab floor owner =>
    cases other with
    | hall floor' direction' => cases direction' <;> rfl
    | cab floor' owner' =>
      simp only [setCalled,isCalled,Call.floor,cabRow_insert]
      by_cases owned : owner = owner'
      · subst owned
        have cells : floor.toNat ≠ floor'.toNat := toNat_ne fun same => apart (same ▸ rfl)
        simp [List.getD_eq_getElem?_getD,List.getElem?_set_ne cells]
      · simp [owned]

/-- A call that is on after it was written was written so. -/
theorem called_of_setCalled {v : View} {call : Call} {called : Bool}
    (on : (v.setCalled call called).isCalled call = true) : called = true := by
  cases call with
  | hall floor direction =>
    cases direction <;> simp only [setCalled,isCalled,Call.floor,List.getElem?_modify_eq] at on <;>
      cases cell : v.hall[floor.toNat]? <;> simp [cell] at on <;> exact on
  | cab floor owner =>
    simp only [setCalled,isCalled,Call.floor,cabRow_insert,↓reduceIte,List.getD_eq_getElem?_getD,
      List.getElem?_set_self'] at on
    cases cell : (v.cabRow owner)[floor.toNat]? <;> simp [cell] at on
    exact on

/-- A call that is on after a record was on before, or the record confirms it. -/
theorem isCalled_record {v : View} {b : Belief} {call : Call} (on : (v.record b).isCalled call = true) :
    v.isCalled call = true ∨ (b.call = call ∧ b.status = .confirmed) := by
  rw [record] at on
  split at on
  · by_cases same : b.call = call
    · subst same
      exact .inr ⟨rfl,of_decide_eq_true (called_of_setCalled on)⟩
    · rw [isCalled_setCalled_other same] at on
      exact .inl on
  · exact .inl on

theorem isCalled_foldl_record {beliefs : List Belief} {v : View} {call : Call}
    (on : (beliefs.foldl record v).isCalled call = true) :
    v.isCalled call = true ∨ ∃ b ∈ beliefs, b.call = call ∧ b.status = .confirmed := by
  induction beliefs generalizing v with
  | nil => exact .inl on
  | cons head rest ih =>
    rcases ih on with recorded | ⟨b,member,confirms⟩
    · rcases isCalled_record recorded with old | confirms
      · exact .inl old
      · exact .inr ⟨head,List.mem_cons_self,confirms⟩
    · exact .inr ⟨b,List.mem_cons_of_mem _ member,confirms⟩

theorem cabRow_setCar (v : View) (r : CarReport) (peer : PeerId) : (v.setCar r).cabRow peer = v.cabRow peer := by
  refine (cabRow_insert v r.peer peer (v.cabRow r.peer)).trans ?_
  split
  · rename_i same; rw [same]
  · rfl

/-- The state of a car and the row that it opens call for nothing. -/
theorem isCalled_setCar (v : View) (r : CarReport) (call : Call) : (v.setCar r).isCalled call = v.isCalled call := by
  cases call with
  | hall floor direction => cases direction <;> rfl
  | cab floor owner => rw [isCalled,isCalled,cabRow_setCar]

theorem alive_record (v : View) (b : Belief) : (v.record b).alive = v.alive := by
  rw [record]
  split
  · cases b.call with
    | hall floor direction => cases direction <;> rfl
    | cab floor owner => rfl
  · rfl

theorem isCalled_new (numFloors : UInt8) (call : Call) : (new numFloors).isCalled call = false := by
  cases call with
  | hall floor direction =>
    cases direction <;> simp only [isCalled,new,List.getElem?_replicate] <;> split <;> rfl
  | cab floor owner =>
    simp only [isCalled,cabRow,new,darkRow,ExtTreeMap.getD_empty,List.getD_eq_getElem?_getD,List.getElem?_replicate]
    split <;> rfl

/-! ### Views of one shape -/

/-- Every row has a cell for each of `n` floors. -/
structure Shaped (n : UInt8) (v : View) : Prop where
  floors : v.numFloors = n
  hall : v.hall.length = n.toNat
  cab : ∀ (owner : PeerId) (row : List Bool), v.cab[owner]? = some row → row.length = n.toNat

theorem shaped_new (n : UInt8) : (new n).Shaped n := by
  refine ⟨rfl,by simp [new],?_⟩
  intro owner row entry
  simp [new] at entry

section
variable {n : UInt8} {v : View}

theorem Shaped.cabRow (shaped : v.Shaped n) (owner : PeerId) : (v.cabRow owner).length = n.toNat := by
  rw [View.cabRow,ExtTreeMap.getD_eq_getD_getElem?]
  cases entry : v.cab[owner]? with
  | none => rw [Option.getD_none,darkRow,List.length_replicate,shaped.floors]
  | some row => exact shaped.cab owner row entry

theorem Shaped.insert (shaped : v.Shaped n) (owner : PeerId) {row : List Bool} (long : row.length = n.toNat) :
    ({ v with cab := v.cab.insert owner row } : View).Shaped n := by
  refine ⟨shaped.floors,shaped.hall,?_⟩
  intro other row' entry
  rw [ExtTreeMap.getElem?_insert] at entry
  split at entry
  · cases entry
    exact long
  · exact shaped.cab other row' entry

theorem Shaped.setCalled (shaped : v.Shaped n) (call : Call) (called : Bool) : (v.setCalled call called).Shaped n := by
  cases call with
  | hall floor direction =>
    cases direction with
    | up => exact ⟨shaped.floors,by simpa [View.setCalled] using shaped.hall,shaped.cab⟩
    | down => exact ⟨shaped.floors,by simpa [View.setCalled] using shaped.hall,shaped.cab⟩
  | cab floor owner =>
    refine shaped.insert owner ?_
    rw [List.length_set]
    exact shaped.cabRow owner

theorem Shaped.record (shaped : v.Shaped n) (b : Belief) : (v.record b).Shaped n := by
  rw [View.record]
  split
  · exact shaped.setCalled b.call _
  · exact shaped

theorem Shaped.setCar (shaped : v.Shaped n) (r : CarReport) : (v.setCar r).Shaped n := by
  have opened := shaped.insert r.peer (shaped.cabRow r.peer)
  exact ⟨opened.floors,opened.hall,opened.cab⟩

theorem Shaped.accepts_iff (shaped : v.Shaped n) {b : Belief} :
    v.accepts b = true ↔ b.status.isSettled = true ∧ b.call.floor < n := by
  simp [View.accepts,shaped.floors]

theorem isCalled_setCalled (shaped : v.Shaped n) {call : Call} (served : call.floor < n) (called : Bool) :
    (v.setCalled call called).isCalled call = called := by
  have inside : call.floor.toNat < n.toNat := UInt8.lt_iff_toNat_lt.mp served
  cases call with
  | hall floor direction =>
    have long : floor.toNat < v.hall.length := by
      rw [shaped.hall]
      exact inside
    have cell := List.getElem?_eq_getElem long
    cases direction with
    | up =>
      simp only [setCalled,isCalled,Call.floor,List.getElem?_modify_eq,cell]
      rfl
    | down =>
      simp only [setCalled,isCalled,Call.floor,List.getElem?_modify_eq,cell]
      rfl
  | cab floor owner =>
    have long : floor.toNat < (v.cabRow owner).length := by
      rw [shaped.cabRow]
      exact inside
    simp only [setCalled,isCalled,Call.floor,cabRow_insert,↓reduceIte,List.getD_eq_getElem?_getD,
      List.getElem?_set_self long,Option.getD_some]

/-- A settled belief about a served floor decides whether its call is on; no other call changes. -/
theorem isCalled_record_served (shaped : v.Shaped n) {call : Call} (served : call.floor < n) (b : Belief) :
    (v.record b).isCalled call =
      if b.status.isSettled = true ∧ b.call = call then decide (b.status = .confirmed) else v.isCalled call := by
  rw [View.record]
  by_cases about : b.call = call
  · subst about
    by_cases settled : b.status.isSettled
    · rw [if_pos (shaped.accepts_iff.mpr ⟨settled,served⟩),if_pos ⟨settled,rfl⟩,isCalled_setCalled shaped served]
    · rw [if_neg fun accepted => settled (shaped.accepts_iff.mp accepted).1,if_neg fun both => settled both.1]
  · have other : ¬ (b.status.isSettled = true ∧ b.call = call) := fun both => about both.2
    rw [if_neg other]
    split
    · exact isCalled_setCalled_other about v _
    · rfl

/-! ### Views by what they call for -/

theorem states_record (v : View) (b : Belief) : (v.record b).states = v.states := by
  rw [View.record]
  split
  · cases b.call with
    | hall floor direction => cases direction <;> rfl
    | cab floor owner => rfl
  · rfl

/-- A record opens a row for the owner of its own call at most. -/
theorem mem_cab_record (v : View) (b : Belief) (owner : PeerId) :
    owner ∈ (v.record b).cab ↔ (v.accepts b = true ∧ ∃ floor, b.call = .cab floor owner) ∨ owner ∈ v.cab := by
  rw [View.record]
  split
  · rename_i accepted
    cases b.call with
    | hall floor direction => cases direction <;> simp [View.setCalled]
    | cab floor other =>
      simp only [View.setCalled,accepted,ExtTreeMap.mem_insert,LawfulEqCmp.compare_eq_iff_eq,Call.cab.injEq]
      constructor
      · rintro (rfl | old)
        · exact .inl ⟨trivial,floor,rfl,rfl⟩
        · exact .inr old
      · rintro (⟨_,_,_,rfl⟩ | old)
        · exact .inl rfl
        · exact .inr old
  · rename_i refused
    simp [refused]

theorem hall_cell (shaped : v.Shaped n) {floor : Floor} (served : floor < n) :
    v.hall[floor.toNat]? = some ⟨v.isCalled (.hall floor .up),v.isCalled (.hall floor .down)⟩ := by
  have inside : floor.toNat < v.hall.length := by
    rw [shaped.hall]
    exact UInt8.lt_iff_toNat_lt.mp served
  simp [isCalled,Call.floor,List.getElem?_eq_getElem inside]

theorem cab_cell (shaped : v.Shaped n) {floor : Floor} (served : floor < n) {owner : PeerId} {row : List Bool}
    (found : v.cab[owner]? = some row) : row[floor.toNat]? = some (v.isCalled (.cab floor owner)) := by
  have inside : floor.toNat < row.length := by
    rw [shaped.cab owner row found]
    exact UInt8.lt_iff_toNat_lt.mp served
  simp [isCalled,Call.floor,View.cabRow,ExtTreeMap.getD_eq_getD_getElem?,found,List.getElem?_eq_getElem inside]

/-- Views of one shape that call for the same, know the same owners, cars and peers alive are equal. -/
theorem eq_of_isCalled {w : View} (shaped : v.Shaped n) (shaped' : w.Shaped n)
    (calls : ∀ call, v.isCalled call = w.isCalled call) (owners : ∀ owner, owner ∈ v.cab ↔ owner ∈ w.cab)
    (states : v.states = w.states) (alive : v.alive = w.alive) : v = w := by
  have hall : v.hall = w.hall := by
    refine eq_of_floors shaped.hall shaped'.hall fun floor served => ?_
    rw [hall_cell shaped served,hall_cell shaped' served,calls,calls]
  have cab : v.cab = w.cab := by
    refine ExtTreeMap.ext_getElem? fun owner => ?_
    have both := owners owner
    rw [← ExtTreeMap.isSome_getElem?_iff_mem,← ExtTreeMap.isSome_getElem?_iff_mem] at both
    cases own : v.cab[owner]? with
    | none => cases other : w.cab[owner]? <;> simp_all
    | some row =>
      cases other : w.cab[owner]? with
      | none => simp_all
      | some row' =>
        refine congrArg some (eq_of_floors (shaped.cab owner row own) (shaped'.cab owner row' other) ?_)
        intro floor served
        rw [cab_cell shaped served own,cab_cell shaped' served other,calls]
  have floors := shaped.floors.trans shaped'.floors.symm
  cases v
  cases w
  simp_all

/-- Recording what a view shows already changes nothing. -/
theorem record_shown (shaped : v.Shaped n) {b : Belief} (called : v.accepts b = true →
      v.isCalled b.call = decide (b.status = .confirmed) ∧ ∀ floor owner, b.call = .cab floor owner → owner ∈ v.cab) :
    v.record b = v := by
  refine eq_of_isCalled (shaped.record b) shaped (fun call => ?_) (fun owner => ?_) (states_record v b) (alive_record v b)
  · by_cases accepted : v.accepts b = true
    · have served := (shaped.accepts_iff.mp accepted).2
      rw [View.record,if_pos accepted]
      by_cases about : b.call = call
      · rw [← about,isCalled_setCalled shaped served,(called accepted).1]
      · exact isCalled_setCalled_other about v _
    · rw [View.record,if_neg accepted]
  · rw [mem_cab_record]
    refine or_iff_right_of_imp ?_
    rintro ⟨accepted,floor,about⟩
    exact (called accepted).2 floor owner about

/-- Reporting a state that a view holds already changes nothing. -/
theorem setCar_shown {r : CarReport} (known : v.states[r.peer]? = some r.state) (row : r.peer ∈ v.cab) :
    v.setCar r = v := by
  have states : v.states.insert r.peer r.state = v.states := by
    refine ExtTreeMap.ext_getElem? fun peer => ?_
    rw [ExtTreeMap.getElem?_insert]
    split
    · rename_i same
      rw [← LawfulEqCmp.compare_eq_iff_eq.mp same,known]
    · rfl
  have cab : v.cab.insert r.peer (v.cabRow r.peer) = v.cab := by
    refine ExtTreeMap.ext_getElem? fun peer => ?_
    rw [ExtTreeMap.getElem?_insert]
    split
    · rename_i same
      obtain ⟨row,found⟩ := Option.isSome_iff_exists.mp (ExtTreeMap.isSome_getElem?_iff_mem.mpr row)
      rw [← LawfulEqCmp.compare_eq_iff_eq.mp same,found,View.cabRow,ExtTreeMap.getD_eq_getD_getElem?,found,
        Option.getD_some]
    · rfl
  rw [View.setCar,states,cab]

end

end ElevatorFleet.Dispatch.View
