import Mathlib.Data.List.Perm.Subperm
import ElevatorFleet.Config
import ElevatorFleet.Proofs.Floors
import ElevatorFleet.Proofs.Datagram
import ElevatorFleet.Proofs.Sizes

/-!
# What fits into a datagram

A snapshot has a cell for every floor in two hall rows and in the cab row of every peer that was ever
named, and a row stays once it is there (`Replica.mem_cab_after`). So the floors and the peers decide how
large it can get (`Replica.Serves.length_le`), how small it can be made again by recording every call as
absent (`Replica.Serves.not_mute`), and from when on the rows alone are too much for a datagram
(`Replica.Serves.mute_of_all`).
-/
namespace ElevatorFleet
open Std Json Exchange

/-! ### Peers and calls there can be -/

/-- All peers there can be. -/
def PeerId.all : List PeerId := (List.range 256).map fun i => ⟨UInt8.ofNat i⟩

theorem PeerId.mem_all (p : PeerId) : p ∈ all := by
  refine List.mem_map.mpr ⟨p.num.toNat,List.mem_range.mpr p.num.toNat_lt,?_⟩
  rw [UInt8.ofNat_toNat]

theorem PeerId.length_all : all.length = 256 := by rw [all,List.length_map,List.length_range]

theorem PeerId.nodup_all : all.Nodup := by
  refine List.Nodup.map_on (fun i below j below' same => ?_) List.nodup_range
  rw [List.mem_range] at below below'
  have bytes : (UInt8.ofNat i).toNat = (UInt8.ofNat j).toNat := congrArg (fun p => p.num.toNat) same
  rwa [UInt8.toNat_ofNat_of_lt' below,UInt8.toNat_ofNat_of_lt' below'] at bytes

/-- A map has at most one entry for each peer there can be. -/
theorem PeerMap.size_le {α : Type} (map : PeerMap α) : map.size ≤ 256 := by
  rw [← ExtTreeMap.length_keys,← PeerId.length_all]
  exact (List.subperm_of_subset ExtTreeMap.nodup_keys fun p _ => PeerId.mem_all p).length_le

/-- A map has at least one entry for each of some peers that it knows. -/
theorem PeerMap.le_size {α : Type} {map : PeerMap α} {peers : List PeerId} (distinct : peers.Nodup)
    (known : ∀ p ∈ peers, p ∈ map) : peers.length ≤ map.size := by
  rw [← ExtTreeMap.length_keys]
  exact (List.subperm_of_subset distinct fun p listed => ExtTreeMap.mem_keys.mpr (known p listed)).length_le

/-- All calls there can be. Their list is too long to be computed. -/
@[irreducible] def Call.all : List Call :=
  PeerId.all.flatMap fun p => [.hall p.num .up,.hall p.num .down] ++ PeerId.all.map fun owner => .cab p.num owner

theorem Call.mem_all (call : Call) : call ∈ all := by
  rw [all]
  refine List.mem_flatMap.mpr ⟨⟨call.floor⟩,PeerId.mem_all _,?_⟩
  cases call with
  | hall floor direction => cases direction <;> simp [Call.floor]
  | cab floor owner => simp [Call.floor,PeerId.mem_all]

theorem Config.two_le_numFloors {c : Config} (accepted : c.validate = .ok ()) : 2 ≤ c.numFloors := by
  by_contra few
  have refused : c.validate = .error (.tooFewFloors c.numFloors) := by
    rw [validate,if_pos (UInt8.not_le.mp few)]
    rfl
  rw [refused] at accepted
  cases accepted

/-! ### Cells of a registry -/

namespace Registry
variable {n : UInt8} {r : Registry} {P : Status → Prop}

theorem every_of_status (shaped : r.Shaped n.toNat) (each : ∀ call, call.floor < n → P (r.status call)) : r.Every P := by
  have cells (call : Floor → Call) (same : ∀ floor, (call floor).floor = floor) {row : Row}
      (found : ∀ floor, r.row? (call floor) = some row) : ∀ s ∈ row, P s := by
    intro s listed
    obtain ⟨i,cell⟩ := List.mem_iff_getElem?.mp listed
    have inside : i < n.toNat := by
      rw [← length_row shaped (found 0)]
      exact (List.getElem?_eq_some_iff.mp cell).1
    have back : (UInt8.ofNat i).toNat = i := UInt8.toNat_ofNat_of_lt (Nat.lt_trans inside n.toNat_lt)
    have status : r.status (call (UInt8.ofNat i)) = s := status_of_cell (found _) (by rw [same,back]; exact cell)
    rw [← status]
    exact each _ (by rw [same,UInt8.lt_iff_toNat_lt,back]; exact inside)
  exact ⟨cells (.hall · .up) (fun _ => rfl) fun _ => rfl,cells (.hall · .down) (fun _ => rfl) fun _ => rfl,
    fun entry listed => cells (.cab · entry.1) (fun _ => rfl) fun _ => ExtTreeMap.mem_toList_iff_getElem?_eq_some.mp listed⟩

theorem occupied_of_shaped (shaped : r.Shaped n.toNat) (floors : 0 < n) {p : PeerId} (known : p ∈ r.cab) : r.Occupied := by
  have positive : 0 < n.toNat := UInt8.lt_iff_toNat_lt.mp floors
  have filled {row : Row} (long : row.length = n.toNat) : row ≠ [] := by
    rintro rfl
    rw [← long] at positive
    exact Nat.lt_irrefl _ positive
  refine ⟨filled shaped.up,filled shaped.down,?_,fun entry listed => ?_⟩
  · intro none
    have listed := ExtTreeMap.mem_keys.mpr known
    rw [← ExtTreeMap.map_fst_toList_eq_keys,none] at listed
    cases listed
  · exact filled (shaped.cab _ _ (ExtTreeMap.mem_toList_iff_getElem?_eq_some.mp listed))

end Registry

namespace Replica
variable {n : UInt8} {r : Replica} {p : PeerId}

/-! ### Runs of a replica -/

theorem mem_cab_take (known : p ∈ r.registry.cab) (input : Input) : p ∈ (r.take input).registry.cab := by
  cases input with
  | record b => exact (Registry.mem_cab_apply r.registry b p).mpr (.inr known)
  | absorb m =>
    rw [take,absorb]
    split
    · exact known
    · exact (Registry.mem_cab_enroll r.registry m.source m.registry p).mpr (.inr (.inr known))
  | alive alive => exact known
  | car state =>
    rw [take]
    split
    · exact known
    · exact known

theorem mem_cab_after (known : p ∈ r.registry.cab) (inputs : List Input) : p ∈ (r.after inputs).registry.cab := by
  induction inputs generalizing r with
  | nil => exact known
  | cons input rest ih => exact ih (mem_cab_take known input)

theorem self_take (r : Replica) (input : Input) : (r.take input).self = r.self := by
  cases input with
  | record b => rfl
  | absorb m =>
    rw [take,absorb]
    split <;> rfl
  | alive alive => rfl
  | car state =>
    rw [take]
    split <;> rfl

theorem self_after (r : Replica) (inputs : List Input) : (r.after inputs).self = r.self := by
  induction inputs generalizing r with
  | nil => rfl
  | cons input rest ih => exact (ih (r.take input)).trans (self_take r input)

theorem after_nil (r : Replica) : r.after [] = r := rfl

theorem after_cons (r : Replica) (input : Input) (rest : List Input) :
    r.after (input :: rest) = (r.take input).after rest := rfl

theorem outbound_eq_some {m : Broadcast} :
    r.outbound = some m ↔ r.alive.contains r.self = true ∧ r.car = some m.car ∧ r.self = m.source ∧ r.registry = m.registry := by
  obtain ⟨source,registry,car⟩ := m
  rw [outbound]
  split
  · rename_i none
    simp [none]
  · rename_i state some
    rw [some]
    by_cases member : r.alive.contains r.self = true
    · rw [if_pos member]
      simp only [Option.some.injEq,Broadcast.mk.injEq,member,true_and]
      tauto
    · rw [if_neg member]
      simp [member]

/-- Recording a status for every call there can be. -/
def fill (s : Status) : List Input := Call.all.map fun call => .record ⟨call,s⟩

theorem after_records (r : Replica) (beliefs : List Belief) :
    r.after (beliefs.map .record) = { r with registry := beliefs.foldl Registry.apply r.registry } := by
  induction beliefs generalizing r with
  | nil => rfl
  | cons b rest ih => exact ih (r.record b)

theorem after_fill (r : Replica) (s : Status) : r.after (fill s) =
    { r with registry := (Call.all.map fun call => (⟨call,s⟩ : Belief)).foldl Registry.apply r.registry } := by
  rw [← after_records,List.map_map,fill,Function.comp_def]

theorem status_fill (shaped : r.registry.Shaped n.toNat) {s : Status} (known : s ≠ .unknown) {call : Call}
    (served : call.floor < n) : (r.after (fill s)).registry.status call = s := by
  have statuses := (Registry.status_foldl_apply shaped known Call.all).2 call
  rw [if_pos ⟨served,Call.mem_all call⟩] at statuses
  rw [after_fill]
  exact statuses

/-- A replica that sends something goes on sending. -/
theorem outbound_fill {m : Broadcast} (sends : r.outbound = some m) (s : Status) :
    ∃ m', (r.after (fill s)).outbound = some m' ∧ m'.registry = (r.after (fill s)).registry := by
  -- The registry gets a name, as no step may compute it: it takes one write for each call there can be.
  obtain ⟨registry,filled⟩ : ∃ registry, r.after (fill s) = { r with registry := registry } := ⟨_,after_fill r s⟩
  obtain ⟨member,car,self,_⟩ := outbound_eq_some.mp sends
  rw [filled]
  exact ⟨{ m with registry := registry },outbound_eq_some.mpr ⟨member,car,self,rfl⟩,rfl⟩

/-- After a status was recorded for every call, every cell holds it. -/
theorem every_fill (shaped : r.registry.Shaped n.toNat) {s : Status} (known : s ≠ .unknown) :
    (r.after (fill s)).registry.Every (· = s) :=
  Registry.every_of_status (shaped_after shaped (fill s)) fun _ served => status_fill shaped known served

/-- And every peer has a row. -/
theorem mem_cab_fill (floors : 0 < n) (shaped : r.registry.Shaped n.toNat) {s : Status} (known : s ≠ .unknown)
    (p : PeerId) : p ∈ (r.after (fill s)).registry.cab := by
  have bottom : (Call.cab 0 p).floor < n := floors
  have told : (r.after (fill s)).registry.status (.cab 0 p) ≠ .unknown := by
    rw [status_fill shaped known bottom]
    exact known
  obtain ⟨row,found,_⟩ := Registry.cell_of_status told
  exact ExtTreeMap.isSome_getElem?_iff_mem.mp (Option.isSome_iff_exists.mpr ⟨row,found⟩)

end Replica

/-! ### Sizes of snapshots -/

namespace Broadcast
variable {m : Broadcast}

theorem encode_eq_error (large : maxDatagramSize < (write m).length) :
    m.encode = .error (.tooLarge (write m).length) := by
  rw [encode,if_neg (Nat.not_le.mpr large)]

/-- Rows of `n` cells for every peer there can be, none of the cells under `w` bytes. -/
theorem le_size_of_all {n w : Nat} (shaped : m.registry.Shaped n) (cells : m.registry.Every fun s => w ≤ s.space)
    (rows : ∀ p, p ∈ m.registry.cab) : 116 + 2 * (n * w) + 256 * (n * w + 6) ≤ m.size := by
  have peers := PeerMap.le_size PeerId.nodup_all fun p _ => rows p
  rw [PeerId.length_all] at peers
  exact (Nat.add_le_add_left (Nat.mul_le_mul_right (n * w + 6) peers) _).trans (le_size shaped cells)

end Broadcast

namespace Replica
variable {n : UInt8} {r : Replica} {m : Broadcast}

/-- Nothing that the replica may have to send from here on fits into a datagram. -/
def Mute (r : Replica) : Prop :=
  ∀ inputs m, (r.after inputs).outbound = some m → ∃ size, m.encode = .error (.tooLarge size)

/-- The replica serves `n` floors and has its own cab row. -/
structure Serves (n : UInt8) (r : Replica) : Prop where
  floors : 0 < n
  shaped : r.registry.Shaped n.toNat
  own : r.self ∈ r.registry.cab

theorem serves_new (floors : 0 < n) (self : PeerId) : (new self n).Serves n :=
  ⟨floors,shaped_new self n,(Registry.mem_cab_register (Registry.new n) self self).mpr (.inl rfl)⟩

theorem Serves.take (serves : r.Serves n) (input : Input) : (r.take input).Serves n := by
  refine ⟨serves.floors,shaped_take serves.shaped input,?_⟩
  rw [self_take]
  exact mem_cab_take serves.own input

theorem Serves.after (serves : r.Serves n) (inputs : List Input) : (r.after inputs).Serves n := by
  induction inputs generalizing r with
  | nil => exact serves
  | cons input rest ih => exact ih (serves.take input)

theorem Serves.shaped_outbound (serves : r.Serves n) (sends : r.outbound = some m) : m.registry.Shaped n.toNat := by
  obtain ⟨_,_,_,same⟩ := outbound_eq_some.mp sends
  rw [← same]
  exact serves.shaped

theorem Serves.length_write (serves : r.Serves n) (sends : r.outbound = some m) : (write m).length = m.size := by
  obtain ⟨_,_,_,same⟩ := outbound_eq_some.mp sends
  refine Broadcast.length_write ?_
  rw [← same]
  exact Registry.occupied_of_shaped serves.shaped serves.floors serves.own

theorem Serves.length_le (serves : r.Serves n) (sends : r.outbound = some m) : (write m).length ≤
    133 + 2 * (n.toNat * 14) + m.registry.cab.size * (n.toNat * 14 + 8) := by
  rw [serves.length_write sends]
  exact Broadcast.size_le (serves.shaped_outbound sends) (Registry.every_of_forall Status.space_le m.registry)

/-- Few floors or few cab rows make few bytes. -/
theorem Serves.fits_of_few (serves : r.Serves n) (sends : r.outbound = some m)
    (few : n.toNat ≤ 17 ∨ m.registry.cab.size ≤ 16) : (write m).length ≤ maxDatagramSize := by
  have bound := serves.length_le sends
  have floors := n.toNat_lt
  rw [maxDatagramSize]
  rcases few with low | rows
  · have rows := Nat.mul_le_mul (PeerMap.size_le m.registry.cab) (by omega : n.toNat * 14 + 8 ≤ 246)
    omega
  · have rows := Nat.mul_le_mul_right (n.toNat * 14 + 8) rows
    omega

/-- Up to 27 floors everything fits once every call is absent. -/
theorem Serves.not_mute (serves : r.Serves n) (sends : r.outbound = some m) (low : n.toNat ≤ 27) : ¬ r.Mute := by
  intro mute
  obtain ⟨m',sent,same⟩ := outbound_fill sends .absent
  have later := serves.after (fill .absent)
  have absent : m'.registry.Every fun s => s.space ≤ 9 := by
    rw [same]
    refine (every_fill serves.shaped (by decide : Status.absent ≠ .unknown)).imp ?_
    rintro _ rfl
    decide
  have fits : (write m').length ≤ maxDatagramSize := by
    have bound := Broadcast.size_le (later.shaped_outbound sent) absent
    have rows := Nat.mul_le_mul (PeerMap.size_le m'.registry.cab) (by omega : n.toNat * 9 + 8 ≤ 251)
    rw [later.length_write sent,maxDatagramSize]
    omega
  obtain ⟨size,refused⟩ := mute (fill .absent) m' sent
  rw [Broadcast.encode_eq_ok.mpr ⟨rfl,fits⟩] at refused
  cases refused

/-- From 18 floors on the unconfirmed calls of all peers are too much. -/
theorem Serves.unconfirmed_large (serves : r.Serves n) (sends : r.outbound = some m) (tall : 18 ≤ n.toNat) :
    ∃ m', (r.after (fill .unconfirmed)).outbound = some m' ∧ maxDatagramSize < (write m').length := by
  obtain ⟨m',sent,same⟩ := outbound_fill sends .unconfirmed
  have later := serves.after (fill .unconfirmed)
  have known : Status.unconfirmed ≠ .unknown := by decide
  have cells : m'.registry.Every fun s => 14 ≤ s.space := by
    rw [same]
    refine (every_fill serves.shaped known).imp ?_
    rintro _ rfl
    decide
  have rows : ∀ p, p ∈ m'.registry.cab := by
    rw [same]
    exact mem_cab_fill serves.floors serves.shaped known
  have bound := Broadcast.le_size_of_all (later.shaped_outbound sent) cells rows
  refine ⟨m',sent,?_⟩
  rw [later.length_write sent,maxDatagramSize]
  omega

/-- From 28 floors on the mere rows of all peers are too much, and they stay. -/
theorem Serves.mute_of_all (serves : r.Serves n) (tall : 28 ≤ n.toNat) (rows : ∀ p, p ∈ r.registry.cab) : r.Mute := by
  intro inputs m sends
  have later := serves.after inputs
  have least : m.registry.Every fun s => 9 ≤ s.space := Registry.every_of_forall Status.le_space m.registry
  have stay : ∀ p, p ∈ m.registry.cab := by
    -- Nothing that happens later takes a row away.
    obtain ⟨_,_,_,same⟩ := outbound_eq_some.mp sends
    rw [← same]
    exact fun p => mem_cab_after (rows p) inputs
  have bound := Broadcast.le_size_of_all (later.shaped_outbound sends) least stay
  refine ⟨_,Broadcast.encode_eq_error ?_⟩
  rw [later.length_write sends,maxDatagramSize]
  omega

end Replica

/-! ### Snapshots that name everybody -/

namespace Broadcast
variable {named : List PeerId} {p : PeerId}

/-- A snapshot of one floor with a blank row for each of the peers. -/
def census (source : PeerId) (named : List PeerId) : Broadcast :=
  ⟨source,named.foldl Registry.register (Registry.new 1),default⟩

theorem mem_cab_census (source : PeerId) (listed : p ∈ named) : p ∈ (census source named).registry.cab := by
  rw [← ExtTreeMap.isSome_getElem?_iff_mem,census,Registry.cab_foldl_register,if_pos listed,Option.isSome_or]
  exact Bool.or_true _

theorem shaped_census (source : PeerId) (named : List PeerId) : (census source named).registry.Shaped 1 :=
  (Registry.foldl_register named (Registry.new 1)).2 1 (Registry.shaped_new 1)

/-- However many it names, it fits into a datagram. -/
theorem encode_census (source : PeerId) (listed : p ∈ named) :
    (census source named).encode = .ok (write (census source named)) := by
  have shaped := shaped_census source named
  have occupied := Registry.occupied_of_shaped (n := 1) shaped (by decide) (mem_cab_census source listed)
  have bound := size_le shaped (Registry.every_of_forall Status.space_le (census source named).registry)
  have rows := PeerMap.size_le (census source named).registry.cab
  refine encode_eq_ok.mpr ⟨rfl,?_⟩
  rw [length_write occupied,maxDatagramSize]
  omega

end Broadcast

namespace Replica
variable {n : UInt8} {r : Replica} {source : PeerId}

theorem mem_cab_absorb {m : Broadcast} {p : PeerId} (other : m.source ≠ r.self) (named : p ∈ m.registry.cab) :
    p ∈ (r.take (.absorb m)).registry.cab := by
  rw [take,absorb,if_neg other]
  exact (Registry.mem_cab_enroll _ _ _ _).mpr (.inr (.inl named))

theorem isSome_outbound_absorb (r : Replica) (m : Broadcast) :
    (r.take (.absorb m)).outbound.isSome = r.outbound.isSome := by
  rw [take,absorb]
  split
  · rfl
  · rw [outbound,outbound]
    dsimp only
    split
    · rfl
    · split <;> rfl

theorem outbound_car (self : PeerId) (n : UInt8) (state : CarState) :
    ((new self n).take (.car state)).outbound = some ⟨self,(new self n).registry,state⟩ := by
  refine outbound_eq_some.mpr ⟨?_,rfl,rfl,rfl⟩
  exact ExtTreeSet.contains_iff_mem.mpr (PeerSet.mem_of.mpr (List.mem_singleton_self self))

/-- A snapshot from another peer that names everybody silences a replica of 28 floors or more. -/
theorem Serves.mute_census (serves : r.Serves n) (tall : 28 ≤ n.toNat) (other : source ≠ r.self) :
    (r.take (.absorb (.census source PeerId.all))).Mute :=
  (serves.take _).mute_of_all tall fun p => mem_cab_absorb other (Broadcast.mem_cab_census source p.mem_all)

/-- What a started controller sends grows with its floors and its cab rows, and is encoded exactly if it fits.
    Up to 17 floors it always fits. Up to 27 floors it can grow too large, but never so that it stays too
    large. From there on one snapshot of any other peer silences the controller for good, as rows are never
    given up. -/
theorem broadcasts_fit {c : Config} (accepted : c.validate = .ok ()) (self : PeerId) :
    let n := c.numFloors.toNat
    let started := new self c.numFloors
    (∀ inputs m, (started.after inputs).outbound = some m →
      m.registry.cab.size ≤ 256 ∧ (write m).length ≤ 133 + 28 * n + m.registry.cab.size * (14 * n + 8) ∧
      ((write m).length ≤ maxDatagramSize → m.encode = .ok (write m)) ∧
      (maxDatagramSize < (write m).length → m.encode = .error (.tooLarge (write m).length)) ∧
      (n ≤ 17 ∨ m.registry.cab.size ≤ 16 → m.encode = .ok (write m)) ∧
      (n ≤ 27 → ¬ (started.after inputs).Mute)) ∧
    (18 ≤ n → ∃ inputs m, (started.after inputs).outbound = some m ∧ m.encode = .error (.tooLarge (write m).length)) ∧
    (28 ≤ n → ∀ source ≠ self, ∃ census : Broadcast, census.source = source ∧ census.encode = .ok (write census) ∧
      ∀ inputs, ((started.after inputs).take (.absorb census)).outbound.isSome = (started.after inputs).outbound.isSome ∧
        ((started.after inputs).take (.absorb census)).Mute) := by
  intro n started
  have floors : 0 < c.numFloors := UInt8.lt_of_lt_of_le (by decide) (Config.two_le_numFloors accepted)
  have serves (inputs : List Input) : (started.after inputs).Serves c.numFloors := (serves_new floors self).after inputs
  have encoded {m : Broadcast} (fits : (write m).length ≤ maxDatagramSize) : m.encode = .ok (write m) :=
    Broadcast.encode_eq_ok.mpr ⟨rfl,fits⟩
  refine ⟨fun inputs m sends => ?_,fun tall => ?_,fun tall source other => ?_⟩
  · have serving := serves inputs
    have bound : (write m).length ≤ 133 + 28 * n + m.registry.cab.size * (14 * n + 8) := by
      have bound := serving.length_le sends
      rw [Nat.mul_comm n 14] at bound
      omega
    exact ⟨PeerMap.size_le m.registry.cab,bound,encoded,Broadcast.encode_eq_error,
      fun few => encoded (serving.fits_of_few sends few),serving.not_mute sends⟩
  · have sends := outbound_car self c.numFloors default
    obtain ⟨m,sent,large⟩ := ((serves_new floors self).take (.car default)).unconfirmed_large sends tall
    rw [← after_cons] at sent
    exact ⟨_,m,sent,Broadcast.encode_eq_error large⟩
  · refine ⟨.census source PeerId.all,rfl,Broadcast.encode_census source source.mem_all,fun inputs => ⟨isSome_outbound_absorb _ _,?_⟩⟩
    have same : (started.after inputs).self = self := self_after started inputs
    exact (serves inputs).mute_census tall (by rwa [same])

/-- A configuration of 28 floors. -/
def tower : Config := { numFloors := 28 }

/-- The first snapshot of a controller with 28 floors. -/
def early : Broadcast := ⟨⟨1⟩,(new ⟨1⟩ 28).registry,default⟩

/-- Its first snapshot fits, and then somebody names everybody. -/
theorem early_encoded : tower.validate = .ok () ∧ ((new ⟨1⟩ 28).after [.car default]).outbound = some early ∧
    early.encode = .ok (write early) ∧
    ∃ census : Broadcast, census.encode = .ok (write census) ∧ (((new ⟨1⟩ 28).after [.car default]).take (.absorb census)).Mute := by
  have accepted : tower.validate = .ok () := by decide +kernel
  obtain ⟨fits,_,silenced⟩ := broadcasts_fit accepted ⟨1⟩
  have sends : ((new ⟨1⟩ 28).after [.car default]).outbound = some early := outbound_car ⟨1⟩ 28 default
  obtain ⟨_,_,_,_,encoded,_⟩ := fits [.car default] early sends
  obtain ⟨census,_,small,mute⟩ := silenced (by decide) ⟨2⟩ (by decide)
  exact ⟨accepted,sends,encoded (.inr (by decide +kernel)),census,small,(mute [.car default]).2⟩

/-- A snapshot that itself fits leaves a controller with 28 floors nothing that it could send. -/
theorem tower_silenced :
    let census := Broadcast.census ⟨2⟩ PeerId.all
    let silenced := (new ⟨1⟩ tower.numFloors).after [.car default,.absorb census]
    tower.validate = .ok () ∧ census.encode = .ok (write census) ∧
    (∃ m size, silenced.outbound = some m ∧ m.encode = .error (.tooLarge size)) ∧ silenced.Mute := by
  intro census silenced
  have started : (new ⟨1⟩ tower.numFloors).Serves tower.numFloors := serves_new (by decide) ⟨1⟩
  have steps : silenced = ((new ⟨1⟩ tower.numFloors).take (.car default)).take (.absorb census) := by
    simp only [silenced,after_cons,after_nil]
  have mute : silenced.Mute := by
    rw [steps]
    exact (started.take (.car default)).mute_census (by decide) (by decide)
  have speaks : silenced.outbound.isSome = true := by
    rw [steps,isSome_outbound_absorb,outbound_car]
    rfl
  obtain ⟨m,sends⟩ := Option.isSome_iff_exists.mp speaks
  obtain ⟨size,refused⟩ := mute [] m (by rwa [after_nil])
  exact ⟨by decide +kernel,Broadcast.encode_census ⟨2⟩ (PeerId.mem_all ⟨2⟩),⟨m,size,sends,refused⟩,mute⟩

end Replica
end ElevatorFleet
