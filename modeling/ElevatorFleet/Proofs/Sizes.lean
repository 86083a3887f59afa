import Mathlib.Algebra.Group.Action.Defs
import Mathlib.Algebra.Order.BigOperators.Group.List
import ElevatorFleet.Datagram
import ElevatorFleet.Proofs.Registry
import ElevatorFleet.Proofs.Rendering

/-!
# Sizes of broadcasts

How many bytes a broadcast takes, counted cell by cell (`Broadcast.size`, `Broadcast.length_write`): a
status takes 9 to 14 of them with the comma after it, a row one more than its cells, and a cab row 5 to 7
more for its key. The rest of a broadcast takes at most 131.
-/
namespace ElevatorFleet
open Std Json Exchange

namespace Json

/-- Commas stand between the texts: one for each of them but the last. -/
theorem length_commaSeparated {texts : List Bytes} (some : texts ≠ []) :
    (commaSeparated texts).length + 1 = (texts.map fun text => text.length + 1).sum := by
  fun_induction commaSeparated texts with
  | case1 => exact absurd rfl some
  | case2 text => simp
  | case3 text rest last ih =>
    have more := ih fun none => last none
    simp only [List.length_append,List.length_cons,List.map_cons,List.sum_cons]
    omega

theorem length_array {items : List Value} (some : items ≠ []) :
    (Value.array items).render.length = 1 + (items.map fun v => v.render.length + 1).sum := by
  have texts : items.map Value.render ≠ [] := by simpa using some
  have commas := length_commaSeparated texts
  rw [List.map_map] at commas
  simp only [Value.render,renderItems_eq,List.length_cons,List.length_append,List.length_nil]
  simp only [Function.comp_def] at commas
  omega

theorem length_quoted (raw : Bytes) : (quoted raw).length = raw.length + 2 := by
  simp [quoted]

/-- A member takes four bytes more than its key and its value. -/
theorem length_object {members : List (Bytes × Value)} (some : members ≠ []) :
    (Value.object members).render.length = 1 + (members.map fun m => m.1.length + m.2.render.length + 4).sum := by
  have texts : members.map (fun m => quoted m.1 ++ 0x3A :: m.2.render) ≠ [] := by simpa using some
  have commas := length_commaSeparated texts
  rw [List.map_map] at commas
  have each : (fun text : Bytes => text.length + 1) ∘ (fun m : Bytes × Value => quoted m.1 ++ 0x3A :: m.2.render) =
      fun m => m.1.length + m.2.render.length + 4 := by
    funext m
    simp only [Function.comp_apply,List.length_append,List.length_cons,length_quoted]
    omega
  rw [each] at commas
  simp only [Value.render,renderMembers_eq,List.length_cons,List.length_append,List.length_nil]
  omega

/-- A record of three fields takes thirteen bytes more than its names and values. -/
theorem length_record_three (first second third : String) (a b c : Value) :
    (record [(first,a),(second,b),(third,c)]).render.length =
      13 + (utf8 first).length + (utf8 second).length + (utf8 third).length +
        a.render.length + b.render.length + c.render.length := by
  rw [record,length_object (by simp)]
  simp only [List.map_cons,List.map_nil,List.sum_cons,List.sum_nil]
  omega

theorem length_ofWord (word : String) : (ofWord word).render.length = (utf8 word).length + 2 :=
  length_quoted (utf8 word)

end Json

/-- The bytes of a cell with the comma after it. -/
def Status.space : Status → Nat
  | .unknown => 10
  | .absent => 9
  | .unconfirmed => 14
  | .confirmed => 12

/-- The bytes of a row with at least one cell. -/
def rowSpace (row : Row) : Nat := 1 + (row.map Status.space).sum

/-- The bytes of the cab rows, with their keys and what stands between them. -/
def cabSpace (cab : PeerMap Row) : Nat :=
  (cab.toList.map fun (peer,row) => (digits peer.num.toNat).length + rowSpace row + 4).sum

/-- The bytes of a state. -/
def CarState.size (s : CarState) : Nat :=
  39 + (digits s.floor.toNat).length + (utf8 s.behavior.name).length + (utf8 s.motor.name).length

/-- The bytes of a broadcast whose rows all have a cell. -/
def Broadcast.size (m : Broadcast) : Nat :=
  74 + (digits m.source.num.toNat).length + m.car.size + rowSpace m.registry.hallUp + rowSpace m.registry.hallDown +
    cabSpace m.registry.cab

/-- Every row has a cell, and some peer has a cab row. -/
structure Registry.Occupied (r : Registry) : Prop where
  up : r.hallUp ≠ []
  down : r.hallDown ≠ []
  cab : r.cab.toList ≠ []
  rows : ∀ entry ∈ r.cab.toList, entry.2 ≠ []

theorem Status.length_write (s : Status) : (write s).length + 1 = s.space := by
  cases s <;> decide +kernel

theorem length_row_write {row : Row} (some : row ≠ []) : (write row).length = rowSpace row := by
  have items : row.map (toJson : Status → Value) ≠ [] := by simpa using some
  show (Value.array (row.map toJson)).render.length = _
  rw [length_array items,List.map_map,rowSpace]
  congr 2
  exact List.map_congr_left fun s _ => s.length_write

theorem length_cab_write {cab : PeerMap Row} (some : cab.toList ≠ []) (rows : ∀ entry ∈ cab.toList, entry.2 ≠ []) :
    (write cab).length = 1 + cabSpace cab := by
  have members : cab.toList.map (fun (peer,row) => (digits peer.num.toNat,toJson row)) ≠ [] := by simpa using some
  show (Value.object (cab.toList.map fun (peer,row) => (digits peer.num.toNat,toJson row))).render.length = _
  rw [length_object members,List.map_map,cabSpace]
  congr 2
  refine List.map_congr_left fun entry listed => ?_
  have row : (toJson entry.2).render.length = rowSpace entry.2 := length_row_write (rows entry listed)
  simp only [Function.comp_apply,row]

theorem CarState.length_write (s : CarState) : (write s).length = s.size := by
  have floor : (utf8 "floor").length = 5 := by decide +kernel
  have behavior : (utf8 "behavior").length = 8 := by decide +kernel
  have direction : (utf8 "direction").length = 9 := by decide +kernel
  have level : (toJson s.floor).render.length = (digits s.floor.toNat).length := rfl
  have doing : (toJson s.behavior).render.length = (utf8 s.behavior.name).length + 2 := length_ofWord _
  have drive : (toJson s.motor).render.length = (utf8 s.motor.name).length + 2 := length_ofWord _
  show (record [("floor",toJson s.floor),("behavior",toJson s.behavior),("direction",toJson s.motor)]).render.length = _
  rw [length_record_three,CarState.size]
  omega

theorem Registry.length_write {r : Registry} (occupied : r.Occupied) :
    (Json.write r).length = 33 + rowSpace r.hallUp + rowSpace r.hallDown + cabSpace r.cab := by
  have up : (utf8 "hall_up").length = 7 := by decide +kernel
  have down : (utf8 "hall_down").length = 9 := by decide +kernel
  have cab : (utf8 "cab").length = 3 := by decide +kernel
  have ups : (toJson r.hallUp).render.length = rowSpace r.hallUp := length_row_write occupied.up
  have downs : (toJson r.hallDown).render.length = rowSpace r.hallDown := length_row_write occupied.down
  have cabs : (toJson r.cab).render.length = 1 + cabSpace r.cab := length_cab_write occupied.cab occupied.rows
  show (record [("hall_up",toJson r.hallUp),("hall_down",toJson r.hallDown),("cab",toJson r.cab)]).render.length = _
  rw [length_record_three]
  omega

theorem Broadcast.length_write {m : Broadcast} (occupied : m.registry.Occupied) : (write m).length = m.size := by
  have source : (utf8 "source").length = 6 := by decide +kernel
  have registry : (utf8 "registry").length = 8 := by decide +kernel
  have state : (utf8 "elevator_state").length = 14 := by decide +kernel
  have sender : (toJson m.source).render.length = (digits m.source.num.toNat).length := rfl
  have rows : (toJson m.registry).render.length = _ := Registry.length_write occupied
  have car : (toJson m.car).render.length = m.car.size := m.car.length_write
  show (record [("source",toJson m.source),("registry",toJson m.registry),("elevator_state",toJson m.car)]).render.length = _
  rw [length_record_three,Broadcast.size]
  omega

/-! ### Bounds -/

theorem digits_byte (b : UInt8) : 1 ≤ (digits b.toNat).length ∧ (digits b.toNat).length ≤ 3 := by
  have all : ∀ n < 256, 1 ≤ (digits n).length ∧ (digits n).length ≤ 3 := by decide +kernel
  exact all b.toNat b.toNat_lt

theorem CarState.size_le (s : CarState) : s.size ≤ 54 := by
  have doing : (utf8 s.behavior.name).length ≤ 8 := by cases s.behavior <;> decide +kernel
  have drive : (utf8 s.motor.name).length ≤ 4 := by cases s.motor <;> decide +kernel
  have level := (digits_byte s.floor).2
  rw [CarState.size]
  omega

/-- Every cell of every row is so. -/
structure Registry.Every (P : Status → Prop) (r : Registry) : Prop where
  up : ∀ s ∈ r.hallUp, P s
  down : ∀ s ∈ r.hallDown, P s
  cab : ∀ entry ∈ r.cab.toList, ∀ s ∈ entry.2, P s

theorem Registry.every_of_forall {P : Status → Prop} (each : ∀ s, P s) (r : Registry) : r.Every P :=
  ⟨fun s _ => each s,fun s _ => each s,fun _ _ s _ => each s⟩

theorem Registry.Every.imp {P Q : Status → Prop} {r : Registry} (every : r.Every P) (step : ∀ s, P s → Q s) : r.Every Q :=
  ⟨fun s listed => step s (every.up s listed),fun s listed => step s (every.down s listed),
    fun entry listed s cell => step s (every.cab entry listed s cell)⟩

theorem Status.space_le (s : Status) : s.space ≤ 14 := by cases s <;> decide

theorem Status.le_space (s : Status) : 9 ≤ s.space := by cases s <;> decide

variable {n w : Nat} {row : Row} {m : Broadcast}

theorem rowSpace_le (long : row.length = n) (cells : ∀ s ∈ row, s.space ≤ w) : rowSpace row ≤ n * w + 1 := by
  have sum := List.sum_le_card_nsmul (row.map Status.space) w (by simpa using cells)
  rw [List.length_map,long,smul_eq_mul] at sum
  rw [rowSpace]
  omega

theorem le_rowSpace (long : row.length = n) (cells : ∀ s ∈ row, w ≤ s.space) : n * w + 1 ≤ rowSpace row := by
  have sum := List.card_nsmul_le_sum (row.map Status.space) w (by simpa using cells)
  rw [List.length_map,long,smul_eq_mul] at sum
  rw [rowSpace]
  omega

theorem cabSpace_le {cab : PeerMap Row} (long : ∀ entry ∈ cab.toList, entry.2.length = n)
    (cells : ∀ entry ∈ cab.toList, ∀ s ∈ entry.2, s.space ≤ w) : cabSpace cab ≤ cab.size * (n * w + 8) := by
  have sum := List.sum_le_card_nsmul
    (cab.toList.map fun (peer,row) => (digits peer.num.toNat).length + rowSpace row + 4) (n * w + 8) ?_
  · rwa [List.length_map,ExtTreeMap.length_toList,smul_eq_mul] at sum
  · rintro _ listed
    obtain ⟨entry,inside,rfl⟩ := List.mem_map.mp listed
    have key := (digits_byte entry.1.num).2
    have row := rowSpace_le (long entry inside) (cells entry inside)
    dsimp only
    omega

theorem le_cabSpace {cab : PeerMap Row} (long : ∀ entry ∈ cab.toList, entry.2.length = n)
    (cells : ∀ entry ∈ cab.toList, ∀ s ∈ entry.2, w ≤ s.space) : cab.size * (n * w + 6) ≤ cabSpace cab := by
  have sum := List.card_nsmul_le_sum
    (cab.toList.map fun (peer,row) => (digits peer.num.toNat).length + rowSpace row + 4) (n * w + 6) ?_
  · rwa [List.length_map,ExtTreeMap.length_toList,smul_eq_mul] at sum
  · rintro _ listed
    obtain ⟨entry,inside,rfl⟩ := List.mem_map.mp listed
    have key := (digits_byte entry.1.num).1
    have row := le_rowSpace (long entry inside) (cells entry inside)
    dsimp only
    omega

/-- Rows of `n` cells, none of them over `w` bytes. -/
theorem Broadcast.size_le (shaped : m.registry.Shaped n) (cells : m.registry.Every fun s => s.space ≤ w) :
    m.size ≤ 133 + 2 * (n * w) + m.registry.cab.size * (n * w + 8) := by
  have source := (digits_byte m.source.num).2
  have car := m.car.size_le
  have up := rowSpace_le shaped.up cells.up
  have down := rowSpace_le shaped.down cells.down
  have cab := cabSpace_le (fun entry listed => shaped.cab _ _ (ExtTreeMap.mem_toList_iff_getElem?_eq_some.mp listed)) cells.cab
  rw [size]
  omega

/-- Rows of `n` cells, none of them under `w` bytes. -/
theorem Broadcast.le_size (shaped : m.registry.Shaped n) (cells : m.registry.Every fun s => w ≤ s.space) :
    116 + 2 * (n * w) + m.registry.cab.size * (n * w + 6) ≤ m.size := by
  have source := (digits_byte m.source.num).1
  have car : 40 ≤ m.car.size := by
    have level := (digits_byte m.car.floor).1
    rw [CarState.size]
    omega
  have up := le_rowSpace shaped.up cells.up
  have down := le_rowSpace shaped.down cells.down
  have cab := le_cabSpace (fun entry listed => shaped.cab _ _ (ExtTreeMap.mem_toList_iff_getElem?_eq_some.mp listed)) cells.cab
  rw [size]
  omega

end ElevatorFleet
