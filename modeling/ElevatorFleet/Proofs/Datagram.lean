import ElevatorFleet.Datagram
import ElevatorFleet.Proofs.Shapes

/-!
# Datagrams there and back

Every part of a broadcast has a faithful shape: the statuses and the doings of a car by their
names, the rows as lists, the cab rows as a map, the records field by field. So a datagram
holds exactly one broadcast (`decode_undoes_encode`).
-/
namespace ElevatorFleet
open Json Exchange

instance : Faithful Status :=
  faithful_words (fun _ => rfl) rfl (fun s => by cases s <;> decide) (by decide) (by decide)

instance : Faithful Behavior :=
  faithful_words (fun _ => rfl) rfl (fun b => by cases b <;> decide) (by decide) (by decide)

instance : Faithful Motor :=
  faithful_words (fun _ => rfl) rfl (fun m => by cases m <;> decide) (by decide) (by decide)

instance : Faithful CarState where
  plain s := plain_record_three (by decide) s.floor s.behavior s.motor
  back s := three?_record (by decide) (by decide) CarState.mk s.floor s.behavior s.motor

instance : Faithful Registry where
  plain r := plain_record_three (by decide) r.hallUp r.hallDown r.cab
  back r := three?_record (by decide) (by decide) Registry.mk r.hallUp r.hallDown r.cab

instance : Faithful Broadcast where
  plain m := plain_record_three (by decide) m.source m.registry m.car
  back m := three?_record (by decide) (by decide) Broadcast.mk m.source m.registry m.car

namespace Broadcast
variable {m : Broadcast} {bytes : Bytes}

theorem decode_write (m : Broadcast) : decode (write m) = .ok m := by
  rw [decode,parse?_write]

theorem encode_eq_ok : m.encode = .ok bytes ↔ bytes = write m ∧ (write m).length ≤ maxDatagramSize := by
  rw [encode]
  split
  · rename_i fits
    rw [Except.ok.injEq]
    exact ⟨fun same => ⟨same.symm,fits⟩,fun both => both.1.symm⟩
  · rename_i large
    exact ⟨nofun,fun both => absurd both.2 large⟩

/-- The text of a broadcast is decoded as the broadcast, and is its datagram if it fits into one. So what
    was encoded is decoded as it was, also after it was decoded and encoded again, and no two broadcasts
    have the same datagram. -/
theorem decode_undoes_encode :
    (∀ m : Broadcast, decode (write m) = .ok m ∧ ((write m).length ≤ maxDatagramSize → m.encode = .ok (write m))) ∧
    (∀ (m : Broadcast) (bytes : Bytes), m.encode = .ok bytes → decode bytes = .ok m) ∧
    (∀ (bytes : Bytes) (m : Broadcast) (again : Bytes),
      decode bytes = .ok m → m.encode = .ok again → decode again = .ok m) ∧
    ∀ (m other : Broadcast) (bytes : Bytes), m ≠ other → m.encode = .ok bytes → other.encode ≠ .ok bytes := by
  have back (m : Broadcast) (bytes : Bytes) (sent : m.encode = .ok bytes) : decode bytes = .ok m := by
    rw [(encode_eq_ok.mp sent).1]
    exact decode_write m
  refine ⟨fun m => ⟨decode_write m,fun fits => encode_eq_ok.mpr ⟨rfl,fits⟩⟩,back,
    fun bytes m again _ sent => back m again sent,fun m other bytes differ sent same => differ ?_⟩
  have both : Except.ok m = Except.ok other := (back m bytes sent).symm.trans (back other bytes same)
  exact Except.ok.inj both

/-- Rows of several lengths, with cab rows of peers of three digits and of one. -/
def uneven : Broadcast :=
  ⟨⟨1⟩,⟨[.confirmed,.absent],[.unknown],((∅ : PeerMap Row).insert ⟨200⟩ [.unconfirmed]).insert ⟨7⟩ []⟩,⟨1,.doorOpen,.stop⟩⟩

def unevenText : String :=
  "\x7b\"source\":1,\"registry\":\x7b\"hall_up\":[\"Confirmed\",\"Absent\"],\"hall_down\":[\"Unknown\"]," ++
  "\"cab\":\x7b\"7\":[],\"200\":[\"Unconfirmed\"]\x7d\x7d," ++
  "\"elevator_state\":\x7b\"floor\":1,\"behavior\":\"DoorOpen\",\"direction\":\"Stop\"\x7d\x7d"

theorem uneven_decoded : uneven.encode = .ok (utf8 unevenText) ∧ decode (utf8 unevenText) = .ok uneven := by
  obtain ⟨text,back,_⟩ := decode_undoes_encode
  have written : write uneven = utf8 unevenText := by decide +kernel
  have sent := (text uneven).2 (by decide +kernel)
  rw [written] at sent
  exact ⟨sent,back uneven (utf8 unevenText) sent⟩

end Broadcast
end ElevatorFleet
