import Std.Data.ExtTreeMap
import Std.Data.ExtTreeSet

/-!
# Peers

The controllers of one fleet, each with a number of its own, and finite sets and
maps over them. Both are kept in ascending order of the number, so two sets with
the same members and two maps with the same entries are equal.
-/
namespace ElevatorFleet
open Std

/-- The identity of one elevator controller, which it keeps for its whole life. -/
@[ext] structure PeerId where
  num : UInt8
deriving DecidableEq, Inhabited, Repr

namespace PeerId

instance : Ord PeerId := ⟨compareOn PeerId.num⟩

instance : TransOrd PeerId := inferInstanceAs (TransCmp (compareOn PeerId.num))

instance : LawfulEqOrd PeerId where
  compare_self := by intro a; exact ReflOrd.compare_self (a := a.num)
  eq_of_compare := fun same => PeerId.ext (LawfulEqOrd.eq_of_compare (α := UInt8) same)

def text (p : PeerId) : String := toString p.num.toNat

end PeerId

abbrev PeerSet := ExtTreeSet PeerId compare

abbrev PeerMap (α : Type) := ExtTreeMap PeerId α compare

namespace PeerSet

/-- The set of the peers of a list, in any order and with any repetitions. -/
def of (peers : List PeerId) : PeerSet := ExtTreeSet.ofList peers

def within (s t : PeerSet) : Bool := s.toList.all fun p => t.contains p

@[simp] theorem mem_of {peers : List PeerId} {p : PeerId} : p ∈ of peers ↔ p ∈ peers := by
  simp [of]

theorem within_iff {s t : PeerSet} : s.within t = true ↔ ∀ p ∈ s, p ∈ t := by
  simp [within,List.all_eq_true]

end PeerSet

/-- A map made of entries with a key each holds these entries. -/
theorem PeerMap.getElem?_ofList {α : Type} {entries : List (PeerId × α)}
    (distinct : entries.Pairwise fun a b => ¬ compare a.1 b.1 = .eq) {peer : PeerId} {x : α} :
    (ExtTreeMap.ofList entries : PeerMap α)[peer]? = some x ↔ (peer,x) ∈ entries := by
  constructor
  · intro found
    have known : peer ∈ (ExtTreeMap.ofList entries : PeerMap α) :=
      ExtTreeMap.isSome_getElem?_iff_mem.mp (Option.isSome_iff_exists.mpr ⟨x,found⟩)
    rw [ExtTreeMap.mem_ofList,List.contains_iff_mem] at known
    obtain ⟨⟨_,y⟩,member,rfl⟩ := List.mem_map.mp known
    rw [ExtTreeMap.getElem?_ofList_of_mem ReflCmp.compare_self distinct member] at found
    cases found
    exact member
  · exact ExtTreeMap.getElem?_ofList_of_mem ReflCmp.compare_self distinct

end ElevatorFleet
