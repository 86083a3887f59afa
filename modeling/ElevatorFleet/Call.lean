import ElevatorFleet.Peer

/-!
# Calls

A call is one button that somebody can press: a hall button on a floor, which the
whole fleet shares, or a cab button inside one car. Calls are ordered with the hall
calls first, by floor and then up before down, and after them the cab calls, by
floor and then by owner.
-/
namespace ElevatorFleet
open Std

/-- A floor, counted from the ground floor at 0. -/
abbrev Floor := UInt8

/-- Two rows with a cell for each of `n` floors are equal if their cells are. -/
theorem eq_of_floors {α : Type} {n : UInt8} {a b : List α} (left : a.length = n.toNat) (right : b.length = n.toNat)
    (cells : ∀ floor : Floor, floor < n → a[floor.toNat]? = b[floor.toNat]?) : a = b := by
  refine List.ext_getElem? fun i => ?_
  by_cases inside : i < n.toNat
  · have back : (UInt8.ofNat i).toNat = i := UInt8.toNat_ofNat_of_lt (Nat.lt_trans inside n.toNat_lt)
    have cell := cells (UInt8.ofNat i) (UInt8.lt_iff_toNat_lt.mpr (by rwa [back]))
    rwa [back] at cell
  · rw [List.getElem?_eq_none (by omega),List.getElem?_eq_none (by omega)]

inductive Direction where
  | up
  | down
deriving DecidableEq, Inhabited, Repr

def Direction.text : Direction → String
  | .up => "up"
  | .down => "down"

inductive Button where
  | hallUp
  | hallDown
  | cab
deriving DecidableEq, Inhabited, Repr

def Button.text : Button → String
  | .hallUp => "hall-up"
  | .hallDown => "hall-down"
  | .cab => "cab"

/-- The column of a button in the rows of a service order. -/
def Button.column : Button → Nat
  | .hallUp => 0
  | .hallDown => 1
  | .cab => 2

/-- The source of a request, which is the key of every record about it. -/
inductive Call where
  /-- A hall button on a floor, shared by the whole fleet. -/
  | hall (floor : Floor) (direction : Direction)
  | cab (floor : Floor) (owner : PeerId)
deriving DecidableEq, Inhabited, Repr

namespace Call

def floor : Call → Floor
  | .hall floor _ => floor
  | .cab floor _ => floor

def button : Call → Button
  | .hall _ .up => .hallUp
  | .hall _ .down => .hallDown
  | .cab _ _ => .cab

def isHall : Call → Bool
  | .hall _ _ => true
  | .cab _ _ => false

/-- The lamp of a call is on the panel of `self`: hall lamps are lit at every
    controller and cab lamps in their own car only. -/
def concerns (self : PeerId) : Call → Bool
  | .hall _ _ => true
  | .cab _ owner => owner = self

def text : Call → String
  | .hall floor direction => s!"hall({floor.toNat},{direction.text})"
  | .cab floor owner => s!"cab({floor.toNat},#{owner.text})"

/-! ### The order of calls -/

/-- The place of a call among all calls: 512 hall calls, then the cab calls. -/
def rank : Call → Nat
  | .hall floor .up => 2 * floor.toNat
  | .hall floor .down => 2 * floor.toNat + 1
  | .cab floor owner => 512 + 256 * floor.toNat + owner.num.toNat

theorem rank_injective {a b : Call} (same : a.rank = b.rank) : a = b := by
  cases a with
  | hall f d =>
    have boundF := f.toNat_lt
    cases b with
    | hall g e =>
      have floors : f.toNat = g.toNat := by
        cases d <;> cases e <;> simp only [rank] at same <;> omega
      have directions : d = e := by
        cases d <;> cases e <;> simp only [rank] at same <;> first | rfl | omega
      rw [UInt8.toNat_inj.mp floors,directions]
    | cab g o => cases d <;> simp only [rank] at same <;> omega
  | cab f o =>
    have boundO := o.num.toNat_lt
    cases b with
    | hall g e =>
      have boundG := g.toNat_lt
      cases e <;> simp only [rank] at same <;> omega
    | cab g p =>
      have boundP := p.num.toNat_lt
      simp only [rank] at same
      have floors : f = g := UInt8.toNat_inj.mp (by omega)
      have owners : o = p := PeerId.ext (UInt8.toNat_inj.mp (by omega))
      rw [floors,owners]

instance : Ord Call := ⟨compareOn rank⟩

instance : TransOrd Call := inferInstanceAs (TransCmp (compareOn rank))

instance : LawfulEqOrd Call where
  compare_self := by intro a; exact ReflOrd.compare_self (a := a.rank)
  eq_of_compare := fun same => rank_injective (LawfulEqOrd.eq_of_compare (α := Nat) same)

end Call

abbrev CallMap (α : Type) := ExtTreeMap Call α compare

end ElevatorFleet
