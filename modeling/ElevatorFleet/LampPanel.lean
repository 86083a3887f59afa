import ElevatorFleet.Call

/-!
# The lamp panel

The button lamps of one controller. A lamp that was never set is dark.
-/
namespace ElevatorFleet
open Std

/-- The lamps that are lit, by button and floor. -/
structure LampPanel where
  lit : Button → Floor → Bool

namespace LampPanel

def dark : LampPanel := ⟨fun _ _ => false⟩

instance : Inhabited LampPanel := ⟨dark⟩

def set (p : LampPanel) (button : Button) (floor : Floor) (lit : Bool) : LampPanel :=
  ⟨fun b f => if b = button ∧ f = floor then lit else p.lit b f⟩

theorem lit_set (p : LampPanel) (button other : Button) (floor above : Floor) (lit : Bool) :
    (p.set button floor lit).lit other above = if other = button ∧ above = floor then lit else p.lit other above := rfl

end LampPanel
end ElevatorFleet
