/-!
# Digits

Numbers written in digits, in bases up to 16.
-/
namespace ElevatorFleet.Digits

def value? (base : Nat) (c : Char) : Option Nat :=
  let value :=
    if c.isDigit then c.toNat - 48
    else if 'a' ≤ c && c ≤ 'f' then c.toNat - 87
    else if 'A' ≤ c && c ≤ 'F' then c.toNat - 55
    else base
  if value < base then some value else none

def isDigit (base : Nat) (c : Char) : Bool := (value? base c).isSome

/-- The number that digits spell in a base, the first digit first. -/
def number (base : Nat) (digits : List Char) : Nat :=
  digits.foldl (fun n c => n * base + (value? base c).getD 0) 0

@[simp] theorem number_nil (base : Nat) : number base [] = 0 := rfl

/-- One more digit at the end multiplies by the base and adds the digit. -/
theorem number_append_singleton (base : Nat) (digits : List Char) (c : Char) :
    number base (digits ++ [c]) = number base digits * base + (value? base c).getD 0 := by
  simp [number]

end ElevatorFleet.Digits
