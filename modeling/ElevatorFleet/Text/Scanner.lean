/-!
# Scanners

Readers of the beginning of a text, which leave the rest to the next one.
-/
namespace ElevatorFleet

/-- Reads a part and leaves the rest. -/
abbrev Scanner (α : Type) := List Char → Option (α × List Char)

namespace Scanner

def char (c : Char) : Scanner Unit
  | [] => none
  | d :: rest => if d = c then some ((),rest) else none

end Scanner
end ElevatorFleet
