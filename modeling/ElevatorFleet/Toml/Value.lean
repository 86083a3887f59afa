import ElevatorFleet.Binary64

/-!
# TOML values

What a TOML document says, without the way it is laid out.
-/
namespace ElevatorFleet.Toml

/-- A TOML value. The entries of a table have distinct keys. -/
inductive Value where
  | string (s : String)
  | integer (n : Int)
  | float (x : Binary64)
  | boolean (b : Bool)
  | moment
  | array (items : List Value)
  | table (entries : List (String × Value))
deriving Inhabited, Repr

end ElevatorFleet.Toml
