import ElevatorFleet.Text.Utf8

/-!
# JSON values

A JSON document with its leaves as they are written: a number keeps its digits and a
string its escapes, because some readers accept `1` and not `1.0`, or a key `"1"` and
not the same key written with an escape.
-/
namespace ElevatorFleet.Json

inductive Value where
  | null
  | bool (b : Bool)
  /-- A number with the text of its literal. -/
  | number (literal : Bytes)
  /-- A string with the text between its quotes. -/
  | string (raw : Bytes)
  | array (items : List Value)
  /-- An object with its members as they are written, repeated keys included. -/
  | object (members : List (Bytes × Value))
deriving Inhabited, Repr

/-! ### Printing -/

def commaSeparated : List Bytes → Bytes
  | [] => []
  | [text] => text
  | text :: rest => text ++ 0x2C :: commaSeparated rest

def quoted (raw : Bytes) : Bytes := 0x22 :: raw ++ [0x22]

mutual

/-- The shortest text of a value: no blanks, and its leaves as they are. -/
def Value.render : Value → Bytes
  | .null => [0x6E,0x75,0x6C,0x6C]
  | .bool true => [0x74,0x72,0x75,0x65]
  | .bool false => [0x66,0x61,0x6C,0x73,0x65]
  | .number literal => literal
  | .string raw => quoted raw
  | .array items => 0x5B :: commaSeparated (renderItems items) ++ [0x5D]
  | .object members => 0x7B :: commaSeparated (renderMembers members) ++ [0x7D]

def renderItems : List Value → List Bytes
  | [] => []
  | item :: rest => item.render :: renderItems rest

def renderMembers : List (Bytes × Value) → List Bytes
  | [] => []
  | (key,value) :: rest => (quoted key ++ 0x3A :: value.render) :: renderMembers rest

end

end ElevatorFleet.Json
