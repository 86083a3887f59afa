import ElevatorFleet.Json.Text
import ElevatorFleet.Peer

/-!
# Shapes

How values of a type are written as JSON, and which JSON is accepted for them.

- A byte is an integer literal from 0 to 255 without sign, point or exponent.
- A word out of a fixed list is a string, or an object whose only member has the word
  as its key and null as its value.
- A record is an object with each of its fields once; its other members are ignored.
  It may also be an array of exactly its fields, in order.
- A map from peers is an object whose keys are byte literals, without escapes; of a
  repeated key the last member counts.
-/
namespace ElevatorFleet.Json
open Std

/-- A way to write the values of a type as JSON and to read them back. -/
class Shape (α : Type) where
  toJson : α → Value
  ofJson? : Value → Option α

export Shape (toJson ofJson?)

/-! ### Numbers -/

def digits (n : Nat) : Bytes := (Nat.toDigits 10 n).map fun c => UInt8.ofNat c.toNat

def natOfDigits (literal : Bytes) : Nat := literal.foldl (fun n b => n * 10 + (b.toNat - 0x30)) 0

/-- The byte of an integer literal without a leading zero. -/
def byteOfDigits? (literal : Bytes) : Option UInt8 :=
  if literal ≠ [] && literal.all isDigit && (literal.length = 1 || literal.head? ≠ some 0x30)
      && natOfDigits literal < 256 then
    some (UInt8.ofNat (natOfDigits literal))
  else none

instance : Shape UInt8 where
  toJson n := .number (digits n.toNat)
  ofJson?
    | .number literal => byteOfDigits? literal
    | _ => none

instance : Shape Bool where
  toJson b := .bool b
  ofJson?
    | .bool b => some b
    | _ => none

instance : Shape PeerId where
  toJson p := toJson p.num
  ofJson? v := (ofJson? v).map PeerId.mk

/-! ### Words -/

def ofWord (word : String) : Value := .string (utf8 word)

def word? : Value → Option String
  | .string raw => text? raw
  | .object [(key,.null)] => text? key
  | _ => none

/-- The value out of a list that has the name. -/
def named? {α : Type} (all : List α) (name : α → String) (v : Value) : Option α := do
  let word ← word? v
  all.find? fun a => name a = word

/-! ### Lists, sets and maps -/

instance {α : Type} [Shape α] : Shape (List α) where
  toJson items := .array (items.map toJson)
  ofJson?
    | .array items => items.mapM ofJson?
    | _ => none

instance : Shape PeerSet where
  toJson peers := toJson peers.toList
  ofJson? v := (ofJson? v).map PeerSet.of

/-- The entry of a map that a member of an object stands for. -/
def entry? {α : Type} [Shape α] (m : Bytes × Value) : Option (PeerId × α) := do
  let peer ← byteOfDigits? m.1
  let value ← ofJson? m.2
  some (⟨peer⟩,value)

instance {α : Type} [Shape α] : Shape (PeerMap α) where
  toJson map := .object (map.toList.map fun (peer,value) => (digits peer.num.toNat,toJson value))
  ofJson?
    | .object members => (members.mapM entry?).map fun entries => (ExtTreeMap.ofList entries : PeerMap α)
    | _ => none

/-! ### Records -/

def record (fields : List (String × Value)) : Value :=
  .object (fields.map fun (name,value) => (utf8 name,value))

def readKey (m : Bytes × Value) : Option (String × Value) := (text? m.1).map fun key => (key,m.2)

/-- The value of the one member with the key, if there is just one. -/
def only? (members : List (String × Value)) (key : String) : Option Value :=
  match members.filter fun m => m.1 = key with
  | [(_,value)] => some value
  | _ => none

/-- The values of the fields of a record, in the order of their names. -/
def fields? (names : List String) : Value → Option (List Value)
  | .array items => if items.length = names.length then some items else none
  | .object members => do
    let members ← members.mapM readKey
    names.mapM (only? members)
  | _ => none

def one? {α β : Type} [Shape α] (name : String) (make : α → β) (v : Value) : Option β :=
  match fields? [name] v with
  | some [a] => do some (make (← ofJson? a))
  | _ => none

def two? {α β γ : Type} [Shape α] [Shape β] (first second : String) (make : α → β → γ)
    (v : Value) : Option γ :=
  match fields? [first,second] v with
  | some [a,b] => do some (make (← ofJson? a) (← ofJson? b))
  | _ => none

def three? {α β γ δ : Type} [Shape α] [Shape β] [Shape γ] (first second third : String)
    (make : α → β → γ → δ) (v : Value) : Option δ :=
  match fields? [first,second,third] v with
  | some [a,b,c] => do some (make (← ofJson? a) (← ofJson? b) (← ofJson? c))
  | _ => none

def write {α : Type} [Shape α] (a : α) : Bytes := (toJson a).render

def parse? {α : Type} [Shape α] (bytes : Bytes) : Option α := (read? bytes).bind ofJson?

end ElevatorFleet.Json
