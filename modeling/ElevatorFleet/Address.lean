import ElevatorFleet.Text.Digits
import ElevatorFleet.Text.Scanner

/-!
# Addresses

Where datagrams are received and sent: an Internet address of version 4 or 6 with the
number of a socket. An address of version 4 is written `192.0.2.1:80`. One of version 6
stands in brackets, its longest run of zero groups is left out, and a scope follows a
percent sign: `[fe80::1%3]:80`.
-/
namespace ElevatorFleet

inductive Address where
  | v4 (octets : Vector UInt8 4) (socket : UInt16)
  /-- Eight groups of 16 bits; the scope is 0 where none is meant. -/
  | v6 (groups : Vector UInt16 8) (scope : UInt32) (socket : UInt16)
deriving DecidableEq, Repr

namespace Address

/-! ### Reading -/

/-- The longest number at the beginning of a text, with its digits and the rest. -/
def number (base : Nat) (s : List Char) : Nat × List Char × List Char :=
  let digits := s.takeWhile (Digits.isDigit base)
  (Digits.number base digits,digits,s.dropWhile (Digits.isDigit base))

def scanNumber (limit : Nat) : Scanner Nat := fun s =>
  let (value,digits,rest) := number 10 s
  if digits ≠ [] && value < limit then some (value,rest) else none

/-- Reads one of the four numbers of version 4, which has no leading zero. -/
def scanOctet : Scanner UInt8 := fun s =>
  let (value,digits,rest) := number 10 s
  if digits ≠ [] && digits.length ≤ 3 && value < 256 && (digits.length = 1 || digits.head? ≠ some '0') then
    some (UInt8.ofNat value,rest)
  else none

/-- Reads one of the eight groups of version 6, up to four hexadecimal digits. -/
def scanGroup : Scanner UInt16 := fun s =>
  let (value,digits,rest) := number 16 s
  if digits ≠ [] && digits.length ≤ 4 then some (UInt16.ofNat value,rest) else none

/-- Reads the part after a separator, which the first of several parts has none of. -/
def scanPart {α : Type} (separator : Char) (isFirst : Bool) (part : Scanner α) : Scanner α := fun s =>
  if isFirst then part s
  else do
    let (_,rest) ← Scanner.char separator s
    part rest

def scanOctets : Scanner (Vector UInt8 4) := fun s => do
  let (a,s) ← scanOctet s
  let (b,s) ← scanPart '.' false scanOctet s
  let (c,s) ← scanPart '.' false scanOctet s
  let (d,s) ← scanPart '.' false scanOctet s
  some (#v[a,b,c,d],s)

def joined (high low : UInt8) : UInt16 := UInt16.ofNat (high.toNat * 256 + low.toNat)

/-- Reads at most so many groups with colons between them. The last two may be
    written as an address of version 4; whether they are is answered too. -/
def scanGroups (isFirst : Bool) : (most : Nat) → List Char → List UInt16 × Bool × List Char
  | 0,s => ([],false,s)
  | most + 1,s =>
    let group := fun (_ : Unit) =>
      match scanPart ':' isFirst scanGroup s with
      | none => ([],false,s)
      | some (group,s) =>
        let (groups,isMixed,s) := scanGroups false most s
        (group :: groups,isMixed,s)
    if most = 0 then group ()
    else
      match scanPart ':' isFirst scanOctets s with
      | some (o,s) => ([joined o[0] o[1],joined o[2] o[3]],true,s)
      | none => group ()

def fillGroups (before after : List UInt16) : Vector UInt16 8 :=
  Vector.ofFn fun i =>
    if h : i.val < before.length then before[i.val]
    else if 8 - after.length ≤ i.val then after.getD (i.val - (8 - after.length)) 0
    else 0

/-- Reads the groups of an address of version 6. A double colon stands for at least
    one zero group. -/
def scanV6 : Scanner (Vector UInt16 8) := fun s =>
  let (before,isMixed,s) := scanGroups true 8 s
  if before.length = 8 then some (fillGroups before [],s)
  else if isMixed then none
  else do
    let (_,s) ← Scanner.char ':' s
    let (_,s) ← Scanner.char ':' s
    let (after,_,s) := scanGroups true (7 - before.length) s
    some (fillGroups before after,s)

def scanSocket : Scanner UInt16 := fun s => do
  let (_,s) ← Scanner.char ':' s
  let (socket,s) ← scanNumber 65536 s
  some (UInt16.ofNat socket,s)

def scanScope (s : List Char) : UInt32 × List Char :=
  match Scanner.char '%' s with
  | none => (0,s)
  | some (_,rest) =>
    match scanNumber (Nat.pow 2 32) rest with
    | none => (0,s)
    | some (scope,rest) => (UInt32.ofNat scope,rest)

def scanAddressV4 : Scanner Address := fun s => do
  let (octets,s) ← scanOctets s
  let (socket,s) ← scanSocket s
  some (.v4 octets socket,s)

def scanAddressV6 : Scanner Address := fun s => do
  let (_,s) ← Scanner.char '[' s
  let (groups,s) ← scanV6 s
  let (scope,s) := scanScope s
  let (_,s) ← Scanner.char ']' s
  let (socket,s) ← scanSocket s
  some (.v6 groups scope socket,s)

def read? (text : String) : Option Address :=
  let whole (scanned : Option (Address × List Char)) : Option Address :=
    match scanned with
    | some (address,[]) => some address
    | _ => none
  match scanAddressV4 text.toList with
  | some scanned => whole (some scanned)
  | none => whole (scanAddressV6 text.toList)

/-! ### Writing -/

def octetsText (octets : List UInt8) : String :=
  ".".intercalate (octets.map fun o => toString o.toNat)

def groupsText (groups : List UInt16) : String :=
  ":".intercalate (groups.map fun g => String.ofList (Nat.toDigits 16 g.toNat))

structure Gap where
  start : Nat
  length : Nat
deriving DecidableEq, Repr

/-- The longest of `best`, of the run `current` that ends before the group `index`, and
    of the runs from there on; of several the first. -/
def longestGap (best current : Gap) (index : Nat) : List UInt16 → Gap
  | [] => best
  | group :: rest =>
    if group = 0 then
      let current := if current.length = 0 then ⟨index,1⟩ else ⟨current.start,current.length + 1⟩
      longestGap (if best.length < current.length then current else best) current (index + 1) rest
    else longestGap best ⟨0,0⟩ (index + 1) rest

/-- The groups without their longest run of zeros, if that is of two or more. An
    address that embeds one of version 4 shows it. -/
def hostText (groups : List UInt16) : String :=
  match groups with
  | [0,0,0,0,0,0xffff,high,low] =>
    let octet (n : Nat) : UInt8 := UInt8.ofNat n
    let octets := [octet (high.toNat / 256),octet (high.toNat % 256),octet (low.toNat / 256),
      octet (low.toNat % 256)]
    s!"::ffff:{octetsText octets}"
  | _ =>
    let gap := longestGap ⟨0,0⟩ ⟨0,0⟩ 0 groups
    if 1 < gap.length then
      s!"{groupsText (groups.take gap.start)}::{groupsText (groups.drop (gap.start + gap.length))}"
    else groupsText groups

def text : Address → String
  | .v4 octets socket => s!"{octetsText octets.toList}:{socket.toNat}"
  | .v6 groups scope socket =>
    let zone := if scope = 0 then "" else s!"%{scope.toNat}"
    s!"[{hostText groups.toList}{zone}]:{socket.toNat}"

end Address
end ElevatorFleet
