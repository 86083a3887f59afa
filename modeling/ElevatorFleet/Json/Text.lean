import ElevatorFleet.Json.Reader

/-!
# The text of JSON strings

The characters that the raw bytes of a JSON string stand for. A character beyond the
first 65536 may be written as two escapes, its surrogates; a surrogate on its own is
no character.
-/
namespace ElevatorFleet.Json

def hexValue (b : UInt8) : Nat :=
  if b ≤ 0x39 then b.toNat - 0x30 else if b ≤ 0x46 then b.toNat - 0x37 else b.toNat - 0x57

/-- The number that four hexadecimal digits spell, if they are such. -/
def hexUnit? (a b c d : UInt8) : Option Nat :=
  if isHexDigit a && isHexDigit b && isHexDigit c && isHexDigit d then
    some (((hexValue a * 16 + hexValue b) * 16 + hexValue c) * 16 + hexValue d)
  else none

def escaped? (b : UInt8) : Option UInt8 :=
  if b = 0x22 || b = 0x5C || b = 0x2F then some b
  else if b = 0x62 then some 0x08
  else if b = 0x66 then some 0x0C
  else if b = 0x6E then some 0x0A
  else if b = 0x72 then some 0x0D
  else if b = 0x74 then some 0x09
  else none

/-- The first half of a character that is written as two escapes. -/
def isLeading (unit : Nat) : Bool := 0xD800 ≤ unit && unit ≤ 0xDBFF

/-- The second half of a character that is written as two escapes. -/
def isTrailing (unit : Nat) : Bool := 0xDC00 ≤ unit && unit ≤ 0xDFFF

/-- The bytes of a code point that is no surrogate. -/
def codePoint (n : Nat) : Bytes := String.utf8EncodeChar (Char.ofNat n)

/-- The bytes of a string with its escapes resolved, after those in `before`, which
    are in reverse. -/
def unescapeOnto (before : Bytes) : Bytes → Option Bytes
  | [] => some before.reverse
  | 0x5C :: 0x75 :: a :: b :: c :: d :: 0x5C :: 0x75 :: e :: f :: g :: h :: rest => do
    let unit ← hexUnit? a b c d
    if isTrailing unit then none
    else if isLeading unit then
      let second ← hexUnit? e f g h
      if isTrailing second then
        let point := 0x10000 + (unit - 0xD800) * 0x400 + (second - 0xDC00)
        unescapeOnto ((codePoint point).reverse ++ before) rest
      else none
    else unescapeOnto ((codePoint unit).reverse ++ before) (0x5C :: 0x75 :: e :: f :: g :: h :: rest)
  | 0x5C :: 0x75 :: a :: b :: c :: d :: rest => do
    let unit ← hexUnit? a b c d
    if isTrailing unit || isLeading unit then none
    else unescapeOnto ((codePoint unit).reverse ++ before) rest
  | 0x5C :: e :: rest => do
    let b ← escaped? e
    unescapeOnto (b :: before) rest
  | [0x5C] => none
  | b :: rest => unescapeOnto (b :: before) rest

/-- The text of a string, if its escapes and its bytes spell one. -/
def text? (raw : Bytes) : Option String := do
  let bytes ← unescapeOnto [] raw
  (Utf8.decode bytes).toOption

end ElevatorFleet.Json
