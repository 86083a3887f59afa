/-!
# UTF-8

Bytes, and the text that they spell. Where bytes are no text, the first fault tells
after how many good bytes it stands and how many bytes are bad; it has no length
where more bytes could still complete the character.
-/
namespace ElevatorFleet

/-- Raw bytes, as they come from a file, a stream or a datagram. -/
abbrev Bytes := List UInt8

def utf8 (s : String) : Bytes := s.toUTF8.data.toList

namespace Utf8

/-- Where bytes stop being text. -/
structure Fault where
  index : Nat
  /-- The number of bad bytes, unless the text only ends too early. -/
  length? : Option Nat
deriving DecidableEq, Repr

def Fault.message (f : Fault) : String :=
  match f.length? with
  | some n => s!"invalid utf-8 sequence of {n} bytes from index {f.index}"
  | none => s!"incomplete utf-8 byte sequence from index {f.index}"

def isTail (b : UInt8) : Bool := 0x80 ≤ b && b ≤ 0xBF

/-- The number of bytes that a first byte announces, 0 if none can start with it. -/
def width (b : UInt8) : Nat :=
  if b < 0x80 then 1
  else if 0xC2 ≤ b && b ≤ 0xDF then 2
  else if 0xE0 ≤ b && b ≤ 0xEF then 3
  else if 0xF0 ≤ b && b ≤ 0xF4 then 4
  else 0

/-- The second byte of a longer character: some first bytes leave it less room, so
    that no character is written longer than need be, none is a surrogate, and none
    lies beyond the last code point. -/
def isSecond (first second : UInt8) : Bool :=
  if first = 0xE0 then 0xA0 ≤ second && second ≤ 0xBF
  else if first = 0xED then 0x80 ≤ second && second ≤ 0x9F
  else if first = 0xF0 then 0x90 ≤ second && second ≤ 0xBF
  else if first = 0xF4 then 0x80 ≤ second && second ≤ 0x8F
  else isTail second

/-- The character of a first byte with so many low bits of its own, and of the six
    bits of each byte after it. -/
def join (low : Nat) (first : UInt8) (tails : List UInt8) : Char :=
  Char.ofNat (tails.foldl (fun n b => n * 64 + b.toNat % 64) (first.toNat % Nat.pow 2 low))

/-- The first character of some bytes and how many they take, or the length of the
    fault they start with. -/
def first : UInt8 → Bytes → Except (Option Nat) (Char × Nat)
  | a,rest =>
    match width a,rest with
    | 1,_ => .ok (Char.ofNat a.toNat,1)
    | 2,[] => .error none
    | 2,b :: _ => if isTail b then .ok (join 5 a [b],2) else .error (some 1)
    | 3,[] => .error none
    | 3,[b] => if isSecond a b then .error none else .error (some 1)
    | 3,b :: c :: _ =>
      if !isSecond a b then .error (some 1)
      else if isTail c then .ok (join 4 a [b,c],3)
      else .error (some 2)
    | 4,[] => .error none
    | 4,[b] => if isSecond a b then .error none else .error (some 1)
    | 4,[b,c] =>
      if !isSecond a b then .error (some 1)
      else if isTail c then .error none
      else .error (some 2)
    | 4,b :: c :: d :: _ =>
      if !isSecond a b then .error (some 1)
      else if !isTail c then .error (some 2)
      else if isTail d then .ok (join 3 a [b,c,d],4)
      else .error (some 3)
    | _,_ => .error (some 1)

/-- The characters of some bytes after `index` good ones, of which `before` are the
    characters in reverse. -/
def chars (index : Nat) (before : List Char) : Bytes → Except Fault (List Char)
  | [] => .ok before.reverse
  | a :: rest =>
    match first a rest with
    | .error length => .error ⟨index,length⟩
    | .ok (c,size) => chars (index + size) (c :: before) (rest.drop (size - 1))
termination_by s => s.length
decreasing_by simp only [List.length_drop,List.length_cons]; omega

def decode (bytes : Bytes) : Except Fault String := (chars 0 [] bytes).map String.ofList

end Utf8
end ElevatorFleet
